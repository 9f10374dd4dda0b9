import SqlTemplate.Proofs.Expr.Completeness
/-!
# References as expressions

A reference is a name followed by members and positions. Read as an expression it is the tree of these steps, a
name that is spelled `not` included. A position that does not fit in 63 bits is not read at all.
-/
namespace SqlTemplate
open Text SqlTemplate.Expr

inductive Step
  | member (name : List Char)
  | position (digits : List Char)

namespace Step

def text : Step → List Char
  | .member name => '.' :: name
  | .position digits => '[' :: (digits ++ [']'])

def WellFormed : Step → Prop
  | .member name => IsIdentifier name
  | .position digits => IsDigits digits

instance (s : Step) : Decidable s.WellFormed :=
  match s with
  | .member name => inferInstanceAs (Decidable (IsIdentifier name))
  | .position digits => inferInstanceAs (Decidable (IsDigits digits))

/-- Positions are written as integer literals. -/
def Fits : Step → Prop
  | .member _ => True
  | .position digits => Nat.ofDigitChars 10 digits 0 < Nat.pow 2 63

instance (s : Step) : Decidable s.Fits :=
  match s with
  | .member _ => isTrue trivial
  | .position digits => inferInstanceAs (Decidable (Nat.ofDigitChars 10 digits 0 < Nat.pow 2 63))

def expr (s : Step) (e : Expr) : Expr :=
  match s with
  | .member name => .property e (String.ofList name)
  | .position digits => .index e (.literal (.int (Int64.ofNat (Nat.ofDigitChars 10 digits 0))))

def textOf (steps : List Step) : List Char := steps.flatMap text

end Step

structure Reference where
  root : List Char
  steps : List Step

namespace Reference

def text (r : Reference) : List Char := r.root ++ Step.textOf r.steps

def expr (r : Reference) : Expr := r.steps.foldl (fun e s => s.expr e) (.variable (String.ofList r.root))

/-- The root is a name that no value is written as. -/
structure WellFormed (r : Reference) : Prop where
  root_identifier : IsIdentifier r.root
  root_free : ∀ v, (r.root,v) ∉ wordLiterals
  steps : ∀ s ∈ r.steps, s.WellFormed

end Reference

namespace Step
variable {steps : List Step}

theorem textOf_cons (s : Step) (steps : List Step) : textOf (s :: steps) = s.text ++ textOf steps := rfl

/-- All steps are read behind an expression, or a position that does not fit stops the reading at its bracket. -/
def ReadTo (steps : List Step) (e e' : Expr) (rest : List Char) : Prop :=
  (rest = [] ∧ e' = steps.foldl (fun e s => s.expr e) e ∧ ∀ s ∈ steps, s.Fits) ∨
    ((∃ more, rest = '[' :: more) ∧ ¬∀ s ∈ steps, s.Fits)

theorem ReadTo.cons {s : Step} {e e' : Expr} {rest : List Char} (hs : s.Fits)
    (h : ReadTo steps (s.expr e) e' rest) : ReadTo (s :: steps) e e' rest := by
  rcases h with ⟨hnil,he,hfits⟩ | ⟨hmore,hno⟩
  · exact .inl ⟨hnil,he,List.forall_mem_cons.mpr ⟨hs,hfits⟩⟩
  · exact .inr ⟨hmore,fun hall => hno (List.forall_mem_cons.mp hall).2⟩

private theorem length_le_textOf (steps : List Step) : steps.length ≤ (textOf steps).length := by
  induction steps with
  | nil => exact Nat.le_refl _
  | cons s steps ih =>
    have hs : 0 < s.text.length := by cases s <;> simp [text]
    rw [textOf_cons,List.length_cons,List.length_append]
    omega

theorem head_textOf (steps : List Step) : ∀ c ∈ (textOf steps).head?, c = '.' ∨ c = '[' := by
  cases steps with
  | nil => simp [textOf]
  | cons s steps =>
    cases s with
    | member name =>
      rintro _ ⟨⟩
      exact .inl rfl
    | position digits =>
      rintro _ ⟨⟩
      exact .inr rfl

private theorem not_continuesName_textOf (steps : List Step) : continuesName (textOf steps) = false := by
  cases h : textOf steps with
  | nil => rfl
  | cons c cs =>
    rcases head_textOf steps c (by simp [h]) with rfl | rfl <;> rfl

private theorem symbol?_textOf {c : Char} (hc : c ≠ '.' ∧ c ≠ '[') (steps : List Step) :
    symbol? c (textOf steps) = none := by
  apply symbol?_of_head_ne
  intro d hd
  rcases head_textOf steps d hd with rfl | rfl
  · exact ⟨by decide,hc.1.symm⟩
  · exact ⟨by decide,hc.2.symm⟩

private theorem skip_textOf (steps : List Step) : skip (textOf steps) = textOf steps := by
  apply skip_of_head
  intro c hc
  rcases head_textOf steps c hc with rfl | rfl <;> decide

end Step

namespace Expr
variable {expr : Parser} {cs rest : List Char}

private theorem token?_of_head_ne {α : Type} {table : List (Token × α)} (hw : ∀ p ∈ table, p.1.wellFormed = true)
    (hcs : ∀ c ∈ cs.head?, isSpace c = false ∧ ∀ p ∈ table, ∀ d ∈ p.1.text.head?, d ≠ c) :
    token? table cs = none := by
  apply token?_eq_none
  intro p hp
  rw [skip_of_head fun c hc => (hcs c hc).1]
  apply Token.after?_eq_none_of_text
  obtain ⟨d,text,htext,_⟩ := Token.head_of_wellFormed (hw p hp)
  cases cs with
  | nil => simp [htext]
  | cons c cs =>
    rw [htext]
    intro hprefix
    exact (hcs c rfl).2 p hp d (by simp [htext]) (List.cons_prefix_cons.mp hprefix).1

private theorem Rank.head_ne_bracket (r : Rank) : ∀ p ∈ r.operators, ∀ d ∈ p.1.text.head?, d ≠ '[' ∧ d ≠ ']' := by
  cases r <;> simp [operators,levels,height,Token.text]

private theorem signs_head : ∀ p ∈ signs, ∀ d ∈ p.1.text.head?, d ∈ ['!','n','-'] := by
  simp [signs,Token.text]

private theorem parserAt_or_eq_unary (h : ∀ e rest, parserAt expr .unary cs = .ok (e,rest) →
    ∀ r : Rank, token? r.operators rest = none) : parserAt expr (.binary .or) cs = parserAt expr .unary cs := by
  have hstep (r : Rank) (hr : parserAt expr r.operand cs = parserAt expr .unary cs) :
      parserAt expr (.binary r) cs = parserAt expr .unary cs := by
    rw [parserAt_binary,chain,hr]
    cases hu : parserAt expr .unary cs with
    | error fault => rfl
    | ok result => exact chainFrom_stop (h _ _ hu r) _ _
  exact hstep .or (hstep .and (hstep .comparison (hstep .additive (hstep .multiplicative rfl))))

section digits
variable {ds : List Char}

private theorem head_ne_of_isDigits (hds : IsDigits ds) (rest : List Char) {d : Char} (hd : d.isDigit = false) :
    ∀ c ∈ (ds ++ rest).head?, c ≠ d := by
  rintro c hc rfl
  simp [hds.head rest c hc] at hd

private theorem token?_signs_digits (hds : IsDigits ds) (rest : List Char) : token? signs (ds ++ rest) = none := by
  apply token?_of_head_ne signs_wellFormed
  refine fun c hc => ⟨hds.not_isSpace_head rest c hc,fun p hp d hd => ?_⟩
  have hmem := signs_head p hp d hd
  simp only [List.mem_cons,List.not_mem_nil,or_false] at hmem
  rcases hmem with rfl | rfl | rfl <;> exact (head_ne_of_isDigits hds rest (by decide) c hc).symm

private theorem atom_digits (hds : IsDigits ds) (rest : List Char) :
    atom expr (ds ++ ']' :: rest) = integerAt (ds ++ ']' :: rest) ds (']' :: rest) := by
  have hopening : symbol? '(' (ds ++ ']' :: rest) = none :=
    symbol?_of_head_ne fun c hc => ⟨hds.not_isSpace_head _ c hc,head_ne_of_isDigits hds _ (by decide) c hc⟩
  have hnumber : number? (ds ++ ']' :: rest) = some (integerAt (ds ++ ']' :: rest) ds (']' :: rest)) :=
    number?_digits hds (by simp) (by simp)
  rw [atom,hopening]
  simp only [hnumber]

private theorem operand_digits (hds : IsDigits ds) (rest : List Char) :
    operand expr (ds ++ ']' :: rest) = integerAt (ds ++ ']' :: rest) ds (']' :: rest) := by
  have hbracket {c : Char} (hc : ']' ≠ c) : symbol? c (']' :: rest) = none := by
    apply symbol?_of_head_ne
    rintro _ ⟨⟩
    exact ⟨by decide,hc⟩
  rw [operand,hds.skip_append,atom_digits hds,integerAt]
  by_cases hfits : Nat.ofDigitChars 10 ds 0 < Nat.pow 2 63
  · simp only [if_pos hfits,skip_cons (by decide : isSpace ']' = false),
      membersFrom_stop (hbracket (by decide)) (hbracket (by decide))]
  · simp only [if_neg hfits]

private theorem expression_digits (depth : Nat) (hds : IsDigits ds) (rest : List Char) :
    expression (depth+1) (ds ++ ']' :: rest) = integerAt (ds ++ ']' :: rest) ds (']' :: rest) := by
  have hunary : parserAt (expression depth) .unary (ds ++ ']' :: rest) =
      integerAt (ds ++ ']' :: rest) ds (']' :: rest) := by
    rw [← operand_digits hds]
    exact signed_of_no_sign (token?_signs_digits hds _) _
  rw [expression_succ,parserAt_or_eq_unary,hunary]
  rw [hunary,integerAt]
  intro e rest' h r
  split at h
  · cases h
    apply token?_of_head_ne r.operators_wellFormed
    rintro _ ⟨⟩
    exact ⟨by decide,fun p hp d hd => (r.head_ne_bracket p hp d hd).2⟩
  · cases h

private theorem key?_digits (depth : Nat) (hds : IsDigits ds) (rest : List Char) :
    key? (expression (depth+1)) ('[' :: (ds ++ ']' :: rest)) = if Nat.ofDigitChars 10 ds 0 < Nat.pow 2 63
      then some (.literal (.int (Int64.ofNat (Nat.ofDigitChars 10 ds 0))),skip rest) else none := by
  rw [key?,symbol?_cons (by decide),hds.skip_append]
  simp only [expression_digits depth hds,integerAt]
  by_cases hfits : Nat.ofDigitChars 10 ds 0 < Nat.pow 2 63
  · simp only [if_pos hfits,symbol?_cons (by decide : isSpace ']' = false),Option.map_some]
  · simp only [if_neg hfits]

end digits

private theorem member?_append {name more : List Char} (hname : IsIdentifier name) (hend : continuesName more = false) :
    member? ('.' :: (name ++ more)) = some (String.ofList name,more) := by
  rw [member?,symbol?_cons (by decide),hname.skip_append,Option.bind_some,name?_append hname hend]

private theorem member?_bracket (cs : List Char) : member? ('[' :: cs) = none := by
  apply member?_eq_none
  apply symbol?_of_head_ne
  rintro _ ⟨⟩
  decide

/-- The steps behind an expression are read as far as the positions fit. -/
theorem membersFrom_textOf (depth : Nat) {steps : List Step} (hsteps : ∀ s ∈ steps, s.WellFormed) {fuel : Nat}
    (hfuel : steps.length ≤ fuel) (e : Expr) : ∃ e' rest,
    membersFrom (expression (depth+1)) fuel e (Step.textOf steps) = (e',rest) ∧
    Step.ReadTo steps e e' rest := by
  induction steps generalizing e fuel with
  | nil =>
    exact ⟨e,[],membersFrom_stop rfl rfl fuel e,.inl ⟨rfl,rfl,by simp⟩⟩
  | cons s steps ih =>
    obtain ⟨fuel,rfl⟩ : ∃ n, fuel = n+1 := ⟨fuel-1,by simp only [List.length_cons] at hfuel; omega⟩
    obtain ⟨hs,htail⟩ := List.forall_mem_cons.mp hsteps
    have hle : steps.length ≤ fuel := by simpa using hfuel
    rw [Step.textOf_cons]
    cases s with
    | member name =>
      have hmember := member?_append hs (Step.not_continuesName_textOf steps)
      obtain ⟨e',rest,hread,hrest⟩ := ih htail hle (.property e (String.ofList name))
      refine ⟨e',rest,?_,?_⟩
      · change membersFrom _ _ e ('.' :: (name ++ Step.textOf steps)) = _
        rw [membersFrom,hmember]
        simp only [emptyCall?_eq_none (Step.symbol?_textOf (by decide) steps),hread]
      · exact Step.ReadTo.cons (s := .member name) trivial hrest
    | position ds =>
      have htext : (Step.position ds).text ++ Step.textOf steps = '[' :: (ds ++ ']' :: Step.textOf steps) := by
        simp [Step.text]
      have hkey := key?_digits depth hs (Step.textOf steps)
      rw [htext,membersFrom,member?_bracket]
      by_cases hfits : Nat.ofDigitChars 10 ds 0 < Nat.pow 2 63
      · obtain ⟨e',rest,hread,hrest⟩ := ih htail hle
          (.index e (.literal (.int (Int64.ofNat (Nat.ofDigitChars 10 ds 0)))))
        rw [if_pos hfits,Step.skip_textOf] at hkey
        refine ⟨e',rest,?_,?_⟩
        · simp only [hkey,hread]
        · exact Step.ReadTo.cons (s := .position ds) hfits hrest
      · rw [if_neg hfits] at hkey
        refine ⟨e,'[' :: (ds ++ ']' :: Step.textOf steps),?_,.inr ⟨⟨_,rfl⟩,?_⟩⟩
        · simp only [hkey]
        · exact fun hall => hfits (List.forall_mem_cons.mp hall).1

private theorem atom_textOf (steps : List Step) :
    atom expr (Step.textOf steps) = .error (.mismatch (Step.textOf steps)) := by
  have hhead := Step.head_textOf steps
  have hnumber : number? (Step.textOf steps) = none := by
    apply number?_eq_none
    intro c hc
    rcases hhead c hc with rfl | rfl <;> decide
  have hrest : string? (Step.textOf steps) = none ∧ name? (Step.textOf steps) = none := by
    cases h : Step.textOf steps with
    | nil => exact ⟨rfl,rfl⟩
    | cons c cs => rcases hhead c (by simp [h]) with rfl | rfl <;> exact ⟨rfl,rfl⟩
  rw [atom,Step.symbol?_textOf (by decide)]
  simp only [hnumber,hrest.1,hrest.2]

private theorem signed_textOf (fuel : Nat) (steps : List Step) : signed (operand expr) fuel (Step.textOf steps) =
    .error (.mismatch (Step.textOf steps)) := by
  have hsigns : token? signs (Step.textOf steps) = none := by
    apply token?_of_head_ne signs_wellFormed
    intro c hc
    have hmem := signs_head
    rcases Step.head_textOf steps c hc with rfl | rfl
    · exact ⟨by decide,fun p hp d hd heq => absurd (heq ▸ hmem p hp d hd) (by decide)⟩
    · exact ⟨by decide,fun p hp d hd heq => absurd (heq ▸ hmem p hp d hd) (by decide)⟩
  rw [signed_of_no_sign hsigns,operand,Step.skip_textOf,atom_textOf]

private theorem signed_name {name : List Char} (hname : IsIdentifier name) (steps : List Step) (fuel : Nat) :
    signed (operand expr) fuel (name ++ Step.textOf steps) = operand expr (name ++ Step.textOf steps) := by
  cases fuel with
  | zero => rfl
  | succ fuel =>
    rw [signed]
    split
    · rfl
    · next sign rest hsign =>
      obtain ⟨t,more,hm,hmore,rfl⟩ := exists_of_token? hsign
      rw [hname.skip_append] at hmore
      obtain ⟨heq,hend⟩ := Token.text_of_after? hmore
      -- the sign can only be the word, and then it is the whole name
      have hspan := span_name hname.isNameChar (Step.not_continuesName_textOf steps)
      have hne {d : Char} (hd : isNameStart d = false) : name ++ Step.textOf steps ≠ d :: more := by
        obtain ⟨c,name,rfl,hc⟩ := hname.head
        intro hcons
        rw [(List.cons.inj hcons).1,hd] at hc
        exact absurd hc (by decide)
      have hword : more = Step.textOf steps := by
        simp only [signs,List.mem_cons,List.not_mem_nil,or_false,Prod.mk.injEq] at hm
        rcases hm with ⟨rfl,_⟩ | ⟨rfl,_⟩ | ⟨rfl,_⟩
        · exact absurd heq (hne (by decide))
        · rw [heq] at hspan
          exact (span_name (List.all_eq_true.mp rfl) (hend rfl)).2.symm.trans hspan.2
        · exact absurd heq (hne (by decide))
      rw [hword,Step.skip_textOf,signed_textOf]

end Expr

/-- A reference is read as its tree when its positions fit, and not at all otherwise. -/
theorem Reference.parse_text_iff {r : Reference} (hr : r.WellFormed) (e : Expr) :
    Expr.parse (String.ofList r.text) = .ok e ↔ e = r.expr ∧ ∀ s ∈ r.steps, s.Fits := by
  obtain ⟨depth,hdepth⟩ : ∃ n, r.text.length = n+1 := by
    obtain ⟨c,name,hroot,_⟩ := hr.root_identifier.head
    exact ⟨(name ++ Step.textOf r.steps).length,by rw [Reference.text,hroot]; rfl⟩
  obtain ⟨e',rest,hread,hrest⟩ := membersFrom_textOf depth hr.steps (Step.length_le_textOf r.steps)
    (.variable (String.ofList r.root))
  have hoperand : operand (expression (depth+1)) r.text = .ok (e',rest) := by
    rw [operand,Reference.text,hr.root_identifier.skip_append,
      atom_name hr.root_identifier (Step.not_continuesName_textOf r.steps),ofName_of_not_mem hr.root_free]
    simp only [Step.skip_textOf,hread]
  have hunary : parserAt (expression (depth+1)) .unary r.text = .ok (e',rest) := by
    rw [← hoperand]
    exact signed_name hr.root_identifier r.steps _
  have hor : parserAt (expression (depth+1)) (.binary .or) r.text = .ok (e',rest) := by
    rw [parserAt_or_eq_unary,hunary]
    rw [hunary]
    rintro _ _ ⟨⟩ q
    apply token?_of_head_ne q.operators_wellFormed
    rcases hrest with ⟨rfl,_⟩ | ⟨⟨more,rfl⟩,_⟩
    · simp
    · rintro _ ⟨⟩
      exact ⟨by decide,fun p hp d hd => (q.head_ne_bracket p hp d hd).1⟩
  simp only [Expr.parse,String.toList_ofList,hdepth,expression_succ (depth+1),hor]
  rcases hrest with ⟨rfl,rfl,hfits⟩ | ⟨⟨more,rfl⟩,hno⟩
  · have hnil : skip [] = [] := rfl
    rw [if_pos hnil,Except.ok.injEq]
    exact ⟨fun h => ⟨h.symm,hfits⟩,fun h => h.1.symm⟩
  · rw [skip_cons (by decide),if_neg (by simp)]
    constructor
    · intro h
      cases h
    · rintro ⟨_,hfits⟩
      exact absurd hfits hno

end SqlTemplate
