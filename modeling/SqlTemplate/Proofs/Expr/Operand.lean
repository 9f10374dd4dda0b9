import SqlTemplate.Expr.Evaluator
import SqlTemplate.Proofs.Expr.Integers
import SqlTemplate.Proofs.Expr.Printing
/-!
# Integers as operands

An integer can be written into an expression wherever the grammar has a place for an operand, and the expression
evaluates as with the integer itself there. Its sign is no part of the literal but an operator of its own. The
least integer is the one that this does not reach: its digits alone are a literal that is too large.
-/
namespace SqlTemplate.Expr
open Text

/-- A place for an operand in an expression of a level: the lexemes in front of it and behind it, and the tree of
the expression for the tree that is put there. -/
inductive Place : Level → List Lexeme → List Lexeme → (Expr → Expr) → Prop
  | hole : Place .unary [] [] id
  | operand {r : Rank} {before after : List Lexeme} {fill : Expr → Expr}
      (h : Place r.operand before after fill) : Place (.binary r) before after fill
  | left {r : Rank} {before after rs : List Lexeme} {fill : Expr → Expr} {t : Token} {rhs : Expr}
      {op : BinaryOp} (hop : op.rank = r) (ht : t ∈ op.spellings) (hl : Place (.binary r) before after fill)
      (hr : Derives r.operand rs rhs) :
      Place (.binary r) before (after ++ .mark t :: rs) fun e => .binary (fill e) op rhs
  | right {r : Rank} {before after ls : List Lexeme} {fill : Expr → Expr} {t : Token} {lhs : Expr}
      {op : BinaryOp} (hop : op.rank = r) (ht : t ∈ op.spellings) (hl : Derives (.binary r) ls lhs)
      (hr : Place r.operand before after fill) :
      Place (.binary r) (ls ++ .mark t :: before) after fun e => .binary lhs op (fill e)
  | not {before after : List Lexeme} {fill : Expr → Expr} {t : Token} (ht : t ∈ notSpellings)
      (h : Place .unary before after fill) : Place .unary (.mark t :: before) after fun e => .not (fill e)
  | negate {before after : List Lexeme} {fill : Expr → Expr} (h : Place .unary before after fill) :
      Place .unary (.mark minus :: before) after fun e => .negate (fill e)
  | access {before after : List Lexeme} {fill : Expr → Expr} (h : Place .access before after fill) :
      Place .unary before after fill
  | property {before after : List Lexeme} {fill : Expr → Expr} {name : List Char}
      (h : Place .access before after fill) :
      Place .access before (after ++ [.mark dot,.name name]) fun e => .property (fill e) (String.ofList name)
  | call {before after : List Lexeme} {fill : Expr → Expr} {name : List Char}
      (h : Place .access before after fill) :
      Place .access before (after ++ [.mark dot,.name name,.mark opening,.mark closing])
        fun e => .call (fill e) (String.ofList name)
  | index {before after ks : List Lexeme} {fill : Expr → Expr} {key : Expr}
      (h : Place .access before after fill) (hkey : Derives (.binary .or) ks key) :
      Place .access before (after ++ .mark openingKey :: (ks ++ [.mark closingKey])) fun e => .index (fill e) key
  | key {before after ts : List Lexeme} {fill : Expr → Expr} {target : Expr} (h : Derives .access ts target)
      (hkey : Place (.binary .or) before after fill) :
      Place .access (ts ++ .mark openingKey :: before) (after ++ [.mark closingKey]) fun e => .index target (fill e)
  | primary {before after : List Lexeme} {fill : Expr → Expr} (h : Place .primary before after fill) :
      Place .access before after fill
  | parenthesised {before after : List Lexeme} {fill : Expr → Expr}
      (h : Place (.binary .or) before after fill) :
      Place .primary (.mark opening :: before) (after ++ [.mark closing]) fill

namespace Place
variable {level : Level} {before after ts : List Lexeme} {fill : Expr → Expr} {e e' : Expr}

private theorem derives (h : Place level before after fill) (hts : Derives .unary ts e) :
    Derives level (before ++ (ts ++ after)) (fill e) := by
  induction h with
  | hole => simpa using hts
  | operand _ ih => exact .operand ih
  | left hop ht _ hr ih => simpa using Derives.binary hop ht ih hr
  | right hop ht hl _ ih => simpa using Derives.binary hop ht hl ih
  | not ht _ ih => exact .not ht ih
  | negate _ ih => exact .negate ih
  | access _ ih => exact .access ih
  | property _ ih => simpa using Derives.property ih
  | call _ ih => simpa using Derives.call ih
  | index _ hkey ih => simpa using Derives.index ih hkey
  | key h _ ih => simpa using Derives.index h ih
  | primary _ ih => exact .primary ih
  | parenthesised _ ih => simpa using Derives.parenthesised ih

/-- The value of an expression depends on the operand in a place through the operand's value only. -/
theorem evaluate_congr (h : Place level before after fill) {b : Bindings} (he : evaluate b e = evaluate b e') :
    evaluate b (fill e) = evaluate b (fill e') := by
  induction h with
  | hole => exact he
  | operand _ ih => exact ih
  | left _ _ _ _ ih => simp only [evaluate,ih]
  | right _ _ _ _ ih => simp only [evaluate,ih]
  | not _ _ ih => simp only [evaluate,ih]
  | negate _ ih => simp only [evaluate,ih]
  | access _ ih => exact ih
  | property _ ih => simp only [evaluate,ih]
  | call _ ih => simp only [evaluate,ih]
  | index _ _ ih => simp only [evaluate,ih]
  | key _ _ ih => simp only [evaluate,ih]
  | primary _ ih => exact ih
  | parenthesised _ ih => exact ih

private theorem notFree (h : Place level before after fill) (hfill : NotFree (fill e)) (he : NotFree e') :
    NotFree (fill e') := by
  induction h with
  | hole => exact he
  | operand _ ih => exact ih hfill
  | left _ _ _ _ ih => exact ⟨ih hfill.1,hfill.2⟩
  | right _ _ _ _ ih => exact ⟨hfill.1,ih hfill.2⟩
  | not _ _ ih => exact ih hfill
  | negate _ ih => exact ih hfill
  | access _ ih => exact ih hfill
  | property _ ih => exact ih hfill
  | call _ ih => exact ih hfill
  | index _ _ ih => exact ⟨ih hfill.1,hfill.2⟩
  | key _ _ ih => exact ⟨hfill.1,ih hfill.2⟩
  | primary _ ih => exact ih hfill
  | parenthesised _ ih => exact ih hfill

end Place

def magnitude (i : Int64) : List Char := Nat.toDigits 10 i.toInt.natAbs

def writtenLexemes (i : Int64) : List Lexeme :=
  if 0 ≤ i.toInt then [.digits (magnitude i)] else [.mark minus,.digits (magnitude i)]

def writtenTree (i : Int64) : Expr :=
  let literal := .literal (.int (Int64.ofNat i.toInt.natAbs))
  if 0 ≤ i.toInt then literal else .negate literal

section written
variable {i : Int64}

private theorem text_int (i : Int64) :
    (Value.int i).text.toList = if 0 ≤ i.toInt then magnitude i else '-' :: magnitude i := by
  rw [Value.text,Int.toString_eq_repr,Int.repr_eq_if,magnitude]
  split
  · next h =>
    have habs : i.toInt.toNat = i.toInt.natAbs := by omega
    rw [habs,Nat.repr_eq_ofList_toDigits,String.toList_ofList]
  · next h =>
    have habs : (-i.toInt).toNat = i.toInt.natAbs := by omega
    rw [habs,Nat.repr_eq_ofList_toDigits]
    simp

private theorem spells_written (i : Int64) (back : List Char) :
    Spells (writtenLexemes i) ((Value.int i).text.toList ++ back) back := by
  have hdigits : Spells [.digits (magnitude i)] (magnitude i ++ back) back :=
    .of_not_isWord rfl (isDigits_toDigits _) rfl
  rw [text_int,writtenLexemes]
  split
  · exact hdigits
  · have hminus : Spells [.mark minus] ('-' :: (magnitude i ++ back)) (magnitude i ++ back) :=
      .of_not_isWord rfl (by decide) rfl
    exact hminus.append hdigits

private theorem natAbs_lt_iff : i.toInt.natAbs < Nat.pow 2 63 ↔ i ≠ Int64.minValue := by
  have hle := i.le_toInt
  have hlt := i.toInt_lt
  rw [Ne,← Int64.toInt_inj,Int64.toInt_minValue,Nat.pow_eq]
  omega

private theorem derives_written (hi : i ≠ Int64.minValue) : Derives .unary (writtenLexemes i) (writtenTree i) := by
  have hvalue : Nat.ofDigitChars 10 (magnitude i) 0 = i.toInt.natAbs := Nat.ofDigitChars_ten_toDigits
  have hfits : Nat.ofDigitChars 10 (magnitude i) 0 < Nat.pow 2 63 := by
    rw [hvalue]
    exact natAbs_lt_iff.mpr hi
  have hliteral : Derives .unary [.digits (magnitude i)] (.literal (.int (Int64.ofNat i.toInt.natAbs))) := by
    rw [← hvalue]
    exact (Derives.integer hfits).loosen (by decide)
  rw [writtenLexemes,writtenTree]
  split
  · exact hliteral
  · exact .negate hliteral

private theorem evaluate_written (b : Bindings) (i : Int64) : evaluate b (writtenTree i) = .ok (.int i) := by
  rw [writtenTree]
  split
  · next h =>
    have hvalue : Int64.ofNat i.toInt.natAbs = i := by
      rw [← Int64.ofInt_eq_ofNat,Int.natAbs_of_nonneg h,Int64.ofInt_toInt]
    rw [evaluate,hvalue]
  · next h =>
    have hvalue : -Int64.ofNat i.toInt.natAbs = i := by
      rw [← Int64.ofInt_eq_ofNat,← Int64.ofInt_neg,Int.ofNat_natAbs_of_nonpos (by omega),Int.neg_neg,
        Int64.ofInt_toInt]
    simp only [evaluate,bind,Except.bind,negative,hvalue]

private theorem notFree_written (i : Int64) : NotFree (writtenTree i) := by
  rw [writtenTree]
  split <;> trivial

/-- In its place in a text, the text of an integer is worth that integer. -/
theorem evaluate_in_place {before after : List Lexeme} {fill : Expr → Expr} {cs back : List Char}
    (hi : i ≠ Int64.minValue) (h : Place (.binary .or) before after fill)
    (hnot : NotFree (fill (.literal (.int i)))) (hcs : Spells before cs ((Value.int i).text.toList ++ back))
    (hback : Layout after back) (b : Bindings) :
    Evaluator.standard.evaluate (String.ofList cs) b = evaluate b (fill (.literal (.int i))) := by
  have hlayout := hcs _ (spells_written i back _ hback)
  have hparse : parse (String.ofList cs) = .ok (fill (writtenTree i)) :=
    parse_of_derives (h.derives (derives_written hi)) (by rwa [String.toList_ofList])
      (h.notFree hnot (notFree_written i))
  change (parse _).bind (evaluate b) = _
  rw [hparse]
  exact h.evaluate_congr (evaluate_written b i)

end written

section overflow
variable {depth : Nat} {ds cs : List Char} {ls us : List Lexeme} {fault : Fault} {expr : Parser} {r : Rank}

/-- Digits that are too large end the reading of the operand that they stand in, also behind a sign. -/
theorem unary_overflow (hlarge : ¬Nat.ofDigitChars 10 ds 0 < Nat.pow 2 63)
    (hcs : Layout (.mark minus :: .digits ds :: us) cs) (hus : Follows .unary us) :
    ∃ rest, parserAt expr .unary cs = .error (.overflow rest) := by
  obtain ⟨more,hskip,-,-,hmore,hlength⟩ := hcs.skip_cons
  have hminus : (minus,Expr.negate) ∈ signs := by simp [signs,minus]
  have htoken : token? signs cs = some (.negate,skip more) :=
    token?_of_mem signs_wellFormed signs_pairwise hminus hskip (fun h => absurd h (by decide))
      (Layout.head_ne_equals hmore rfl)
  obtain ⟨rest,hdigits,hds,-,hrest,-⟩ := hmore.skip_cons
  have hnumber : number? (ds ++ rest) = some (.error (.overflow (ds ++ rest))) := by
    rw [number?_digits hds (hus.no_digit hrest) fun _ heq => hus.no_fraction (heq ▸ hrest),integerAt,if_neg hlarge]
  have hoperand : operand expr (skip more) = .error (.overflow (ds ++ rest)) := by
    rw [operand,skip_skip,atom,symbol?_opening_eq_none hmore.skip (by simp),hdigits]
    simp only [Lexeme.text,hnumber]
  have hsigns : token? signs (skip more) = none := token?_signs_of_beginsAtom hmore.skip rfl
  obtain ⟨fuel,hfuel⟩ : ∃ fuel, cs.length = fuel+1 := ⟨cs.length-1,by omega⟩
  refine ⟨ds ++ rest,?_⟩
  change signed (operand expr) cs.length cs = _
  rw [hfuel,signed,htoken]
  simp only [signed_of_no_sign hsigns,hoperand]

private theorem parserAt_error {own asked : Level} (hown : own.tightness ≤ 5) (hle : asked.tightness ≤ own.tightness)
    (h : parserAt expr own cs = .error fault) : parserAt expr asked cs = .error fault := by
  obtain ⟨n,hn⟩ : ∃ n, own.tightness = asked.tightness+n := ⟨own.tightness-asked.tightness,by omega⟩
  induction n generalizing asked with
  | zero => exact Level.tightness_injective hn ▸ h
  | succ n ih =>
    have hlow : asked.tightness < 5 := by omega
    cases asked with
    | binary r =>
      have hbinary : Level.binary r ≠ .primary := by simp
      have hnext : r.operand.tightness = (Level.binary r).tightness+1 := Level.tightness_next hbinary
      have hoperand : parserAt expr r.operand cs = .error fault := ih (by omega) (by omega)
      rw [parserAt_binary,chain,hoperand]
    | unary => exact absurd hlow (by decide)
    | access => exact absurd hlow (by decide)
    | primary => exact absurd hlow (by decide)

private theorem Rank.tightness_operand_le (r : Rank) : r.operand.tightness ≤ Level.unary.tightness := by
  cases r <;> decide

private theorem binary_overflow {op : BinaryOp} {t : Token} {lhs : Expr} (ht : t ∈ op.spellings)
    (hl : Derives (.binary op.rank) ls lhs) (hnot : NotFree lhs)
    (hlarge : ¬Nat.ofDigitChars 10 ds 0 < Nat.pow 2 63)
    (hcs : Layout (ls ++ .mark t :: .mark minus :: .digits ds :: us) cs) (hus : Follows .unary us)
    (hdepth : cs.length ≤ depth) :
    ∃ rest, parserAt (expression depth) (.binary op.rank) cs = .error (.overflow rest) := by
  have hfollows : Follows (Level.binary op.rank).inner (.mark t :: .mark minus :: .digits ds :: us) :=
    .operator (inner_operand_height op.rank) ht
  obtain ⟨mid,⟨fuel,hfuel,hread⟩,hmid,hmidlength⟩ :=
    accepted_of_derives hl hnot depth _ cs hcs hdepth hfollows
  obtain ⟨more,hskip,-,hend,hmore,hmorelength⟩ := Layout.skip_cons hmid
  have htoken : token? op.rank.operators mid = some (op,skip more) :=
    token?_of_mem op.rank.operators_wellFormed op.rank.operators_pairwise
      (Rank.mem_operators_of_spelled ht) hskip hend (Layout.head_ne_equals hmore (by decide))
  obtain ⟨rest,hunary⟩ : ∃ rest, parserAt (expression depth) .unary (skip more) = .error (.overflow rest) :=
    unary_overflow hlarge hmore.skip hus
  have hoperand : parserAt (expression depth) op.rank.operand (skip more) = .error (.overflow rest) :=
    parserAt_error (by decide) op.rank.tightness_operand_le hunary
  obtain ⟨fuel,rfl⟩ : ∃ n, fuel = n+1 := ⟨fuel-1,by omega⟩
  refine ⟨rest,?_⟩
  rw [hread,chainFrom,htoken]
  simp only [hoperand]

private theorem evaluate_overflow {rest : List Char}
    (h : parserAt (expression cs.length) (.binary .or) cs = .error (.overflow rest)) (b : Bindings) :
    ∃ position, Evaluator.standard.evaluate (String.ofList cs) b =
      .error (.malformed position .invalidExpression) := by
  refine ⟨byteSize cs-byteSize rest,?_⟩
  change (parse (String.ofList cs)).bind (evaluate b) = _
  rw [parse,String.toList_ofList,expression_succ,h]
  rfl

end overflow

/-- An answer to an expression with an integer written in it: the value that it has with the integer itself or, for
the least integer, a syntax error. -/
structure AnswersWritten (i : Int64) (v : Value) (answer : Evaluated Value) : Prop where
  read : i ≠ Int64.minValue → answer = .ok v
  refused : i = Int64.minValue → ∃ position, answer = .error (.malformed position .invalidExpression)

private theorem place_hole : Place (.binary .or) [] [] id := .operand (.operand (.operand (.operand (.operand .hole))))

private theorem place_compared {name : List Char} (hname : ∀ v, (name,v) ∉ wordLiterals) :
    Place (.binary .or) [.name name,.mark (.symbol ['=','='])] []
      fun e => .binary (.variable (String.ofList name)) .eq e := by
  have hl : Derives (.binary .comparison) [.name name] (.variable (String.ofList name)) :=
    (Derives.identifier hname).loosen (by decide)
  have hcompared : Place (.binary .comparison) [.name name,.mark (.symbol ['=','='])] []
      fun e => .binary (.variable (String.ofList name)) .eq e :=
    .right (rfl : BinaryOp.eq.rank = _) (by decide) hl
      (.operand (r := .additive) (.operand (r := .multiplicative) .hole))
  exact .operand (.operand hcompared)

private theorem spells_compared {name front gap gap' : List Char} (hname : IsIdentifier name)
    (hblank : ∀ c ∈ front ++ gap ++ gap', isSpace c = true) (rest : List Char) :
    Spells [.name name,.mark (.symbol ['=','='])] (front ++ (name ++ (gap ++ '=' :: '=' :: (gap' ++ rest)))) rest := by
  simp only [List.forall_mem_append] at hblank
  obtain ⟨⟨hfront,hgap⟩,hgap'⟩ := hblank
  have hend : continuesName (gap ++ '=' :: '=' :: (gap' ++ rest)) = false := by
    cases gap with
    | nil => rfl
    | cons c gap =>
      cases hc : isNameChar c with
      | false => exact hc
      | true => exact absurd (hgap c (by simp)) (by simp [not_isSpace_of_isNameChar hc])
  intro us hus
  have heq := Layout.lexeme (l := .mark (.symbol ['=','='])) (by decide) (fun h => absurd h (by decide))
    (hus.gap_append hgap')
  have hnamed := Layout.lexeme (l := .name name) hname (fun _ => hend) (heq.gap_append hgap)
  exact hnamed.gap_append hfront

/-- The text of an integer is read back as that integer. It stands for it in every place for an operand, by
itself with blanks around it, and behind `==`, where it is equal to what has the same value. The least integer
is left out: its text is refused, by itself and behind `==`. -/
theorem evaluate_written_integer (b : Bindings) (i : Int64) :
    (∀ before after fill, Place (.binary .or) before after fill → NotFree (fill (.literal (.int i))) →
      i ≠ Int64.minValue → ∀ front back : List Char,
      Spells before (front ++ ((Value.int i).text.toList ++ back)) ((Value.int i).text.toList ++ back) →
      Layout after back →
      Evaluator.standard.evaluate (String.ofList (front ++ ((Value.int i).text.toList ++ back))) b =
        evaluate b (fill (.literal (.int i)))) ∧
    (∀ front back : List Char, (∀ c ∈ front ++ back, isSpace c = true) → AnswersWritten i (.int i)
      (Evaluator.standard.evaluate (String.ofList (front ++ ((Value.int i).text.toList ++ back))) b)) ∧
    ∀ (name : List Char) (j : Int64), IsIdentifier name → (∀ v, (name,v) ∉ wordLiterals) → name ≠ ['n','o','t'] →
      b.get? (String.ofList name) = some (.int j) → ∀ front gap gap' back : List Char,
      (∀ c ∈ front ++ gap ++ gap' ++ back, isSpace c = true) → AnswersWritten i (.bool (decide (j = i)))
        (Evaluator.standard.evaluate (String.ofList
          (front ++ (name ++ (gap ++ '=' :: '=' :: (gap' ++ ((Value.int i).text.toList ++ back)))))) b) := by
  have hblank {cs : List Char} (h : ∀ c ∈ cs, isSpace c = true) : Layout [] cs := .nil h
  have hleast : writtenLexemes Int64.minValue = [.mark minus,.digits (magnitude Int64.minValue)] := rfl
  have hlarge : ¬Nat.ofDigitChars 10 (magnitude Int64.minValue) 0 < Nat.pow 2 63 := by
    rw [magnitude,Nat.ofDigitChars_ten_toDigits]
    decide
  refine ⟨fun before after fill h hnot hi front back hfront hback => ?_,fun front back hgaps => ?_,?_⟩
  · exact evaluate_in_place hi h hnot hfront hback b
  · obtain ⟨hfront,hback⟩ := List.forall_mem_append.mp hgaps
    constructor
    · intro hi
      exact evaluate_in_place hi place_hole trivial (fun us hus => hus.gap_append hfront) (.nil hback) b
    · rintro rfl
      have hlayout := (spells_written Int64.minValue back [] (.nil hback)).gap_append hfront
      obtain ⟨rest,hrest⟩ := unary_overflow hlarge hlayout .nil
      exact evaluate_overflow (parserAt_error (by decide) (by decide) hrest) b
  · intro name j hname hword hnot hj front gap gap' back hgaps
    obtain ⟨hgaps,hback⟩ := List.forall_mem_append.mp hgaps
    have hspells := spells_compared hname hgaps ((Value.int i).text.toList ++ back)
    have hfree : NotFree (.variable (String.ofList name)) :=
      fun h => hnot (by simpa using congrArg String.toList h)
    have hl : Derives (.binary .comparison) [.name name] (.variable (String.ofList name)) :=
      (Derives.identifier hword).loosen (by decide)
    constructor
    · intro hi
      rw [evaluate_in_place hi (place_compared hword) ⟨hfree,trivial⟩ hspells (.nil hback)]
      simp only [evaluate,Bindings.variableValue_of_get? hj,bind,Except.bind,pure,Except.pure,equal,Value.same]
      rfl
    · rintro rfl
      have hlayout := hspells _ (spells_written Int64.minValue back [] (.nil hback))
      obtain ⟨rest,hrest⟩ :=
        binary_overflow (show _ ∈ BinaryOp.eq.spellings by decide) hl hfree hlarge hlayout .nil (Nat.le_refl _)
      exact evaluate_overflow (parserAt_error (by decide) (by decide) hrest) b

theorem evaluate_written_integer_negative :
    let b := Bindings.empty.bind "x" (.int (-12))
    let fill (e : Expr) := Expr.not (.binary e (.comparison .greater) (.variable "x"))
    Place (.binary .or) [.mark (.word ['n','o','t']),.mark opening]
      [.mark (.symbol ['>']),.name ['x'],.mark closing] fill ∧
    Evaluator.standard.evaluate "not(-12> x)" b = evaluate b (fill (.literal (.int (-12)))) ∧
    Evaluator.standard.evaluate " -12\n" b = .ok (.int (-12)) ∧
    Evaluator.standard.evaluate "x ==-12" b = .ok (.bool true) := by
  intro b fill
  obtain ⟨hplaced,halone,hcompared⟩ := evaluate_written_integer b (-12)
  have htext : (Value.int (-12)).text.toList = ['-','1','2'] := by decide +kernel
  rw [htext] at hplaced halone
  simp only [htext] at hcompared
  have hx : Derives .primary [.name ['x']] (.variable "x") := .identifier (by simp [wordLiterals])
  have hinner : Place (.binary .comparison) [] [.mark (.symbol ['>']),.name ['x']]
      fun e => .binary e (.comparison .greater) (.variable "x") :=
    .left (rfl : (BinaryOp.comparison .greater).rank = _) (by decide)
      (.operand (r := .comparison) (.operand (r := .additive) (.operand (r := .multiplicative) .hole)))
      (hx.loosen (by decide))
  have hplace : Place (.binary .or) [.mark (.word ['n','o','t']),.mark opening]
      [.mark (.symbol ['>']),.name ['x'],.mark closing] fill := by
    have henclosed := Place.parenthesised (.operand (r := .or) (.operand (r := .and) hinner))
    have hnot := Place.not (t := .word ['n','o','t']) (by decide) (.access (.primary henclosed))
    exact .operand (r := .or) (.operand (r := .and) (.operand (r := .comparison)
      (.operand (r := .additive) (.operand (r := .multiplicative) hnot))))
  have hfront : Spells [.mark (.word ['n','o','t']),.mark opening] "not(-12> x)".toList "-12> x)".toList := by
    intro us hus
    have hopening := Layout.lexeme (l := .mark opening) rfl (fun h => absurd h (by decide)) hus
    exact .lexeme (l := .mark (.word ['n','o','t'])) rfl (fun _ => rfl) hopening
  have hback : Layout [.mark (.symbol ['>']),.name ['x'],.mark closing] "> x)".toList := by
    have hend : Layout [] [] := .nil (by simp)
    have hclosing := Layout.lexeme (l := .mark closing) rfl (fun h => absurd h (by decide)) hend
    have hname := Layout.lexeme (l := .name ['x']) (by decide) (fun _ => rfl) hclosing
    have hspace : ∀ c ∈ [' '], isSpace c = true := List.all_eq_true.mp (by decide)
    have hspaced := hname.gap_append hspace
    exact .lexeme (l := .mark (.symbol ['>'])) rfl (fun h => absurd h (by decide)) hspaced
  refine ⟨hplace,?_,?_,?_⟩
  · exact hplaced _ _ _ hplace (by simp [fill,NotFree]) (by decide) "not(".toList "> x)".toList hfront hback
  · exact (halone [' '] ['\n'] (List.all_eq_true.mp (by decide))).read (by decide)
  · have hx : ∀ v, (['x'],v) ∉ wordLiterals := by simp [wordLiterals]
    have hspace : ∀ c ∈ [] ++ [' '] ++ [] ++ [], isSpace c = true := List.all_eq_true.mp (by decide)
    exact (hcompared ['x'] (-12) (by decide) hx (by decide) rfl [] [' '] [] [] hspace).read (by decide)

/-- The text of the least integer is no expression. -/
theorem least_integer_refused : (Value.int Int64.minValue).text = "-9223372036854775808" ∧
    Evaluator.standard.evaluate "-9223372036854775808" .empty = .error (.malformed 1 .invalidExpression) := by
  refine ⟨by decide +kernel,rfl⟩

end SqlTemplate.Expr
