import SqlTemplate.Proofs.Expr.Lexing
/-!
# What is read is derived

Whenever a reader finds an expression at the front of a text, the grammar derives it from lexemes that the text
spells up to where the reader stopped.
-/
namespace SqlTemplate.Expr
open Text

namespace Rank

def height : Rank → Nat
  | .or => 0
  | .and => 1
  | .comparison => 2
  | .additive => 3
  | .multiplicative => 4

def operators (r : Rank) : List (Token × BinaryOp) := levels.getD r.height []

theorem operators_wellFormed (r : Rank) : ∀ p ∈ r.operators, p.1.wellFormed = true := by
  cases r <;> decide

private theorem spelled_of_mem_operators (r : Rank) :
    ∀ p ∈ r.operators, p.2.rank = r ∧ p.1 ∈ p.2.spellings := by
  cases r <;> decide

end Rank

theorem signs_wellFormed : ∀ p ∈ signs, p.1.wellFormed = true := by
  simp only [signs,List.forall_mem_cons]
  decide

/-- The reader of a level, over a reader of the expressions in parentheses and brackets. -/
def parserAt (expr : Parser) : Level → Parser
  | .binary r => (levels.drop r.height).foldr (fun operators operand => chain operand operators)
      fun cs => signed (operand expr) cs.length cs
  | .unary => fun cs => signed (operand expr) cs.length cs
  | .access => operand expr
  | .primary => fun cs => atom expr (skip cs)

theorem parserAt_binary (expr : Parser) (r : Rank) :
    parserAt expr (.binary r) = chain (parserAt expr r.operand) r.operators := by
  cases r <;> rfl

theorem expression_succ (depth : Nat) : expression (depth+1) = parserAt (expression depth) (.binary .or) := rfl

/-- A text spells lexemes up to a rest, whatever the rest spells. -/
def Spells (ts : List Lexeme) (cs rest : List Char) : Prop := ∀ us, Layout us rest → Layout (ts ++ us) cs

namespace Spells
variable {ts us : List Lexeme} {cs mid rest : List Char}

theorem append (h : Spells ts cs mid) (h' : Spells us mid rest) : Spells (ts ++ us) cs rest := by
  intro vs hvs
  rw [List.append_assoc]
  exact h _ (h' vs hvs)

theorem of_skip (h : Spells ts (skip cs) rest) : Spells ts cs rest := fun us hus => (h us hus).of_skip

theorem skip (h : Spells ts cs rest) : Spells ts cs (skip rest) := fun us hus => h us hus.of_skip

theorem lexeme {l : Lexeme} (hcs : cs = l.text ++ rest) (hl : l.WellFormed)
    (hend : l.isWord = true → continuesName rest = false) : Spells [l] cs rest := by
  intro us hus
  rw [hcs]
  exact .lexeme hl hend hus

theorem of_not_isWord {l : Lexeme} (hcs : cs = l.text ++ rest) (hl : l.WellFormed) (hword : l.isWord = false) :
    Spells [l] cs rest := lexeme hcs hl fun h => absurd h (by simp [hword])

end Spells

private theorem spells_of_symbol? {c : Char} {cs rest : List Char} (hc : (Token.symbol [c]).wellFormed = true)
    (h : symbol? c cs = some rest) : Spells [.mark (.symbol [c])] cs rest := by
  obtain ⟨more,hskip,rfl⟩ := skip_of_symbol? h
  have hspells : Spells [.mark (.symbol [c])] (skip cs) more := Spells.of_not_isWord hskip hc rfl
  exact hspells.skip.of_skip

private theorem spells_of_token? {α : Type} {table : List (Token × α)} (hw : ∀ p ∈ table, p.1.wellFormed = true)
    {a : α} {cs rest : List Char} (h : token? table cs = some (a,rest)) :
    ∃ t, (t,a) ∈ table ∧ Spells [.mark t] cs rest := by
  obtain ⟨t,more,hm,hmore,rfl⟩ := exists_of_token? h
  obtain ⟨hskip,hend⟩ := Token.text_of_after? hmore
  have hspells : Spells [.mark t] (skip cs) more := Spells.lexeme (l := .mark t) hskip (hw (t,a) hm) hend
  exact ⟨t,hm,hspells.skip.of_skip⟩

private theorem spells_of_name? {n : String} {cs rest : List Char} (h : name? cs = some (n,rest)) :
    ∃ name, n = String.ofList name ∧ Spells [.name name] cs rest := by
  cases cs with
  | nil => simp [name?] at h
  | cons c cs =>
    by_cases hc : isNameStart c = true
    · obtain ⟨rfl,rfl⟩ : String.ofList ((c :: cs).takeWhile isNameChar) = n ∧
          (c :: cs).dropWhile isNameChar = rest := by simpa [name?,hc] using h
      refine ⟨_,rfl,Spells.lexeme List.takeWhile_append_dropWhile.symm ?_ fun _ => ?_⟩
      · rw [List.takeWhile_cons_of_pos (isNameChar_of_isNameStart hc)]
        exact ⟨hc,fun d hd => List.mem_takeWhile_imp hd⟩
      · cases hd : (c :: cs).dropWhile isNameChar with
        | nil => rfl
        | cons d ds =>
          have hstop := List.head?_dropWhile_not isNameChar (c :: cs)
          rw [hd] at hstop
          simpa [continuesName] using hstop
    · simp [name?,hc] at h

/-- The grammar derives the expression on a level, from what stands between two places of a text. -/
def Explains (level : Level) (cs : List Char) (e : Expr) (rest : List Char) : Prop :=
  ∃ ts, Derives level ts e ∧ Spells ts cs rest

def Sound (level : Level) (p : Parser) : Prop := ∀ cs e rest, p cs = .ok (e,rest) → Explains level cs e rest

section atoms
variable {cs rest : List Char} {e : Expr}

private theorem isDigits_takeWhile (h : cs.takeWhile Char.isDigit ≠ []) : IsDigits (cs.takeWhile Char.isDigit) :=
  ⟨h,fun _ hc => List.mem_takeWhile_imp hc⟩

def integerAt (cs ds rest : List Char) : Except Fault (Expr × List Char) :=
  if Nat.ofDigitChars 10 ds 0 < Nat.pow 2 63 then .ok (.literal (.int (Int64.ofNat (Nat.ofDigitChars 10 ds 0))),rest)
  else .error (.overflow cs)

private theorem explains_of_number? (h : number? cs = some (.ok (e,rest))) : Explains .primary cs e rest := by
  have hsplit : cs = cs.takeWhile Char.isDigit ++ cs.dropWhile Char.isDigit :=
    List.takeWhile_append_dropWhile.symm
  by_cases hwhole : cs.takeWhile Char.isDigit = []
  · simp [number?,hwhole] at h
  have hinteger (hi : integerAt cs (cs.takeWhile Char.isDigit) (cs.dropWhile Char.isDigit) = .ok (e,rest)) :
      Explains .primary cs e rest := by
    rw [integerAt] at hi
    split at hi
    · next hfits =>
      cases hi
      exact ⟨_,.integer hfits,Spells.of_not_isWord hsplit (isDigits_takeWhile hwhole) rfl⟩
    · cases hi
  simp only [number?,hwhole,if_false,Option.some.injEq] at h
  split at h
  · next more hmore =>
    split at h
    · exact hinteger h
    · next hfraction =>
      cases h
      refine ⟨_,.decimal,Spells.of_not_isWord ?_ ⟨isDigits_takeWhile hwhole,isDigits_takeWhile hfraction⟩ rfl⟩
      rw [Lexeme.text,List.append_assoc,List.cons_append,List.takeWhile_append_dropWhile,← hmore]
      exact hsplit
  · exact hinteger h

private theorem explains_of_string? {s : String} (h : string? cs = some (s,rest)) :
    Explains .primary cs (.literal (.string s)) rest := by
  cases cs with
  | nil => simp [string?] at h
  | cons q cs =>
    by_cases hq : q = '\'' ∨ q = '"'
    · rw [string?,if_pos hq] at h
      split at h
      · simp at h
      · next d more hd =>
        obtain ⟨rfl,rfl⟩ : String.ofList (cs.takeWhile (· ≠ q)) = s ∧ more = rest := by simpa using h
        have hstop := List.head?_dropWhile_not (· ≠ q) cs
        rw [hd] at hstop
        obtain rfl : d = q := by simpa using hstop
        have hquote : d ∉ cs.takeWhile (· ≠ d) := fun hm => by simpa using List.mem_takeWhile_imp hm
        refine ⟨_,.string,Spells.of_not_isWord (l := .quoted d (cs.takeWhile (· ≠ d))) ?_ ⟨hq,hquote⟩ rfl⟩
        rw [Lexeme.text,List.cons_append,List.append_assoc,List.singleton_append,← hd,
          List.takeWhile_append_dropWhile]
    · simp [string?,hq] at h

theorem ofName_of_mem {name : List Char} {v : Value} (h : (name,v) ∈ wordLiterals) :
    ofName (String.ofList name) = .literal v := by
  simp only [wordLiterals,List.mem_cons,List.not_mem_nil,or_false,Prod.mk.injEq] at h
  rcases h with ⟨rfl,rfl⟩ | ⟨rfl,rfl⟩ | ⟨rfl,rfl⟩ <;> rfl

theorem ofName_of_not_mem {name : List Char} (h : ∀ v, (name,v) ∉ wordLiterals) :
    ofName (String.ofList name) = .variable (String.ofList name) := by
  have hne (word : String) (v : Value) (hw : (word.toList,v) ∈ wordLiterals) : String.ofList name ≠ word := by
    rintro rfl
    rw [String.toList_ofList] at hw
    exact h v hw
  rw [ofName,if_neg (hne "null" .null (by simp [wordLiterals])),
    if_neg (hne "true" (.bool true) (by simp [wordLiterals])),
    if_neg (hne "false" (.bool false) (by simp [wordLiterals]))]

private theorem derives_ofName (name : List Char) : Derives .primary [.name name] (ofName (String.ofList name)) := by
  by_cases h : ∃ v, (name,v) ∈ wordLiterals
  · obtain ⟨v,hv⟩ := h
    rw [ofName_of_mem hv]
    exact .word hv
  · have hnot : ∀ v, (name,v) ∉ wordLiterals := fun v hv => h ⟨v,hv⟩
    rw [ofName_of_not_mem hnot]
    exact .identifier hnot

private theorem atom_sound {expr : Parser} (hexpr : Sound (.binary .or) expr) : Sound .primary (atom expr) := by
  intro cs e rest h
  rw [atom] at h
  split at h
  · next inner hopen =>
    split at h
    · cases h
    · cases h
    · next e' rest' hinner =>
      split at h
      · next rest'' hclose =>
        cases h
        obtain ⟨ts,hts,hspells⟩ := hexpr _ _ _ hinner
        have h₁ := spells_of_symbol? (by decide) hopen
        have h₂ := spells_of_symbol? (by decide) hclose
        exact ⟨_,.parenthesised hts,h₁.append (hspells.append h₂)⟩
      · cases h
  · split at h
    · next result hnumber =>
      subst h
      exact explains_of_number? hnumber
    · split at h
      · next s rest' hstring =>
        cases h
        exact explains_of_string? hstring
      · split at h
        · next n rest' hname =>
          cases h
          obtain ⟨name,rfl,hspells⟩ := spells_of_name? hname
          exact ⟨_,derives_ofName name,hspells⟩
        · cases h

end atoms

section readers
variable {expr : Parser}

private theorem spells_of_member? {cs rest : List Char} {n : String} (h : member? cs = some (n,rest)) :
    ∃ name, n = String.ofList name ∧ Spells [.mark dot,.name name] cs rest := by
  obtain ⟨after,hdot,hname⟩ := Option.bind_eq_some_iff.mp h
  obtain ⟨name,rfl,hn⟩ := spells_of_name? hname
  have hd : Spells [.mark dot] cs after := spells_of_symbol? (by decide) hdot
  exact ⟨name,rfl,hd.append hn⟩

private theorem spells_of_emptyCall? {cs rest : List Char} (h : emptyCall? cs = some rest) :
    Spells [.mark opening,.mark closing] cs rest := by
  obtain ⟨inner,hopen,hclose⟩ := Option.bind_eq_some_iff.mp h
  have ho : Spells [.mark opening] cs inner := spells_of_symbol? (by decide) hopen
  have hc : Spells [.mark closing] inner rest := spells_of_symbol? (by decide) hclose
  exact ho.append hc

private theorem spells_of_key? (hexpr : Sound (.binary .or) expr) {cs rest : List Char} {key : Expr}
    (h : key? expr cs = some (key,rest)) :
    ∃ ks, Derives (.binary .or) ks key ∧ Spells (.mark openingKey :: (ks ++ [.mark closingKey])) cs rest := by
  rw [key?] at h
  split at h
  · cases h
  · next inner hopen =>
    split at h
    · cases h
    · next k after hk =>
      obtain ⟨last,hclose,heq⟩ := Option.map_eq_some_iff.mp h
      cases heq
      obtain ⟨ks,hks,hspells⟩ := hexpr _ _ _ hk
      have ho : Spells [.mark openingKey] cs inner := spells_of_symbol? (by decide) hopen
      have hc : Spells [.mark closingKey] after rest := spells_of_symbol? (by decide) hclose
      exact ⟨ks,hks,ho.append (hspells.append hc)⟩

private theorem membersFrom_sound (hexpr : Sound (.binary .or) expr) {cs mid rest : List Char} {fuel : Nat}
    {e e' : Expr}
    (he : Explains .access cs e mid) (h : membersFrom expr fuel e mid = (e',rest)) :
    Explains .access cs e' rest := by
  induction fuel generalizing e mid with
  | zero =>
    cases h
    exact he
  | succ fuel ih =>
    obtain ⟨ts,hts,hspells⟩ := he
    rw [membersFrom] at h
    split at h
    · next n mid' hmember =>
      obtain ⟨name,rfl,hm⟩ := spells_of_member? hmember
      split at h
      · next mid'' hcall =>
        exact ih ⟨_,.call hts,hspells.append (hm.append (spells_of_emptyCall? hcall))⟩ h
      · exact ih ⟨_,.property hts,hspells.append hm⟩ h
    · split at h
      · next key mid' hkey =>
        obtain ⟨ks,hks,hk⟩ := spells_of_key? hexpr hkey
        exact ih ⟨_,.index hts hks,hspells.append hk⟩ h
      · cases h
        exact ⟨ts,hts,hspells⟩

private theorem operand_sound (hexpr : Sound (.binary .or) expr) : Sound .access (operand expr) := by
  intro cs e rest h
  rw [operand] at h
  split at h
  · cases h
  · next e' mid hatom =>
    obtain ⟨ts,hts,hspells⟩ := atom_sound hexpr _ _ _ hatom
    have hmembers : membersFrom expr mid.length e' (skip mid) = (e,rest) := by simpa using h
    exact membersFrom_sound hexpr ⟨ts,.primary hts,hspells.of_skip.skip⟩ hmembers

private theorem signed_sound (hexpr : Sound (.binary .or) expr) (fuel : Nat) :
    Sound .unary (signed (operand expr) fuel) := by
  have hoperand : Sound .unary (operand expr) := by
    intro cs e rest h
    obtain ⟨ts,hts,hspells⟩ := operand_sound hexpr cs e rest h
    exact ⟨ts,.access hts,hspells⟩
  induction fuel with
  | zero => exact hoperand
  | succ fuel ih =>
    intro cs e rest h
    rw [signed] at h
    split at h
    · exact hoperand cs e rest h
    · next sign mid hsign =>
      split at h
      · next e' rest' hrest =>
        cases h
        obtain ⟨ts,hts,hspells⟩ := ih mid e' rest hrest
        obtain ⟨t,hm,ht⟩ := spells_of_token? signs_wellFormed hsign
        simp only [signs,List.mem_cons,List.not_mem_nil,or_false,Prod.mk.injEq] at hm
        rcases hm with ⟨rfl,rfl⟩ | ⟨rfl,rfl⟩ | ⟨rfl,rfl⟩
        · exact ⟨_,.not (by decide) hts,ht.append hspells⟩
        · exact ⟨_,.not (by decide) hts,ht.append hspells⟩
        · exact ⟨_,.negate hts,ht.append hspells⟩
      · cases h
      · exact hoperand cs e rest h

private theorem chainFrom_sound {r : Rank} {p : Parser} (hp : Sound r.operand p) {cs mid rest : List Char} {fuel : Nat}
    {lhs e : Expr} (hl : Explains (.binary r) cs lhs mid)
    (h : chainFrom p r.operators fuel lhs mid = .ok (e,rest)) : Explains (.binary r) cs e rest := by
  induction fuel generalizing lhs mid with
  | zero =>
    cases h
    exact hl
  | succ fuel ih =>
    rw [chainFrom] at h
    split at h
    · cases h
      exact hl
    · next op after hop =>
      split at h
      · cases h
      · next rhs mid' hrhs =>
        obtain ⟨ls,hls,hlspells⟩ := hl
        obtain ⟨rs,hrs,hrspells⟩ := hp _ _ _ hrhs
        obtain ⟨t,hm,ht⟩ := spells_of_token? r.operators_wellFormed hop
        obtain ⟨hrank,hspelled⟩ := r.spelled_of_mem_operators (t,op) hm
        exact ih ⟨_,.binary hrank hspelled hls hrs,hlspells.append (ht.append hrspells)⟩ h

private theorem chain_sound {r : Rank} {p : Parser} (hp : Sound r.operand p) :
    Sound (.binary r) (chain p r.operators) := by
  intro cs e rest h
  rw [chain] at h
  split at h
  · cases h
  · next lhs mid hlhs =>
    obtain ⟨ls,hls,hspells⟩ := hp _ _ _ hlhs
    exact chainFrom_sound hp ⟨ls,.operand hls,hspells⟩ h

private theorem parserAt_sound (hexpr : Sound (.binary .or) expr) :
    Sound (.binary .or) (parserAt expr (.binary .or)) := by
  have hunary : Sound .unary (parserAt expr .unary) := fun cs => signed_sound hexpr cs.length cs
  have hbinary (r : Rank) (hr : Sound r.operand (parserAt expr r.operand)) :
      Sound (.binary r) (parserAt expr (.binary r)) := by
    rw [parserAt_binary]
    exact chain_sound hr
  exact hbinary .or (hbinary .and (hbinary .comparison (hbinary .additive (hbinary .multiplicative hunary))))

private theorem expression_sound (depth : Nat) : Sound (.binary .or) (expression depth) := by
  induction depth with
  | zero => exact fun cs e rest h => nomatch h
  | succ depth ih =>
    rw [expression_succ]
    exact parserAt_sound ih

/-- What a text is read as, the grammar derives from lexemes that the whole text spells. -/
theorem derives_of_parse {text : String} {e : Expr} (h : parse text = .ok e) :
    ∃ ts, Derives (.binary .or) ts e ∧ Layout ts text.toList := by
  simp only [parse] at h
  split at h
  · next e' rest hread =>
    split at h
    · next hrest =>
      cases h
      obtain ⟨ts,hts,hspells⟩ := expression_sound _ _ _ _ hread
      have hlayout := hspells [] (.of_skip_nil hrest)
      rw [List.append_nil] at hlayout
      exact ⟨ts,hts,hlayout⟩
    · cases h
  · cases h
  · cases h

end readers

end SqlTemplate.Expr
