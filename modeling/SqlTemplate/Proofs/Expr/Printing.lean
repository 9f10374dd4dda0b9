import SqlTemplate.Proofs.Expr.Completeness
/-!
# Writing expressions

A tree is written as lexemes with parentheses only around what stands on a looser level than its place asks for.
Every tree of the grammar can be written, and what is written derives the tree again.
-/
namespace SqlTemplate.Expr
open Text

/-- How the levels are ordered: an expression may stand without parentheses where a level as tight as its own,
or a looser one, is asked for. -/
def Level.tightness : Level → Nat
  | .binary r => r.height
  | .unary => 5
  | .access => 6
  | .primary => 7

def Level.next : Level → Level
  | .binary r => r.operand
  | .unary => .access
  | .access | .primary => .primary

/-- The level that a tree stands on without parentheses. -/
def level : Expr → Level
  | .binary _ op _ => .binary op.rank
  | .not _ | .negate _ => .unary
  | .property _ _ | .call _ _ | .index _ _ => .access
  | .literal _ | .variable _ => .primary

/-- A choice of spellings: a token for every operator that has more than one, and digits for every float. -/
structure Style where
  operator : BinaryOp → Token
  negation : Token
  decimal : Float → List Char × List Char
  operator_mem : ∀ op, operator op ∈ op.spellings
  negation_mem : negation ∈ notSpellings

/-- The lexemes of an expression where a level is asked for, from those that it has on its own level. -/
def enclose (own asked : Level) (ts : List Lexeme) : List Lexeme :=
  if asked.tightness ≤ own.tightness then ts else .mark opening :: (ts ++ [.mark closing])

namespace Style
variable (s : Style)

def literal : Value → List Lexeme
  | .null => [.name "null".toList]
  | .bool true => [.name "true".toList]
  | .bool false => [.name "false".toList]
  | .int i => [.digits (Nat.toDigits 10 i.toInt.toNat)]
  | .float x => [.decimal (s.decimal x).1 (s.decimal x).2]
  | .string t => [.quoted (if '\'' ∈ t.toList then '"' else '\'') t.toList]
  | .list _ | .map _ | .record _ _ => []

def lexemes : Expr → List Lexeme
  | .literal v => s.literal v
  | .variable name => [.name name.toList]
  | .property e name => enclose e.level .access (lexemes e) ++ [.mark dot,.name name.toList]
  | .call e name =>
    enclose e.level .access (lexemes e) ++ [.mark dot,.name name.toList,.mark opening,.mark closing]
  | .index e key => enclose e.level .access (lexemes e) ++ .mark openingKey :: (lexemes key ++ [.mark closingKey])
  | .not e => .mark s.negation :: enclose e.level .unary (lexemes e)
  | .negate e => .mark minus :: enclose e.level .unary (lexemes e)
  | .binary lhs op rhs => enclose lhs.level (.binary op.rank) (lexemes lhs) ++
      .mark (s.operator op) :: enclose rhs.level op.rank.operand (lexemes rhs)

/-- The values that have a literal. A number has no sign, and a string holds one kind of quotes at most. -/
def Literal : Value → Prop
  | .null | .bool _ => True
  | .int i => 0 ≤ i.toInt
  | .float x => IsDigits (s.decimal x).1 ∧ IsDigits (s.decimal x).2 ∧
      decimalValue (s.decimal x).1 (s.decimal x).2 = x
  | .string t => '\'' ∉ t.toList ∨ '"' ∉ t.toList
  | .list _ | .map _ | .record _ _ => False

def Writable : Expr → Prop
  | .literal v => s.Literal v
  | .variable name => IsIdentifier name.toList ∧ (∀ v, (name.toList,v) ∉ wordLiterals) ∧ name ≠ "not"
  | .property e name | .call e name => Writable e ∧ IsIdentifier name.toList
  | .index e key => Writable e ∧ Writable key
  | .not e | .negate e => Writable e
  | .binary lhs _ rhs => Writable lhs ∧ Writable rhs

end Style

def spaced (ls : List Lexeme) : List Char := ls.flatMap fun l => l.text ++ [' ']

theorem layout_spaced {ls : List Lexeme} (h : ∀ l ∈ ls, l.WellFormed) : Layout ls (spaced ls) := by
  induction ls with
  | nil => exact .nil (by simp [spaced])
  | cons l ls ih =>
    have hblank : ∀ c ∈ [' '], isSpace c = true := List.forall_mem_singleton.mpr rfl
    have hls := (ih fun l hl => h l (by simp [hl])).gap_append hblank
    have hlayout := Layout.lexeme (h l (by simp)) (fun _ => rfl) hls
    simpa [spaced] using hlayout

theorem Level.tightness_injective {own asked : Level} (h : own.tightness = asked.tightness) : own = asked := by
  revert h
  rcases own with (_ | _ | _ | _ | _) | _ | _ | _ <;> rcases asked with (_ | _ | _ | _ | _) | _ | _ | _ <;> decide

theorem Level.tightness_next {asked : Level} (h : asked ≠ .primary) :
    asked.next.tightness = asked.tightness+1 := by
  revert h
  rcases asked with (_ | _ | _ | _ | _) | _ | _ | _ <;> decide

private theorem Level.tightness_le (own : Level) : own.tightness ≤ 7 := by
  rcases own with (_ | _ | _ | _ | _) | _ | _ | _ <;> decide

namespace Derives
variable {own asked : Level} {ts : List Lexeme} {e : Expr}

private theorem of_next (h : Derives asked.next ts e) : Derives asked ts e := by
  cases asked with
  | binary r => exact .operand h
  | unary => exact .access h
  | access => exact .primary h
  | primary => exact h

theorem loosen (h : Derives own ts e) (hle : asked.tightness ≤ own.tightness) : Derives asked ts e := by
  obtain ⟨n,hn⟩ : ∃ n, own.tightness = asked.tightness+n := ⟨own.tightness-asked.tightness,by omega⟩
  induction n generalizing asked with
  | zero => exact Level.tightness_injective hn ▸ h
  | succ n ih =>
    have hne : asked ≠ .primary := by
      rintro rfl
      have hle := own.tightness_le
      have hprimary : Level.primary.tightness = 7 := rfl
      omega
    have hnext := Level.tightness_next hne
    exact of_next (ih (by omega) (by omega))

theorem enclose (h : Derives own ts e) (asked : Level) : Derives asked (enclose own asked ts) e := by
  rw [Expr.enclose]
  split
  · next hle => exact h.loosen hle
  · have hinner : Derives (.binary .or) ts e := h.loosen (Nat.zero_le _)
    exact (Derives.parenthesised hinner).loosen asked.tightness_le

end Derives

theorem isDigits_toDigits (n : Nat) : IsDigits (Nat.toDigits 10 n) :=
  ⟨Nat.toDigits_ne_nil,fun _ hc => Nat.isDigit_of_mem_toDigits (by decide) (by decide) hc⟩

namespace Style
variable {s : Style}

private theorem derives_literal {v : Value} (h : s.Literal v) : Derives .primary (s.literal v) (.literal v) := by
  cases v with
  | null => exact .word (by simp [wordLiterals])
  | bool b => cases b <;> exact .word (by simp [wordLiterals])
  | int i =>
    have hnonneg : 0 ≤ i.toInt := h
    have hfits : Nat.ofDigitChars 10 (Nat.toDigits 10 i.toInt.toNat) 0 < Nat.pow 2 63 := by
      have hlt := i.toInt_lt
      rw [Nat.ofDigitChars_ten_toDigits,Nat.pow_eq]
      omega
    have hd := Derives.integer hfits
    rwa [Nat.ofDigitChars_ten_toDigits,← Int64.ofInt_eq_ofNat,Int.toNat_of_nonneg hnonneg,Int64.ofInt_toInt] at hd
  | float x =>
    obtain ⟨_,_,hx⟩ := h
    have hd : Derives .primary [.decimal (s.decimal x).1 (s.decimal x).2]
      (.literal (.float (decimalValue (s.decimal x).1 (s.decimal x).2))) := .decimal
    rwa [hx] at hd
  | string t =>
    have hd {quote : Char} : Derives .primary [.quoted quote t.toList]
      (.literal (.string (String.ofList t.toList))) := .string
    rw [String.ofList_toList] at hd
    exact hd
  | list items => exact False.elim h
  | map entries => exact False.elim h
  | record name fields => exact False.elim h

/-- What a tree is written as derives it. -/
theorem derives_lexemes {e : Expr} (h : s.Writable e) : Derives e.level (s.lexemes e) e := by
  induction e with
  | literal v => exact derives_literal h
  | «variable» name =>
    have hd : Derives .primary [.name name.toList] (.variable (String.ofList name.toList)) := .identifier h.2.1
    rwa [String.ofList_toList] at hd
  | property e name ih =>
    have hd : Derives .access _ (.property e (String.ofList name.toList)) := .property ((ih h.1).enclose .access)
    rwa [String.ofList_toList] at hd
  | index e key ih ihkey =>
    have hkey : Derives (.binary .or) (s.lexemes key) key := (ihkey h.2).loosen (Nat.zero_le _)
    exact .index ((ih h.1).enclose .access) hkey
  | call e name ih =>
    have hd : Derives .access _ (.call e (String.ofList name.toList)) := .call ((ih h.1).enclose .access)
    rwa [String.ofList_toList] at hd
  | not e ih => exact .not s.negation_mem ((ih h).enclose .unary)
  | negate e ih => exact .negate ((ih h).enclose .unary)
  | binary lhs op rhs ihl ihr =>
    exact .binary rfl (s.operator_mem op) ((ihl h.1).enclose _) ((ihr h.2).enclose _)

theorem notFree_of_writable {e : Expr} (h : s.Writable e) : NotFree e := by
  induction e with
  | literal v => trivial
  | «variable» name => exact h.2.2
  | property e name ih => exact ih h.1
  | index e key ih ihkey => exact ⟨ih h.1,ihkey h.2⟩
  | call e name ih => exact ih h.1
  | not e ih => exact ih h
  | negate e ih => exact ih h
  | binary lhs op rhs ihl ihr => exact ⟨ihl h.1,ihr h.2⟩

private theorem wellFormed_of_spelled {op : BinaryOp} {t : Token} (h : t ∈ op.spellings) : t.wellFormed = true :=
  op.rank.operators_wellFormed _ (Rank.mem_operators_of_spelled h)

private theorem isIdentifier_of_mem_wordLiterals {name : List Char} {v : Value} (h : (name,v) ∈ wordLiterals) :
    IsIdentifier name := by
  simp only [wordLiterals,List.mem_cons,List.not_mem_nil,or_false,Prod.mk.injEq] at h
  rcases h with ⟨rfl,_⟩ | ⟨rfl,_⟩ | ⟨rfl,_⟩ <;> decide

private theorem wellFormed_literal {v : Value} (h : s.Literal v) : ∀ l ∈ s.literal v, l.WellFormed := by
  have hone {l : Lexeme} (hl : l.WellFormed) : ∀ l' ∈ [l], l'.WellFormed := by
    intro l' hm
    rwa [List.mem_singleton.mp hm]
  have hword (name : List Char) (v : Value) (hm : (name,v) ∈ wordLiterals) :
      ∀ l' ∈ [Lexeme.name name], l'.WellFormed := hone (isIdentifier_of_mem_wordLiterals hm)
  cases v with
  | null => exact hword "null".toList .null (by simp [wordLiterals])
  | bool b => cases b with
    | true => exact hword "true".toList (.bool true) (by simp [wordLiterals])
    | false => exact hword "false".toList (.bool false) (by simp [wordLiterals])
  | int i => exact hone (isDigits_toDigits i.toInt.toNat)
  | float x => exact hone ⟨h.1,h.2.1⟩
  | string t =>
    apply hone
    by_cases hm : '\'' ∈ t.toList
    · rw [if_pos hm]
      exact ⟨.inr rfl,h.resolve_left (not_not_intro hm)⟩
    · rw [if_neg hm]
      exact ⟨.inl rfl,hm⟩
  | list items => exact False.elim h
  | map entries => exact False.elim h
  | record name fields => exact False.elim h

private theorem wellFormed_enclose {own asked : Level} {ts : List Lexeme} (h : ∀ l ∈ ts, l.WellFormed) :
    ∀ l ∈ enclose own asked ts, l.WellFormed := by
  rw [enclose]
  split
  · exact h
  · simp only [List.forall_mem_cons,List.forall_mem_append]
    exact ⟨rfl,h,rfl,by simp⟩

theorem wellFormed_lexemes {e : Expr} (h : s.Writable e) : ∀ l ∈ s.lexemes e, l.WellFormed := by
  have hnil : ∀ l ∈ ([] : List Lexeme), l.WellFormed := by simp
  induction e with
  | literal v => exact wellFormed_literal h
  | «variable» name => exact List.forall_mem_cons.mpr ⟨h.1,hnil⟩
  | property e name ih =>
    simp only [lexemes,List.forall_mem_append,List.forall_mem_cons]
    exact ⟨wellFormed_enclose (ih h.1),rfl,h.2,hnil⟩
  | index e key ih ihkey =>
    simp only [lexemes,List.forall_mem_append,List.forall_mem_cons]
    exact ⟨wellFormed_enclose (ih h.1),rfl,ihkey h.2,rfl,hnil⟩
  | call e name ih =>
    simp only [lexemes,List.forall_mem_append,List.forall_mem_cons]
    exact ⟨wellFormed_enclose (ih h.1),rfl,h.2,rfl,rfl,hnil⟩
  | not e ih =>
    have hsign : ∀ t ∈ notSpellings, t.wellFormed = true := by decide
    exact List.forall_mem_cons.mpr ⟨hsign _ s.negation_mem,wellFormed_enclose (ih h)⟩
  | negate e ih => exact List.forall_mem_cons.mpr ⟨rfl,wellFormed_enclose (ih h)⟩
  | binary lhs op rhs ihl ihr =>
    simp only [lexemes,List.forall_mem_append,List.forall_mem_cons]
    exact ⟨wellFormed_enclose (ihl h.1),wellFormed_of_spelled (s.operator_mem op),wellFormed_enclose (ihr h.2)⟩

noncomputable def complete : Style where
  operator op := op.spellings.headD minus
  negation := .symbol ['!']
  decimal x := Classical.epsilon fun ds => IsDigits ds.1 ∧ IsDigits ds.2 ∧ decimalValue ds.1 ds.2 = x
  operator_mem op := by rcases op with _ | _ | _ | _ | (_ | _ | _ | _) | (_ | _ | _ | _ | _) <;> decide
  negation_mem := by decide

end Style

theorem Layout.wellFormed {ls : List Lexeme} {cs : List Char} (h : Layout ls cs) : ∀ l ∈ ls, l.WellFormed := by
  induction h with
  | nil => simp
  | cons hgap hl hend h ih => exact List.forall_mem_cons.mpr ⟨hl,ih⟩

/-- Every tree of the grammar can be written. -/
theorem writable_of_derives {level : Level} {ts : List Lexeme} {e : Expr} (h : Derives level ts e)
    (hts : ∀ l ∈ ts, l.WellFormed) (hnot : NotFree e) : Style.complete.Writable e := by
  induction h with
  | operand h ih => exact ih hts hnot
  | binary hop ht hl hr ihl ihr =>
    simp only [List.forall_mem_append,List.forall_mem_cons] at hts
    exact ⟨ihl hts.1 hnot.1,ihr hts.2.2 hnot.2⟩
  | not ht h ih => exact ih (List.forall_mem_cons.mp hts).2 hnot
  | negate h ih => exact ih (List.forall_mem_cons.mp hts).2 hnot
  | access h ih => exact ih hts hnot
  | property h ih =>
    simp only [List.forall_mem_append,List.forall_mem_cons] at hts
    rw [Style.Writable,String.toList_ofList]
    exact ⟨ih hts.1 hnot,hts.2.2.1⟩
  | call h ih =>
    simp only [List.forall_mem_append,List.forall_mem_cons] at hts
    rw [Style.Writable,String.toList_ofList]
    exact ⟨ih hts.1 hnot,hts.2.2.1⟩
  | index h hkey ih ihkey =>
    simp only [List.forall_mem_append,List.forall_mem_cons] at hts
    exact ⟨ih hts.1 hnot.1,ihkey hts.2.2.1 hnot.2⟩
  | primary h ih => exact ih hts hnot
  | parenthesised h ih =>
    simp only [List.forall_mem_append,List.forall_mem_cons] at hts
    exact ih hts.2.1 hnot
  | integer hfits =>
    change 0 ≤ (Int64.ofNat _).toInt
    rw [Int64.toInt_ofNat_of_lt hfits]
    exact Int.natCast_nonneg _
  | @decimal whole fraction =>
    have hl := hts _ (List.mem_singleton.mpr rfl)
    have hex : ∃ ds : List Char × List Char, IsDigits ds.1 ∧ IsDigits ds.2 ∧
      decimalValue ds.1 ds.2 = decimalValue whole fraction := ⟨(whole,fraction),hl.1,hl.2,rfl⟩
    exact Classical.epsilon_spec hex
  | @string quote text =>
    have hl := hts _ (List.mem_singleton.mpr rfl)
    change '\'' ∉ (String.ofList text).toList ∨ '"' ∉ (String.ofList text).toList
    rw [String.toList_ofList]
    rcases hl.1 with rfl | rfl
    · exact .inl hl.2
    · exact .inr hl.2
  | word h =>
    simp only [wordLiterals,List.mem_cons,List.not_mem_nil,or_false,Prod.mk.injEq] at h
    rcases h with ⟨_,rfl⟩ | ⟨_,rfl⟩ | ⟨_,rfl⟩ <;> trivial
  | identifier h =>
    have hl := hts _ (List.mem_singleton.mpr rfl)
    rw [Style.Writable,String.toList_ofList]
    exact ⟨hl,h,hnot⟩

end SqlTemplate.Expr
