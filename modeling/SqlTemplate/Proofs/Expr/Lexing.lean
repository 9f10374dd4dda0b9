import Mathlib.Data.List.DropRight
import SqlTemplate.Proofs.Expr.Grammar
/-!
# Reading a layout

What stands at the front of a text that spells lexemes: blanks, then the first lexeme. A token is read there
when it is that lexeme, and not read when its text and the lexeme's differ early enough.
-/
namespace SqlTemplate.Expr
open Text

theorem isNameChar_of_isNameStart {c : Char} (h : isNameStart c = true) : isNameChar c = true := by
  simp only [isNameStart,Bool.or_eq_true] at h
  rcases h with h | h
  · simp only [isNameChar,isAlphanumeric,isAlphabetic] at *
    split at h
    · next hlow => simp [hlow,Char.isAlphanum,h]
    · next hlow => simp [hlow,h]
  · simp [isNameChar,h]

theorem not_isSpace_of_isNameChar {c : Char} (h : isNameChar c = true) : isSpace c = false := by
  cases hs : isSpace c with
  | false => rfl
  | true =>
    simp only [isSpace,Bool.or_eq_true,decide_eq_true_eq] at hs
    rcases hs with ((rfl | rfl) | rfl) | rfl <;> revert h <;> decide

private theorem isDigit_iff {c : Char} : c.isDigit = true ↔ 48 ≤ c.toNat ∧ c.toNat ≤ 57 := by
  simp only [Char.isDigit,Bool.and_eq_true,decide_eq_true_eq,ge_iff_le,UInt32.le_iff_toNat_le]
  exact Iff.rfl

theorem isNameChar_of_isDigit {c : Char} (h : c.isDigit = true) : isNameChar c = true := by
  have hlow : c.toNat < 128 := by
    have := isDigit_iff.mp h
    omega
  simp [isNameChar,isAlphanumeric,hlow,Char.isAlphanum,h]

private theorem not_isNameStart_of_isDigit {c : Char} (h : c.isDigit = true) : isNameStart c = false := by
  have hd := isDigit_iff.mp h
  have hlow : c.toNat < 128 := by omega
  have hne : c ≠ '_' := by
    rintro rfl
    revert h
    decide
  have hupper : c.isUpper = false := by
    apply decide_eq_false
    intro hu
    have : 65 ≤ c.toNat := hu.1
    omega
  have hlower : c.isLower = false := by
    apply Bool.eq_false_iff.mpr
    intro hl
    have : 97 ≤ c.toNat := of_decide_eq_true (Bool.and_eq_true_iff.mp hl).1
    omega
  have halpha : c.isAlpha = false := Bool.or_eq_false_iff.mpr ⟨hupper,hlower⟩
  simp [isNameStart,isAlphabetic,hlow,halpha,hne]

theorem not_isDigit_of_isNameStart {c : Char} (h : isNameStart c = true) : c.isDigit = false := by
  cases hd : c.isDigit with
  | false => rfl
  | true => simp [not_isNameStart_of_isDigit hd] at h

theorem not_isDigit_of_isSpace {c : Char} (h : isSpace c = true) : c.isDigit = false := by
  cases hd : c.isDigit with
  | false => rfl
  | true => simp [not_isSpace_of_isNameChar (isNameChar_of_isDigit hd)] at h

section skip
variable {gap cs : List Char}

theorem skip_append (hgap : ∀ c ∈ gap, isSpace c = true) (cs : List Char) : skip (gap ++ cs) = skip cs :=
  List.dropWhile_append_of_pos hgap

private theorem skip_of_blank (hgap : ∀ c ∈ gap, isSpace c = true) : skip gap = [] :=
  List.dropWhile_eq_nil_iff.mpr hgap

theorem skip_cons {c : Char} (hc : isSpace c = false) (cs : List Char) : skip (c :: cs) = c :: cs := by
  simp [skip,hc]

theorem skip_of_head (h : ∀ c ∈ cs.head?, isSpace c = false) : skip cs = cs := by
  cases cs with
  | nil => rfl
  | cons c cs => exact skip_cons (h c rfl) cs

theorem skip_skip (cs : List Char) : skip (skip cs) = skip cs :=
  List.dropWhile_idempotent isSpace cs

theorem length_skip_le (cs : List Char) : (skip cs).length ≤ cs.length :=
  (List.dropWhile_sublist isSpace).length_le

private theorem exists_gap (cs : List Char) : ∃ gap, (∀ c ∈ gap, isSpace c = true) ∧ cs = gap ++ skip cs :=
  ⟨cs.takeWhile isSpace,fun _ hc => List.mem_takeWhile_imp hc,List.takeWhile_append_dropWhile.symm⟩

end skip

theorem IsIdentifier.isNameChar {name : List Char} (h : IsIdentifier name) :
    ∀ c ∈ name, isNameChar c = true := by
  cases name with
  | nil => exact fun c hc => absurd hc (by simp)
  | cons c cs =>
    intro d hd
    rcases List.mem_cons.mp hd with rfl | hd
    · exact isNameChar_of_isNameStart h.1
    · exact h.2 d hd

theorem IsIdentifier.head {name : List Char} (h : IsIdentifier name) :
    ∃ c cs, name = c :: cs ∧ isNameStart c = true := by
  cases name with
  | nil => exact False.elim h
  | cons c cs => exact ⟨c,cs,rfl,h.1⟩

theorem IsIdentifier.skip_append {name : List Char} (h : IsIdentifier name) (rest : List Char) :
    skip (name ++ rest) = name ++ rest := by
  obtain ⟨c,cs,rfl,hc⟩ := h.head
  exact skip_cons (not_isSpace_of_isNameChar (isNameChar_of_isNameStart hc)) (cs ++ rest)

theorem IsDigits.head {ds : List Char} (h : IsDigits ds) (rest : List Char) :
    ∀ c ∈ (ds ++ rest).head?, c.isDigit = true := by
  obtain ⟨c,cs,rfl⟩ := List.exists_cons_of_ne_nil h.1
  rintro _ ⟨⟩
  exact h.2 c (by simp)

theorem IsDigits.not_isSpace_head {ds : List Char} (h : IsDigits ds) (rest : List Char) :
    ∀ c ∈ (ds ++ rest).head?, isSpace c = false :=
  fun c hc => not_isSpace_of_isNameChar (isNameChar_of_isDigit (h.head rest c hc))

theorem IsDigits.skip_append {ds : List Char} (h : IsDigits ds) (rest : List Char) :
    skip (ds ++ rest) = ds ++ rest :=
  skip_of_head (h.not_isSpace_head rest)

theorem Token.head_of_wellFormed {t : Token} (h : t.wellFormed = true) :
    ∃ c cs, t.text = c :: cs ∧ isSpace c = false := by
  cases t with
  | symbol text => cases text with
    | nil => simp [wellFormed] at h
    | cons c cs =>
      have hc : isNameChar c = false ∧ isSpace c = false := by simpa [wellFormed] using h
      exact ⟨c,cs,rfl,hc.2⟩
  | word text => cases text with
    | nil => simp [wellFormed] at h
    | cons c cs =>
      have hc : isNameChar c = true ∧ ∀ d ∈ cs, isNameChar d = true := by simpa [wellFormed] using h
      exact ⟨c,cs,rfl,not_isSpace_of_isNameChar hc.1⟩

theorem Lexeme.WellFormed.head {l : Lexeme} (h : l.WellFormed) :
    ∃ c cs, l.text = c :: cs ∧ isSpace c = false := by
  cases l with
  | mark t => exact Token.head_of_wellFormed h
  | name text =>
    obtain ⟨c,cs,rfl,hc⟩ := IsIdentifier.head h
    exact ⟨c,cs,rfl,not_isSpace_of_isNameChar (isNameChar_of_isNameStart hc)⟩
  | digits whole =>
    obtain ⟨c,cs,rfl⟩ := List.exists_cons_of_ne_nil h.1
    exact ⟨c,cs,rfl,not_isSpace_of_isNameChar (isNameChar_of_isDigit (h.2 c (by simp)))⟩
  | decimal whole fraction =>
    obtain ⟨c,cs,rfl⟩ := List.exists_cons_of_ne_nil h.1.1
    exact ⟨c,cs ++ '.' :: fraction,rfl,not_isSpace_of_isNameChar (isNameChar_of_isDigit (h.1.2 c (by simp)))⟩
  | quoted quote text =>
    refine ⟨quote,text ++ [quote],rfl,?_⟩
    rcases h.1 with rfl | rfl <;> decide

namespace Layout
variable {l : Lexeme} {ls : List Lexeme} {cs : List Char}

theorem gap_append {gap : List Char} (hgap : ∀ c ∈ gap, isSpace c = true) (h : Layout ls cs) :
    Layout ls (gap ++ cs) := by
  cases h with
  | nil hgap' =>
    refine .nil fun c hc => ?_
    rcases List.mem_append.mp hc with hc | hc
    · exact hgap c hc
    · exact hgap' c hc
  | cons hgap' hl hend h =>
    rw [← List.append_assoc]
    refine .cons (fun c hc => ?_) hl hend h
    rcases List.mem_append.mp hc with hc | hc
    · exact hgap c hc
    · exact hgap' c hc

theorem of_skip (h : Layout ls (skip cs)) : Layout ls cs := by
  obtain ⟨gap,hgap,heq⟩ := exists_gap cs
  rw [heq]
  exact h.gap_append hgap

theorem skip_nil (h : Layout [] cs) : skip cs = [] := by
  cases h with
  | nil hgap => exact skip_of_blank hgap

theorem of_skip_nil (h : skip cs = []) : Layout [] cs := by
  obtain ⟨gap,hgap,heq⟩ := exists_gap cs
  rw [heq,h,List.append_nil]
  exact .nil hgap

/-- Behind the blanks of a layout stands its first lexeme. -/
theorem skip_cons (h : Layout (l :: ls) cs) : ∃ more, skip cs = l.text ++ more ∧ l.WellFormed ∧
    (l.isWord = true → continuesName more = false) ∧ Layout ls more ∧ more.length < cs.length := by
  cases h with
  | @cons gap _ _ more hgap hl hend h =>
    obtain ⟨c,rest,htext,hc⟩ := hl.head
    refine ⟨more,?_,hl,hend,h,?_⟩
    · rw [skip_append hgap,htext]
      exact Expr.skip_cons hc _
    · rw [htext]
      simp only [List.length_append,List.length_cons]
      omega

theorem lexeme (hl : l.WellFormed) (hend : l.isWord = true → continuesName cs = false) (h : Layout ls cs) :
    Layout (l :: ls) (l.text ++ cs) := by
  have hnil : ∀ c ∈ ([] : List Char), isSpace c = true := by simp
  simpa using Layout.cons hnil hl hend h

theorem skip (h : Layout ls cs) : Layout ls (skip cs) := by
  cases ls with
  | nil =>
    rw [h.skip_nil]
    exact .nil (by simp)
  | cons l ls =>
    obtain ⟨more,hskip,hl,hend,hmore,_⟩ := h.skip_cons
    rw [hskip]
    exact lexeme hl hend hmore

theorem head (h : Layout ls cs) {P : Char → Prop} (hspace : ∀ c, isSpace c = true → P c)
    (hls : ∀ l ∈ ls.head?, ∀ c ∈ l.text.head?, P c) : ∀ c ∈ cs.head?, P c := by
  have hgap {gap : List Char} (hg : ∀ c ∈ gap, isSpace c = true) (rest : List Char) (c : Char)
      (hc : c ∈ (gap ++ rest).head?) : P c ∨ c ∈ rest.head? := by
    cases gap with
    | nil => exact .inr hc
    | cons d gap =>
      obtain rfl : d = c := by simpa using hc
      exact .inl (hspace d (hg d (by simp)))
  cases h with
  | nil hg =>
    intro c hc
    rw [← List.append_nil cs] at hc
    exact (hgap hg [] c hc).resolve_right (by simp)
  | cons hg hl hend h =>
    intro c hc
    rcases hgap hg _ c hc with hc | hc
    · exact hc
    · obtain ⟨d,rest,htext,_⟩ := hl.head
      apply hls _ rfl
      rw [htext] at hc ⊢
      simpa using hc

end Layout

section tokens
variable {more : List Char}

theorem span_name {name : List Char} (hname : ∀ c ∈ name, isNameChar c = true)
    (hend : continuesName more = false) :
    (name ++ more).takeWhile isNameChar = name ∧ (name ++ more).dropWhile isNameChar = more := by
  apply span_append hname
  cases more with
  | nil => simp
  | cons c cs =>
    rintro _ ⟨⟩
    exact hend

private theorem afterStart?_eq_none {ds cs : List Char} (h : ¬ds <+: cs) : afterStart? ds cs = none := by
  cases ha : afterStart? ds cs with
  | none => rfl
  | some rest => exact absurd ⟨rest,(eq_append_of_afterStart? ha).symm⟩ h

namespace Token

/-- No text that begins with one of the tokens begins with the other. -/
def clash : Token → Token → Bool
  | .word a, .word b => a ≠ b
  | p, q => !p.text.isPrefixOf q.text && !q.text.isPrefixOf p.text

/-- The first token is not read where the second one stands, unless an equals sign follows there. -/
def yields (p q : Token) : Bool := p.clash q || p = .symbol (q.text ++ ['='])

private theorem after?_text {t : Token} (hend : t.isWord = true → continuesName more = false) :
    t.after? (t.text ++ more) = some more := by
  cases t with
  | symbol text => exact afterStart?_append text more
  | word text =>
    rw [after?,Token.text,afterStart?_append,Option.filter_some,hend rfl]
    rfl

theorem word_after?_name {w name : List Char} (hw : ∀ c ∈ w, isNameChar c = true)
    (hname : ∀ c ∈ name, isNameChar c = true) (hend : continuesName more = false) (hne : w ≠ name) :
    (word w).after? (name ++ more) = none := by
  rw [after?,Option.filter_eq_none_iff]
  intro rest hrest hgoes
  have hrest' : continuesName rest = false := by simpa using hgoes
  have htake := congrArg (List.takeWhile isNameChar) (eq_append_of_afterStart? hrest)
  rw [(span_name hname hend).1,(span_name hw hrest').1] at htake
  exact hne htake.symm

theorem after?_eq_none_of_text {p : Token} {cs : List Char} (h : ¬p.text <+: cs) : p.after? cs = none := by
  cases p with
  | symbol text => exact afterStart?_eq_none h
  | word text =>
    have hnone : afterStart? text cs = none := afterStart?_eq_none h
    rw [after?,hnone]
    rfl

theorem after?_eq_none_of_clash {p q : Token} (hp : p.wellFormed = true) (hq : q.wellFormed = true)
    (hclash : p.clash q = true) (hend : q.isWord = true → continuesName more = false) :
    p.after? (q.text ++ more) = none := by
  have hapart (h : (!p.text.isPrefixOf q.text && !q.text.isPrefixOf p.text) = true) :
      p.after? (q.text ++ more) = none := by
    apply after?_eq_none_of_text
    intro hprefix
    simp only [Bool.and_eq_true,Bool.not_eq_true',← Bool.not_eq_true,List.isPrefixOf_iff_prefix] at h
    rcases List.prefix_or_prefix_of_prefix hprefix (List.prefix_append q.text more) with hpq | hqp
    · exact h.1 hpq
    · exact h.2 hqp
  cases p with
  | symbol a => exact hapart (by cases q <;> exact hclash)
  | word a => cases q with
    | symbol b => exact hapart hclash
    | word b =>
      have hchars {w : List Char} (hw : (word w).wellFormed = true) : ∀ c ∈ w, isNameChar c = true := by
        simp only [wellFormed,Bool.and_eq_true,List.all_eq_true] at hw
        exact hw.2
      exact word_after?_name (hchars hp) (hchars hq) (hend rfl) (of_decide_eq_true hclash)

private theorem after?_eq_none_of_yields {p q : Token} (hp : p.wellFormed = true) (hq : q.wellFormed = true)
    (hyields : p.yields q = true) (hend : q.isWord = true → continuesName more = false)
    (hmore : ∀ c ∈ more.head?, c ≠ '=') : p.after? (q.text ++ more) = none := by
  simp only [yields,Bool.or_eq_true,decide_eq_true_eq] at hyields
  rcases hyields with hclash | rfl
  · exact after?_eq_none_of_clash hp hq hclash hend
  · apply after?_eq_none_of_text
    rw [Token.text,List.prefix_append_right_inj]
    intro hprefix
    cases more with
    | nil => simp at hprefix
    | cons c cs => exact hmore c rfl (List.cons_prefix_cons.mp hprefix).1.symm

end Token

variable {α : Type} {table : List (Token × α)} {cs : List Char}

theorem token?_eq_none (h : ∀ p ∈ table, p.1.after? (skip cs) = none) : token? table cs = none := by
  induction table with
  | nil => rfl
  | cons p table ih =>
    obtain ⟨t,a⟩ := p
    rw [token?,h (t,a) (by simp)]
    exact ih fun p hp => h p (by simp [hp])

private theorem token?_append {before after : List (Token × α)} {t : Token} {a : α} {rest : List Char}
    (hbefore : ∀ p ∈ before, p.1.after? (skip cs) = none) (ht : t.after? (skip cs) = some rest) :
    token? (before ++ (t,a) :: after) cs = some (a,skip rest) := by
  induction before with
  | nil => rw [List.nil_append,token?,ht]
  | cons p before ih =>
    obtain ⟨q,b⟩ := p
    rw [List.cons_append,token?,hbefore (q,b) (by simp)]
    exact ih fun p hp => hbefore p (by simp [hp])

/-- A token is read where it stands, when the tokens before it in the list yield to it. -/
theorem token?_of_mem {t : Token} {a : α} (hw : ∀ p ∈ table, p.1.wellFormed = true)
    (hp : table.Pairwise fun p q => p.1.yields q.1 = true) (hm : (t,a) ∈ table)
    (hskip : skip cs = t.text ++ more) (hend : t.isWord = true → continuesName more = false)
    (hmore : ∀ c ∈ more.head?, c ≠ '=') : token? table cs = some (a,skip more) := by
  obtain ⟨before,after,rfl⟩ := List.append_of_mem hm
  apply token?_append
  · intro p hpb
    rw [hskip]
    have hyields := (List.pairwise_append.mp hp).2.2 p hpb (t,a) (by simp)
    exact Token.after?_eq_none_of_yields (hw p (by simp [hpb])) (hw (t,a) hm) hyields hend hmore
  · rw [hskip]
    exact Token.after?_text hend

theorem Token.text_of_after? {t : Token} {rest : List Char} (h : t.after? cs = some rest) :
    cs = t.text ++ rest ∧ (t.isWord = true → continuesName rest = false) := by
  cases t with
  | symbol text => exact ⟨eq_append_of_afterStart? h,fun hw => absurd hw (by simp [isWord])⟩
  | word text =>
    obtain ⟨hrest,hend⟩ := Option.filter_eq_some_iff.mp h
    exact ⟨eq_append_of_afterStart? hrest,fun _ => by simpa using hend⟩

theorem exists_of_token? {a : α} {rest : List Char} (h : token? table cs = some (a,rest)) :
    ∃ t more, (t,a) ∈ table ∧ t.after? (skip cs) = some more ∧ rest = skip more := by
  induction table with
  | nil => simp [token?] at h
  | cons p table ih =>
    obtain ⟨t,b⟩ := p
    rw [token?] at h
    split at h
    · next more hmore =>
      obtain ⟨rfl,rfl⟩ : b = a ∧ skip more = rest := by simpa using h
      exact ⟨t,more,by simp,hmore,rfl⟩
    · obtain ⟨t',more,hm,hmore,hrest⟩ := ih h
      exact ⟨t',more,by simp [hm],hmore,hrest⟩

theorem symbol?_mark {c : Char} {ls : List Lexeme} (h : Layout (.mark (.symbol [c]) :: ls) cs) :
    ∃ more, symbol? c cs = some (skip more) ∧ Layout ls (skip more) ∧ (skip more).length < cs.length := by
  obtain ⟨more,hskip,_,_,hmore,hlength⟩ := h.skip_cons
  have hskip : skip cs = c :: more := hskip
  exact ⟨more,by simp [symbol?,hskip],hmore.skip,Nat.lt_of_le_of_lt (length_skip_le more) hlength⟩

theorem name?_append {name : List Char} (hname : IsIdentifier name) (hend : continuesName more = false) :
    name? (name ++ more) = some (String.ofList name,more) := by
  obtain ⟨c,cs,rfl,hc⟩ := hname.head
  have hspan := span_name hname.isNameChar hend
  rw [List.cons_append] at hspan ⊢
  rw [name?,if_pos hc,hspan.1,hspan.2]

theorem name?_lexeme {name : List Char} {ls : List Lexeme} (h : Layout (.name name :: ls) cs) :
    ∃ more, name? (skip cs) = some (String.ofList name,more) ∧ Layout ls more ∧ more.length < cs.length := by
  obtain ⟨more,hskip,hname,hend,hmore,hlength⟩ := h.skip_cons
  refine ⟨more,?_,hmore,hlength⟩
  rw [hskip]
  exact name?_append hname (hend rfl)

theorem symbol?_cons {c : Char} (hc : isSpace c = false) (cs : List Char) :
    symbol? c (c :: cs) = some (skip cs) := by
  simp [symbol?,skip_cons hc]

theorem symbol?_of_head_ne {c : Char} (h : ∀ d ∈ cs.head?, isSpace d = false ∧ d ≠ c) :
    symbol? c cs = none := by
  cases cs with
  | nil => rfl
  | cons d cs => simp [symbol?,skip_cons (h d rfl).1,(h d rfl).2]

theorem symbol?_eq_none {c : Char} (hc : isSpace c = false) {ls : List Lexeme} (h : Layout ls cs)
    (hls : ∀ l ∈ ls.head?, ∀ d ∈ l.text.head?, d ≠ c) : symbol? c cs = none := by
  have hhead : ∀ d ∈ (skip cs).head?, d ≠ c := by
    apply h.skip.head _ hls
    rintro d hd rfl
    rw [hc] at hd
    exact absurd hd (by decide)
  cases hs : skip cs with
  | nil => simp [symbol?,hs]
  | cons d rest =>
    have hne : d ≠ c := hhead d (by simp [hs])
    simp [symbol?,hs,hne]

theorem skip_of_symbol? {c : Char} {rest : List Char} (h : symbol? c cs = some rest) :
    ∃ more, skip cs = c :: more ∧ rest = skip more := by
  rw [symbol?] at h
  split at h
  · simp at h
  · next d more hskip =>
    obtain ⟨rfl,rfl⟩ : d = c ∧ skip more = rest := by simpa using h
    exact ⟨more,hskip,rfl⟩

end tokens

end SqlTemplate.Expr
