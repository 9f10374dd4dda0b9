import SqlTemplate.Proofs.Expr.Soundness
/-!
# Where expressions begin and end

What an expression of a level can begin with, and what may stand behind it without being taken into it: an
operator that binds less, or a closing mark. No sign is read in front of an atom, and no operator of a level
behind an expression of it.
-/
namespace SqlTemplate.Expr
open Text

def closers : List Token := [closing,closingKey]

namespace Level

/-- Operators of a rank below the height may stand behind an expression of the level. -/
def height : Level → Nat
  | .binary r => r.height
  | _ => 5

/-- The level of what an expression of a level ends with. -/
def inner : Level → Level
  | .binary r => r.operand
  | .unary => .unary
  | .access | .primary => .primary

end Level

namespace Rank

theorem mem_operators_of_spelled {op : BinaryOp} {t : Token} (ht : t ∈ op.spellings) :
    (t,op) ∈ op.rank.operators := by
  revert t
  rcases op with _ | _ | _ | _ | (_ | _ | _ | _) | (_ | _ | _ | _ | _) <;> decide

theorem operators_pairwise (r : Rank) : r.operators.Pairwise fun p q => p.1.yields q.1 = true := by
  cases r <;> decide

private theorem head_of_mem_operators (r : Rank) : ∀ p ∈ r.operators, ∀ c ∈ p.1.text.head?,
    (c ≠ '(' ∧ c.isDigit = false) ∧ c ≠ '.' ∧ c ≠ '[' := by
  cases r <;> simp [operators,levels,height,Token.text]

private theorem clash_of_height_lt {q r : Rank} (h : q.height < r.height) :
    ∀ p' ∈ q.operators, ∀ p ∈ r.operators, p.1.clash p'.1 = true := by
  revert h
  cases q <;> cases r <;> decide

private theorem clash_of_closer (r : Rank) : ∀ t ∈ closers, ∀ p ∈ r.operators, p.1.clash t = true := by
  cases r <;> decide

end Rank

/-- What may stand behind an expression of a level without being taken into it. -/
inductive Follows : Level → List Lexeme → Prop
  | nil {level : Level} : Follows level []
  | closer {level : Level} {t : Token} {us : List Lexeme} (ht : t ∈ closers) :
      Follows level (.mark t :: us)
  | operator {level : Level} {op : BinaryOp} {t : Token} {us : List Lexeme}
      (hop : op.rank.height < level.height) (ht : t ∈ op.spellings) : Follows level (.mark t :: us)
  | member {name : List Char} {us : List Lexeme} : Follows .primary (.mark dot :: .name name :: us)
  | key {us : List Lexeme} : Follows .primary (.mark openingKey :: us)

namespace Follows
variable {level : Level} {us : List Lexeme}

theorem mono {other : Level} (h : Follows level us) (hle : level.height ≤ other.height)
    (hother : level = .primary → other = .primary) : Follows other us := by
  cases h with
  | nil => exact .nil
  | closer ht => exact .closer ht
  | operator hop ht => exact .operator (Nat.lt_of_lt_of_le hop hle) ht
  | member =>
    rw [hother rfl]
    exact .member
  | key =>
    rw [hother rfl]
    exact .key

theorem inner (h : Follows level us) : Follows level.inner us := by
  apply h.mono
  · cases level with
    | binary r => cases r <;> decide
    | unary => decide
    | access => decide
    | primary => decide
  · rintro rfl
    rfl

theorem head (h : Follows level us) : ∀ l ∈ us.head?, ∀ c ∈ l.text.head?,
    (c ≠ '(' ∧ c.isDigit = false) ∧ (level ≠ .primary → c ≠ '.' ∧ c ≠ '[') := by
  have hplain {t : Token} (ht : ∀ c ∈ t.text.head?, (c ≠ '(' ∧ c.isDigit = false) ∧ c ≠ '.' ∧ c ≠ '[')
      (us : List Lexeme) : ∀ l ∈ (Lexeme.mark t :: us).head?, ∀ c ∈ l.text.head?,
      (c ≠ '(' ∧ c.isDigit = false) ∧ (level ≠ .primary → c ≠ '.' ∧ c ≠ '[') := by
    rintro _ ⟨⟩ c hc
    exact ⟨(ht c hc).1,fun _ => (ht c hc).2⟩
  cases h with
  | nil => simp
  | @closer _ t us ht =>
    apply hplain
    revert t
    simp [closers,closing,closingKey,Token.text]
  | @operator _ op t us hop ht =>
    apply hplain
    exact op.rank.head_of_mem_operators _ (Rank.mem_operators_of_spelled ht)
  | member => simp [Lexeme.text,dot,Token.text]
  | key => simp [Lexeme.text,openingKey,Token.text]

theorem no_digit (h : Follows level us) {cs : List Char} (hcs : Layout us cs) :
    ∀ c ∈ cs.head?, c.isDigit = false :=
  hcs.head (P := fun c => c.isDigit = false) (fun _ hc => not_isDigit_of_isSpace hc)
    fun l hl c hc => (h.head l hl c hc).1.2

theorem no_fraction (h : Follows level us) {cs : List Char} (hcs : Layout us ('.' :: cs)) :
    ∀ c ∈ cs.head?, c.isDigit = false := by
  have hdot (hus : ∀ l ∈ us.head?, ∀ c ∈ l.text.head?, c ≠ '.') : False :=
    hcs.head (P := fun c => c ≠ '.') (fun c hc heq => by rw [heq] at hc; revert hc; decide) hus '.' rfl rfl
  cases h with
  | nil => exact (hdot (by simp)).elim
  | @closer _ t us ht =>
    have hfollows : Follows .unary (.mark t :: us) := .closer ht
    exact (hdot fun l hl c hc => ((hfollows.head l hl c hc).2 (by decide)).1).elim
  | @operator _ op t us hop ht =>
    have hfollows : Follows .unary (.mark t :: us) := by
      apply Follows.operator _ ht
      cases op.rank <;> decide
    exact (hdot fun l hl c hc => ((hfollows.head l hl c hc).2 (by decide)).1).elim
  | @member name us =>
    obtain ⟨more,hskip,_,_,hmore,_⟩ := hcs.skip_cons
    obtain rfl : cs = more := (List.cons.inj hskip).2
    obtain ⟨_,_,hname,_,_,_⟩ := hmore.skip_cons
    refine hmore.head (P := fun c => c.isDigit = false) (fun c hc => not_isDigit_of_isSpace hc) ?_
    obtain ⟨c,name,rfl,hc⟩ := IsIdentifier.head hname
    rintro _ ⟨⟩ _ ⟨⟩
    exact not_isDigit_of_isNameStart hc
  | key => exact (hdot (by simp [Lexeme.text,openingKey,Token.text])).elim

/-- The operators of a rank are not read where something stands that may follow an expression of it. -/
theorem token?_eq_none {r : Rank} (h : Follows (.binary r) us) {cs : List Char} (hcs : Layout us cs) :
    token? r.operators cs = none := by
  have hclash {t : Token} (ht : ∀ p ∈ r.operators, p.1.clash t = true) (us : List Lexeme)
      (hcs : Layout (.mark t :: us) cs) : token? r.operators cs = none := by
    obtain ⟨more,hskip,hl,hend,_,_⟩ := hcs.skip_cons
    apply Expr.token?_eq_none
    intro p hp
    rw [hskip]
    exact Token.after?_eq_none_of_clash (r.operators_wellFormed p hp) hl (ht p hp) hend
  cases h with
  | nil =>
    apply Expr.token?_eq_none
    intro p hp
    rw [hcs.skip_nil]
    obtain ⟨c,text,htext,_⟩ := Token.head_of_wellFormed (r.operators_wellFormed p hp)
    apply Token.after?_eq_none_of_text
    simp [htext]
  | @closer _ t us ht =>
    exact hclash (r.clash_of_closer t ht) us hcs
  | @operator _ op t us hop ht =>
    exact hclash (Rank.clash_of_height_lt hop _ (Rank.mem_operators_of_spelled ht)) us hcs

end Follows

namespace Lexeme

def beginsAtom : Lexeme → Bool
  | .mark t => t = opening
  | .name text => text ≠ ['n','o','t']
  | _ => true

def beginsOperand (l : Lexeme) : Bool := l.beginsAtom || signs.any fun p => l = .mark p.1

def begins (l : Lexeme) : Level → Bool
  | .binary _ | .unary => l.beginsOperand
  | .access | .primary => l.beginsAtom

theorem begins_unary {l : Lexeme} {level : Level} (h : l.begins level = true) : l.beginsOperand = true := by
  cases level with
  | binary r => exact h
  | unary => exact h
  | access => exact Bool.or_eq_true_iff.mpr (.inl h)
  | primary => exact Bool.or_eq_true_iff.mpr (.inl h)

theorem WellFormed.head_ne {l : Lexeme} (hl : l.WellFormed) (hmark : ∀ t, l ≠ .mark t) :
    ∀ c ∈ l.text.head?, c ∉ ['(','=','!','-'] ∧ (l.isWord = false → c ≠ 'n') := by
  have hfirst {c : Char} (hc : c.isDigit = true ∨ c = '\'' ∨ c = '"') :
      c ∉ ['(','=','!','-'] ∧ (l.isWord = false → c ≠ 'n') := by
    have hne : c ∉ ['(','=','!','-','n'] := by
      intro hm
      simp only [List.mem_cons,List.not_mem_nil,or_false] at hm
      rcases hm with rfl | rfl | rfl | rfl | rfl <;> revert hc <;> decide
    exact ⟨fun hm => hne (List.mem_append_left ['n'] hm),fun _ heq => hne (by simp [heq])⟩
  have hdigits {ds : List Char} (hds : IsDigits ds) (rest : List Char) :
      ∀ c ∈ (ds ++ rest).head?, c ∉ ['(','=','!','-'] ∧ (l.isWord = false → c ≠ 'n') :=
    fun c hc => hfirst (.inl (hds.head rest c hc))
  cases l with
  | mark t => exact absurd rfl (hmark t)
  | name text =>
    obtain ⟨c,text,rfl,hc⟩ := IsIdentifier.head hl
    rintro _ ⟨⟩
    refine ⟨fun hm => ?_,fun hword => absurd hword (by simp [isWord])⟩
    simp only [List.mem_cons,List.not_mem_nil,or_false] at hm
    rcases hm with rfl | rfl | rfl | rfl <;> revert hc <;> decide
  | digits whole =>
    rw [← List.append_nil (digits whole).text]
    exact hdigits hl []
  | decimal whole fraction => exact hdigits hl.1 ('.' :: fraction)
  | quoted quote text =>
    rintro _ ⟨⟩
    exact hfirst (.inr hl.1)

theorem head_ne_equals {l : Lexeme} (hl : l.WellFormed) (h : l.beginsOperand = true) :
    ∀ c ∈ l.text.head?, c ≠ '=' := by
  by_cases hmark : ∃ t, l = .mark t
  · obtain ⟨t,rfl⟩ := hmark
    have ht : t ∈ [opening,.symbol ['!'],.word ['n','o','t'],.symbol ['-']] := by
      simpa [beginsOperand,beginsAtom,signs,or_assoc] using h
    clear hl h
    revert t
    simp [opening,text,Token.text]
  · intro c hc heq
    exact (hl.head_ne (fun t ht => hmark ⟨t,ht⟩) c hc).1 (by simp [heq])

end Lexeme

theorem Layout.head_ne_equals {l : Lexeme} {us : List Lexeme} {cs : List Char} (h : Layout (l :: us) cs)
    (hl : l.beginsOperand = true) : ∀ c ∈ cs.head?, c ≠ '=' := by
  obtain ⟨_,_,hw,_,_,_⟩ := h.skip_cons
  refine h.head (P := fun c => c ≠ '=') ?_ ?_
  · rintro c hc rfl
    revert hc
    decide
  · rintro _ ⟨⟩
    exact Lexeme.head_ne_equals hw hl

theorem Derives.head {level : Level} {ts : List Lexeme} {e : Expr} (h : Derives level ts e) (hnot : NotFree e) :
    ∃ l us, ts = l :: us ∧ l.begins level = true := by
  induction h with
  | operand h ih =>
    obtain ⟨l,us,rfl,hl⟩ := ih hnot
    exact ⟨l,us,rfl,Lexeme.begins_unary hl⟩
  | binary hop ht _ _ ihl _ =>
    obtain ⟨l,us,rfl,hl⟩ := ihl hnot.1
    exact ⟨l,_,rfl,hl⟩
  | not ht h ih =>
    refine ⟨_,_,rfl,?_⟩
    simp only [notSpellings,List.mem_cons,List.not_mem_nil,or_false] at ht
    rcases ht with rfl | rfl <;> rfl
  | negate h ih => exact ⟨_,_,rfl,rfl⟩
  | access h ih =>
    obtain ⟨l,us,rfl,hl⟩ := ih hnot
    exact ⟨l,us,rfl,Lexeme.begins_unary hl⟩
  | property h ih =>
    obtain ⟨l,us,rfl,hl⟩ := ih hnot
    exact ⟨l,_,rfl,hl⟩
  | call h ih =>
    obtain ⟨l,us,rfl,hl⟩ := ih hnot
    exact ⟨l,_,rfl,hl⟩
  | index h hkey ih ihkey =>
    obtain ⟨l,us,rfl,hl⟩ := ih hnot.1
    exact ⟨l,_,rfl,hl⟩
  | primary h ih => exact ih hnot
  | parenthesised h ih => exact ⟨_,_,rfl,rfl⟩
  | integer hfits => exact ⟨_,_,rfl,rfl⟩
  | decimal => exact ⟨_,_,rfl,rfl⟩
  | string => exact ⟨_,_,rfl,rfl⟩
  | word h =>
    refine ⟨_,_,rfl,?_⟩
    simp only [wordLiterals,List.mem_cons,List.not_mem_nil,or_false,Prod.mk.injEq] at h
    rcases h with ⟨rfl,_⟩ | ⟨rfl,_⟩ | ⟨rfl,_⟩ <;> decide
  | identifier h =>
    refine ⟨_,_,rfl,decide_eq_true ?_⟩
    rintro rfl
    exact hnot rfl

theorem token?_signs_of_beginsAtom {l : Lexeme} {us : List Lexeme} {cs : List Char} (h : Layout (l :: us) cs)
    (hatom : l.beginsAtom = true) : token? signs cs = none := by
  obtain ⟨more,hskip,hl,hend,_,_⟩ := h.skip_cons
  apply token?_eq_none
  rw [hskip]
  by_cases hmark : ∃ t, l = .mark t
  · obtain ⟨t,rfl⟩ := hmark
    obtain rfl : t = opening := by simpa [Lexeme.beginsAtom] using hatom
    intro p hp
    have hclash : ∀ p ∈ signs, p.1.clash opening = true := by
      simp only [signs,List.forall_mem_cons]
      decide
    exact Token.after?_eq_none_of_clash (signs_wellFormed p hp) hl (hclash p hp) hend
  · obtain ⟨c,rest,htext,_⟩ := hl.head
    obtain ⟨hc,hn⟩ := hl.head_ne (fun t ht => hmark ⟨t,ht⟩) c (by simp [htext])
    have hsymbol {d : Char} (hd : d ∈ ['(','=','!','-']) : (Token.symbol [d]).after? (l.text ++ more) = none := by
      apply Token.after?_eq_none_of_text
      intro hprefix
      rw [htext] at hprefix
      exact hc ((List.cons_prefix_cons.mp hprefix).1 ▸ hd)
    have hword : (Token.word ['n','o','t']).after? (l.text ++ more) = none := by
      cases hw : l.isWord with
      | false =>
        apply Token.after?_eq_none_of_text
        intro hprefix
        rw [htext] at hprefix
        exact hn hw (List.cons_prefix_cons.mp hprefix).1.symm
      | true => cases l with
        | name text =>
          have hne : text ≠ ['n','o','t'] := of_decide_eq_true hatom
          exact Token.word_after?_name (List.all_eq_true.mp rfl) hl.isNameChar (hend rfl) hne.symm
        | mark t => exact absurd ⟨t,rfl⟩ hmark
        | digits _ => cases hw
        | decimal _ _ => cases hw
        | quoted _ _ => cases hw
    simp only [signs,List.forall_mem_cons]
    exact ⟨hsymbol (by simp),hword,hsymbol (by simp),by simp⟩

end SqlTemplate.Expr
