import SqlTemplate.Proofs.Scan.Escape
/-!
# The reading of a text

A text as the spans it is made of, said without a scan: stretches in which every opening delimiter is escaped,
contents in which every closing delimiter is escaped, and at the end a stretch and perhaps an opening
delimiter that is never closed. Every text has exactly one such reading, and a scan finds its spans.
-/
namespace SqlTemplate
open Text Token

/-- A span `x{content}` with the stretch of text before it, both as they are written. -/
@[ext] structure Span (x : Char) where
  before : List Char
  content : List Char
  before_literal : ¬Unescaped [x,'{'] before
  before_end : endsInBackslash before = false
  content_closed : ¬Unescaped ['}'] content
  content_end : endsInBackslash content = false

/-- Spans, a stretch behind the last one, and a tail that is empty or an opening delimiter that is not closed. -/
@[ext] structure Reading (x : Char) where
  spans : List (Span x)
  rest : List Char
  unclosed : List Char
  rest_literal : ¬Unescaped [x,'{'] rest
  unclosed_open : unclosed = [] ∨
    endsInBackslash rest = false ∧ ∃ tail, unclosed = x :: '{' :: tail ∧ ¬Unescaped ['}'] tail

namespace Span
variable {x : Char}

def source (p : Span x) : List Char := p.before ++ x :: '{' :: (p.content ++ ['}'])

def read (e : Escapes) (p : Span x) : List Char := e.read ['}'] p.content

def tokens (e : Escapes) (p : Span x) : List (Token (List Char)) :=
  chars (e.read [x,'{'] p.before) ++ [.slot (p.read e)]

end Span

namespace Reading
variable {x : Char}

def source (r : Reading x) : List Char := r.spans.flatMap Span.source ++ (r.rest ++ r.unclosed)

def contents (e : Escapes) (r : Reading x) : List (List Char) := r.spans.map (Span.read e)

/-- What stands behind the last span, as it is handed on. An unclosed span is kept as it is written. -/
def tail (e : Escapes) (r : Reading x) : List Char := e.read [x,'{'] r.rest ++ r.unclosed

def tokens (e : Escapes) (r : Reading x) : List (Token (List Char)) :=
  r.spans.flatMap (Span.tokens e) ++ chars (r.tail e)

@[simp] theorem slots_tokens (e : Escapes) (r : Reading x) : slots (r.tokens e) = r.contents e := by
  rw [tokens,slots_append,slots_chars,List.append_nil,contents]
  induction r.spans with
  | nil => rfl
  | cons p ps ih => simp [Span.tokens,ih]

def cons (p : Span x) (r : Reading x) : Reading x := { r with spans := p :: r.spans }

@[simp] theorem source_cons (p : Span x) (r : Reading x) : (cons p r).source = p.source ++ r.source := by
  simp [source,cons]

/-- Every text has a reading. -/
theorem exists_source (hx : x ≠ '\\') (cs : List Char) : ∃ r : Reading x, r.source = cs := by
  induction hn : cs.length using Nat.strongRecOn generalizing cs with
  | ind n ih =>
    subst hn
    by_cases ho : Unescaped [x,'{'] cs
    · obtain ⟨before,after,rfl,hl,hb⟩ := ho.first (unslashed_opening hx)
      by_cases hc : Unescaped ['}'] after
      · obtain ⟨content,rest,rfl,hcl,hcc⟩ := hc.first unslashed_closing
        obtain ⟨r,hr⟩ := ih rest.length (by simp; omega) rest rfl
        refine ⟨cons ⟨before,content,hb,hl,hcc,hcl⟩ r,?_⟩
        simp [Span.source,hr]
      · exact ⟨⟨[],before,x :: '{' :: after,hb,.inr ⟨hl,after,rfl,hc⟩⟩,by simp [source]⟩
    · exact ⟨⟨[],cs,[],ho,.inl rfl⟩,by simp [source]⟩

theorem tokens_spans (hx : x ≠ '\\') (hx' : x ≠ '{') (e : Escapes) (ps : List (Span x)) (more : List Char) :
    (Scanner.braces x e).tokens (ps.flatMap Span.source ++ more) =
      ps.flatMap (Span.tokens e) ++ (Scanner.braces x e).tokens more := by
  induction ps with
  | nil => rfl
  | cons p ps ih =>
    have ho : [x,'{'] <+: x :: '{' :: (p.content ++ '}' :: (ps.flatMap Span.source ++ more)) := ⟨_,rfl⟩
    have h := Scanner.tokens_append (e := e) hx hx' p.before_literal (.inr ⟨ho,p.before_end⟩)
    have hb := Scanner.body?_append (x := x) (e := e) p.content_closed p.content_end
      (ps.flatMap Span.source ++ more)
    rw [Scanner.tokens_opening hb,ih] at h
    simpa [Span.source,Span.tokens,Span.read] using h

/-- A scan finds the spans of the reading. -/
theorem tokens_source (hx : x ≠ '\\') (hx' : x ≠ '{') (e : Escapes) (r : Reading x) :
    (Scanner.braces x e).tokens r.source = r.tokens e := by
  have htail : (Scanner.braces x e).tokens (r.rest ++ r.unclosed) = chars (r.tail e) := by
    rcases r.unclosed_open with hu | ⟨hl,u,hu,hopen⟩
    · have h := Scanner.tokens_append (e := e) hx hx' r.rest_literal (.inl hu)
      rw [h,tail,hu]
      simp
    · have h := Scanner.tokens_append (e := e) hx hx' r.rest_literal (.inr ⟨⟨u,hu.symm⟩,hl⟩)
      rw [h,tail,hu,Scanner.tokens_unclosed (Scanner.body?_eq_none hopen)]
      simp
  rw [source,tokens_spans hx hx',htail,tokens]

private theorem chars_slot_inj {a b : List Char} {c d : List Char} {ts us : List (Token (List Char))}
    (h : chars a ++ .slot c :: ts = chars b ++ .slot d :: us) : a = b ∧ c = d ∧ ts = us := by
  induction a generalizing b with
  | nil => cases b <;> simp_all
  | cons y a ih =>
    cases b with
    | nil => simp at h
    | cons z b =>
      simp only [chars_cons,List.cons_append,List.cons.injEq,Token.char.injEq] at h
      obtain ⟨rfl,h⟩ := h
      obtain ⟨rfl,hr⟩ := ih h
      exact ⟨rfl,hr⟩

private theorem chars_inj {a b : List Char} (h : (chars a : List (Token (List Char))) = chars b) :
    a = b := by
  have hf := congrArg (fill id) h
  simpa using hf

private theorem spans_inj {ps qs : List (Span x)} {t u : List Char}
    (h : ps.flatMap (Span.tokens .keep) ++ chars t = qs.flatMap (Span.tokens .keep) ++ chars u) :
    ps = qs ∧ t = u := by
  induction ps generalizing qs with
  | nil =>
    cases qs with
    | nil => exact ⟨rfl,chars_inj (by simpa using h)⟩
    | cons q qs =>
      have hs := congrArg slots h
      simp [Span.tokens] at hs
  | cons p ps ih =>
    cases qs with
    | nil =>
      have hs := congrArg slots h
      simp [Span.tokens] at hs
    | cons q qs =>
      simp only [List.flatMap_cons,Span.tokens,Span.read,Escapes.read,List.append_assoc,
        List.cons_append,List.nil_append] at h
      obtain ⟨hb,hc,hr⟩ := chars_slot_inj h
      obtain ⟨rfl,htu⟩ := ih hr
      exact ⟨by rw [Span.ext hb hc],htu⟩

private theorem rest_eq_of_append (hx' : x ≠ '{') {r s : Reading x} {more : List Char}
    (hr : s.rest = r.rest ++ more) (hu : r.unclosed = more ++ s.unclosed) : more = [] := by
  rcases r.unclosed_open with h | ⟨hl,tail,h,-⟩
  · exact (List.append_eq_nil_iff.mp (hu.symm.trans h)).1
  · match more with
    | [] => rfl
    | [c] =>
      have hs : x = c ∧ '{' :: tail = s.unclosed := by simpa using h.symm.trans hu
      rcases s.unclosed_open with h' | ⟨-,tail',h',-⟩
      · simp [h'] at hs
      · simp [h',Ne.symm hx'] at hs
    | c :: d :: more =>
      have hs : x = c ∧ '{' = d ∧ tail = more ++ s.unclosed := by simpa using h.symm.trans hu
      obtain ⟨rfl,rfl,-⟩ := hs
      exact absurd ⟨r.rest,more,by simpa using hr,hl⟩ s.rest_literal

/-- A text has no other reading. -/
theorem source_injective (hx : x ≠ '\\') (hx' : x ≠ '{') {r s : Reading x}
    (h : r.source = s.source) : r = s := by
  have ht := congrArg (Scanner.braces x .keep).tokens h
  rw [tokens_source hx hx',tokens_source hx hx',tokens,tokens] at ht
  obtain ⟨hp,ht⟩ := spans_inj ht
  have hrest : r.rest = s.rest ∧ r.unclosed = s.unclosed := by
    simp only [tail,Escapes.read] at ht
    rcases List.append_eq_append_iff.mp ht with ⟨more,hr,hu⟩ | ⟨more,hr,hu⟩
    · obtain rfl := rest_eq_of_append hx' hr hu
      exact ⟨by simpa using hr.symm,by simpa using hu⟩
    · obtain rfl := rest_eq_of_append hx' hr hu
      exact ⟨by simpa using hr,by simpa using hu.symm⟩
  exact Reading.ext hp hrest.1 hrest.2

theorem exists_of_spans_eq_nil (hx : x ≠ '\\') (hx' : x ≠ '{') {e : Escapes} {cs : List Char}
    (h : (Scanner.braces x e).spans cs = []) : ∃ r : Reading x, r.source = cs ∧ r.spans = [] := by
  obtain ⟨r,rfl⟩ := exists_source hx cs
  rw [Scanner.spans_eq_slots,r.tokens_source hx hx',slots_tokens,contents] at h
  exact ⟨r,rfl,List.map_eq_nil_iff.mp h⟩

theorem spans_rest (hx : x ≠ '\\') (hx' : x ≠ '{') (e : Escapes) (r : Reading x) :
    (Scanner.braces x e).spans (r.rest ++ r.unclosed) = [] := by
  have hs : r.rest ++ r.unclosed = (⟨[],r.rest,r.unclosed,r.rest_literal,r.unclosed_open⟩ : Reading x).source := by
    simp [source]
  rw [hs,Scanner.spans_eq_slots,tokens_source hx hx',slots_tokens]
  rfl

end Reading
end SqlTemplate
