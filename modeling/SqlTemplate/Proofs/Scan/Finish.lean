import SqlTemplate.Proofs.Scan.Reading
import SqlTemplate.Proofs.Text.Trim
import SqlTemplate.Text.Shrink
/-!
# Trimmed and shrunk texts

Trimming and shrinking a text keep its spans in their order. Trimming keeps their contents; shrinking
shrinks each content by itself, under the quote that is open where the span stands.
-/
namespace SqlTemplate
namespace Text

/-- The quote that is open behind a text. -/
def quoteAfter : Option Char → List Char → Option Char
  | q, [] => q
  | some q, c :: cs => quoteAfter (if c = q then none else some q) cs
  | none, c :: cs => quoteAfter (if isQuote c then some c else none) cs

/-- What shrinking makes of a text behind which something that is not blank follows. `pending` says that
blanks were passed right before it. -/
def squeeze (pending : Bool) : Option Char → List Char → List Char
  | none, [] => if pending then [' '] else []
  | some _, [] => []
  | some q, c :: cs => c :: squeeze false (if c = q then none else some q) cs
  | none, c :: cs =>
    if isBlank c then squeeze true none cs
    else
      let rest := c :: squeeze false (if isQuote c then some c else none) cs
      if pending then ' ' :: rest else rest

def isSyntax (c : Char) : Bool := c = '#' || c = '{' || c = '}'

private theorem isBlank_of_isSyntax {c : Char} (h : isSyntax c = true) : isBlank c = false := by
  simp only [isSyntax,Bool.or_eq_true,decide_eq_true_eq] at h
  rcases h with (rfl | rfl) | rfl <;> decide

private theorem isQuote_of_isSyntax {c : Char} (h : isSyntax c = true) : isQuote c = false := by
  simp only [isSyntax,Bool.or_eq_true,decide_eq_true_eq] at h
  rcases h with (rfl | rfl) | rfl <;> decide

private theorem quoteAfter_append (q : Option Char) (a b : List Char) :
    quoteAfter q (a ++ b) = quoteAfter (quoteAfter q a) b := by
  induction a generalizing q with
  | nil => cases q <;> rfl
  | cons c a ih => cases q <;> exact ih _

def IsOpen (q : Option Char) : Prop := ∀ k, q = some k → isQuote k = true

theorem isOpen_none : IsOpen none := by simp [IsOpen]

theorem IsOpen.quoteAfter {q : Option Char} (h : IsOpen q) (cs : List Char) :
    IsOpen (quoteAfter q cs) := by
  induction cs generalizing q with
  | nil => cases q <;> exact h
  | cons c cs ih =>
    cases q with
    | some k =>
      refine ih ?_
      split
      · exact isOpen_none
      · exact h
    | none =>
      refine ih ?_
      split
      · next hc =>
        rintro k ⟨⟩
        exact hc
      · exact isOpen_none

theorem IsOpen.ne {k c : Char} (h : IsOpen (some k)) (hc : isSyntax c = true) : c ≠ k := by
  rintro rfl
  have hq := h c rfl
  simp [isQuote_of_isSyntax hc] at hq

private theorem quoteAfter_delimiter {q : Option Char} (hq : IsOpen q) {c : Char} (h : isSyntax c = true)
    (cs : List Char) : quoteAfter q (c :: cs) = quoteAfter q cs := by
  cases q with
  | none => simp [quoteAfter,isQuote_of_isSyntax h]
  | some k => simp [quoteAfter,hq.ne h]

private theorem shrinkFrom_delimiter {q : Option Char} (hq : IsOpen q) {c : Char} (h : isSyntax c = true)
    (cs : List Char) : shrinkFrom true false q (c :: cs) = c :: shrinkFrom true false q cs := by
  cases q with
  | none => simp [shrinkFrom,isBlank_of_isSyntax h,isQuote_of_isSyntax h]
  | some k => simp [shrinkFrom,hq.ne h]

private theorem quoteAfter_trimStart (cs : List Char) : quoteAfter none (trimStart cs) = quoteAfter none cs := by
  induction cs with
  | nil => rfl
  | cons c cs ih =>
    rw [trimStart_cons]
    cases hb : isBlank c with
    | false => rfl
    | true =>
      have hq : isQuote c = false := by
        cases hq : isQuote c with
        | false => rfl
        | true =>
          simp only [isQuote,Bool.or_eq_true,decide_eq_true_eq] at hq
          rcases hq with rfl | rfl <;> revert hb <;> decide
      simpa [quoteAfter,hq] using ih

theorem shrinkFrom_append (pending : Bool) (q : Option Char) (a : List Char) {c : Char} (hc : isBlank c = false)
    (b : List Char) : shrinkFrom true pending q (a ++ c :: b) =
      squeeze pending q a ++ shrinkFrom true false (quoteAfter q a) (c :: b) := by
  induction a generalizing pending q with
  | nil => cases q <;> cases pending <;> simp [shrinkFrom,squeeze,quoteAfter,hc]
  | cons d a ih =>
    cases q with
    | some k => simp [shrinkFrom,squeeze,quoteAfter,ih]
    | none =>
      cases hd : isBlank d with
      | true =>
        have hq : quoteAfter none (d :: a) = quoteAfter none a := by
          have h := quoteAfter_trimStart (d :: a)
          rwa [trimStart_cons,if_pos hd,quoteAfter_trimStart,eq_comm] at h
        simp [shrinkFrom,squeeze,hd,hq,ih]
      | false => cases pending <;> simp [shrinkFrom,squeeze,quoteAfter,hd,ih]

private theorem shrinkFrom_prefix_squeeze (pending : Bool) (q : Option Char) (cs : List Char) :
    shrinkFrom true pending q cs <+: squeeze pending q cs := by
  induction cs generalizing pending q with
  | nil => cases q <;> simp [shrinkFrom]
  | cons c cs ih =>
    cases q with
    | some k => simpa [shrinkFrom,squeeze] using ih _ _
    | none =>
      cases hc : isBlank c with
      | true => simpa [shrinkFrom,squeeze,hc] using ih true none
      | false => cases pending <;> simpa [shrinkFrom,squeeze,hc] using ih false _

theorem shrink_eq (cs : List Char) : shrink cs = shrinkFrom true false none (trimStart cs) := by
  have hblank (p : Bool) : shrinkFrom false p none cs = shrinkFrom true false none (trimStart cs) := by
    induction cs generalizing p with
    | nil => rfl
    | cons c cs ih =>
      rw [trimStart_cons]
      cases hc : isBlank c with
      | true => simpa [shrinkFrom,hc] using ih true
      | false => simp [shrinkFrom,hc]
  exact hblank false

private theorem squeeze_true_ne_nil (cs : List Char) : squeeze true none cs ≠ [] := by
  induction cs with
  | nil => simp [squeeze]
  | cons c cs ih =>
    cases hc : isBlank c with
    | true => simpa [squeeze,hc] using ih
    | false => simp [squeeze,hc]

private theorem squeeze_eq_nil {q : Option Char} {cs : List Char} (h : squeeze false q cs = []) : cs = [] := by
  cases cs with
  | nil => rfl
  | cons c cs =>
    cases q with
    | some k => simp [squeeze] at h
    | none =>
      cases hc : isBlank c with
      | true => simp [squeeze,hc,squeeze_true_ne_nil] at h
      | false => simp [squeeze,hc] at h

private theorem endsInBackslash_squeeze {pending : Bool} {q : Option Char} {cs : List Char}
    (h : endsInBackslash cs = false) : endsInBackslash (squeeze pending q cs) = false := by
  have hkeep {c : Char} {cs : List Char} {q : Option Char} (h : endsInBackslash (c :: cs) = false)
      (ih : endsInBackslash (squeeze false q cs) = false) :
      endsInBackslash (c :: squeeze false q cs) = false := by
    by_cases hn : squeeze false q cs = []
    · rw [hn]
      rwa [squeeze_eq_nil hn] at h
    · rwa [endsInBackslash_cons hn]
  induction cs generalizing pending q with
  | nil => cases q <;> cases pending <;> simp [squeeze,endsInBackslash]
  | cons c cs ih =>
    have hcs := endsInBackslash_right (a := [c]) h
    cases q with
    | some k => exact hkeep h (ih hcs)
    | none =>
      cases hc : isBlank c with
      | true => simpa [squeeze,hc] using ih hcs
      | false =>
        cases pending with
        | false => simpa [squeeze,hc] using hkeep h (ih hcs)
        | true =>
          have hk : endsInBackslash (c :: squeeze false (if isQuote c then some c else none) cs) = false :=
            hkeep h (ih hcs)
          simpa [squeeze,hc,endsInBackslash_cons] using hk

section Delimiter
variable {d : List Char} (hb : ∀ c ∈ d, isBlank c = false)

private theorem squeeze_true_cons (cs : List Char) : ∃ rest, squeeze true none cs = ' ' :: rest := by
  induction cs with
  | nil => exact ⟨[],rfl⟩
  | cons c cs ih =>
    cases hc : isBlank c with
    | true => simpa [squeeze,hc] using ih
    | false => exact ⟨c :: squeeze false (if isQuote c then some c else none) cs,by simp [squeeze,hc]⟩

include hb in
private theorem not_prefix_blank {c : Char} {cs : List Char} (hd : d ≠ []) (hc : isBlank c = true) :
    ¬d <+: c :: cs := by
  cases d with
  | nil => exact absurd rfl hd
  | cons x d =>
    rintro ⟨t,ht⟩
    obtain ⟨rfl,-⟩ := List.cons.inj ht
    simp [hb x (by simp)] at hc

include hb in
private theorem prefix_of_squeeze {q : Option Char} {cs : List Char} (h : d <+: squeeze false q cs) :
    d <+: cs := by
  induction d generalizing q cs with
  | nil => exact List.nil_prefix
  | cons x d ih =>
    have hrest := fun c hc => hb c (List.mem_cons_of_mem x hc)
    cases cs with
    | nil => cases q <;> simp [squeeze] at h
    | cons c cs =>
      have hkeep {q : Option Char} (h : x :: d <+: c :: squeeze false q cs) : x :: d <+: c :: cs := by
        obtain ⟨rfl,h'⟩ := List.cons_prefix_cons.mp h
        exact List.cons_prefix_cons.mpr ⟨rfl,ih hrest h'⟩
      cases q with
      | some k => exact hkeep h
      | none =>
        cases hc : isBlank c with
        | true =>
          obtain ⟨rest,hr⟩ := squeeze_true_cons cs
          simp only [squeeze,hc,ite_true,hr] at h
          exact absurd h (not_prefix_blank hb (by simp) (by decide))
        | false => exact hkeep (by simpa [squeeze,hc] using h)

include hb in
theorem prefix_of_cons_squeeze {q : Option Char} {c : Char} {cs : List Char}
    (h : d <+: c :: squeeze false q cs) : d <+: c :: cs := by
  cases d with
  | nil => exact List.nil_prefix
  | cons x d =>
    obtain ⟨rfl,h'⟩ := List.cons_prefix_cons.mp h
    exact List.cons_prefix_cons.mpr
      ⟨rfl,prefix_of_squeeze (fun c hc => hb c (List.mem_cons_of_mem x hc)) h'⟩

include hb in
private theorem hasUnescaped_blank (hd : d ≠ []) {escaped : Bool} {c : Char} (hc : isBlank c = true)
    (cs : List Char) : hasUnescaped d escaped (c :: cs) = hasUnescaped d false cs := by
  have hp : d.isPrefixOf (c :: cs) = false := by
    rw [Bool.eq_false_iff]
    intro h
    exact not_prefix_blank hb hd hc (List.isPrefixOf_iff_prefix.mp h)
  have hs : c ≠ '\\' := by
    rintro rfl
    revert hc
    decide
  simp [hasUnescaped,hp,hs]

/-- Squeezing a text makes no new delimiter and frees none of its backslash. -/
theorem hasUnescaped_of_squeeze (hd : d ≠ []) (hb : ∀ c ∈ d, isBlank c = false)
    {escaped pending : Bool} {q : Option Char} {cs : List Char}
    (h : hasUnescaped d escaped (squeeze pending q cs) = true) :
    hasUnescaped d (escaped && !pending) cs = true := by
  induction cs generalizing escaped pending q with
  | nil =>
    have hn (escaped : Bool) : hasUnescaped d escaped [] = false := by
      cases d with
      | nil => exact absurd rfl hd
      | cons x d => simp [hasUnescaped]
    have hs : hasUnescaped d escaped [' '] = false := by
      rw [hasUnescaped_blank hb hd (by decide),hn]
    cases q <;> cases pending <;> simp [squeeze,hn,hs] at h
  | cons c cs ih =>
    have hkeep {escaped : Bool} {q : Option Char}
        (h : hasUnescaped d escaped (c :: squeeze false q cs) = true) :
        hasUnescaped d escaped (c :: cs) = true := by
      simp only [hasUnescaped,Bool.or_eq_true,Bool.and_eq_true,List.isPrefixOf_iff_prefix] at h ⊢
      rcases h with ⟨he,hp⟩ | hr
      · exact .inl ⟨he,prefix_of_cons_squeeze hb hp⟩
      · exact .inr (by simpa using ih hr)
    cases q with
    | some k =>
      have hk := hkeep h
      cases pending with
      | false => simpa using hk
      | true => simpa using hasUnescaped_weaken hk
    | none =>
      cases hc : isBlank c with
      | true =>
        have hi : hasUnescaped d (escaped && !true) cs = true := by
          refine ih (q := none) ?_
          simpa [squeeze,hc] using h
        rw [hasUnescaped_blank hb hd hc]
        simpa using hi
      | false =>
        cases pending with
        | false => simpa using hkeep (by simpa [squeeze,hc] using h)
        | true =>
          simp only [squeeze,hc,Bool.false_eq_true,ite_false,ite_true] at h
          rw [hasUnescaped_blank hb hd (by decide)] at h
          simpa using hkeep h

end Delimiter

private theorem blank_free_opening : ∀ c ∈ ['#','{'], isBlank c = false := by
  intro c hc
  simp only [List.mem_cons,List.not_mem_nil,or_false] at hc
  rcases hc with rfl | rfl <;> decide

private theorem blank_free_closing : ∀ c ∈ ['}'], isBlank c = false := by
  intro c hc
  obtain rfl := List.mem_singleton.mp hc
  decide

private theorem unescaped_of_squeeze {d : List Char} (hd : d ≠ []) (hb : ∀ c ∈ d, isBlank c = false)
    {pending : Bool} {q : Option Char} {cs : List Char} (h : Unescaped d (squeeze pending q cs)) :
    Unescaped d cs := by
  have hs := hasUnescaped_of_squeeze hd hb (unescaped_iff.mp h)
  exact unescaped_iff.mpr (by simpa using hs)

private theorem unescaped_of_shrinkFrom {d : List Char} (hd : d ≠ []) (hb : ∀ c ∈ d, isBlank c = false)
    {pending : Bool} {q : Option Char} {cs : List Char}
    (h : Unescaped d (shrinkFrom true pending q cs)) : Unescaped d cs := by
  obtain ⟨rest,hr⟩ := shrinkFrom_prefix_squeeze pending q cs
  exact unescaped_of_squeeze hd hb (hr ▸ h.append_right rest)

theorem endsInBackslash_of_allBlank {gap : List Char} (h : allBlank gap = true) : endsInBackslash gap = false :=
  endsInBackslash_of_not_mem (not_mem_of_allBlank h (by decide))

end Text

open Text

namespace Span

/-- A span in a shrunk text, behind a stretch that begins under the quote `q`. -/
def squeeze (q : Option Char) (p : Span '#') : Span '#' where
  before := Text.squeeze false q p.before
  content := Text.squeeze false (quoteAfter q p.before) p.content
  before_literal h := p.before_literal (unescaped_of_squeeze (by simp) blank_free_opening h)
  before_end := endsInBackslash_squeeze p.before_end
  content_closed h := p.content_closed (unescaped_of_squeeze (by simp) blank_free_closing h)
  content_end := endsInBackslash_squeeze p.content_end

def squeezeAll : Option Char → List (Span '#') → List (Span '#')
  | _, [] => []
  | q, p :: ps => p.squeeze q :: squeezeAll (quoteAfter q p.source) ps

def quotes : Option Char → List (Span '#') → List (Option Char)
  | _, [] => []
  | q, p :: ps => quoteAfter q p.before :: quotes (quoteAfter q p.source) ps

private theorem content_squeezeAll (q : Option Char) (ps : List (Span '#')) :
    (squeezeAll q ps).map content = List.zipWith (Text.squeeze false) (quotes q ps) (ps.map content) := by
  induction ps generalizing q with
  | nil => rfl
  | cons p ps ih => simp [squeezeAll,quotes,squeeze,ih]

theorem shrinkFrom_source {q : Option Char} (hq : IsOpen q) (p : Span '#') (more : List Char) :
    shrinkFrom true false q (p.source ++ more) =
      (p.squeeze q).source ++ shrinkFrom true false (quoteAfter q p.source) more := by
  have hbefore := hq.quoteAfter p.before
  have hcontent := hbefore.quoteAfter p.content
  have hafter : quoteAfter q p.source = quoteAfter (quoteAfter q p.before) p.content := by
    rw [source,quoteAfter_append,quoteAfter_delimiter hbefore (by decide),
      quoteAfter_delimiter hbefore (by decide),quoteAfter_append,quoteAfter_delimiter hcontent (by decide)]
    cases quoteAfter (quoteAfter q p.before) p.content <;> rfl
  have hsource : p.source ++ more = p.before ++ '#' :: '{' :: (p.content ++ '}' :: more) := by simp [source]
  rw [hsource,shrinkFrom_append _ _ _ (by decide),shrinkFrom_delimiter hbefore (by decide),
    shrinkFrom_delimiter hbefore (by decide),shrinkFrom_append _ _ _ (by decide),
    shrinkFrom_delimiter hcontent (by decide),hafter]
  simp [source,squeeze]

end Span

namespace Reading

private theorem exists_shrunk {q : Option Char} (hq : IsOpen q) (r : Reading '#') : ∃ r' : Reading '#',
    r'.source = shrinkFrom true false q r.source ∧ r'.spans = Span.squeezeAll q r.spans := by
  obtain ⟨spans,rest,unclosed,hrest,hun⟩ := r
  induction spans generalizing q with
  | nil =>
    rcases hun with rfl | ⟨hl,tail,rfl,ht⟩
    · refine ⟨⟨[],shrinkFrom true false q rest,[],?_,.inl rfl⟩,by simp [source],rfl⟩
      intro h
      exact hrest (unescaped_of_shrinkFrom (by simp) blank_free_opening h)
    · have hrest' := hq.quoteAfter rest
      refine ⟨⟨[],Text.squeeze false q rest,
        '#' :: '{' :: shrinkFrom true false (quoteAfter q rest) tail,?_,.inr ⟨?_,_,rfl,?_⟩⟩,?_,rfl⟩
      · intro h
        exact hrest (unescaped_of_squeeze (by simp) blank_free_opening h)
      · exact endsInBackslash_squeeze hl
      · intro h
        exact ht (unescaped_of_shrinkFrom (by simp) blank_free_closing h)
      · simp only [source,List.flatMap_nil,List.nil_append]
        rw [shrinkFrom_append _ _ _ (by decide),shrinkFrom_delimiter hrest' (by decide),
          shrinkFrom_delimiter hrest' (by decide)]
  | cons p ps ih =>
    obtain ⟨r',hs,hp⟩ := ih (hq.quoteAfter p.source)
    refine ⟨cons (p.squeeze q) r',?_,?_⟩
    · rw [source_cons,hs]
      simp only [source,List.flatMap_cons,List.append_assoc]
      rw [p.shrinkFrom_source hq]
    · simp [cons,hp,Span.squeezeAll]

private theorem literal_trimStart {x : Char} {cs : List Char} (h : ¬Unescaped [x,'{'] cs) :
    ¬Unescaped [x,'{'] (trimStart cs) := by
  obtain ⟨blanks,hcs,hb⟩ := exists_trimStart cs
  intro hu
  exact h (hcs ▸ hu.append_left blanks (endsInBackslash_of_allBlank hb))

private theorem endsInBackslash_trimStart {cs : List Char} (h : endsInBackslash cs = false) :
    endsInBackslash (trimStart cs) = false := by
  obtain ⟨blanks,hcs,-⟩ := exists_trimStart cs
  exact endsInBackslash_right (a := blanks) (hcs ▸ h)

theorem exists_trimStart (r : Reading '#') : ∃ r' : Reading '#', r'.source = trimStart r.source ∧
    r'.spans.map Span.content = r.spans.map Span.content ∧
    Span.quotes none r'.spans = Span.quotes none r.spans := by
  obtain ⟨spans,rest,unclosed,hrest,hun⟩ := r
  cases spans with
  | nil =>
    rcases hun with rfl | ⟨hl,tail,rfl,ht⟩
    · exact ⟨⟨[],trimStart rest,[],literal_trimStart hrest,.inl rfl⟩,by simp [source],rfl,rfl⟩
    · refine ⟨⟨[],trimStart rest,'#' :: '{' :: tail,literal_trimStart hrest,
        .inr ⟨endsInBackslash_trimStart hl,tail,rfl,ht⟩⟩,?_,rfl,rfl⟩
      simp only [source,List.flatMap_nil,List.nil_append]
      rw [trimStart_append (by decide)]
  | cons p ps =>
    obtain ⟨before,content,hb,hl,hc,hcl⟩ := p
    have hsource : trimStart (before ++ '#' :: ('{' :: (content ++ ['}']))) =
        trimStart before ++ '#' :: '{' :: (content ++ ['}']) := trimStart_append (by decide) _ _
    have hquote := quoteAfter_trimStart (before ++ '#' :: '{' :: (content ++ ['}']))
    rw [hsource] at hquote
    refine ⟨⟨⟨trimStart before,content,literal_trimStart hb,endsInBackslash_trimStart hl,hc,hcl⟩ :: ps,
      rest,unclosed,hrest,hun⟩,?_,rfl,?_⟩
    · simp only [source,Span.source,List.flatMap_cons,List.append_assoc,List.cons_append]
      rw [trimStart_append (by decide)]
    · simp only [Span.quotes,Span.source,quoteAfter_trimStart,hquote]

theorem exists_trimEnd (r : Reading '#') : ∃ r' : Reading '#', r'.source = trimEnd r.source ∧
    r'.spans = r.spans := by
  obtain ⟨spans,rest,unclosed,hrest,hun⟩ := r
  induction spans with
  | nil =>
    rcases hun with rfl | ⟨hl,tail,rfl,ht⟩
    · obtain ⟨more,hm⟩ := trimEnd_prefix rest
      refine ⟨⟨[],trimEnd rest,[],?_,.inl rfl⟩,by simp [source],rfl⟩
      intro hu
      exact hrest (hm ▸ hu.append_right more)
    · obtain ⟨more,hm⟩ := trimEnd_prefix tail
      refine ⟨⟨[],rest,'#' :: '{' :: trimEnd tail,hrest,.inr ⟨hl,_,rfl,?_⟩⟩,?_,rfl⟩
      · intro hu
        exact ht (hm ▸ hu.append_right more)
      · have htail : trimEnd ('{' :: tail) = '{' :: trimEnd tail := trimEnd_append (by decide) [] tail
        simp only [source,List.flatMap_nil,List.nil_append]
        rw [trimEnd_append (by decide),htail]
  | cons p ps ih =>
    obtain ⟨r',hs,hp⟩ := ih
    refine ⟨cons p r',?_,by simp [cons,hp]⟩
    have hsource (more : List Char) :
        p.source ++ more = (p.before ++ '#' :: '{' :: p.content) ++ '}' :: more := by simp [Span.source]
    rw [source_cons,hs]
    simp only [source,List.flatMap_cons,List.append_assoc]
    rw [hsource,hsource,trimEnd_append (by decide)]

def finishedContents (shrinking : Bool) (r : Reading '#') : List (List Char) :=
  if shrinking then
    List.zipWith (Text.squeeze false) (Span.quotes none r.spans) (r.spans.map Span.content)
  else r.spans.map Span.content

/-- Finishing a text keeps its spans: a content is kept, or shrunk under the quote that is open there. -/
theorem spans_finish (shrinking : Bool) (r : Reading '#') :
    Scanner.bindMarkers.spans (if shrinking then shrink (trim r.source) else trim r.source) =
      (r.finishedContents shrinking).map (dropEscapes ['}']) := by
  obtain ⟨r₁,hs₁,hc₁,hq₁⟩ := r.exists_trimStart
  obtain ⟨r₂,hs₂,hp₂⟩ := r₁.exists_trimEnd
  have htrim : trim r.source = r₂.source := by rw [hs₂,hs₁,trim]
  have hspans (r : Reading '#') :
      Scanner.bindMarkers.spans r.source = (r.spans.map Span.content).map (dropEscapes ['}']) := by
    rw [Scanner.spans_eq_slots,bindMarkers_eq_braces,r.tokens_source (by decide) (by decide),
      slots_tokens,contents,List.map_map]
    rfl
  cases shrinking with
  | false => simp [htrim,hspans,hp₂,hc₁,finishedContents]
  | true =>
    obtain ⟨r₃,hs₃,hc₃,hq₃⟩ := r₂.exists_trimStart
    obtain ⟨r₄,hs₄,hp₄⟩ := r₃.exists_shrunk isOpen_none
    have hshrink : shrink (trim r.source) = r₄.source := by rw [hs₄,hs₃,shrink_eq,htrim]
    simp [hshrink,hspans,hp₄,Span.content_squeezeAll,hq₃,hc₃,hp₂,hq₁,hc₁,finishedContents]

end Reading
end SqlTemplate
