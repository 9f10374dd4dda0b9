import SqlTemplate.Proofs.Scan.Finish
/-!
# Outlines of template texts

A template text before its substitutions are replaced: its bind markers, with stretches between them in which
substitutions stand. A substitution counts as one character that is part of no delimiter. A text has exactly
one outline; what is substituted is literal when the markers of the outline are the spans of the text that is
written.
-/
namespace SqlTemplate
open Token

namespace Token
variable {α : Type}

/-- The character that a token counts as while markers are sought. -/
def shape : Token α → Char
  | .char c => c
  | .slot _ => '?'

private theorem eq_chars_of_map_shape {ts : List (Token α)} {cs : List Char} (h : ts.map shape = cs)
    (hc : '?' ∉ cs) : ts = chars cs := by
  induction ts generalizing cs with
  | nil =>
    obtain rfl : [] = cs := h
    rfl
  | cons t ts ih =>
    subst h
    simp only [List.map_cons,List.mem_cons,not_or] at hc
    cases t with
    | char c => exact congrArg (Token.char c :: ·) (ih rfl hc.2)
    | slot a => exact absurd rfl hc.1

private theorem map_shape_chars (cs : List Char) : (chars cs : List (Token α)).map shape = cs := by
  simp [chars,Function.comp_def,shape]

private theorem eq_chars_of_slots {ts : List (Token α)} (h : slots ts = []) : ts = chars (ts.map shape) := by
  induction ts with
  | nil => rfl
  | cons t ts ih =>
    cases t with
    | char c => exact congrArg (Token.char c :: ·) (ih (by simpa using h))
    | slot a => simp at h

end Token

@[ext] structure OutlineMarker where
  before : List (Token (List Char))
  content : List (Token (List Char))
  before_literal : ¬Unescaped ['#','{'] (before.map shape)
  before_end : endsInBackslash (before.map shape) = false
  content_closed : ¬Unescaped ['}'] (content.map shape)
  content_end : endsInBackslash (content.map shape) = false

/-- The markers of a template text, and what stands behind the last one. -/
@[ext] structure Outline where
  markers : List OutlineMarker
  tail : List (Token (List Char))
  tail_unmarked : Scanner.bindMarkers.spans (tail.map shape) = []

namespace OutlineMarker

def source (m : OutlineMarker) : List (Token (List Char)) :=
  m.before ++ .char '#' :: .char '{' :: (m.content ++ [.char '}'])

/-- The span of the marker, with every substitution as one character. -/
def span (m : OutlineMarker) : Span '#' where
  before := m.before.map shape
  content := m.content.map shape
  before_literal := m.before_literal
  before_end := m.before_end
  content_closed := m.content_closed
  content_end := m.content_end

private theorem map_shape_source (m : OutlineMarker) : m.source.map shape = m.span.source := by
  simp [source,span,Span.source,shape]

def filled (f : List Char → List Char) (m : OutlineMarker) : List Char × List Char :=
  (fill f m.before,fill f m.content)

theorem fill_source (f : List Char → List Char) (m : OutlineMarker) :
    fill f m.source = (m.filled f).1 ++ '#' :: '{' :: ((m.filled f).2 ++ ['}']) := by
  simp [source,filled]

end OutlineMarker

namespace Outline

def source (o : Outline) : List (Token (List Char)) := o.markers.flatMap OutlineMarker.source ++ o.tail

def cons (m : OutlineMarker) (o : Outline) : Outline := { o with markers := m :: o.markers }

@[simp] theorem source_cons (m : OutlineMarker) (o : Outline) : (cons m o).source = m.source ++ o.source := by
  simp [source,cons]

private theorem exists_reading (o : Outline) : ∃ r : Reading '#', r.source = o.source.map shape ∧
    r.spans = o.markers.map OutlineMarker.span := by
  obtain ⟨markers,tail,htail⟩ := o
  induction markers with
  | nil =>
    obtain ⟨r,hs,hp⟩ := Reading.exists_of_spans_eq_nil (x := '#') (by decide) (by decide) htail
    exact ⟨r,by simpa [source] using hs,by simpa using hp⟩
  | cons m ms ih =>
    obtain ⟨r,hs,hp⟩ := ih
    refine ⟨.cons m.span r,?_,by simp [Reading.cons,hp]⟩
    rw [Reading.source_cons,hs]
    simp [source,m.map_shape_source]

/-- Every template text has an outline. -/
theorem exists_source (ts : List (Token (List Char))) : ∃ o : Outline, o.source = ts := by
  obtain ⟨r,hr⟩ := Reading.exists_source (x := '#') (by decide) (ts.map shape)
  obtain ⟨spans,rest,unclosed,hrest,hun⟩ := r
  induction spans generalizing ts with
  | nil =>
    refine ⟨⟨[],ts,?_⟩,by simp [source]⟩
    have h := Reading.spans_rest (by decide) (by decide) .drop ⟨[],rest,unclosed,hrest,hun⟩
    simpa [← hr,Reading.source,bindMarkers_eq_braces] using h
  | cons p ps ih =>
    have hts : ts.map shape = p.before ++ (['#','{'] ++ (p.content ++ (['}'] ++
        (ps.flatMap Span.source ++ (rest ++ unclosed))))) := by
      simp [← hr,Reading.source,Span.source]
    obtain ⟨before,ts₁,rfl,hbefore,h₁⟩ := List.map_eq_append_iff.mp hts
    obtain ⟨opening,ts₂,rfl,hopening,h₂⟩ := List.map_eq_append_iff.mp h₁
    obtain ⟨content,ts₃,rfl,hcontent,h₃⟩ := List.map_eq_append_iff.mp h₂
    obtain ⟨closing,ts₄,rfl,hclosing,h₄⟩ := List.map_eq_append_iff.mp h₃
    obtain ⟨o,rfl⟩ := ih ts₄ (by simpa [Reading.source] using h₄.symm)
    obtain rfl := eq_chars_of_map_shape hopening (by decide)
    obtain rfl := eq_chars_of_map_shape hclosing (by decide)
    refine ⟨cons ⟨before,content,?_,?_,?_,?_⟩ o,?_⟩
    · rw [hbefore]; exact p.before_literal
    · rw [hbefore]; exact p.before_end
    · rw [hcontent]; exact p.content_closed
    · rw [hcontent]; exact p.content_end
    · simp [OutlineMarker.source]

private theorem markers_inj {ms ns : List OutlineMarker} {t u : List (Token (List Char))}
    (hs : ms.flatMap OutlineMarker.source ++ t = ns.flatMap OutlineMarker.source ++ u)
    (hp : ms.map OutlineMarker.span = ns.map OutlineMarker.span) : ms = ns ∧ t = u := by
  induction ms generalizing ns with
  | nil =>
    cases ns with
    | nil => exact ⟨rfl,by simpa using hs⟩
    | cons n ns => simp at hp
  | cons m ms ih =>
    cases ns with
    | nil => simp at hp
    | cons n ns =>
      simp only [List.map_cons,List.cons.injEq] at hp
      have hbefore : m.before.length = n.before.length := by
        simpa [OutlineMarker.span] using congrArg (List.length ∘ Span.before) hp.1
      have hcontent : m.content.length = n.content.length := by
        simpa [OutlineMarker.span] using congrArg (List.length ∘ Span.content) hp.1
      simp only [List.flatMap_cons,OutlineMarker.source,List.append_assoc,List.cons_append] at hs
      obtain ⟨hb,hs⟩ := List.append_inj hs hbefore
      simp only [List.cons.injEq,true_and] at hs
      obtain ⟨hc,hs⟩ := List.append_inj hs hcontent
      simp only [List.nil_append,List.cons.injEq,true_and] at hs
      obtain ⟨rfl,rfl⟩ := ih hs hp.2
      exact ⟨by rw [OutlineMarker.ext hb hc],rfl⟩

/-- A template text has no other outline. -/
theorem source_injective {o o' : Outline} (h : o.source = o'.source) : o = o' := by
  obtain ⟨r,hr,hp⟩ := o.exists_reading
  obtain ⟨r',hr',hp'⟩ := o'.exists_reading
  have hrr : r = r' := Reading.source_injective (by decide) (by decide) (by rw [hr,hr',h])
  obtain ⟨hm,ht⟩ := markers_inj h (by rw [← hp,← hp',hrr])
  exact Outline.ext hm ht

def Plain (o : Outline) : Prop := ∀ m ∈ o.markers, slots m.content = []

/-- The substituted texts are literal: with them every stretch still has no unescaped opening delimiter and
does not escape the marker behind it, and behind the last marker there is no span. -/
structure Literal (f : List Char → List Char) (o : Outline) : Prop where
  before : ∀ m ∈ o.markers, ¬Unescaped ['#','{'] (fill f m.before) ∧
    endsInBackslash (fill f m.before) = false
  tail : Scanner.bindMarkers.spans (fill f o.tail) = []

/-- The spans of the written text are the markers of the outline, each behind its own stretch. -/
def SpansAreMarkers (f : List Char → List Char) (o : Outline) : Prop :=
  ∃ r : Reading '#', r.source = fill f o.source ∧
    r.spans.map (fun p => (p.before,p.content)) = o.markers.map (OutlineMarker.filled f)

theorem Plain.fill_content {o : Outline} (h : o.Plain) (f : List Char → List Char) {m : OutlineMarker}
    (hm : m ∈ o.markers) : fill f m.content = m.content.map shape := by
  have hc := eq_chars_of_slots (h m hm)
  rw [hc,fill_chars,map_shape_chars]

/-- The markers of a template are what is found in the written text exactly when what is substituted is
literal. -/
theorem literal_iff {o : Outline} (h : o.Plain) (f : List Char → List Char) :
    o.Literal f ↔ o.SpansAreMarkers f := by
  constructor
  · intro hl
    obtain ⟨markers,tail,htail⟩ := o
    obtain ⟨hbefore,ht⟩ := hl
    induction markers with
    | nil =>
      obtain ⟨r,hs,hp⟩ := Reading.exists_of_spans_eq_nil (x := '#') (by decide) (by decide) ht
      exact ⟨r,by simpa [source] using hs,by simp [hp]⟩
    | cons m ms ih =>
      obtain ⟨r,hs,hp⟩ := ih (fun m' hm => h m' (List.mem_cons_of_mem m hm))
        (fun m' hm => hbefore m' (List.mem_cons_of_mem m hm)) ht
      have hc := h.fill_content f (m := m) (by simp)
      obtain ⟨hb,hl⟩ := hbefore m (by simp)
      have hclosed : ¬Unescaped ['}'] (fill f m.content) := by
        rw [hc]; exact m.content_closed
      have hend : endsInBackslash (fill f m.content) = false := by
        rw [hc]; exact m.content_end
      refine ⟨.cons ⟨fill f m.before,fill f m.content,hb,hl,hclosed,hend⟩ r,?_,?_⟩
      · rw [Reading.source_cons,hs]
        simp [source,Span.source,m.fill_source,OutlineMarker.filled]
      · simpa [Reading.cons,OutlineMarker.filled] using hp
  · rintro ⟨r,hs,hp⟩
    constructor
    · intro m hm
      have hmem : m.filled f ∈ r.spans.map fun p => (p.before,p.content) := by
        rw [hp]
        exact List.mem_map_of_mem hm
      obtain ⟨p,-,hpm⟩ := List.mem_map.mp hmem
      have hb : p.before = fill f m.before := congrArg Prod.fst hpm
      exact ⟨hb ▸ p.before_literal,hb ▸ p.before_end⟩
    · have hspans : r.spans.flatMap Span.source = o.markers.flatMap fun m => fill f m.source := by
        have hf := congrArg (List.flatMap fun q : List Char × List Char =>
          q.1 ++ '#' :: '{' :: (q.2 ++ ['}'])) hp
        simp only [List.flatMap_map] at hf
        simp only [OutlineMarker.fill_source]
        exact hf
      have htail : r.rest ++ r.unclosed = fill f o.tail := by
        have hf : fill f o.source = r.spans.flatMap Span.source ++ fill f o.tail := by
          simp [source,hspans,fill,List.flatMap_assoc]
        rw [Reading.source,hf] at hs
        exact List.append_cancel_left hs
      have hr := r.spans_rest (by decide) (by decide) .drop
      rwa [htail] at hr

end Outline
end SqlTemplate
