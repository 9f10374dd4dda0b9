import SqlTemplate.Proofs.Marker.Shrinking
import SqlTemplate.Proofs.Placeholder.Inference
import SqlTemplate.Proofs.Placeholder.Settled
import SqlTemplate.Proofs.Template.Static
/-!
# Shrinking and parameters

A rendering does not depend on whether whitespace is shrunk. The rendered text keeps its markers in their order, but
each content is shrunk like any other piece of text, under the quote that is open there. So the parameters stay the
same exactly when every shrunk content is described like the one that was written.
-/
namespace SqlTemplate
open Text

def Configuration.shrinking (c : Configuration) (shrinking : Bool) : Configuration :=
  { c with shrinkWhitespace := shrinking }

namespace Node
variable {c c' : Configuration}

private theorem substitute_congr (he : c.evaluator = c'.evaluator) (hf : c.injectionFilter = c'.injectionFilter) :
    substitute c = substitute c' := by
  funext b content
  simp only [substitute,he,hf]

mutual

private theorem render_congr (he : c.evaluator = c'.evaluator) (hf : c.injectionFilter = c'.injectionFilter) :
    (root : Node) → root.render c = root.render c'
  | .text s => by
    funext env
    simp only [render,renderText,substitute_congr he hf]
  | .conditional test body => by
    funext env
    simp only [render,renderConditional,he,render_congr he hf body]
  | .repetition r body => by
    funext env
    simp only [render,renderRepetition,he,render_congr he hf body]
  | .trim t body => by
    funext env
    simp only [render,render_congr he hf body]
  | .sequence nodes => by
    funext env
    simp only [render,renderAll_congr he hf nodes]

private theorem renderAll_congr (he : c.evaluator = c'.evaluator) (hf : c.injectionFilter = c'.injectionFilter) :
    (nodes : List Node) → renderAll c nodes = renderAll c' nodes
  | [] => by
    funext env
    simp only [renderAll]
  | n :: ns => by
    funext env
    simp only [renderAll,render_congr he hf n,renderAll_congr he hf ns]

end

end Node

namespace Text

private theorem isOpen_quote (c : Char) : IsOpen (if isQuote c then some c else none) := by
  split
  · next hc =>
    rintro k ⟨⟩
    exact hc
  · exact isOpen_none

private theorem dropEscapes_squeeze (cs : List Char) (pending : Bool) {q : Option Char} (hq : IsOpen q) :
    dropEscapes ['}'] (squeeze pending q cs) = squeeze pending q (dropEscapes ['}'] cs) := by
  have hslash : isBlank '\\' = false ∧ isQuote '\\' = false := by decide
  have hbrace : isBlank '}' = false ∧ isQuote '}' = false := by decide
  have hblank : ∀ c ∈ ['\\','}'], isBlank c = false := by simp [hslash,hbrace]
  have hspace (cs : List Char) : dropEscapes ['}'] (' ' :: cs) = ' ' :: dropEscapes ['}'] cs :=
    dropEscapes_cons (by simp)
  induction cs using escapeInduction ['}'] generalizing pending q with
  | nil => cases q <;> cases pending <;> rfl
  | escaped cs ih =>
    have hescaped (cs : List Char) : dropEscapes ['}'] ('\\' :: '}' :: cs) = '}' :: dropEscapes ['}'] cs :=
      dropEscapes_escaped unslashed_closing cs
    rw [List.singleton_append,hescaped]
    cases q with
    | some k =>
      have hne : '\\' ≠ k := by
        rintro rfl
        rw [hq _ rfl] at hslash
        exact absurd hslash.2 (by decide)
      have hne' : '}' ≠ k := hq.ne (by decide)
      simp [squeeze,hne,hne',hescaped,ih false hq]
    | none =>
      cases pending <;> simp [squeeze,hslash,hbrace,hescaped,hspace,ih false hq]
  | other c cs h ih =>
    have hkeep {q : Option Char} (hq : IsOpen q) : dropEscapes ['}'] (c :: squeeze false q cs) =
        c :: squeeze false q (dropEscapes ['}'] cs) := by
      have hno : ¬ '\\' :: ['}'] <+: c :: squeeze false q cs := fun hp => h (prefix_of_cons_squeeze hblank hp)
      rw [dropEscapes_cons hno,ih false hq]
    rw [dropEscapes_cons h]
    cases q with
    | some k =>
      have hafter : IsOpen (if c = k then none else some k) := by
        split
        · exact isOpen_none
        · exact hq
      simpa only [squeeze] using hkeep hafter
    | none =>
      by_cases hc : isBlank c = true
      · simpa [squeeze,hc] using ih true hq
      · cases pending <;> simp [squeeze,hc,hspace,hkeep (isOpen_quote c)]

end Text

namespace Span

private theorem isOpen_quotes {q : Option Char} (hq : IsOpen q) (ps : List (Span '#')) :
    ∀ k ∈ quotes q ps, IsOpen k := by
  induction ps generalizing q with
  | nil => simp [quotes]
  | cons p ps ih =>
    intro k hk
    rcases List.mem_cons.mp hk with rfl | hk
    · exact hq.quoteAfter p.before
    · exact ih (hq.quoteAfter p.source) k hk

private theorem length_quotes (q : Option Char) (ps : List (Span '#')) : (quotes q ps).length = ps.length := by
  induction ps generalizing q with
  | nil => rfl
  | cons p ps ih => simp [quotes,ih]

end Span

/-- The contents of the markers of a finished text: those that are written, or each shrunk under the quote that is
open where its marker stands. -/
theorem Reading.contents_finish (shrinking : Bool) (r : Reading '#') :
    Scanner.bindMarkers.spans (if shrinking then shrink (trim r.source) else trim r.source) =
      if shrinking then List.zipWith (squeeze false) (Span.quotes none r.spans) (r.contents .drop)
      else r.contents .drop := by
  rw [r.spans_finish]
  cases shrinking with
  | false => simp [finishedContents,contents,Function.comp_def,Span.read,Escapes.read]
  | true =>
    have hdrop (qs : List (Option Char)) (hqs : ∀ k ∈ qs, IsOpen k) (contents : List (List Char)) :
        (List.zipWith (squeeze false) qs contents).map (dropEscapes ['}']) =
          List.zipWith (squeeze false) qs (contents.map (dropEscapes ['}'])) := by
      induction contents generalizing qs with
      | nil => simp
      | cons content contents ih =>
        cases qs with
        | nil => rfl
        | cons q qs =>
          have hrest := ih qs fun k hk => hqs k (List.mem_cons_of_mem q hk)
          simp [hrest,dropEscapes_squeeze content false (hqs q (by simp))]
    have hcontents : r.contents .drop = (r.spans.map Span.content).map (dropEscapes ['}']) := by
      simp [contents,Function.comp_def,Span.read,Escapes.read]
    simp only [finishedContents,ite_true,hdrop _ (Span.isOpen_quotes isOpen_none r.spans),hcontents]

section Options
variable {α : Type} {l l' : List (Option α)}

private theorem mapM_id_eq_none : l.mapM id = none ↔ none ∈ l := by
  induction l with
  | nil => simp
  | cons o l ih =>
    rw [List.mapM_cons]
    cases o with
    | none => simp
    | some a => cases hl : l.mapM id <;> simp_all

private theorem mapM_id_eq_some (xs : List α) : l.mapM id = some xs ↔ l = xs.map some := by
  induction l generalizing xs with
  | nil => cases xs <;> simp
  | cons o l ih =>
    rw [List.mapM_cons]
    cases o with
    | none => cases xs <;> simp
    | some a =>
      cases xs with
      | nil => cases l.mapM id <;> simp
      | cons x xs =>
        have hrest := ih xs
        cases hl : l.mapM id <;> simp_all

private theorem mapM_id_eq_iff : l.mapM id = l'.mapM id ↔ l = l' ∨ (none ∈ l ∧ none ∈ l') := by
  constructor
  · intro h
    cases hl : l.mapM id with
    | none => exact .inr ⟨mapM_id_eq_none.mp hl,mapM_id_eq_none.mp (h ▸ hl)⟩
    | some xs => exact .inl (((mapM_id_eq_some xs).mp hl).trans ((mapM_id_eq_some xs).mp (h ▸ hl)).symm)
  · rintro (rfl | ⟨h,h'⟩)
    · rfl
    · rw [mapM_id_eq_none.mpr h,mapM_id_eq_none.mpr h']

end Options

namespace MarkerScope
variable {s : MarkerScope}

/-- What contents are described by from a position on, each by itself. -/
def described (s : MarkerScope) : Nat → List (List Char) → List (Option ParameterMapping)
  | _, [] => []
  | n, content :: contents => (s.describe n content).toOption :: s.described (n+1) contents

private theorem describeAll_toOption (s : MarkerScope) (n : Nat) (contents : List (List Char)) :
    (s.describeAll n contents).toOption = (s.described n contents).mapM id := by
  induction contents generalizing n with
  | nil => rfl
  | cons content contents ih =>
    rw [describeAll,toOption_bind,described,List.mapM_cons]
    congr 1
    funext m
    rw [toOption_bind,ih]
    rfl

private theorem described_squeeze {qs : List (Option Char)} (hqs : ∀ q ∈ qs, IsOpen q) {contents : List (List Char)}
    (hlength : qs.length = contents.length) (h : ∀ content ∈ contents, Marker.Compact content) (n : Nat) :
    s.described n (List.zipWith (squeeze false) qs contents) = s.described n contents := by
  induction contents generalizing qs n with
  | nil =>
    obtain rfl : qs = [] := List.eq_nil_of_length_eq_zero hlength
    rfl
  | cons content contents ih =>
    cases qs with
    | nil => simp at hlength
    | cons q qs =>
      have hrest := ih (fun k hk => hqs k (List.mem_cons_of_mem q hk)) (by simpa using hlength)
        (fun w hw => h w (List.mem_cons_of_mem content hw)) (n+1)
      have hparse := Marker.parse_squeeze (h content (by simp)) (hqs q (by simp))
      rw [List.zipWith_cons_cons,described,described,hrest,s.describe_toOption,s.describe_toOption,hparse]

end MarkerScope

namespace Template

section Parameters
variable (c : Configuration) (root : Node) (declared : Option ValueType) (argument : Value)

def parameters : Option (List ParameterMapping × List BoundValue) :=
  ((ofNode c root declared).bind (·.compile c argument)).toOption.map fun b => (b.mappings,b.boundValues c)

def rendering : Rendered := root.render c (.ofArgument argument c.databaseId)

/-- What the markers of a body are read against: the argument and its bindings, unless the body is static. -/
def markerScope : MarkerScope :=
  if root.isDynamic then
    ⟨c,argumentType (declared.getD .any) argument,some (rendering c root argument).env.bindings⟩
  else ⟨c,declared.getD .any,none⟩

def valueScope : BoundSql :=
  ⟨"",[],if root.isDynamic then (rendering c root argument).env.bindings else .empty,argument⟩

def descriptions : List (Option ParameterMapping) :=
  (markerScope c root declared argument).described 0 (markers c root argument)

private theorem parameters_eq : parameters c root declared argument =
    (rendering c root argument).outcome.toOption.bind fun _ =>
      ((descriptions c root declared argument).mapM id).map
        fun mappings => (mappings,mappings.map ((valueScope c root argument).boundValue c)) := by
  have hmap (s : MarkerScope) (text : List Char) (f : MappedSql → BoundSql) :
      ((s.mapMarkers text).map f).toOption =
        ((s.described 0 (Scanner.bindMarkers.spans text)).mapM id).map fun mappings =>
          f ⟨s.config.dialect.place 0 (Scanner.bindMarkers.tokens text),mappings⟩ := by
    rw [s.mapMarkers_eq,← s.describeAll_toOption]
    cases s.describeAll 0 (Scanner.bindMarkers.spans text) <;> rfl
  cases h : root.isDynamic with
  | false =>
    have hrendered := Node.render_of_static c (.ofArgument argument c.databaseId) root h
    have hmarkers : markers c root argument = Scanner.bindMarkers.spans (root.joinedText c) := by
      simp [markers,Context.apply,Context.ofArgument,Context.sql,hrendered,Node.joinedText,Rendered.text]
    rw [parameters,compile_of_static c root declared argument h,hmap,descriptions,hmarkers,rendering,hrendered]
    simp only [markerScope,valueScope,h,Option.map_map]
    rfl
  | true =>
    have htemplate : ofNode c root declared = .ok ⟨.dynamic root,declared.getD .any⟩ := by
      simp [ofNode,h,pure,Except.pure]
    have hscope : markerScope c root declared argument =
        ⟨c,argumentType (declared.getD .any) argument,some (rendering c root argument).env.bindings⟩ := by
      simp [markerScope,h]
    have hcompile : compileNode c root (declared.getD .any) argument =
        (rendering c root argument).outcome >>= fun _ =>
          ((markerScope c root declared argument).mapMarkers
            (if c.shrinkWhitespace then shrink (trim (rendering c root argument).text)
              else trim (rendering c root argument).text)).map fun sql =>
            ⟨String.ofList sql.text,sql.mappings,(rendering c root argument).env.bindings,argument⟩ := by
      rw [hscope]
      rfl
    rw [parameters,htemplate]
    change (compileNode c root (declared.getD .any) argument).toOption.map _ = _
    rw [hcompile,toOption_bind,Option.map_bind]
    congr 1
    funext produced
    simp only [Function.comp_apply,hmap,Option.map_map]
    simp only [valueScope,h,ite_true]
    rfl

private theorem rendering_shrinking (shrinking : Bool) :
    rendering (c.shrinking shrinking) root argument = rendering c root argument := by
  have he : (c.shrinking shrinking).evaluator = c.evaluator := rfl
  have hf : (c.shrinking shrinking).injectionFilter = c.injectionFilter := rfl
  exact congrFun (Node.render_congr he hf root) _

private theorem descriptions_shrinking (shrinking : Bool) :
    descriptions (c.shrinking shrinking) root declared argument =
      (markerScope c root declared argument).described 0 (markers (c.shrinking shrinking) root argument) := by
  have hdescribe (n : Nat) (content : List Char) :
      (markerScope (c.shrinking shrinking) root declared argument).describe n content =
        (markerScope c root declared argument).describe n content := by
    simp only [markerScope,rendering_shrinking]
    split <;> rfl
  have hdescribed (n : Nat) (contents : List (List Char)) :
      (markerScope (c.shrinking shrinking) root declared argument).described n contents =
        (markerScope c root declared argument).described n contents := by
    induction contents generalizing n with
    | nil => rfl
    | cons content contents ih => rw [MarkerScope.described,MarkerScope.described,hdescribe,ih]
  exact hdescribed 0 _

private theorem parameters_shrinking (shrinking : Bool) : parameters (c.shrinking shrinking) root declared argument =
    (rendering c root argument).outcome.toOption.bind fun _ =>
      ((descriptions (c.shrinking shrinking) root declared argument).mapM id).map
        fun mappings => (mappings,mappings.map ((valueScope c root argument).boundValue c)) := by
  rw [parameters_eq]
  simp only [valueScope,rendering_shrinking]
  rfl

/-- Both ways the parameters are the same exactly when the rendering fails, when the markers are described alike, or
when there is a marker that cannot be described. -/
theorem parameters_agree_iff : parameters (c.shrinking true) root declared argument =
      parameters (c.shrinking false) root declared argument ↔
    (rendering c root argument).outcome.toOption = none ∨
      descriptions (c.shrinking true) root declared argument =
        descriptions (c.shrinking false) root declared argument ∨
      (none ∈ descriptions (c.shrinking true) root declared argument ∧
        none ∈ descriptions (c.shrinking false) root declared argument) := by
  rw [parameters_shrinking,parameters_shrinking,← mapM_id_eq_iff]
  cases (rendering c root argument).outcome with
  | error e => simp [Except.toOption]
  | ok produced =>
    have hinj {x y : Option (List ParameterMapping)} {f : ParameterMapping → BoundValue} :
        (x.map fun mappings => (mappings,mappings.map f)) = (y.map fun mappings => (mappings,mappings.map f)) ↔
          x = y := by
      cases x <;> cases y <;> simp +contextual
    simpa [Except.toOption] using hinj

private theorem markers_shrinking (shrinking : Bool) {r : Reading '#'}
    (hr : r.source = (rendering c root argument).text) :
    markers (c.shrinking shrinking) root argument =
      if shrinking then List.zipWith (squeeze false) (Span.quotes none r.spans) (r.contents .drop)
      else r.contents .drop := by
  rw [← r.contents_finish,hr]
  change Scanner.bindMarkers.spans (if shrinking then
    shrink (trim (rendering (c.shrinking shrinking) root argument).text)
    else trim (rendering (c.shrinking shrinking) root argument).text) = _
  rw [rendering_shrinking]

end Parameters

/-- What shrinking does to the markers and parameters of a rendered text. -/
structure ShrinksParameters (c : Configuration) (root : Node) (declared : Option ValueType) (argument : Value)
    (r : Reading '#') : Prop where
  source : r.source = (rendering c root argument).text
  markers_kept : markers (c.shrinking false) root argument = r.contents .drop
  markers_shrunk : markers (c.shrinking true) root argument =
    List.zipWith (squeeze false) (Span.quotes none r.spans) (r.contents .drop)
  agree_iff : parameters (c.shrinking true) root declared argument =
      parameters (c.shrinking false) root declared argument ↔
    (rendering c root argument).outcome.toOption = none ∨
      descriptions (c.shrinking true) root declared argument =
        descriptions (c.shrinking false) root declared argument ∨
      (none ∈ descriptions (c.shrinking true) root declared argument ∧
        none ∈ descriptions (c.shrinking false) root declared argument)
  agree_of_compact : (∀ content ∈ r.contents .drop, Marker.Compact content) →
    parameters (c.shrinking true) root declared argument = parameters (c.shrinking false) root declared argument

/-- Shrinking keeps the markers of a rendered text in their order and shrinks what is written in each, under the
quote that is open where it stands. Compiling with and without it comes to the same parameters, or fails both times,
exactly when the rendering fails, the markers are described alike, or either way one of them cannot be described.
In particular it comes to the same when no marker holds a quote, and no blanks inside its texts but single
spaces. -/
theorem shrinking_parameters (c : Configuration) (root : Node) (declared : Option ValueType) (argument : Value) :
    ∃ r : Reading '#', ShrinksParameters c root declared argument r := by
  obtain ⟨r,hr⟩ := Reading.exists_source (x := '#') (by decide) (rendering c root argument).text
  have hoff : markers (c.shrinking false) root argument = r.contents .drop :=
    markers_shrinking c root argument false hr
  have hon : markers (c.shrinking true) root argument =
      List.zipWith (squeeze false) (Span.quotes none r.spans) (r.contents .drop) :=
    markers_shrinking c root argument true hr
  have hiff := parameters_agree_iff c root declared argument
  refine ⟨r,hr,hoff,hon,hiff,fun hcompact => hiff.mpr (.inr (.inl ?_))⟩
  rw [descriptions_shrinking,descriptions_shrinking,hon,hoff]
  apply MarkerScope.described_squeeze (Span.isOpen_quotes isOpen_none r.spans) _ hcompact
  rw [Span.length_quotes,Reading.contents,List.length_map]

/-- A key with two blanks in it: shrunk, it is the key of another entry. -/
theorem shrinking_changes_key : ¬∀ (c : Configuration) (root : Node) (declared : Option ValueType)
    (argument : Value), parameters (c.shrinking true) root declared argument =
      parameters (c.shrinking false) root declared argument := by
  intro h
  have hsame := h .standard (.text "#\x7bm[a  b]\x7d") none (.map [("m",.map [("a  b",.int 1)])])
  have hpaths := congrArg (Option.map fun p => p.1.map ParameterMapping.property) hsame
  exact absurd hpaths (by decide +kernel)

end Template
end SqlTemplate
