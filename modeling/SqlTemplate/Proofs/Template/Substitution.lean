import SqlTemplate.Proofs.Node.Frame
import SqlTemplate.Proofs.Placeholder.Descriptions
import SqlTemplate.Proofs.Template.Outline
import SqlTemplate.Template
/-!
# Substitutions and descriptions

Substituted texts are spliced into the text in which bind markers are sought. They leave the mappings alone
when they are literal where they stand: then two renderings of a template text describe the same markers.
-/
namespace SqlTemplate
open Token

private theorem Token.fillM_ok {ε α : Type} {f : α → Except ε (List Char)} {ts : List (Token α)} {text : List Char}
    (h : fillM f ts = .ok text) : text = fill (fun a => (f a).toOption.getD []) ts := by
  induction ts generalizing text with
  | nil => exact (Except.ok.inj h).symm
  | cons t ts ih =>
    cases t with
    | char c =>
      cases hr : fillM f ts with
      | error e => simp [fillM,hr,Except.map] at h
      | ok rest =>
        obtain rfl : c :: rest = text := by simpa [fillM,hr,Except.map] using h
        rw [fill_char,ih hr]
    | slot a =>
      cases hf : f a with
      | error e => simp [fillM,hf,bind,Except.bind] at h
      | ok value =>
        cases hr : fillM f ts with
        | error e => simp [fillM,hf,hr,bind,Except.bind] at h
        | ok rest =>
          obtain rfl : value ++ rest = text := by
            simpa [fillM,hf,hr,bind,Except.bind,pure,Except.pure] using h
          rw [fill_slot,ih hr,hf]
          rfl

namespace Node

/-- A template text as its characters and substitutions. Without a substitution it is written as it is. -/
def textTokens (text : String) : List (Token (List Char)) :=
  if hasSubstitution text then Scanner.substitutions.tokens text.toList else chars text.toList

def valueText (c : Configuration) (env : Environment) (content : List Char) : List Char :=
  (substitute c (exposeScalar env).bindings content).toOption.getD []

def afterText (text : String) (env : Environment) : Environment :=
  if hasSubstitution text then exposeScalar env else env

private theorem renderText_ok {c : Configuration} {text : String} {env : Environment} {produced : Bool}
    (h : (renderText c text env).outcome = .ok produced) :
    renderText c text env =
      .write (fill (valueText c env) (textTokens text)) (afterText text env) := by
  unfold renderText at h ⊢
  unfold textTokens afterText
  cases hs : hasSubstitution text with
  | false => simp
  | true =>
    simp only [hs,ite_true,Scanner.replaceM_eq_fillM] at h ⊢
    cases hf : fillM (substitute c (exposeScalar env).bindings)
        (Scanner.substitutions.tokens text.toList) with
    | error e => simp [hf,Rendered.failed] at h
    | ok written =>
      simp only [fillM_ok hf]
      rfl

end Node

namespace Template

def compileFrom (c : Configuration) (root : Node) (declared : ValueType) (env : Environment) :
    Except Error MappedSql := do
  let (context,outcome) := Context.apply c root ⟨env,[]⟩
  let _ ← outcome
  MarkerScope.finish ⟨c,argumentType declared context.bindings.parameter,some context.bindings⟩ context.sql

def textScope (c : Configuration) (declared : ValueType) (text : String) (env : Environment) :
    MarkerScope :=
  let bindings := (Node.afterText text env).bindings
  ⟨c,argumentType declared bindings.parameter,some bindings⟩

private theorem compileFrom_ok {c : Configuration} {declared : ValueType} {text : String} {env : Environment}
    {m : MappedSql} (h : compileFrom c (.text text) declared env = .ok m) :
    (textScope c declared text env).finish
      (Text.trim (fill (Node.valueText c env) (Node.textTokens text))) = .ok m := by
  simp only [compileFrom,Context.apply,Node.render] at h
  cases ho : (Node.renderText c text env).outcome with
  | error e => simp [ho,bind,Except.bind] at h
  | ok produced =>
    rw [Node.renderText_ok ho] at h
    simpa [textScope,Rendered.write,Rendered.text,Context.sql,Context.bindings,bind,Except.bind] using h

/-- Compiling with an argument renders the body from the argument's environment. -/
theorem compileNode_eq (c : Configuration) (root : Node) (declared : ValueType) (argument : Value) :
    (compileNode c root declared argument).map (fun b => (b.sql,b.mappings)) =
      (compileFrom c root declared (.ofArgument argument c.databaseId)).map
        fun m => (String.ofList m.text,m.mappings) := by
  have hp := (root.frame_render c (.ofArgument argument c.databaseId)).parameter
  simp only [compileNode,compileFrom,Context.apply,Context.ofArgument,Context.bindings,hp]
  cases (root.render c (.ofArgument argument c.databaseId)).outcome with
  | error e => rfl
  | ok produced =>
    simp only [bind,Except.bind]
    split <;> simp_all [Except.map,pure,Except.pure,Environment.ofArgument,Bindings.ofArgument]

end Template

namespace MarkerScope
variable {s t : MarkerScope}

/-- The type of what a marker refers to is the same in both scopes. -/
def TypesAlike (s t : MarkerScope) (content : List Char) : Prop :=
  ∀ (attributes : MarkerAttributes) (sqlType : Option SqlType), Marker.parse content = .ok attributes →
    sqlTypeOf (String.ofList content) attributes = .ok sqlType →
      s.inferType (Entries.get? attributes Attribute.property.name) sqlType =
        t.inferType (Entries.get? attributes Attribute.property.name) sqlType

private theorem describe_congr (hc : s.config = t.config) {content : List Char} (h : s.TypesAlike t content)
    (n : Nat) : s.describe n content = t.describe n content := by
  obtain ⟨c,sType,sBindings⟩ := s
  obtain ⟨c',tType,tBindings⟩ := t
  obtain rfl : c = c' := hc
  unfold describe
  cases hp : Marker.parse content with
  | error e => rfl
  | ok attributes =>
    change describeAttributes _ _ _ _ = describeAttributes _ _ _ _
    unfold describeAttributes
    cases ht : sqlTypeOf (String.ofList content) attributes with
    | error e => rfl
    | ok sqlType =>
      have hi := h attributes sqlType hp ht
      simp only [bind,Except.bind,hi]
      rfl

private theorem describeAll_congr (hc : s.config = t.config) {contents : List (List Char)}
    (h : ∀ content ∈ contents, s.TypesAlike t content) (n : Nat) :
    s.describeAll n contents = t.describeAll n contents := by
  induction contents generalizing n with
  | nil => rfl
  | cons content contents ih =>
    have hrest := ih (fun content' hm => h content' (List.mem_cons_of_mem content hm)) (n+1)
    rw [describeAll,describeAll,describe_congr hc (h content (by simp)) n,hrest]

end MarkerScope

namespace Outline

def quotes (f : List Char → List Char) : Option Char → List OutlineMarker → List (Option Char)
  | _, [] => []
  | q, m :: ms => Text.quoteAfter q (fill f m.before) :: quotes f (Text.quoteAfter q (fill f m.source)) ms

/-- The contents of the markers in the finished text: shrinking a content depends on the quote that is open
there. -/
def contents (shrinking : Bool) (f : List Char → List Char) (o : Outline) : List (List Char) :=
  let written := o.markers.map fun m => m.content.map shape
  (if shrinking then List.zipWith (Text.squeeze false) (quotes f none o.markers) written
    else written).map (dropEscapes ['}'])

private theorem quotes_eq {f : List Char → List Char} {ps : List (Span '#')} {ms : List OutlineMarker}
    (h : ps.map (fun p => (p.before,p.content)) = ms.map (OutlineMarker.filled f)) (q : Option Char) :
    Span.quotes q ps = quotes f q ms := by
  induction ps generalizing ms q with
  | nil =>
    obtain rfl : ms = [] := List.map_eq_nil_iff.mp h.symm
    rfl
  | cons p ps ih =>
    cases ms with
    | nil => simp at h
    | cons m ms =>
      simp only [List.map_cons,List.cons.injEq] at h
      have hb : p.before = fill f m.before := congrArg Prod.fst h.1
      have hs : p.source = fill f m.source := by
        rw [m.fill_source,← h.1]
        rfl
      rw [Span.quotes,quotes,ih h.2,hb,hs]

theorem spans_finish {o : Outline} (h : o.Plain) {f : List Char → List Char} (hl : o.Literal f)
    (shrinking : Bool) :
    Scanner.bindMarkers.spans (if shrinking then Text.shrink (Text.trim (fill f o.source))
      else Text.trim (fill f o.source)) = o.contents shrinking f := by
  obtain ⟨r,hs,hp⟩ := (o.literal_iff h f).mp hl
  have hcontents : r.spans.map Span.content = o.markers.map fun m => m.content.map shape := by
    have hf := congrArg (List.map Prod.snd) hp
    simp only [List.map_map] at hf
    refine hf.trans (List.map_congr_left fun m hm => ?_)
    exact h.fill_content f hm
  rw [← hs,r.spans_finish,contents,Reading.finishedContents,quotes_eq hp,hcontents]

end Outline

namespace Template

/-- Two environments substitute literal texts, under which the markers are shrunk alike and refer to the same types. -/
structure SubstitutesAlike (c : Configuration) (declared : ValueType) (text : String) (o : Outline)
    (env env' : Environment) : Prop where
  literal : o.Literal (Node.valueText c env)
  literal' : o.Literal (Node.valueText c env')
  contents : o.contents c.shrinkWhitespace (Node.valueText c env) =
    o.contents c.shrinkWhitespace (Node.valueText c env')
  types : ∀ content ∈ o.contents c.shrinkWhitespace (Node.valueText c env),
    (textScope c declared text env).TypesAlike (textScope c declared text env') content

private theorem describeAll_of_compileFrom {c : Configuration} {declared : ValueType} {text : String} {o : Outline}
    (ho : o.source = Node.textTokens text) (hplain : o.Plain) {env : Environment} {m : MappedSql}
    (hl : o.Literal (Node.valueText c env)) (hm : compileFrom c (.text text) declared env = .ok m) :
    (textScope c declared text env).describeAll 0
      (o.contents c.shrinkWhitespace (Node.valueText c env)) = .ok m.mappings := by
  have hf := compileFrom_ok hm
  rw [MarkerScope.finish,← ho,MarkerScope.mapMarkers_eq] at hf
  change ((textScope c declared text env).describeAll 0 (Scanner.bindMarkers.spans
    (if c.shrinkWhitespace = true then _ else _))).map _ = _ at hf
  rw [Outline.spans_finish hplain hl] at hf
  cases hd : (textScope c declared text env).describeAll 0
      (o.contents c.shrinkWhitespace (Node.valueText c env)) with
  | error e => simp [hd,Except.map] at hf
  | ok mappings =>
    rw [hd] at hf
    obtain rfl := Except.ok.inj hf
    rfl

private theorem mappings_eq_of_alike {c : Configuration} {declared : ValueType} {text : String} {o : Outline}
    (ho : o.source = Node.textTokens text) (hplain : o.Plain) {env env' : Environment} {m m' : MappedSql}
    (hm : compileFrom c (.text text) declared env = .ok m)
    (hm' : compileFrom c (.text text) declared env' = .ok m')
    (h : SubstitutesAlike c declared text o env env') : m.mappings = m'.mappings := by
  have hd := describeAll_of_compileFrom ho hplain h.literal hm
  have hd' := describeAll_of_compileFrom ho hplain h.literal' hm'
  have hsame : (textScope c declared text env).describeAll 0
        (o.contents c.shrinkWhitespace (Node.valueText c env)) =
      (textScope c declared text env').describeAll 0
        (o.contents c.shrinkWhitespace (Node.valueText c env)) :=
    MarkerScope.describeAll_congr (s := textScope c declared text env)
      (t := textScope c declared text env') rfl h.types 0
  rw [← h.contents] at hd'
  rw [hd,hd'] at hsame
  exact Except.ok.inj hsame

private theorem exists_compileFrom {c : Configuration} {root : Node} {declared : ValueType} {argument : Value}
    {b : BoundSql} (h : compileNode c root declared argument = .ok b) :
    ∃ m, compileFrom c root declared (.ofArgument argument c.databaseId) = .ok m ∧ m.mappings = b.mappings := by
  have heq := compileNode_eq c root declared argument
  rw [h] at heq
  cases hm : compileFrom c root declared (.ofArgument argument c.databaseId) with
  | error e => simp [hm,Except.map] at heq
  | ok m => exact ⟨m,rfl,by simpa [hm,Except.map] using (congrArg (Except.map Prod.snd) heq).symm⟩

/-- A template text has one outline. When no substitution stands in a marker, the spans of what is written are
the markers of the outline exactly when the substituted texts are literal; and two renderings with literal
texts, of which neither fails, give the same mappings when the markers refer to the same types and their
contents are shrunk alike. The same holds of two arguments that the text is compiled with. -/
theorem mappings_of_literal_substitutions (c : Configuration) (declared : ValueType) (text : String) :
    (∃ o : Outline, o.source = Node.textTokens text ∧
      ∀ o' : Outline, o'.source = Node.textTokens text → o' = o) ∧
    ∀ o : Outline, o.source = Node.textTokens text → o.Plain →
      (∀ f : List Char → List Char, o.Literal f ↔ o.SpansAreMarkers f) ∧
      (∀ (env env' : Environment) (m m' : MappedSql),
        compileFrom c (.text text) declared env = .ok m →
        compileFrom c (.text text) declared env' = .ok m' →
        SubstitutesAlike c declared text o env env' → m.mappings = m'.mappings) ∧
      ∀ (argument argument' : Value) (b b' : BoundSql),
        compileNode c (.text text) declared argument = .ok b →
        compileNode c (.text text) declared argument' = .ok b' →
        SubstitutesAlike c declared text o (.ofArgument argument c.databaseId)
          (.ofArgument argument' c.databaseId) → b.mappings = b'.mappings := by
  refine ⟨?_,?_⟩
  · obtain ⟨o,ho⟩ := Outline.exists_source (Node.textTokens text)
    exact ⟨o,ho,fun o' ho' => Outline.source_injective (ho'.trans ho.symm)⟩
  · intro o ho hplain
    refine ⟨o.literal_iff hplain,?_,?_⟩
    · intro env env' m m' hm hm' h
      exact mappings_eq_of_alike ho hplain hm hm' h
    · intro argument argument' b b' hb hb' h
      obtain ⟨m,hm,hmappings⟩ := exists_compileFrom hb
      obtain ⟨m',hm',hmappings'⟩ := exists_compileFrom hb'
      rw [← hmappings,← hmappings']
      exact mappings_eq_of_alike ho hplain hm hm' h

def oneMarker : Outline where
  markers := [⟨[.slot ['x'],.char ' '],[.char 'y'],by decide,by decide,by decide,by decide⟩]
  tail := []
  tail_unmarked := by decide +kernel

theorem mappings_of_number_and_sign :
    let run := fun x => compileNode .standard (.text "$\x7bx\x7d #\x7by\x7d") .any (.map [("x",x),("y",.int 1)])
    ∃ b b' : BoundSql, run (.int 5) = .ok b ∧ run (.string "a#b") = .ok b' ∧
      b.mappings = b'.mappings ∧ b.mappings.length = 1 := by
  intro run
  obtain ⟨-,hall⟩ := mappings_of_literal_substitutions .standard .any "$\x7bx\x7d #\x7by\x7d"
  have hsource : oneMarker.source = Node.textTokens "$\x7bx\x7d #\x7by\x7d" := by decide +kernel
  have hplain : oneMarker.Plain := by simp [Outline.Plain,oneMarker]
  have hliteral {f : List Char → List Char} (h : f ['x'] = ['5'] ∨ f ['x'] = ['a','#','b']) :
      oneMarker.Literal f := by
    constructor
    · simp only [oneMarker,List.mem_singleton]
      rintro m rfl
      rcases h with h | h <;> simp only [fill_slot,fill_char,fill_nil,h] <;> decide
    · exact oneMarker.tail_unmarked
  have hrun (x : Value) (h : (run x).toOption.isSome = true) : ∃ b, run x = .ok b := by
    obtain ⟨b,hb⟩ := Option.isSome_iff_exists.mp h
    exact ⟨b,toOption_eq_some.mp hb⟩
  obtain ⟨b,hb⟩ := hrun (.int 5) (by decide +kernel)
  obtain ⟨b',hb'⟩ := hrun (.string "a#b") (by decide +kernel)
  have hlength : (run (.int 5)).toOption.map (·.mappings.length) = some 1 := by decide +kernel
  refine ⟨b,b',hb,hb',?_,by simpa [hb,Except.toOption] using hlength⟩
  refine (hall oneMarker hsource hplain).2.2 _ _ b b' hb hb' ⟨?_,?_,rfl,?_⟩
  · exact hliteral (.inl (by decide +kernel))
  · exact hliteral (.inr (by decide +kernel))
  · intro content hc attributes sqlType hp ht
    obtain rfl : content = ['y'] := by
      simpa [Outline.contents,oneMarker,shape,Configuration.standard,dropEscapes] using hc
    obtain rfl : [("property","y")] = attributes := by
      have hy : Marker.parse ['y'] = .ok [("property","y")] := by rfl
      exact Except.ok.inj (hy.symm.trans hp)
    obtain rfl : none = sqlType := by
      have hy : MarkerScope.sqlTypeOf (String.ofList ['y']) [("property","y")] = .ok none := by rfl
      exact Except.ok.inj (hy.symm.trans ht)
    decide +kernel

/-- A substituted marker is described, and a substituted backslash makes the marker behind it literal. -/
theorem mappings_differ_on_substituted_marker :
    let mappings := fun x => (compileNode .standard (.text "$\x7bx\x7d#\x7by\x7d") .any
      (.map [("x",.string x),("y",.int 1)])).toOption.map fun b => b.mappings.map ParameterMapping.property
    mappings "" = some [some "y"] ∧ mappings "#\x7by\x7d" = some [some "y",some "y"] ∧
      mappings "\\" = some [] := by
  decide +kernel

end Template
end SqlTemplate
