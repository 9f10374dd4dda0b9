import SqlTemplate.Proofs.Placeholder.Descriptions
import SqlTemplate.Template
/-!
# Static templates

A static template is rendered and its markers are described once, before there is an argument. Whether a
body is static is decided text by text, and the markers are those of the joined text.
-/
namespace SqlTemplate
open Token

namespace Node

mutual

def texts : Node → List (List Char)
  | .text s => [s.toList]
  | .conditional _ body | .repetition _ body | .trim _ body => texts body
  | .sequence nodes => allTexts nodes

def allTexts : List Node → List (List Char)
  | [] => []
  | n :: ns => texts n ++ allTexts ns

end

mutual

theorem render_of_static (c : Configuration) (env : Environment) :
    (root : Node) → root.isDynamic = false → root.render c env = ⟨root.texts,env,.ok true⟩
  | .text s, h => by
    have hs : hasSubstitution s = false := by
      simp only [isDynamic,hasMarker,Bool.or_eq_false_iff] at h
      exact h.1
    simp [render,renderText,hs,texts,Rendered.write]
  | .sequence nodes, h => by
    rw [render,texts]
    exact renderAll_of_static c env nodes (by simpa [isDynamic] using h)
  | .conditional _ _, h => by simp [isDynamic] at h
  | .repetition _ _, h => by simp [isDynamic] at h
  | .trim _ _, h => by simp [isDynamic] at h

private theorem renderAll_of_static (c : Configuration) (env : Environment) :
    (nodes : List Node) → anyDynamic nodes = false →
      renderAll c nodes env = ⟨allTexts nodes,env,.ok true⟩
  | [], _ => by simp [renderAll,allTexts,Rendered.done]
  | n :: ns, h => by
    simp only [anyDynamic,Bool.or_eq_false_iff] at h
    rw [renderAll,render_of_static c env n h.1]
    simp [Rendered.andThen,renderAll_of_static c env ns h.2,allTexts]

end

/-- The text of a static tree in which its markers are sought. -/
def joinedText (c : Configuration) (root : Node) : List Char :=
  let text := Text.trim root.texts.flatten
  if c.shrinkWhitespace then Text.shrink text else text

end Node

namespace BoundSql

/-- What a caller reads of bound SQL: its text, the mappings and the values. -/
def answer (c : Configuration) (b : BoundSql) : String × List ParameterMapping × List BoundValue :=
  (b.sql,b.mappings,b.boundValues c)

end BoundSql

namespace MarkerScope

def valueAt (s : MarkerScope) (b : BoundSql) (n : Nat) (content : List Char) : Option BoundValue :=
  (s.describe n content).toOption.map (b.boundValue s.config)

def valuesFrom (s : MarkerScope) (b : BoundSql) : Nat → List (List Char) → Option (List BoundValue)
  | _, [] => some []
  | n, content :: contents => do
    let value ← s.valueAt b n content
    let values ← s.valuesFrom b (n+1) contents
    return value :: values

private theorem valuesFrom_eq (s : MarkerScope) (b : BoundSql) (n : Nat) (contents : List (List Char)) :
    s.valuesFrom b n contents =
      (s.describeAll n contents).toOption.map (·.map (b.boundValue s.config)) := by
  induction contents generalizing n with
  | nil => rfl
  | cons content contents ih =>
    rw [valuesFrom,ih,describeAll,valueAt]
    cases s.describe n content with
    | error e => rfl
    | ok m => cases s.describeAll (n+1) contents <;> rfl

private theorem valuesFrom_eq_none {s : MarkerScope} {b : BoundSql} {n : Nat} {contents : List (List Char)} :
    s.valuesFrom b n contents = none ↔
      ∃ i content, contents[i]? = some content ∧ s.valueAt b (n+i) content = none := by
  induction contents generalizing n with
  | nil => simp [valuesFrom]
  | cons content contents ih =>
    rw [valuesFrom]
    constructor
    · intro h
      cases hv : s.valueAt b n content with
      | none => exact ⟨0,content,rfl,hv⟩
      | some v =>
        cases hvs : s.valuesFrom b (n+1) contents with
        | none =>
          obtain ⟨i,content',hi,hn⟩ := ih.mp hvs
          exact ⟨i+1,content',by simpa using hi,by rwa [Nat.add_assoc,Nat.add_comm 1 i] at hn⟩
        | some vs => simp [hv,hvs] at h
    · rintro ⟨i,content',hi,hn⟩
      cases i with
      | zero =>
        obtain rfl : content = content' := by simpa using hi
        have hn' : s.valueAt b n content = none := hn
        simp [hn']
      | succ i =>
        have hvs : s.valuesFrom b (n+1) contents = none :=
          ih.mpr ⟨i,content',by simpa using hi,by rwa [Nat.add_assoc,Nat.add_comm 1 i]⟩
        cases s.valueAt b n content <;> simp [hvs]

private theorem valueAt_of_valuesFrom {s t : MarkerScope} {b d : BoundSql} {n : Nat}
    {contents : List (List Char)} {values : List BoundValue} (hs : s.valuesFrom b n contents = some values)
    (ht : t.valuesFrom d n contents = some values) {i : Nat} {content : List Char}
    (hi : contents[i]? = some content) : s.valueAt b (n+i) content = t.valueAt d (n+i) content := by
  induction contents generalizing n i values with
  | nil => simp at hi
  | cons content' contents ih =>
    simp only [valuesFrom,Option.bind_eq_bind,Option.bind_eq_some_iff,Option.pure_def,
      Option.some.injEq] at hs ht
    obtain ⟨v,hv,vs,hvs,rfl⟩ := hs
    obtain ⟨w,hw,ws,hws,he⟩ := ht
    obtain ⟨rfl,rfl⟩ := List.cons.inj he
    cases i with
    | zero =>
      obtain rfl : content' = content := by simpa using hi
      exact hv.trans hw.symm
    | succ i =>
      have h := ih hvs hws (i := i) (by simpa using hi)
      rwa [Nat.add_assoc,Nat.add_comm 1 i] at h

private theorem valuesFrom_congr {s t : MarkerScope} {b d : BoundSql} {n : Nat} {contents : List (List Char)}
    (h : ∀ (i : Nat) (content : List Char), contents[i]? = some content →
      s.valueAt b (n+i) content = t.valueAt d (n+i) content) :
    s.valuesFrom b n contents = t.valuesFrom d n contents := by
  induction contents generalizing n with
  | nil => rfl
  | cons content contents ih =>
    have h0 : s.valueAt b n content = t.valueAt d n content := h 0 content rfl
    have hrest := ih (n := n+1) (by
      intro i content' hi
      have h' := h (i+1) content' (by simpa using hi)
      rwa [Nat.add_assoc,Nat.add_comm 1 i])
    rw [valuesFrom,valuesFrom,h0,hrest]

private theorem valuesFrom_eq_iff {s t : MarkerScope} {b d : BoundSql} {n : Nat} {contents : List (List Char)} :
    s.valuesFrom b n contents = t.valuesFrom d n contents ↔
      (∀ (i : Nat) (content : List Char), contents[i]? = some content →
        s.valueAt b (n+i) content = t.valueAt d (n+i) content) ∨
      (∃ (i : Nat) (content : List Char), contents[i]? = some content ∧
        s.valueAt b (n+i) content = none) ∧
      ∃ (i : Nat) (content : List Char), contents[i]? = some content ∧
        t.valueAt d (n+i) content = none := by
  constructor
  · intro h
    cases hv : s.valuesFrom b n contents with
    | none => exact .inr ⟨valuesFrom_eq_none.mp hv,valuesFrom_eq_none.mp (h.symm.trans hv)⟩
    | some values => exact .inl fun _ _ hi => valueAt_of_valuesFrom hv (h.symm.trans hv) hi
  · rintro (hall | ⟨hs,ht⟩)
    · exact valuesFrom_congr hall
    · rw [valuesFrom_eq_none.mpr hs,valuesFrom_eq_none.mpr ht]

end MarkerScope

namespace Template

/-- The value of a marker that is described beforehand, at a position. -/
def fixedValue (c : Configuration) (type : ValueType) (argument : Value) :
    Nat → List Char → Option BoundValue :=
  MarkerScope.valueAt ⟨c,type,none⟩ ⟨"",[],.empty,argument⟩

def renderedValue (c : Configuration) (type : ValueType) (argument : Value) :
    Nat → List Char → Option BoundValue :=
  let bindings := Bindings.ofArgument argument c.databaseId
  MarkerScope.valueAt ⟨c,argumentType type argument,some bindings⟩ ⟨"",[],bindings,argument⟩

theorem answer_of_mapMarkers (s : MarkerScope) (b : BoundSql) (text : List Char) :
    ((s.mapMarkers text).map fun sql =>
        (⟨String.ofList sql.text,sql.mappings,b.bindings,b.parameter⟩ : BoundSql)).toOption.map
        (BoundSql.answer s.config) =
      (s.valuesFrom b 0 (Scanner.bindMarkers.spans text)).map fun values =>
        (String.ofList (s.config.dialect.place 0 (Scanner.bindMarkers.tokens text)),
          values.map BoundValue.mapping,values) := by
  rw [s.mapMarkers_eq,s.valuesFrom_eq]
  cases s.describeAll 0 (Scanner.bindMarkers.spans text) with
  | error e => rfl
  | ok mappings =>
    have hm : (mappings.map (b.boundValue s.config)).map BoundValue.mapping = mappings := by
      simp [BoundSql.boundValue,Function.comp_def]
    simp only [Except.map,Except.toOption,Option.map_some,BoundSql.answer,BoundSql.boundValues,hm]
    rfl

/-- The answer of a static template: nothing but the descriptions can depend on when they are made. -/
theorem compile_of_static (c : Configuration) (root : Node) (declared : Option ValueType)
    (argument : Value) (h : root.isDynamic = false) :
    ((ofNode c root declared).bind (·.compile c argument)) =
      (MarkerScope.mapMarkers ⟨c,declared.getD .any,none⟩ (root.joinedText c)).map
        fun sql => ⟨String.ofList sql.text,sql.mappings,.empty,argument⟩ := by
  simp only [ofNode,h,Context.apply,Node.render_of_static c _ root h,Context.ofArgument,Context.sql,
    Rendered.text,MarkerScope.finish,List.nil_append]
  rw [← Node.joinedText]
  cases MarkerScope.mapMarkers ⟨c,declared.getD .any,none⟩ (root.joinedText c) <;> rfl

theorem compileNode_of_static (c : Configuration) (root : Node) (declared : ValueType)
    (argument : Value) (h : root.isDynamic = false) :
    compileNode c root declared argument =
      (MarkerScope.mapMarkers
          ⟨c,argumentType declared argument,some (.ofArgument argument c.databaseId)⟩
          (root.joinedText c)).map
        fun sql => ⟨String.ofList sql.text,sql.mappings,.ofArgument argument c.databaseId,argument⟩ := by
  simp only [compileNode,Context.apply,Node.render_of_static c _ root h,Context.ofArgument,Context.sql,
    Context.bindings,Environment.ofArgument,Rendered.text,MarkerScope.finish,List.nil_append]
  rw [← Node.joinedText]
  cases MarkerScope.mapMarkers
    ⟨c,argumentType declared argument,some (.ofArgument argument c.databaseId)⟩ (root.joinedText c) <;> rfl

/-- A static template answers as a rendering for the argument would, and fails when that would, exactly when
every marker of the joined text is described and bound alike with and without the argument, or when both ways
there is a marker that cannot be described. -/
theorem static_agrees_iff (c : Configuration) (root : Node) (declared : Option ValueType)
    (argument : Value) (h : root.isDynamic = false) :
    ((ofNode c root declared).bind (·.compile c argument)).toOption.map (BoundSql.answer c) =
        (compileNode c root (declared.getD .any) argument).toOption.map (BoundSql.answer c) ↔
      (∀ (i : Nat) (content : List Char), (Scanner.bindMarkers.spans (root.joinedText c))[i]? = some content →
        fixedValue c (declared.getD .any) argument i content =
          renderedValue c (declared.getD .any) argument i content) ∨
      (∃ (i : Nat) (content : List Char), (Scanner.bindMarkers.spans (root.joinedText c))[i]? = some content ∧
        fixedValue c (declared.getD .any) argument i content = none) ∧
      ∃ (i : Nat) (content : List Char), (Scanner.bindMarkers.spans (root.joinedText c))[i]? = some content ∧
        renderedValue c (declared.getD .any) argument i content = none := by
  have hfixed := answer_of_mapMarkers ⟨c,declared.getD .any,none⟩ ⟨"",[],.empty,argument⟩
    (root.joinedText c)
  have hrendered := answer_of_mapMarkers
    ⟨c,argumentType (declared.getD .any) argument,some (.ofArgument argument c.databaseId)⟩
    ⟨"",[],.ofArgument argument c.databaseId,argument⟩ (root.joinedText c)
  rw [compile_of_static c root declared argument h,compileNode_of_static c root _ argument h,hfixed,
    hrendered]
  have hinj {x y : Option (List BoundValue)} {sql : String} :
      (x.map fun values => (sql,values.map BoundValue.mapping,values)) =
        (y.map fun values => (sql,values.map BoundValue.mapping,values)) ↔ x = y := by
    cases x <;> cases y <;> simp +contextual
  refine hinj.trans (MarkerScope.valuesFrom_eq_iff.trans ?_)
  simp only [Nat.zero_add]
  exact Iff.rfl

theorem static_agrees_on_escape :
    let root := Node.sequence [.text "SELECT '\\#",.text "\x7bx\x7d'"]
    root.isDynamic = false ∧
      ((ofNode .standard root none).bind (·.compile .standard (.int 1))).toOption.map
          (BoundSql.answer .standard) =
        (compileNode .standard root .any (.int 1)).toOption.map (BoundSql.answer .standard) := by
  refine ⟨by decide +kernel,?_⟩
  refine (static_agrees_iff .standard _ none (.int 1) (by decide +kernel)).mpr (.inl ?_)
  have hm : Scanner.bindMarkers.spans
      ((Node.sequence [.text "SELECT '\\#",.text "\x7bx\x7d'"]).joinedText .standard) = [] := by
    decide +kernel
  simp [hm]

/-- Texts that are cut inside a delimiter join to a marker. It was described without the argument. -/
theorem static_disagrees_on_joined_marker :
    let root := Node.sequence [.text "#",.text "\x7bx\x7d"]
    root.isDynamic = false ∧
      ((ofNode .standard root none).bind (·.compile .standard (.int 1))).toOption.map
          (BoundSql.answer .standard) ≠
        (compileNode .standard root .any (.int 1)).toOption.map (BoundSql.answer .standard) := by
  refine ⟨by decide +kernel,fun h => ?_⟩
  have ht := congrArg (Option.map fun a => a.2.1.map ParameterMapping.valueType) h
  revert ht
  decide +kernel

end Template
end SqlTemplate
