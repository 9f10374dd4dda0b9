import SqlTemplate.Proofs.Node.Scoping
import SqlTemplate.Proofs.Placeholder.Descriptions
import SqlTemplate.Proofs.Placeholder.Drafts
/-!
# Inferred types

The type of a parameter is inferred from its path without looking at its value, and the value is found along the
same path without looking at types. The two take the same way: where the argument is what its registry says, the
value is null, nothing is known of its type, or it has the inferred type.
-/
namespace SqlTemplate

namespace Value

/-- A value can stand where the type is expected: it is null, nothing is known of the type, or it is its own. -/
def Fits (v : Value) (t : ValueType) : Prop := v = .null ∨ t = .any ∨ t = v.type

private theorem fits_any (v : Value) : v.Fits .any := .inr (.inl rfl)

end Value

namespace TypeRegistry
open Value
variable {r : TypeRegistry}

/-- The fields of a registered record are registered, and each fits its type. -/
def FieldsFit (r : TypeRegistry) (name : String) (fields : List (String × Value)) : Prop :=
  ∀ properties, r.records.get? name = some properties → ∀ field ∈ fields,
    ∃ t, Entries.get? properties field.1 = some t ∧ field.2.Fits t

mutual

/-- The records in a value, at any depth, are as they are registered. -/
def Conforms (r : TypeRegistry) : Value → Prop
  | .list items => r.ItemsConform items
  | .map entries => r.EntriesConform entries
  | .record name fields => r.FieldsFit name fields ∧ r.EntriesConform fields
  | _ => True

def ItemsConform (r : TypeRegistry) : List Value → Prop
  | [] => True
  | v :: vs => r.Conforms v ∧ r.ItemsConform vs

def EntriesConform (r : TypeRegistry) : List (String × Value) → Prop
  | [] => True
  | (_,v) :: es => r.Conforms v ∧ r.EntriesConform es

end

private theorem ItemsConform.getElem? {items : List Value} (h : r.ItemsConform items) {i : Nat} {v : Value}
    (hv : items[i]? = some v) : r.Conforms v := by
  induction items generalizing i with
  | nil => simp at hv
  | cons item items ih =>
    cases i with
    | zero =>
      obtain rfl : item = v := by simpa using hv
      exact h.1
    | succ i => exact ih h.2 (by simpa using hv)

theorem EntriesConform.get? {entries : List (String × Value)} (h : r.EntriesConform entries) {name : String}
    {v : Value} (hv : Entries.get? entries name = some v) : r.Conforms v := by
  induction entries with
  | nil => simp at hv
  | cons e es ih =>
    obtain ⟨key,w⟩ := e
    rw [Entries.get?] at hv
    split at hv
    · obtain rfl := Option.some.inj hv
      exact h.1
    · exact ih h.2 hv

theorem Conforms.property? {v w : Value} (h : r.Conforms v) {name : String}
    (hw : v.property? name = some w) :
    r.Conforms w ∧ ∀ t, r.propertyType? v.type name = some t → w.Fits t := by
  cases v with
  | map entries =>
    refine ⟨EntriesConform.get? h hw,fun t ht => ?_⟩
    obtain rfl : .any = t := by simpa [Value.type,propertyType?] using ht
    exact fits_any w
  | record typeName fields =>
    refine ⟨EntriesConform.get? h.2 hw,fun t ht => ?_⟩
    simp only [Value.type,propertyType?,Option.bind_eq_some_iff] at ht
    obtain ⟨properties,hp,ht⟩ := ht
    obtain ⟨t',ht',hfits⟩ := h.1 properties hp (name,w) (Entries.mem_of_get? hw)
    obtain rfl : t' = t := Option.some.inj (ht'.symm.trans ht)
    exact hfits
  | null | bool | int | float | string | list => simp [Value.property?] at hw

theorem Conforms.member {v w : Value} (h : r.Conforms v) {name : String} (hw : v.property? name = some w)
    {t t' : ValueType} (hv : v.Fits t) (ht : r.propertyType? t name = some t') : w.Fits t' := by
  rcases hv with rfl | rfl | rfl
  · simp [Value.property?] at hw
  · obtain rfl : .any = t' := Option.some.inj ht
    exact fits_any w
  · exact (h.property? hw).2 t' ht

theorem Conforms.step? {v w : Value} (h : r.Conforms v) {segment : Segment}
    (hw : v.step? segment = some w) :
    r.Conforms w ∧ ∀ t t', v.Fits t → r.stepType? t segment = some t' → w.Fits t' := by
  cases segment with
  | name name =>
    refine ⟨(h.property? hw).1,fun t t' hv ht => ?_⟩
    have hstep : r.stepType? t (.name name) = r.propertyType? t name := by cases t <;> rfl
    exact h.member hw hv (hstep ▸ ht)
  | index key =>
    have hnamed {v : Value} (h : r.Conforms v) (hw : v.property? key = some w) : r.Conforms w ∧
        ∀ t t', v.Fits t → r.stepType? t (.index key) = some t' → w.Fits t' := by
      refine ⟨(h.property? hw).1,fun t t' hv ht => ?_⟩
      by_cases hlist : t = .list
      · subst hlist
        obtain rfl : .any = t' := Option.some.inj ht
        exact fits_any w
      · have hstep : r.stepType? t (.index key) = r.propertyType? t key := by cases t <;> simp_all [stepType?]
        exact h.member hw hv (hstep ▸ ht)
    cases v with
    | list items =>
      simp only [Value.step?,index?,Option.bind_eq_some_iff] at hw
      obtain ⟨i,-,hi⟩ := hw
      refine ⟨ItemsConform.getElem? h hi,fun t t' hv ht => ?_⟩
      rcases hv with hv | rfl | rfl
      · simp at hv
      · obtain rfl : .any = t' := Option.some.inj ht
        exact fits_any w
      · obtain rfl : .any = t' := Option.some.inj ht
        exact fits_any w
    | null | bool | int | float | string | map | record => exact hnamed h hw

/-- Along a path, the value fits the type that the path leads to. -/
theorem Conforms.foldlM_step? {segments : List Segment} {v w : Value} (h : r.Conforms v)
    (hw : segments.foldlM Value.step? v = some w) {t t' : ValueType} (hv : v.Fits t)
    (ht : segments.foldlM r.stepType? t = some t') : w.Fits t' := by
  induction segments generalizing v t with
  | nil =>
    obtain rfl : v = w := Option.some.inj hw
    obtain rfl : t = t' := Option.some.inj ht
    exact hv
  | cons segment segments ih =>
    rw [List.foldlM_cons] at hw ht
    obtain ⟨v₁,hv₁,hw⟩ := Option.bind_eq_some_iff.mp hw
    obtain ⟨t₁,ht₁,ht⟩ := Option.bind_eq_some_iff.mp ht
    obtain ⟨hc,hstep⟩ := h.step? hv₁
    exact ih hc hw (hstep t t₁ hv ht₁) ht

theorem Conforms.lookup? {v : Value} (h : r.Conforms v) (path : String) :
    ((v.lookup? path.toList).getD .null).Fits ((r.getterType? v.type path).getD .any) := by
  cases hw : v.lookup? path.toList with
  | none => exact .inl rfl
  | some w =>
    cases ht : r.getterType? v.type path with
    | none => exact fits_any w
    | some t => exact h.foldlM_step? hw (.inr (.inr rfl)) ht

end TypeRegistry

private theorem MarkerScope.describeAll_of_mapMarkers {s : MarkerScope} {text : List Char} {sql : MappedSql}
    (h : s.mapMarkers text = .ok sql) :
    s.describeAll 0 (Scanner.bindMarkers.spans text) = .ok sql.mappings := by
  rw [s.mapMarkers_eq] at h
  cases hd : s.describeAll 0 (Scanner.bindMarkers.spans text) with
  | error e => simp [hd,Except.map] at h
  | ok mappings =>
    rw [hd] at h
    obtain rfl := Except.ok.inj h
    rfl

namespace BoundSql
open MarkerScope
variable {b : BoundSql} {c : Configuration} {r : TypeRegistry}

def scope (b : BoundSql) (c : Configuration) (declared : ValueType) : MarkerScope :=
  ⟨c,Template.argumentType declared b.parameter,some b.bindings⟩

private theorem resolve_of_bound {path : String} (h : b.bindings.has (String.ofList (Path.root path.toList)) = true) :
    b.resolve c path = (b.bindings.additional? path.toList).getD .null := by
  simp only [resolve,h,ite_true]

private theorem additional?_eq_none {path : String}
    (h : b.bindings.has (String.ofList (Path.root path.toList)) = false) :
    b.bindings.additional? path.toList = none := by
  have hroot : b.bindings.explicit? (String.ofList (Path.root path.toList)) = none := by
    simpa [Bindings.has] using h
  simp [Bindings.additional?,hroot]

private theorem fits_of_bound {path : String} (h : b.bindings.has (String.ofList (Path.root path.toList)) = true)
    (declared : ValueType) (sqlType : Option SqlType) :
    (b.resolve c path).Fits ((b.scope c declared).inferType (some path) sqlType) := by
  rw [resolve_of_bound h]
  cases ha : b.bindings.additional? path.toList with
  | none => exact .inl rfl
  | some v => exact .inr (.inr (by simp [inferType,boundType?,scope,ha]))

private theorem fits_of_argument (hc : r.Conforms b.parameter) {property : Option String}
    (h : b.bindings.has (String.ofList (Path.root (property.getD "").toList)) = false)
    (declared : ValueType) {sqlType : Option SqlType} (hs : sqlType ≠ some .cursor) :
    (b.resolve (c.withRegistry r) (property.getD "")).Fits
      ((b.scope (c.withRegistry r) declared).inferType property sqlType) := by
  have hbound : (b.scope (c.withRegistry r) declared).boundType? property = none := by
    cases property with
    | none => rfl
    | some path =>
      have ha : b.bindings.additional? path.toList = none := additional?_eq_none h
      simp [boundType?,scope,ha]
  simp only [resolve,h,Bool.false_eq_true,ite_false,inferType,hbound]
  split
  · exact .inl rfl
  · next hnull =>
    have htype : (b.scope (c.withRegistry r) declared).parameterType = b.parameter.type := by
      simp [scope,Template.argumentType,hnull]
    rw [htype]
    change Value.Fits (if (c.withRegistry r).typeHandlers.has b.parameter.type then b.parameter else _)
      (if (c.withRegistry r).typeHandlers.has b.parameter.type then b.parameter.type else _)
    split
    · exact .inr (.inr rfl)
    · cases property with
      | none => exact Value.fits_any _
      | some path =>
        simp only
        split
        · exact Value.fits_any _
        · exact hc.lookup? path

private theorem resolve_fits (hc : r.Conforms b.parameter) (hempty : b.bindings.explicit? "" = none)
    (property : Option String) (declared : ValueType) {sqlType : Option SqlType}
    (hs : sqlType ≠ some .cursor) :
    (b.resolve (c.withRegistry r) (property.getD "")).Fits
      ((b.scope (c.withRegistry r) declared).inferType property sqlType) := by
  cases h : b.bindings.has (String.ofList (Path.root (property.getD "").toList)) with
  | false => exact fits_of_argument hc h declared hs
  | true =>
    cases property with
    | none =>
      have hroot : String.ofList (Path.root (Option.getD none "").toList) = "" := by decide
      rw [hroot,Bindings.has,hempty] at h
      exact absurd h (by decide)
    | some path => exact fits_of_bound h declared sqlType

end BoundSql

namespace Template
open Environment

/-- The contents of the bind markers that a body has when it is rendered for an argument, from the left. -/
def markers (c : Configuration) (root : Node) (argument : Value) : List (List Char) :=
  let text := ((Context.ofArgument argument c.databaseId).apply c root).1.sql
  Scanner.bindMarkers.spans (if c.shrinkWhitespace then Text.shrink text else text)

private theorem compileNode_ok {c : Configuration} {root : Node} {declared : ValueType} {argument : Value}
    {b : BoundSql} (h : compileNode c root declared argument = .ok b) :
    b.parameter = argument ∧ Unbound "" ⟨b.bindings,0⟩ ∧
      (b.scope c declared).describeAll 0 (markers c root argument) = .ok b.mappings := by
  unfold compileNode at h
  obtain ⟨produced,ho,h⟩ := bind_eq_ok h
  obtain ⟨sql,hsql,h⟩ := bind_eq_ok h
  obtain rfl := Except.ok.inj h
  have hagrees := agrees_ofArgument argument c.databaseId
  refine ⟨rfl,?_,?_⟩
  · have hfree : ¬IsReserved "".toList := by
      intro ⟨rest,hr⟩
      simp at hr
    exact Node.unbound_render c root ho (by decide) hfree (hagrees.fresh "" (by decide))
  · exact MarkerScope.describeAll_of_mapMarkers hsql

/-- Whatever was registered, and for an argument that is what the registry says: the bound value of a parameter
whose marker states no type, and that is no cursor, is null, or nothing is known of its type, or it has the
inferred type. -/
theorem inferred_type_fits (r : TypeRegistry) (c : Configuration) (root : Node) (declared : Option ValueType)
    (argument : Value) (hdynamic : root.isDynamic = true) (hc : r.Conforms argument) {b : BoundSql}
    (h : (ofNode (c.withRegistry r) root declared).bind (·.compile (c.withRegistry r) argument) = .ok b) :
    ∀ (i : Nat) (m : ParameterMapping), b.mappings[i]? = some m →
      ∃ (content : List Char) (attributes : MarkerAttributes) (v : BoundValue),
        (markers (c.withRegistry r) root argument)[i]? = some content ∧
        Marker.parse content = .ok attributes ∧ (b.boundValues (c.withRegistry r))[i]? = some v ∧ v.mapping = m ∧
        ((∀ stated ∈ attributes, Attribute.ofName? stated.1 ≠ some .valueType) → m.sqlType ≠ some .cursor →
          v.value = .null ∨ m.valueType = .any ∨ m.valueType = v.value.type) := by
  have htemplate : ofNode (c.withRegistry r) root declared = .ok ⟨.dynamic root,declared.getD .any⟩ := by
    simp [ofNode,hdynamic,pure,Except.pure]
  rw [htemplate] at h
  have hcompile : compileNode (c.withRegistry r) root (declared.getD .any) argument = .ok b := h
  obtain ⟨rfl,hempty,hall⟩ := compileNode_ok hcompile
  intro i m hm
  obtain ⟨hlen,hdescribed⟩ := MarkerScope.describeAll_ok hall
  have hi : i < (markers (c.withRegistry r) root b.parameter).length := by
    rw [← hlen]
    exact (List.getElem?_eq_some_iff.mp hm).1
  obtain ⟨m',hm',hd⟩ := hdescribed i hi
  obtain rfl : m = m' := Option.some.inj (hm.symm.trans hm')
  obtain ⟨attributes,hp,hd⟩ := bind_eq_ok hd
  refine ⟨_,attributes,b.boundValue (c.withRegistry r) m,List.getElem?_eq_getElem hi,hp,?_,rfl,?_⟩
  · simp [BoundSql.boundValues,hm]
  intro hs hcursor
  have hunstated : ¬∃ stated ∈ attributes, Attribute.ofName? stated.1 = some .valueType := by
    rintro ⟨stated,hmem,ht⟩
    exact hs stated hmem ht
  have htype := MarkerScope.describeAttributes_inferred hd hunstated
  have hfits := BoundSql.resolve_fits (c := c) hc hempty m.property (declared.getD .any) hcursor
  rw [← htype] at hfits
  by_cases hmode : m.mode = .output
  · exact .inl (by simp [BoundSql.boundValue,hmode])
  · simpa [BoundSql.boundValue,hmode,Value.Fits,ParameterMapping.path] using hfits

theorem inferred_type_fits_nested :
    let r := (TypeRegistry.builtin.registerRecord ⟨"Address",[("zip",.int)]⟩).registerRecord
      ⟨"User",[("name",.string),("address",.record "Address")]⟩
    let c := Configuration.standard.withRegistry r
    let root := Node.text "zip = #\x7baddress.zip\x7d"
    let argument := Value.record "User" [("name",.null),("address",.record "Address" [("zip",.int 8001)])]
    root.isDynamic = true ∧ r.Conforms argument ∧ ∃ b m v,
      (ofNode c root none).bind (·.compile c argument) = .ok b ∧ b.mappings[0]? = some m ∧
        (b.boundValues c)[0]? = some v ∧ m.valueType = .int ∧
        (v.value = .null ∨ m.valueType = .any ∨ m.valueType = v.value.type) := by
  intro r c root argument
  have hdynamic : root.isDynamic = true := by decide +kernel
  have hc : r.Conforms argument := by
    simp [r,argument,TypeRegistry.Conforms,TypeRegistry.FieldsFit,TypeRegistry.EntriesConform,
      TypeRegistry.registerRecord,TypeRegistry.registerName,TypeRegistry.builtin,Entries.get?,
      Value.Fits,Value.type]
  refine ⟨hdynamic,hc,?_⟩
  have hcompiled : ((ofNode c root none).bind (·.compile c argument)).toOption.map
      (fun b => b.mappings.map fun m => (m.valueType,m.sqlType)) = some [(.int,none)] := by decide +kernel
  have hparsed : (markers c root argument).map (fun content => (Marker.parse content).toOption) =
      [some [("property","address.zip")]] := by decide +kernel
  cases hb : (ofNode c root none).bind (·.compile c argument) with
  | error e => simp [hb,Except.toOption] at hcompiled
  | ok b =>
    obtain ⟨m,hm,htype⟩ : ∃ m, b.mappings = [m] ∧ (m.valueType,m.sqlType) = (.int,none) := by
      simpa [hb,Except.toOption] using hcompiled
    obtain ⟨hint,hsql⟩ := Prod.mk.inj htype
    obtain ⟨content,attributes,v,hcontent,hp,hv,-,hfits⟩ :=
      inferred_type_fits r .standard root none argument hdynamic hc hb 0 m (by simp [hm])
    have hat : (Marker.parse content).toOption = some [("property","address.zip")] := by
      have hget := congrArg (·[0]?) hparsed
      have hfirst : (markers c root argument)[0]? = some content := hcontent
      simpa [hfirst] using hget
    obtain rfl : attributes = [("property","address.zip")] := by simpa [hp,Except.toOption] using hat
    exact ⟨b,m,v,rfl,by simp [hm],hv,hint,hfits (by decide) (by simp [hsql])⟩

end Template
end SqlTemplate
