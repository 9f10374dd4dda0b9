import SqlTemplate.Proofs.Marker.Statements
import SqlTemplate.Proofs.Placeholder.Drafts
/-!
# What attributes come to

A mapping is read off the attributes of a marker one after the other. What comes of it depends on the values of each
attribute, under all its names and in their order: the first type tag counts, and of everything else the last value,
but every value has to be valid.
-/
namespace SqlTemplate

namespace MarkerAttributes

def values (a : Attribute) (attributes : List (String × String)) : List String :=
  (attributes.filter fun e => Attribute.ofName? e.1 = some a).map Prod.snd

def supported (attributes : List (String × String)) : Bool :=
  attributes.all fun e => !(Attribute.ofName? e.1 = none || Attribute.ofName? e.1 = some .expression)

/-- No attribute is stated twice, by whatever names. -/
def Unambiguous (attributes : List (String × String)) : Prop :=
  attributes.Pairwise fun x y => ∀ a, Attribute.ofName? x.1 = some a → Attribute.ofName? y.1 ≠ some a

section
variable {attributes attributes' : List (String × String)}

theorem Unambiguous.length_le (h : Unambiguous attributes) {a : Attribute}
    (ha : ∀ e ∈ attributes, Attribute.ofName? e.1 = some a) : attributes.length ≤ 1 := by
  match attributes with
  | [] => exact Nat.zero_le 1
  | [_] => exact Nat.le_refl 1
  | e :: e' :: _ =>
    have hne := List.rel_of_pairwise_cons h (List.mem_cons_self (a := e')) a (ha e (by simp))
    exact absurd (ha e' (by simp)) hne

private theorem Unambiguous.length_values (h : Unambiguous attributes) (a : Attribute) :
    (values a attributes).length ≤ 1 := by
  rw [values,List.length_map]
  have hfilter : Unambiguous (attributes.filter fun e => Attribute.ofName? e.1 = some a) := List.Pairwise.filter _ h
  apply hfilter.length_le
  intro e he
  simpa using (List.mem_filter.mp he).2

/-- Where no attribute is stated twice, the order of the statements does not matter. -/
theorem values_perm (h : attributes.Perm attributes') (hu : Unambiguous attributes) (a : Attribute) :
    values a attributes = values a attributes' := by
  have hperm : (values a attributes).Perm (values a attributes') := (h.filter _).map _
  have hlength := hu.length_values a
  match hv : values a attributes with
  | [] => exact (List.nil_perm.mp (hv ▸ hperm)).symm
  | [v] => exact (List.singleton_perm.mp (hv ▸ hperm)).symm ▸ rfl
  | v :: v' :: rest => simp [hv] at hlength

theorem supported_perm (h : attributes.Perm attributes') : supported attributes = supported attributes' :=
  h.all_eq

end

/-- The type tag that is stated first; none inside for no tag, none for a text that is no tag. -/
def typeTag (attributes : List (String × String)) : Option (Option SqlType) :=
  match (values .sqlType attributes).head? with
  | none => some none
  | some value => (SqlType.ofTag? value).map some

def lastRead {α : Type} (read : String → Option α) (vs : List String) : Option (Option α) :=
  (vs.mapM read).map List.getLast?

private theorem lastRead_cons {α : Type} (read : String → Option α) (v : String) (vs : List String) :
    lastRead read (v :: vs) = (read v).bind fun a => (lastRead read vs).map fun last => last.or (some a) := by
  unfold lastRead
  rw [List.mapM_cons]
  cases read v with
  | none => rfl
  | some a =>
    cases vs.mapM read with
    | none => rfl
    | some as => cases as <;> simp [List.getLast?_cons]

private theorem lastRead_eq_none_iff {α : Type} {read : String → Option α} {vs : List String} :
    lastRead read vs = some none ↔ vs = [] := by
  cases vs with
  | nil => exact ⟨fun _ => rfl,fun _ => rfl⟩
  | cons v vs =>
    rw [lastRead_cons]
    cases read v with
    | none => simp
    | some a => cases lastRead read vs <;> simp

end MarkerAttributes

namespace MarkerScope
open MarkerAttributes
variable {s : MarkerScope}

/-- What the attributes of a marker come to, apart from the path and the type tag. -/
structure Settled where
  valueType : Option ValueType
  sqlTypeName : Option String
  mode : Option ParameterMode
  numericScale : Option UInt32
  resultMap : Option String
  typeHandler : Option String

namespace Settled

def empty : Settled := ⟨none,none,none,none,none,none⟩

def followedBy (x y : Settled) : Settled where
  valueType := y.valueType.or x.valueType
  sqlTypeName := y.sqlTypeName.or x.sqlTypeName
  mode := y.mode.or x.mode
  numericScale := y.numericScale.or x.numericScale
  resultMap := y.resultMap.or x.resultMap
  typeHandler := y.typeHandler.or x.typeHandler

def ofRead (type : Option (Option ValueType)) (mode : Option (Option ParameterMode))
    (scale : Option (Option UInt32)) (name map handler : Option String) : Option Settled :=
  type.bind fun type => mode.bind fun mode => scale.map fun scale => ⟨type,name,mode,scale,map,handler⟩

section
variable (type : Option (Option ValueType)) (mode : Option (Option ParameterMode))
  (scale : Option (Option UInt32)) (name map handler : Option String)

@[simp] theorem ofRead_none_type : ofRead none mode scale name map handler = none := rfl

@[simp] theorem ofRead_none_mode : ofRead type none scale name map handler = none := by
  cases type <;> rfl

@[simp] theorem ofRead_none_scale : ofRead type mode none name map handler = none := by
  cases type <;> cases mode <;> rfl

private theorem map_followedBy_ofRead (x : Settled) : (ofRead type mode scale name map handler).map x.followedBy =
      ofRead (type.map (·.or x.valueType)) (mode.map (·.or x.mode)) (scale.map (·.or x.numericScale))
        (name.or x.sqlTypeName) (map.or x.resultMap) (handler.or x.typeHandler) := by
  cases type <;> cases mode <;> cases scale <;> rfl

end

end Settled

def Draft.settle (d : Draft) (x : Settled) : Draft where
  mapping := { d.mapping with
    valueType := x.valueType.getD d.mapping.valueType
    sqlTypeName := x.sqlTypeName.or d.mapping.sqlTypeName
    mode := x.mode.getD d.mapping.mode
    numericScale := x.numericScale.or d.mapping.numericScale
    resultMap := x.resultMap.or d.mapping.resultMap }
  handlerName := x.typeHandler.or d.handlerName

private theorem Draft.settle_followedBy (d : Draft) (x y : Settled) :
    (d.settle x).settle y = d.settle (x.followedBy y) := by
  obtain ⟨type,name,mode,scale,map,handler⟩ := y
  cases type <;> cases name <;> cases mode <;> cases scale <;> cases map <;> cases handler <;> rfl

def typeOf? (s : MarkerScope) (value : String) : Option ValueType :=
  (s.config.typeHandlers.resolveType value).toOption

def scaleOf? (value : String) : Option UInt32 := (Numeral.word? 32 value.toList).map UInt32.ofNat

def stated? (s : MarkerScope) (stated : String × String) : Option Settled :=
  match Attribute.ofName? stated.1 with
  | some .property | some .sqlType => some .empty
  | some .valueType => (s.typeOf? stated.2).map fun type => { Settled.empty with valueType := some type }
  | some .mode => (ParameterMode.ofTag? stated.2).map fun mode => { Settled.empty with mode := some mode }
  | some .numericScale => (scaleOf? stated.2).map fun scale => { Settled.empty with numericScale := some scale }
  | some .resultMap => some { Settled.empty with resultMap := some stated.2 }
  | some .typeHandler => some { Settled.empty with typeHandler := some stated.2 }
  | some .sqlTypeName => some { Settled.empty with sqlTypeName := some stated.2 }
  | some .expression | none => none

private theorem addAttribute_toOption (s : MarkerScope) (content : String) (d : Draft) (stated : String × String) :
    (s.addAttribute content d stated).toOption = (s.stated? stated).map d.settle := by
  obtain ⟨name,value⟩ := stated
  simp only [addAttribute,stated?]
  cases Attribute.ofName? name with
  | none => rfl
  | some a =>
    cases a with
    | valueType =>
      simp only [typeOf?]
      cases s.config.typeHandlers.resolveType value <;> rfl
    | mode => cases ParameterMode.ofTag? value <;> rfl
    | numericScale =>
      simp only [scaleOf?]
      cases Numeral.word? 32 value.toList <;> rfl
    | property | sqlType | sqlTypeName | resultMap | typeHandler | expression => rfl

def settle? (s : MarkerScope) : List (String × String) → Option Settled
  | [] => some .empty
  | e :: es => (s.stated? e).bind fun x => (s.settle? es).map x.followedBy

private theorem foldlM_addAttribute_toOption (s : MarkerScope) (content : String) (attributes : List (String × String))
    (d : Draft) : (attributes.foldlM (s.addAttribute content) d).toOption =
      (s.settle? attributes).map d.settle := by
  induction attributes generalizing d with
  | nil => cases d; rfl
  | cons e es ih =>
    rw [List.foldlM_cons,toOption_bind,addAttribute_toOption,settle?]
    cases s.stated? e with
    | none => rfl
    | some x =>
      simp only [Option.map_some,Option.bind_some,ih]
      cases s.settle? es with
      | none => rfl
      | some y => simp [Draft.settle_followedBy]

/-- What statements come to, attribute by attribute. -/
theorem settle?_eq (s : MarkerScope) (attributes : List (String × String)) : s.settle? attributes =
    if supported attributes then
      Settled.ofRead (lastRead s.typeOf? (values .valueType attributes))
        (lastRead ParameterMode.ofTag? (values .mode attributes))
        (lastRead scaleOf? (values .numericScale attributes)) (values .sqlTypeName attributes).getLast?
        (values .resultMap attributes).getLast? (values .typeHandler attributes).getLast?
    else none := by
  induction attributes with
  | nil => rfl
  | cons e es ih =>
    obtain ⟨name,value⟩ := e
    have hvalues (a : Attribute) : values a ((name,value) :: es) =
        if Attribute.ofName? name = some a then value :: values a es else values a es := by
      unfold values
      by_cases h : Attribute.ofName? name = some a <;> simp [h]
    have hsupported : supported ((name,value) :: es) =
        (!(Attribute.ofName? name = none || Attribute.ofName? name = some .expression) && supported es) := rfl
    have hlast (v : String) (vs : List String) : (v :: vs).getLast? = vs.getLast?.or (some v) := by
      cases vs <;> simp [List.getLast?_cons]
    rw [settle?,ih,stated?,hsupported]
    simp only [hvalues]
    cases hs : supported es with
    | false => simp
    | true =>
      cases Attribute.ofName? name with
      | none => simp
      | some a =>
        cases a with
        | property | sqlType | sqlTypeName | resultMap | typeHandler =>
          simp [hlast,Settled.map_followedBy_ofRead,Settled.empty]
        | expression => simp
        | valueType =>
          cases ht : s.typeOf? value <;>
            simp [lastRead_cons,ht,Settled.map_followedBy_ofRead,Settled.empty]
        | mode =>
          cases hm : ParameterMode.ofTag? value <;>
            simp [lastRead_cons,hm,Settled.map_followedBy_ofRead,Settled.empty]
        | numericScale =>
          cases hn : scaleOf? value <;>
            simp [lastRead_cons,hn,Settled.map_followedBy_ofRead,Settled.empty]

private theorem read_of_settle? {s : MarkerScope} {attributes : List (String × String)} {x : Settled}
    (h : s.settle? attributes = some x) :
    lastRead s.typeOf? (values .valueType attributes) = some x.valueType ∧
      (values .sqlTypeName attributes).getLast? = x.sqlTypeName := by
  rw [settle?_eq] at h
  split at h
  · simp only [Settled.ofRead,Option.bind_eq_some_iff,Option.map_eq_some_iff] at h
    obtain ⟨type,htype,mode,-,scale,-,rfl⟩ := h
    exact ⟨htype,rfl⟩
  · contradiction

/-- The mapping with a path, a type tag and what the attributes come to, none if it is not valid. -/
def conclude (s : MarkerScope) (n : Nat) (property : Option String) (tag : Option SqlType) (x : Settled) :
    Option ParameterMapping :=
  let d := Draft.settle ⟨.initial n property (s.inferType property tag) tag,none⟩ x
  (do let handler ← s.handlerOf d
      { d.mapping with typeHandler := handler }.validate).toOption

private theorem sqlTypeOf_toOption (content : String) (attributes : MarkerAttributes) :
    (sqlTypeOf content attributes).toOption = typeTag attributes := by
  simp only [sqlTypeOf,typeTag,values,List.head?_map,List.head?_filter]
  cases attributes.find? fun e => Attribute.ofName? e.1 = some .sqlType with
  | none => rfl
  | some e =>
    obtain ⟨name,value⟩ := e
    simp only [Option.map_some]
    cases SqlType.ofTag? value <;> rfl

def describe? (s : MarkerScope) (n : Nat) (attributes : MarkerAttributes) : Option ParameterMapping :=
  (typeTag attributes).bind fun tag => (s.settle? attributes).bind fun x =>
    s.conclude n (Entries.get? attributes Attribute.property.name) tag x

def ReadAlike (s : MarkerScope) (attributes attributes' : List (String × String)) : Prop :=
  typeTag attributes = typeTag attributes' ∧
    lastRead s.typeOf? (values .valueType attributes) = lastRead s.typeOf? (values .valueType attributes') ∧
    (values .sqlTypeName attributes).getLast? = (values .sqlTypeName attributes').getLast?

/-- What attributes describe, attribute by attribute: of the types, only what is read counts. -/
theorem describe?_congr {s : MarkerScope} {n : Nat} {attributes attributes' : MarkerAttributes}
    (hp : Entries.get? attributes Attribute.property.name = Entries.get? attributes' Attribute.property.name)
    (hs : supported attributes = supported attributes') (hr : s.ReadAlike attributes attributes')
    (hv : ∀ a ∈ [Attribute.mode,.numericScale,.resultMap,.typeHandler],
      values a attributes = values a attributes') :
    s.describe? n attributes = s.describe? n attributes' := by
  obtain ⟨htag,htype,hname⟩ := hr
  have hsettle : s.settle? attributes = s.settle? attributes' := by
    rw [settle?_eq,settle?_eq,hs,htype,hname,hv .mode (by decide),hv .numericScale (by decide),
      hv .resultMap (by decide),hv .typeHandler (by decide)]
  rw [describe?,describe?,htag,hsettle,hp]

/-- Attributes with the same path and the same values describe the same. -/
theorem describe?_of_values {s : MarkerScope} {n : Nat} {attributes attributes' : MarkerAttributes}
    (hp : Entries.get? attributes Attribute.property.name = Entries.get? attributes' Attribute.property.name)
    (hs : supported attributes = supported attributes')
    (hv : ∀ a, a ≠ .property → values a attributes = values a attributes') :
    s.describe? n attributes = s.describe? n attributes' := by
  apply describe?_congr hp hs
  · rw [ReadAlike,typeTag,typeTag,hv .sqlType (by decide),hv .valueType (by decide),hv .sqlTypeName (by decide)]
    exact ⟨rfl,rfl,rfl⟩
  · intro a ha
    apply hv
    rintro rfl
    exact absurd ha (by decide)

private theorem describeAttributes_toOption (s : MarkerScope) (n : Nat) (content : String)
    (attributes : MarkerAttributes) :
    (s.describeAttributes n content attributes).toOption = s.describe? n attributes := by
  unfold describeAttributes describe?
  rw [toOption_bind,sqlTypeOf_toOption]
  congr 1
  funext tag
  rw [toOption_bind,foldlM_addAttribute_toOption]
  cases s.settle? attributes <;> rfl

/-- What a marker is described by depends on its attributes; its content is there for the errors only. -/
theorem describe_toOption (s : MarkerScope) (n : Nat) (content : List Char) :
    (s.describe n content).toOption = (Marker.parse content).toOption.bind (s.describe? n) := by
  unfold describe
  rw [toOption_bind]
  congr 1
  funext attributes
  exact s.describeAttributes_toOption n _ attributes

private theorem read_of_describe? {s : MarkerScope} {n : Nat} {attributes : MarkerAttributes} {m : ParameterMapping}
    (h : s.describe? n attributes = some m) : typeTag attributes = some m.sqlType ∧
      (values .sqlTypeName attributes).getLast? = m.sqlTypeName ∧
      ∃ type, lastRead s.typeOf? (values .valueType attributes) = some type ∧
        m.valueType = type.getD (s.inferType (Entries.get? attributes Attribute.property.name) m.sqlType) := by
  simp only [describe?,conclude,toOption_bind,Option.bind_eq_some_iff] at h
  obtain ⟨tag,htag,x,hx,handler,-,hv⟩ := h
  obtain rfl := validate_ok (toOption_eq_some.mp hv)
  obtain ⟨htype,hname⟩ := read_of_settle? hx
  exact ⟨htag,hname.trans Option.or_none.symm,x.valueType,htype,rfl⟩

theorem readAlike_of_describe? {s : MarkerScope} {n : Nat} {attributes attributes' : MarkerAttributes}
    {m : ParameterMapping} (h : s.describe? n attributes = some m) (h' : s.describe? n attributes' = some m)
    (hv : values .valueType attributes = [] ↔ values .valueType attributes' = []) :
    s.ReadAlike attributes attributes' := by
  obtain ⟨htag,hname,type,htype,hvalue⟩ := read_of_describe? h
  obtain ⟨htag',hname',type',htype',hvalue'⟩ := read_of_describe? h'
  have hsame : type = type' := by
    cases type with
    | none =>
      have hnone := hv.mp (lastRead_eq_none_iff.mp htype)
      exact Option.some.inj ((lastRead_eq_none_iff.mpr hnone).symm.trans htype')
    | some t =>
      cases type' with
      | none =>
        have hnone := hv.mpr (lastRead_eq_none_iff.mp htype')
        exact Option.some.inj (htype.symm.trans (lastRead_eq_none_iff.mpr hnone))
      | some t' => exact congrArg some (hvalue.symm.trans hvalue')
  refine ⟨htag.trans htag'.symm,?_,hname.trans hname'.symm⟩
  rw [htype,htype',hsame]

end MarkerScope
end SqlTemplate
