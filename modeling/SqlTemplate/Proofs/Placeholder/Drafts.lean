import SqlTemplate.Template
/-!
# Drafts of mappings

What reading the attributes of a marker leaves alone: the place of the placeholder, the property path and the type
tag, and the type unless an attribute states it. Nothing else in a mapping depends on the place and the path, apart
from the inferred type.
-/
namespace SqlTemplate

/-- The mapping without its place and without the path that its marker is written with. -/
def ParameterMapping.anonymous (m : ParameterMapping) : ParameterMapping :=
  { m with position := 0, property := none }

namespace MarkerScope
variable {s t : MarkerScope}

/-- What reading attributes leaves alone; `typed` says that one of them states a type. -/
structure Draft.Keeps (typed : Prop) (d d' : Draft) : Prop where
  position : d'.mapping.position = d.mapping.position
  property : d'.mapping.property = d.mapping.property
  sqlType : d'.mapping.sqlType = d.mapping.sqlType
  valueType : ¬typed → d'.mapping.valueType = d.mapping.valueType

theorem Draft.Keeps.refl (typed : Prop) (d : Draft) : Keeps typed d d := ⟨rfl,rfl,rfl,fun _ => rfl⟩

def StatesType (stated : String × String) : Prop := Attribute.ofName? stated.1 = some .valueType

private theorem addAttribute_keeps {content : String} {d d' : Draft} {stated : String × String}
    (h : s.addAttribute content d stated = .ok d') : d.Keeps (StatesType stated) d' := by
  obtain ⟨name,value⟩ := stated
  simp only [addAttribute] at h
  split at h
  · obtain rfl := Except.ok.inj h; exact .refl _ d
  · obtain rfl := Except.ok.inj h; exact .refl _ d
  · next hname =>
    cases ht : s.config.typeHandlers.resolveType value with
    | error e => simp [ht,Except.map] at h
    | ok type =>
      rw [ht] at h
      obtain rfl := Except.ok.inj h
      exact ⟨rfl,rfl,rfl,fun hs => absurd hname hs⟩
  · split at h
    · obtain rfl := Except.ok.inj h; exact ⟨rfl,rfl,rfl,fun _ => rfl⟩
    · simp at h
  · split at h
    · obtain rfl := Except.ok.inj h; exact ⟨rfl,rfl,rfl,fun _ => rfl⟩
    · simp at h
  · obtain rfl := Except.ok.inj h; exact ⟨rfl,rfl,rfl,fun _ => rfl⟩
  · obtain rfl := Except.ok.inj h; exact ⟨rfl,rfl,rfl,fun _ => rfl⟩
  · obtain rfl := Except.ok.inj h; exact ⟨rfl,rfl,rfl,fun _ => rfl⟩
  · simp at h
  · simp at h

private theorem foldlM_addAttribute_keeps {content : String} {attributes : List (String × String)}
    {d d' : Draft} (h : attributes.foldlM (s.addAttribute content) d = .ok d') :
    d.Keeps (∃ stated ∈ attributes, StatesType stated) d' := by
  induction attributes generalizing d with
  | nil =>
    obtain rfl : d = d' := by simpa [pure,Except.pure] using h
    exact .refl _ d
  | cons a as ih =>
    rw [List.foldlM_cons] at h
    obtain ⟨d₁,h₁,h₂⟩ := bind_eq_ok h
    have hfirst := addAttribute_keeps h₁
    have hrest := ih h₂
    refine ⟨hrest.position.trans hfirst.position,hrest.property.trans hfirst.property,
      hrest.sqlType.trans hfirst.sqlType,fun hs => ?_⟩
    have has : ¬∃ stated ∈ as, StatesType stated := by
      rintro ⟨stated,hm,ht⟩
      exact hs ⟨stated,List.mem_cons_of_mem a hm,ht⟩
    exact (hrest.valueType has).trans (hfirst.valueType fun ht => hs ⟨a,by simp,ht⟩)

theorem validate_ok {m m' : ParameterMapping} (h : m.validate = .ok m') : m' = m := by
  unfold ParameterMapping.validate at h
  split at h
  · split at h
    · simp at h
    · exact (Except.ok.inj h).symm
  · split at h
    · simp at h
    · exact (Except.ok.inj h).symm

theorem describeAttributes_keeps {n : Nat} {content : String} {attributes : MarkerAttributes}
    {m : ParameterMapping} (h : s.describeAttributes n content attributes = .ok m) :
    m.position = n ∧ m.property = Entries.get? attributes Attribute.property.name := by
  obtain ⟨sqlType,-,h⟩ := bind_eq_ok h
  obtain ⟨draft,hd,h⟩ := bind_eq_ok h
  obtain ⟨handler,-,h⟩ := bind_eq_ok h
  obtain rfl := validate_ok h
  have hkeeps := foldlM_addAttribute_keeps hd
  exact ⟨hkeeps.position,hkeeps.property⟩

theorem describeAttributes_inferred {n : Nat} {content : String} {attributes : MarkerAttributes}
    {m : ParameterMapping} (h : s.describeAttributes n content attributes = .ok m)
    (hs : ¬∃ stated ∈ attributes, StatesType stated) :
    m.valueType = s.inferType m.property m.sqlType := by
  obtain ⟨sqlType,-,h⟩ := bind_eq_ok h
  obtain ⟨draft,hd,h⟩ := bind_eq_ok h
  obtain ⟨handler,-,h⟩ := bind_eq_ok h
  obtain rfl := validate_ok h
  have hkeeps := foldlM_addAttribute_keeps hd
  change draft.mapping.valueType = s.inferType draft.mapping.property draft.mapping.sqlType
  rw [hkeeps.valueType hs,hkeeps.property,hkeeps.sqlType]
  rfl

theorem position_of_describe {n : Nat} {content : List Char} {m : ParameterMapping}
    (h : s.describe n content = .ok m) : m.position = n := by
  obtain ⟨attributes,-,h⟩ := bind_eq_ok h
  exact (describeAttributes_keeps h).1

def Draft.anonymous (d : Draft) : Draft := { d with mapping := d.mapping.anonymous }

private theorem addAttribute_anonymous (hc : s.config = t.config) (content content' : String) {d d' : Draft}
    (hd : d.anonymous = d'.anonymous) (stated : String × String) :
    (s.addAttribute content d stated).toOption.map Draft.anonymous =
      (t.addAttribute content' d' stated).toOption.map Draft.anonymous := by
  obtain ⟨name,value⟩ := stated
  obtain ⟨⟨position,property,valueType,sqlType,sqlTypeName,mode,scale,resultMap,handler⟩,named⟩ := d
  obtain ⟨⟨position',property',valueType',sqlType',sqlTypeName',mode',scale',resultMap',handler'⟩,named'⟩ := d'
  simp only [Draft.anonymous,ParameterMapping.anonymous,Draft.mk.injEq,ParameterMapping.mk.injEq,
    true_and] at hd
  obtain ⟨⟨rfl,rfl,rfl,rfl,rfl,rfl,rfl⟩,rfl⟩ := hd
  obtain ⟨c,type,bindings⟩ := s
  obtain ⟨c',type',bindings'⟩ := t
  obtain rfl : c = c' := hc
  simp only [addAttribute]
  cases Attribute.ofName? name with
  | none => rfl
  | some a =>
    cases a with
    | valueType => cases hv : c.typeHandlers.resolveType value <;> rfl
    | mode => cases hv : ParameterMode.ofTag? value <;> rfl
    | numericScale => cases hv : Numeral.word? 32 value.toList <;> rfl
    | property | sqlType | sqlTypeName | resultMap | typeHandler | expression => rfl

private theorem foldlM_addAttribute_anonymous (hc : s.config = t.config) (content content' : String)
    (attributes : List (String × String)) {d d' : Draft} (hd : d.anonymous = d'.anonymous) :
    (attributes.foldlM (s.addAttribute content) d).toOption.map Draft.anonymous =
      (attributes.foldlM (t.addAttribute content') d').toOption.map Draft.anonymous := by
  induction attributes generalizing d d' with
  | nil => exact congrArg some hd
  | cons a as ih =>
    rw [List.foldlM_cons,List.foldlM_cons]
    exact toOption_bind_congr (addAttribute_anonymous hc content content' hd a) fun _ _ => ih

private theorem finish_anonymous (hc : s.config = t.config) {d d' : Draft} (hd : d.anonymous = d'.anonymous) :
    (do let handler ← s.handlerOf d
        { d.mapping with typeHandler := handler }.validate).toOption.map ParameterMapping.anonymous =
      (do let handler ← t.handlerOf d'
          { d'.mapping with typeHandler := handler }.validate).toOption.map
        ParameterMapping.anonymous := by
  obtain ⟨⟨position,property,valueType,sqlType,sqlTypeName,mode,scale,resultMap,handler⟩,named⟩ := d
  obtain ⟨⟨position',property',valueType',sqlType',sqlTypeName',mode',scale',resultMap',handler'⟩,named'⟩ := d'
  simp only [Draft.anonymous,ParameterMapping.anonymous,Draft.mk.injEq,ParameterMapping.mk.injEq,
    true_and] at hd
  obtain ⟨⟨rfl,rfl,rfl,rfl,rfl,rfl,rfl⟩,rfl⟩ := hd
  have hhandler : s.handlerOf ⟨⟨position,property,valueType,sqlType,sqlTypeName,mode,scale,resultMap,handler⟩,named⟩ =
      t.handlerOf ⟨⟨position',property',valueType,sqlType,sqlTypeName,mode,scale,resultMap,handler⟩,named⟩ := by
    simp only [handlerOf,hc]
  rw [hhandler]
  cases t.handlerOf ⟨⟨position',property',valueType,sqlType,sqlTypeName,mode,scale,resultMap,handler⟩,named⟩ with
  | error e => rfl
  | ok found =>
    simp only [bind,Except.bind,ParameterMapping.validate]
    split
    · split <;> rfl
    · split <;> rfl

private theorem sqlTypeOf_property (content p : String) (others : MarkerAttributes) :
    (sqlTypeOf content ((Attribute.property.name,p) :: others)).toOption = (sqlTypeOf "" others).toOption := by
  have hname : (Attribute.ofName? Attribute.property.name = some Attribute.sqlType) = False := by
    simp only [eq_iff_iff,iff_false]
    decide
  simp only [sqlTypeOf,List.find?_cons,hname,decide_false]
  cases others.find? fun e => Attribute.ofName? e.1 = some .sqlType with
  | none => rfl
  | some e =>
    obtain ⟨name,value⟩ := e
    simp only
    cases SqlType.ofTag? value <;> rfl

/-- Two markers that differ in the path only are described alike, for any two places, when what their paths
refer to has the same type. -/
theorem describeAttributes_anonymous (hc : s.config = t.config) (n n' : Nat) (content content' : String)
    (p p' : String) (others : MarkerAttributes)
    (hi : ∀ sqlType, s.inferType (some p) sqlType = t.inferType (some p') sqlType) :
    (s.describeAttributes n content ((Attribute.property.name,p) :: others)).toOption.map
        ParameterMapping.anonymous =
      (t.describeAttributes n' content' ((Attribute.property.name,p') :: others)).toOption.map
        ParameterMapping.anonymous := by
  have hget (q : String) : Entries.get? ((Attribute.property.name,q) :: others) Attribute.property.name = some q := by
    simp [Entries.get?]
  have hhead (s : MarkerScope) (content q : String) (d : Draft) :
      s.addAttribute content d (Attribute.property.name,q) = .ok d := rfl
  simp only [describeAttributes,hget,List.foldlM_cons,hhead]
  refine toOption_bind_congr (f := id) (by simp only [sqlTypeOf_property]) ?_
  rintro sqlType _ rfl
  have hinitial : Draft.anonymous ⟨.initial n (some p) (s.inferType (some p) sqlType) sqlType,none⟩ =
      Draft.anonymous ⟨.initial n' (some p') (t.inferType (some p') sqlType) sqlType,none⟩ := by
    rw [hi]
    rfl
  exact toOption_bind_congr (foldlM_addAttribute_anonymous hc content content' others hinitial)
    fun _ _ => finish_anonymous hc

end MarkerScope
end SqlTemplate
