import SqlTemplate.Proofs.Lexical.Semantics
import SqlTemplate.Proofs.Path.Segments
import SqlTemplate.Proofs.Template.Static
import SqlTemplate.Proofs.Text.Trim
/-!
# Markers under another root

A marker begins with the name that its path leads off from. Putting another name there changes nothing in what
the marker binds, as long as both names are bound to the same value where they are looked up.
-/
namespace SqlTemplate
open Text

theorem isPlain_of_isNameChar {c : Char} (h : isNameChar c = true) : isPlain c = true := by
  simp only [isPlain,Bool.not_eq_true',List.contains_eq_mem,decide_eq_false_iff_not,List.mem_cons,
    List.not_mem_nil,or_false]
  intro hc
  rcases hc with rfl | rfl | rfl | rfl | rfl <;> revert h <;> decide

theorem endsProperty_of_isNameChar {c : Char} (h : isNameChar c = true) :
    Marker.endsProperty c = false := by
  simp only [Marker.endsProperty,Bool.or_eq_false_iff,decide_eq_false_iff_not]
  constructor <;> rintro rfl <;> revert h <;> decide

theorem endsName_of_isNameChar {c : Char} (h : isNameChar c = true) : Path.endsName c = false := by
  simp only [Path.endsName,Bool.or_eq_false_iff,decide_eq_false_iff_not]
  constructor <;> rintro rfl <;> revert h <;> decide

private theorem not_isNameChar_of_endsName {c : Char} (h : Path.endsName c = true) : isNameChar c = false := by
  cases hc : isNameChar c with
  | false => rfl
  | true => simp [endsName_of_isNameChar hc] at h

theorem takeWhile_isNameChar {cs : List Char} (h : continuesName cs = false) :
    cs.takeWhile isNameChar = [] := by
  cases cs with
  | nil => rfl
  | cons c cs =>
    have hc : isNameChar c = false := h
    simp [hc]

theorem dropWhile_isNameChar {cs : List Char} (h : continuesName cs = false) :
    cs.dropWhile isNameChar = cs := by
  cases cs with
  | nil => rfl
  | cons c cs =>
    have hc : isNameChar c = false := h
    simp [hc]

namespace IsName
variable {name : List Char}

theorem head_ne (h : IsName name) {d : Char} (hd : isNameChar d = false) (rest : List Char) :
    (name ++ rest).head? ≠ some d := by
  cases name with
  | nil => exact absurd rfl h.1
  | cons c cs =>
    intro hc
    obtain rfl : c = d := by simpa using hc
    have hname := h.2 c (by simp)
    rw [hd] at hname
    exact absurd hname (by decide)

theorem trimStart_append (h : IsName name) (rest : List Char) :
    Text.trimStart (name ++ rest) = name ++ rest := by
  cases name with
  | nil => exact absurd rfl h.1
  | cons c cs =>
    have hb := isBlank_of_isNameChar (h.2 c (by simp))
    simp [trimStart_cons,hb]

theorem trimEnd_append (h : IsName name) (rest : List Char) :
    Text.trimEnd (name ++ rest) = name ++ Text.trimEnd rest := by
  obtain ⟨front,last,hl⟩ : ∃ front last, name = front ++ [last] :=
    ⟨name.dropLast,name.getLast h.1,(List.dropLast_concat_getLast h.1).symm⟩
  have hb := isBlank_of_isNameChar (h.2 last (by simp [hl]))
  have hend := Text.trimEnd_append hb front rest
  simpa [hl] using hend

theorem trim_append (h : IsName name) (rest : List Char) :
    Text.trim (name ++ rest) = name ++ Text.trimEnd rest := by
  rw [Text.trim,h.trimStart_append,h.trimEnd_append]

theorem eq_of_append_eq (h : IsName name) {other rest rest' : List Char} (ho : IsName other)
    (hr : continuesName rest = false) (hr' : continuesName rest' = false)
    (heq : name ++ rest = other ++ rest') : name = other ∧ rest = rest' := by
  have hname := congrArg (List.takeWhile isNameChar) heq
  rw [List.takeWhile_append_of_pos h.2,List.takeWhile_append_of_pos ho.2,takeWhile_isNameChar hr,
    takeWhile_isNameChar hr'] at hname
  obtain rfl : name = other := by simpa using hname
  exact ⟨rfl,List.append_cancel_left heq⟩

end IsName

/-- The content begins with a name, behind blanks, and the name ends there: the path is the name, or goes on with
a dot or a bracket. -/
structure Leads (content name rest : List Char) : Prop where
  start : Text.trimStart content = name ++ rest
  is_name : IsName name
  ends : continuesName rest = false
  goes_on : ∀ (c : Char) (cs : List Char),
    Text.trimEnd (rest.takeWhile (!Marker.endsProperty ·)) = c :: cs → Path.endsName c = true

def Leads.more (rest : List Char) : List Char := Text.trimEnd (rest.takeWhile (!Marker.endsProperty ·))

namespace IsName
variable {content name rest : List Char}

theorem takeWhile_property (h : IsName name) (rest : List Char) :
    (name ++ rest).takeWhile (!Marker.endsProperty ·) = name ++ rest.takeWhile (!Marker.endsProperty ·) := by
  apply List.takeWhile_append_of_pos
  intro c hc
  simp [endsProperty_of_isNameChar (h.2 c hc)]

theorem dropWhile_property (h : IsName name) (rest : List Char) :
    (name ++ rest).dropWhile (!Marker.endsProperty ·) = rest.dropWhile (!Marker.endsProperty ·) := by
  apply List.dropWhile_append_of_pos
  intro c hc
  simp [endsProperty_of_isNameChar (h.2 c hc)]

theorem path_eq (h : IsName name) (hs : Text.trimStart content = name ++ rest) :
    Marker.path content = name ++ Leads.more rest := by
  rw [Marker.path,hs,h.takeWhile_property,h.trim_append,Leads.more]

private theorem trim_path (h : IsName name) (rest : List Char) :
    Text.trim (name ++ Leads.more rest) = name ++ Leads.more rest := by
  rw [h.trim_append,Leads.more,trimEnd_trimEnd]

theorem root_path (h : IsName name) (rest : List Char) :
    Path.root (name ++ Leads.more rest) = name ++ (Leads.more rest).takeWhile (!Path.endsName ·) := by
  have hname : ∀ c ∈ name, (!Path.endsName c) = true := by
    intro c hc
    simp [endsName_of_isNameChar (h.2 c hc)]
  rw [Path.root,h.trim_path,List.takeWhile_append_of_pos hname]

private theorem afterRoot_path (h : IsName name) (hroot : Path.root (name ++ Leads.more rest) = name) :
    Path.afterRoot (name ++ Leads.more rest) = Leads.more rest := by
  have happend := Path.root_append_afterRoot (name ++ Leads.more rest)
  rw [hroot,h.trim_path] at happend
  exact List.append_cancel_left happend

theorem root_path_of_root (h : IsName name) {other : List Char} (ho : IsName other)
    (hroot : Path.root (name ++ Leads.more rest) = name) : Path.root (other ++ Leads.more rest) = other ∧
      Path.afterRoot (other ++ Leads.more rest) = Path.afterRoot (name ++ Leads.more rest) := by
  have htake : (Leads.more rest).takeWhile (!Path.endsName ·) = [] := by
    rw [h.root_path] at hroot
    simpa using hroot
  have hother : Path.root (other ++ Leads.more rest) = other := by rw [ho.root_path,htake,List.append_nil]
  exact ⟨hother,(ho.afterRoot_path hother).trans (h.afterRoot_path hroot).symm⟩

theorem parse_eq (h : IsName name) (hs : Text.trimStart content = name ++ rest) : Marker.parse content =
    Marker.addTypeAndOptions (String.ofList content)
      [(Attribute.property.name,String.ofList (name ++ Leads.more rest))]
      (rest.dropWhile (!Marker.endsProperty ·)) := by
  have hhead : (Text.trimStart content).head? ≠ some '(' := by
    rw [hs]
    exact h.head_ne (by decide) rest
  have hpath : Text.trim ((Text.trimStart content).takeWhile (!Marker.endsProperty ·)) =
      name ++ Leads.more rest := h.path_eq hs
  have hne : ¬name ++ Leads.more rest = [] := fun hn => h.1 (List.append_eq_nil_iff.mp hn).1
  rw [Marker.parse,if_neg hhead,hpath,hs,h.dropWhile_property,Marker.ofProperty,if_neg hne]

end IsName

namespace Leads
variable {content name rest : List Char}

theorem path_eq (h : Leads content name rest) : Marker.path content = name ++ more rest :=
  h.is_name.path_eq h.start

private theorem trim_path (h : Leads content name rest) : Text.trim (name ++ more rest) = name ++ more rest :=
  h.is_name.trim_path rest

private theorem root_eq (h : Leads content name rest) : Path.root (name ++ more rest) = name := by
  rw [h.is_name.root_path]
  cases hm : more rest with
  | nil => simp
  | cons c cs => simp [h.goes_on c cs hm]

private theorem afterRoot_eq (h : Leads content name rest) : Path.afterRoot (name ++ more rest) = more rest :=
  h.is_name.afterRoot_path h.root_eq

theorem continuesName_more (h : Leads content name rest) : continuesName (more rest) = false := by
  cases hm : more rest with
  | nil => rfl
  | cons c cs => exact not_isNameChar_of_endsName (h.goes_on c cs hm)

theorem replace (h : Leads content name rest) {other : List Char} (ho : IsName other) :
    Leads (other ++ rest) other rest :=
  ⟨ho.trimStart_append rest,ho,h.ends,h.goes_on⟩

end Leads

theorem Marker.path_eq_trimEnd (content : List Char) :
    Marker.path content = Text.trimEnd ((Text.trimStart content).takeWhile (!endsProperty ·)) := by
  have hstart : Text.trimStart ((Text.trimStart content).takeWhile (!endsProperty ·)) =
      (Text.trimStart content).takeWhile (!endsProperty ·) := by
    cases hb : Text.trimStart content with
    | nil => rfl
    | cons c cs =>
      have hc : isBlank c = false := isBlank_of_trimStart hb
      cases hp : endsProperty c <;> simp [hp,trimStart_cons,hc]
  rw [Marker.path,Text.trim,hstart]

theorem PlainMarker.leads {content : List Char} (h : PlainMarker content) :
    ∃ rest, Leads content (Path.root (Marker.path content)) rest := by
  have hx := h.root_name
  let body := Text.trimStart content
  let property := body.takeWhile (!Marker.endsProperty ·)
  have hbody : property ++ body.dropWhile (!Marker.endsProperty ·) = body := List.takeWhile_append_dropWhile
  have hpath : Text.trimEnd property = Path.root (Marker.path content) ++ Path.afterRoot (Marker.path content) := by
    rw [Path.root_append_afterRoot,Marker.path,trim_trim]
    exact (Marker.path_eq_trimEnd content).symm
  generalize Path.root (Marker.path content) = name at hx hpath
  have hmore : ∀ c cs, Path.afterRoot (Marker.path content) = c :: cs → Path.endsName c = true := by
    intro c cs hc
    exact Path.endsName_of_head?_afterRoot (congrArg List.head? hc)
  generalize Path.afterRoot (Marker.path content) = more at hpath hmore
  obtain ⟨blanks,hblanks⟩ := trimEnd_prefix property
  have hproperty : property = name ++ (more ++ blanks) := by rw [← hblanks,hpath,List.append_assoc]
  have hend : Text.trimEnd (more ++ blanks) = more := by
    rw [hproperty,hx.trimEnd_append] at hpath
    exact List.append_cancel_left hpath
  have hname : ∀ c ∈ name, (!Marker.endsProperty c) = true := by
    intro c hc
    simp [endsProperty_of_isNameChar (hx.2 c hc)]
  have hrest : body = name ++ (more ++ blanks ++ body.dropWhile (!Marker.endsProperty ·)) := by
    rw [← List.append_assoc,← hproperty]
    exact hbody.symm
  have htake : (more ++ blanks ++ body.dropWhile (!Marker.endsProperty ·)).takeWhile
      (!Marker.endsProperty ·) = more ++ blanks := by
    have htaken := congrArg (List.takeWhile (!Marker.endsProperty ·)) hrest
    rw [List.takeWhile_append_of_pos hname] at htaken
    exact List.append_cancel_left (htaken.symm.trans hproperty)
  refine ⟨more ++ blanks ++ body.dropWhile (!Marker.endsProperty ·),hrest,hx,?_,?_⟩
  · cases more with
    | cons c cs => exact not_isNameChar_of_endsName (hmore c cs rfl)
    | nil =>
      cases blanks with
      | cons c cs =>
        cases hc : isNameChar c with
        | false => exact hc
        | true =>
          have hkeep := Text.trimEnd_append (isBlank_of_isNameChar hc) [] cs
          simp only [List.nil_append] at hkeep hend
          simp [hkeep] at hend
      | nil =>
        have hd := List.head?_dropWhile_not (!Marker.endsProperty ·) body
        cases hb : body.dropWhile (!Marker.endsProperty ·) with
        | nil => rfl
        | cons c cs =>
          have hp : Marker.endsProperty c = true := by simpa [hb] using hd
          cases hc : isNameChar c with
          | false => exact hc
          | true => simp [endsProperty_of_isNameChar hc] at hp
  · intro c cs hc
    rw [htake,hend] at hc
    exact hmore c cs hc

def ParameterMapping.placed (n : Nat) (path : List Char) (m : ParameterMapping) : ParameterMapping :=
  { m with position := n, property := some (String.ofList path) }

/-- The mapping with a value; an output parameter is null. -/
def ParameterMapping.bindTo (c : Configuration) (v : Value) (m : ParameterMapping) : BoundValue :=
  let value := if m.mode = .output then .null else v
  ⟨m,value,m.sqlType.or (if value.isNull then some c.nullSqlType else none)⟩

namespace Marker

private theorem addOption_property (others : MarkerAttributes) (option : List Char) :
    ∃ o : Option MarkerAttributes, ∀ (text p : String),
      (addOption text ((Attribute.property.name,p) :: others) option).toOption =
        o.map ((Attribute.property.name,p) :: ·) := by
  cases hd : option.dropWhile (· ≠ '=') with
  | nil =>
    refine ⟨none,fun text p => ?_⟩
    simp only [addOption,hd]
    rfl
  | cons c value =>
    let key := String.ofList (Text.trim (option.takeWhile (· ≠ '=')))
    by_cases he : key = ""
    · refine ⟨none,fun text p => ?_⟩
      simp only [addOption,hd]
      rw [if_pos he]
      rfl
    · by_cases hp : key = Attribute.property.name
      · refine ⟨some others,fun text p => ?_⟩
        have hhas : Entries.has ((Attribute.property.name,p) :: others) key = true := by
          simp [Entries.has,Entries.get?,hp]
        simp only [addOption,hd]
        rw [if_neg he,if_pos ⟨hp,hhas⟩]
        rfl
      · refine ⟨some (Entries.put others key (String.ofList (Text.trim value))),fun text p => ?_⟩
        simp only [addOption,hd]
        rw [if_neg he,if_neg (fun h => hp h.1),Entries.put,if_neg (Ne.symm hp)]
        rfl

private theorem addOptions_property (others : MarkerAttributes) (options : List (List Char)) :
    ∃ o : Option MarkerAttributes, ∀ (text p : String),
      (options.foldlM (addOption text) ((Attribute.property.name,p) :: others)).toOption =
        o.map ((Attribute.property.name,p) :: ·) := by
  induction options generalizing others with
  | nil => exact ⟨some others,fun _ _ => rfl⟩
  | cons option options ih =>
    obtain ⟨o,ho⟩ := addOption_property others option
    cases o with
    | none =>
      refine ⟨none,fun text p => ?_⟩
      rw [List.foldlM_cons,toOption_bind,ho]
      rfl
    | some others' =>
      obtain ⟨o',ho'⟩ := ih others'
      refine ⟨o',fun text p => ?_⟩
      rw [List.foldlM_cons,toOption_bind,ho]
      exact ho' text p

theorem addTypeAndOptions_property (rest : List Char) :
    ∃ o : Option MarkerAttributes, ∀ (text p : String),
      (addTypeAndOptions text [(Attribute.property.name,p)] rest).toOption =
        o.map ((Attribute.property.name,p) :: ·) := by
  have hoptions (others : MarkerAttributes) (rest : List Char) :
      ∃ o : Option MarkerAttributes, ∀ (text p : String),
        (addOptions text ((Attribute.property.name,p) :: others) rest).toOption =
          o.map ((Attribute.property.name,p) :: ·) := by
    unfold addOptions
    split
    · exact addOptions_property others _
    · exact ⟨some others,fun _ _ => rfl⟩
  unfold addTypeAndOptions
  split
  · next tail =>
    by_cases ht : Text.trim (tail.takeWhile (· ≠ ',')) = []
    · refine ⟨none,fun text p => ?_⟩
      simp only
      rw [if_pos ht]
      rfl
    · obtain ⟨o,ho⟩ := hoptions
        [(Attribute.sqlType.name,String.ofList (Text.trim (tail.takeWhile (· ≠ ','))))]
        (tail.dropWhile (· ≠ ','))
      refine ⟨o,fun text p => ?_⟩
      have hne : ¬Attribute.property.name = Attribute.sqlType.name := by decide
      simp only
      rw [if_neg ht,Entries.put,if_neg hne,Entries.put]
      exact ho text p
  · exact hoptions [] rest

end Marker

namespace Leads
variable {content content' name name' rest : List Char} {s t : MarkerScope}

theorem parse_eq (h : Leads content name rest) : Marker.parse content =
    Marker.addTypeAndOptions (String.ofList content)
      [(Attribute.property.name,String.ofList (name ++ more rest))]
      (rest.dropWhile (!Marker.endsProperty ·)) :=
  h.is_name.parse_eq h.start

private theorem property_of_describe (h : Leads content name rest) {n : Nat} {m : ParameterMapping}
    (hm : s.describe n content = .ok m) : m.property = some (String.ofList (name ++ more rest)) := by
  obtain ⟨attributes,hp,hd⟩ := bind_eq_ok hm
  obtain ⟨o,ho⟩ := Marker.addTypeAndOptions_property (rest.dropWhile (!Marker.endsProperty ·))
  have hattributes := ho (String.ofList content) (String.ofList (name ++ more rest))
  rw [← h.parse_eq,hp] at hattributes
  cases o with
  | none => simp [Except.toOption] at hattributes
  | some others =>
    obtain rfl : attributes = (Attribute.property.name,String.ofList (name ++ more rest)) :: others := by
      simpa [Except.toOption] using hattributes
    rw [(MarkerScope.describeAttributes_keeps hd).2]
    simp [Entries.get?]

/-- A mapping is determined by what is left of it without its place and its path. -/
theorem placed_of_describe (h : Leads content name rest) {n : Nat} {m : ParameterMapping}
    (hm : s.describe n content = .ok m) : m.anonymous.placed n (name ++ more rest) = m := by
  rw [ParameterMapping.placed,← h.property_of_describe hm,← MarkerScope.position_of_describe hm]
  rfl

private theorem describe_anonymous (h : Leads content name rest) (h' : Leads content' name' rest)
    (hc : s.config = t.config) (n n' : Nat)
    (hi : ∀ sqlType, s.inferType (some (String.ofList (name ++ more rest))) sqlType =
      t.inferType (some (String.ofList (name' ++ more rest))) sqlType) :
    (s.describe n content).toOption.map ParameterMapping.anonymous =
      (t.describe n' content').toOption.map ParameterMapping.anonymous := by
  obtain ⟨o,ho⟩ := Marker.addTypeAndOptions_property (rest.dropWhile (!Marker.endsProperty ·))
  have hdescribe {s : MarkerScope} {content name : List Char} (h : Leads content name rest) (n : Nat) :
      (s.describe n content).toOption = o.bind fun others => (s.describeAttributes n (String.ofList content)
        ((Attribute.property.name,String.ofList (name ++ more rest)) :: others)).toOption := by
    rw [MarkerScope.describe,toOption_bind,h.parse_eq,ho,Option.bind_map]
    rfl
  rw [hdescribe h,hdescribe h',Option.map_bind,Option.map_bind]
  exact Option.bind_congr fun others _ => MarkerScope.describeAttributes_anonymous hc n n' _ _ _ _ others hi

private theorem segments_eq (h : Leads content name rest) :
    ∃ more', Path.segments (name ++ more rest) = .name (String.ofList name) :: more' := by
  obtain ⟨c,cs,hc⟩ := List.exists_cons_of_ne_nil h.is_name.1
  have hname : ∀ d ∈ (Text.trim (name ++ more rest)).head?, Path.endsName d = false := by
    rw [h.trim_path,hc]
    rintro _ ⟨⟩
    exact endsName_of_isNameChar (h.is_name.2 c (by simp [hc]))
  have hne : Text.trim (name ++ more rest) ≠ [] := by
    rw [h.trim_path,hc]
    simp
  have hsegments := Path.segments_eq_root_cons hne hname
  rw [h.root_eq] at hsegments
  exact ⟨_,hsegments⟩

private theorem additional?_eq (h : Leads content name rest) (b : Bindings) : b.additional? (name ++ more rest) =
    (b.explicit? (String.ofList name)).bind (·.lookup? (more rest)) := by
  rw [Bindings.additional?,h.root_eq,h.afterRoot_eq]

private theorem inferType_eq (h : Leads content name rest) (d : Dialect) (type : ValueType) (b : Bindings)
    (sqlType : Option SqlType) :
    MarkerScope.inferType ⟨.ofDialect d,type,some b⟩ (some (String.ofList (name ++ more rest))) sqlType =
      (((b.explicit? (String.ofList name)).bind (·.lookup? (more rest))).map Value.type).getD
        (if TypeRegistry.builtin.typeHandlers.has type then type
        else if sqlType = some .cursor then .resultSet else .any) := by
  have hbound : MarkerScope.boundType? ⟨.ofDialect d,type,some b⟩ (some (String.ofList (name ++ more rest))) =
      ((b.explicit? (String.ofList name)).bind (·.lookup? (more rest))).map Value.type := by
    rw [← h.additional?_eq b]
    cases hv : b.additional? (name ++ more rest) <;> simp [MarkerScope.boundType?,hv]
  have hgetter : TypeRegistry.builtin.typeHandlers.has type = false → type ≠ .map →
      (TypeRegistry.builtin.getterType? type (String.ofList (name ++ more rest))).getD .any = .any := by
    obtain ⟨more',hs⟩ := h.segments_eq
    intro hhas hmap
    rw [TypeRegistry.getterType?,String.toList_ofList,hs,List.foldlM_cons]
    cases type with
    | list | record | resultSet => rfl
    | map => exact absurd rfl hmap
    | any | bool | int | float | string => exact absurd hhas (by decide)
  rw [MarkerScope.inferType,hbound]
  cases (b.explicit? (String.ofList name)).bind (·.lookup? (more rest)) with
  | some v => rfl
  | none =>
    simp only [Option.map_none,Option.getD_none]
    change (if TypeRegistry.builtin.typeHandlers.has type then type
      else if sqlType = some .cursor then .resultSet
      else if type = .map then .any
      else (TypeRegistry.builtin.getterType? type (String.ofList (name ++ more rest))).getD .any) = _
    cases hhas : TypeRegistry.builtin.typeHandlers.has type with
    | true => rfl
    | false =>
      by_cases hmap : type = .map
      · simp [hmap]
      · rw [if_neg hmap,hgetter hhas hmap]

private theorem value_eq (h : Leads content name rest) (b : Bindings) : Lexical.value b (name ++ more rest) =
    match b.explicit? (String.ofList name) with
    | some v => (v.lookup? (more rest)).getD .null
    | none => if b.parameter.isSimple then b.parameter
      else (b.parameter.lookup? (name ++ more rest)).getD .null := by
  cases hx : b.explicit? (String.ofList name) with
  | some v => simp only [Lexical.value,h.root_eq,h.afterRoot_eq,hx]
  | none => simp only [Lexical.value,h.root_eq,hx]

private theorem bound?_eq (h : Leads content name rest) (l : Lexical) (scope : Bindings) : l.bound? scope content =
    ((MarkerScope.describe ⟨l.config,l.parameterType,some scope⟩ 0 content).toOption.map
      ParameterMapping.anonymous).map fun m => (m.placed 0 (name ++ more rest)).bindTo l.config
        (Lexical.value scope (name ++ more rest)) := by
  rw [Lexical.bound?]
  cases hm : MarkerScope.describe ⟨l.config,l.parameterType,some scope⟩ 0 content with
  | error e => rfl
  | ok m =>
    have hpath : m.path.toList = name ++ more rest := by
      rw [ParameterMapping.path,h.property_of_describe hm]
      exact String.toList_ofList
    simp only [Except.toOption,Option.map_some,h.placed_of_describe hm,ParameterMapping.bindTo]
    rw [← hpath]
    rfl

/-- What a marker binds depends on the argument and on what the name in front is bound to. -/
theorem bound?_congr (h : Leads content name rest) (l : Lexical) {b b' : Bindings}
    (hp : b.parameter = b'.parameter)
    (he : b.explicit? (String.ofList name) = b'.explicit? (String.ofList name)) :
    l.bound? b content = l.bound? b' content := by
  have hv : Lexical.value b (name ++ more rest) = Lexical.value b' (name ++ more rest) := by
    rw [h.value_eq,h.value_eq,he,hp]
  have hd := h.describe_anonymous h (s := ⟨l.config,l.parameterType,some b⟩)
    (t := ⟨l.config,l.parameterType,some b'⟩) rfl 0 0 (by
      intro sqlType
      rw [h.inferType_eq,h.inferType_eq,he])
  rw [h.bound?_eq,h.bound?_eq,hv,hd]

theorem bound?_original (h : Leads content name rest) (h' : Leads content' name' rest) (l : Lexical)
    {b b' : Bindings} (hp : b.parameter = b'.parameter)
    (he : b.explicit? (String.ofList name) = b'.explicit? (String.ofList name'))
    (hn : name = name' ∨ (b.explicit? (String.ofList name)).isSome = true)
    (ho : Path.original (name' ++ more rest) = name ++ more rest) :
    l.bound? b content = (l.bound? b' content').map BoundValue.original := by
  have hv : Lexical.value b (name ++ more rest) = Lexical.value b' (name' ++ more rest) := by
    rw [h.value_eq,h'.value_eq,← he,hp]
    cases hx : b.explicit? (String.ofList name) with
    | some v => rfl
    | none =>
      obtain rfl : name = name' := by simpa [hx] using hn
      rfl
  have hd := h.describe_anonymous h' (s := ⟨l.config,l.parameterType,some b⟩)
    (t := ⟨l.config,l.parameterType,some b'⟩) rfl 0 0 (by
      intro sqlType
      rw [h.inferType_eq,h'.inferType_eq,he])
  have horiginal (m : ParameterMapping) (v : Value) :
      ((m.placed 0 (name' ++ more rest)).bindTo l.config v).original =
        (m.placed 0 (name ++ more rest)).bindTo l.config v := by
    simp only [BoundValue.original,ParameterMapping.bindTo,ParameterMapping.placed,Option.map_some,
      String.toList_ofList,ho]
    rfl
  rw [h.bound?_eq,h'.bound?_eq,hv,hd]
  cases (MarkerScope.describe ⟨l.config,l.parameterType,some b'⟩ 0 content').toOption with
  | none => rfl
  | some m => exact congrArg some (horiginal m.anonymous _).symm

end Leads
end SqlTemplate
