import Mathlib.Data.List.Basic
import Mathlib.Data.List.Induction
import SqlTemplate.Proofs.Lexical.Scope
import SqlTemplate.Proofs.Marker.Statements
import SqlTemplate.Proofs.Placeholder.Settled
/-!
# Spellings of attributes

Three attributes have an older name besides their own. Written with their own names only, a marker states the same,
but its attributes may come to something else: of two values under one name the last one counts, while values under
two names are two attributes, all of which have to be valid, and of which the first one gives the type tag.
-/
namespace SqlTemplate
open Text

namespace Attribute

private theorem ofName?_name (a : Attribute) : ofName? a.name = some a := by
  cases a <;> decide

/-- The name of an attribute for every name it has; what is no name of an attribute stays. -/
def canonicalName (name : String) : String := ((ofName? name).map Attribute.name).getD name

variable {name : String} {a : Attribute}

private theorem canonicalName_eq (h : ofName? name = some a) : canonicalName name = a.name := by
  simp [canonicalName,h]

private theorem canonicalName_unknown (h : ofName? name = none) : canonicalName name = name := by
  simp [canonicalName,h]

@[simp] theorem ofName?_canonicalName (name : String) : ofName? (canonicalName name) = ofName? name := by
  cases h : ofName? name with
  | none => rw [canonicalName_unknown h,h]
  | some a => rw [canonicalName_eq h,ofName?_name]

@[simp] theorem canonicalName_name (a : Attribute) : canonicalName a.name = a.name :=
  canonicalName_eq (ofName?_name a)

def renamed : List Attribute := [.valueType,.sqlType,.sqlTypeName]

private theorem eq_name (h : ofName? name = some a) (ha : a ∉ renamed) : name = a.name := by
  have hall : ∀ e ∈ names, e.2 ∈ renamed ∨ e.1 = e.2.name := by decide
  have hmem : (name,a) ∈ names := Entries.mem_of_get? h
  exact (hall _ hmem).resolve_left ha

private theorem canonicalName_eq_property (name : String) :
    canonicalName name = Attribute.property.name ↔ name = Attribute.property.name := by
  constructor
  · intro h
    have hname : ofName? name = some .property := by rw [← ofName?_canonicalName,h,ofName?_name]
    exact eq_name hname (by decide)
  · rintro rfl
    exact canonicalName_name .property

private theorem canonicalName_eq_empty (name : String) : canonicalName name = "" ↔ name = "" := by
  cases h : ofName? name with
  | none => rw [canonicalName_unknown h]
  | some a =>
    have hname : a.name ≠ "" := by cases a <;> decide
    have hne : name ≠ "" := by
      rintro rfl
      contradiction
    simp [canonicalName_eq h,hname,hne]

end Attribute

namespace Marker
open Attribute

def respellKey (key : List Char) : List Char :=
  key.takeWhile isBlank ++ ((canonicalName (String.ofList (trim key))).toList ++
    (key.reverse.takeWhile isBlank).reverse)

def respellOption (option : List Char) : List Char :=
  if '=' ∈ option then respellKey (option.takeWhile (· ≠ '=')) ++ option.dropWhile (· ≠ '=') else option

/-- The content with each option under the attribute's own name. -/
def respell (content : List Char) : List Char :=
  match List.splitOn ',' content with
  | [] => []
  | head :: options => [','].intercalate (head :: options.map respellOption)

def respelled (stated : String × String) : String × String := (canonicalName stated.1,stated.2)

private theorem trim_name (a : Attribute) :
    trim a.name.toList = a.name.toList ∧ ',' ∉ a.name.toList ∧ '=' ∉ a.name.toList := by
  cases a <;> decide

section Key
variable (key : List Char)

private theorem allBlank_takeWhile (cs : List Char) : allBlank (cs.takeWhile isBlank) = true := List.all_takeWhile

private theorem trim_canonicalName : trim (canonicalName (String.ofList (trim key))).toList =
    (canonicalName (String.ofList (trim key))).toList := by
  cases h : ofName? (String.ofList (trim key)) with
  | none => rw [canonicalName_unknown h,String.toList_ofList,trim_trim]
  | some a => rw [canonicalName_eq h,(trim_name a).1]

private theorem trim_respellKey : trim (respellKey key) = (canonicalName (String.ofList (trim key))).toList := by
  apply trim_padded (allBlank_takeWhile key)
  · rw [allBlank_reverse,allBlank_takeWhile]
  · exact trim_canonicalName key

variable {key}

private theorem not_mem_respellKey {c : Char} (hc : c ∉ key) (hname : ∀ a : Attribute, c ∉ a.name.toList) :
    c ∉ respellKey key := by
  have hstart : c ∉ key.takeWhile isBlank := fun hm => hc ((List.takeWhile_sublist _).mem hm)
  have hend : c ∉ (key.reverse.takeWhile isBlank).reverse := by
    intro hm
    exact hc (List.mem_reverse.mp ((List.takeWhile_sublist _).mem (List.mem_reverse.mp hm)))
  have hword : c ∉ (canonicalName (String.ofList (trim key))).toList := by
    cases h : ofName? (String.ofList (trim key)) with
    | none =>
      rw [canonicalName_unknown h,String.toList_ofList]
      exact fun hm => hc ((trim_sublist key).mem hm)
    | some a =>
      rw [canonicalName_eq h]
      exact hname a
  simp [respellKey,hstart,hend,hword]

end Key

private theorem statement?_respellOption (option : List Char) :
    statement? (respellOption option) = (statement? option).map respelled := by
  by_cases h : '=' ∈ option
  · obtain ⟨name,value,rfl,hn⟩ := List.eq_append_cons_of_mem h
    have hkey := not_mem_respellKey hn fun a => (trim_name a).2.2
    have hempty : trim (respellKey name) = [] ↔ trim name = [] := by
      rw [trim_respellKey,String.toList_eq_nil_iff,canonicalName_eq_empty]
      simp
    obtain ⟨htake,hdrop⟩ := span_ne (rfl : name ++ '=' :: value = _) hn (by simp)
    rw [respellOption,if_pos h,htake,hdrop,statement?_append hkey,statement?_append hn]
    by_cases he : trim name = []
    · rw [if_pos (hempty.mpr he),if_pos he]
      rfl
    · rw [if_neg (hempty.not.mpr he),if_neg he,trim_respellKey,String.ofList_toList]
      rfl
  · rw [respellOption,if_neg h,statement?_of_not_mem h]
    rfl

private theorem comma_respellOption {option : List Char} (h : ',' ∉ option) : ',' ∉ respellOption option := by
  by_cases hq : '=' ∈ option
  · obtain ⟨name,value,rfl,hn⟩ := List.eq_append_cons_of_mem hq
    obtain ⟨htake,hdrop⟩ := span_ne (rfl : name ++ '=' :: value = _) hn (by simp)
    rw [respellOption,if_pos hq,htake,hdrop]
    simp only [List.mem_append,List.mem_cons,not_or] at h
    have hkey := not_mem_respellKey h.1 fun a => (trim_name a).2.1
    simp [hkey,h.2.2]
  · rwa [respellOption,if_neg hq]

private theorem headStatements?_respelled {head : List Char} {stated : List (String × String)}
    (h : headStatements? head = some stated) : stated.map respelled = stated := by
  have hpath (path : List Char) : (ofProperty path).map respelled = ofProperty path := by
    unfold ofProperty
    split <;> simp [respelled]
  simp only [headStatements?] at h
  split at h
  · contradiction
  · split at h
    · obtain rfl := Option.some.inj h
      exact hpath _
    · split at h
      · contradiction
      · obtain rfl := Option.some.inj h
        simp [hpath,respelled]

/-- The respelled content states the same, under the attributes' own names. -/
theorem statements?_respell (content : List Char) :
    statements? (respell content) = (statements? content).map (List.map respelled) := by
  cases hs : List.splitOn ',' content with
  | nil => exact absurd hs (List.splitOn_ne_nil _ content)
  | cons head options =>
    have hparts : ∀ part ∈ head :: options, ',' ∉ part := by
      intro part hp
      rw [← hs] at hp
      exact not_mem_of_mem_splitOn hp
    have hcomma : ∀ part ∈ head :: options.map respellOption, ',' ∉ part := by
      intro part hp
      rcases List.mem_cons.mp hp with rfl | hp
      · exact hparts part (by simp)
      · obtain ⟨option,ho,rfl⟩ := List.mem_map.mp hp
        exact comma_respellOption (hparts option (List.mem_cons_of_mem _ ho))
    have hrespell : respell content = [','].intercalate (head :: options.map respellOption) := by
      rw [respell,hs]
    rw [hrespell,statements?,statements?,List.splitOn_intercalate _ hcomma (by simp),hs]
    apply statementsOf?_map
    · cases hh : headStatements? head with
      | none => rfl
      | some stated => rw [Option.map_some,headStatements?_respelled hh]
    · exact fun option _ => statement?_respellOption option

end Marker

namespace MarkerAttributes
open Attribute Marker
variable {attributes : MarkerAttributes} {a : Attribute}

private theorem values_eq_nil_iff (l : List (String × String)) (a : Attribute) :
    values a l = [] ↔ ∀ name ∈ l.map Prod.fst, ofName? name ≠ some a := by
  simp [values]

private theorem values_eq (h : (attributes.map Prod.fst).Nodup) (a : Attribute) : values a attributes =
    ((attributes.map Prod.fst).filter fun name => ofName? name = some a).filterMap (Entries.get? attributes) := by
  induction attributes with
  | nil => rfl
  | cons e attributes ih =>
    obtain ⟨name,value⟩ := e
    rw [List.map_cons,List.nodup_cons] at h
    have hrest : ((attributes.map Prod.fst).filter fun name => ofName? name = some a).filterMap
        (Entries.get? ((name,value) :: attributes)) = values a attributes := by
      rw [ih h.2]
      apply List.filterMap_congr
      intro k hk
      have hne : name ≠ k := fun he => h.1 (he ▸ (List.mem_filter.mp hk).1)
      simp [Entries.get?,hne]
    have hcons : values a ((name,value) :: attributes) =
        if ofName? name = some a then value :: values a attributes else values a attributes := by
      by_cases hname : ofName? name = some a <;> simp [values,hname]
    rw [hcons,List.map_cons]
    by_cases hname : ofName? name = some a
    · have hget : Entries.get? ((name,value) :: attributes) name = some value := by simp [Entries.get?]
      rw [if_pos hname,List.filter_cons_of_pos (by simpa using hname),List.filterMap_cons_some hget,hrest]
    · rw [if_neg hname,List.filter_cons_of_neg (by simpa using hname),hrest]

section Fold
variable {stated : List (String × String)}

def lastValue? (stated : List (String × String)) (name : String) : Option String :=
  ((stated.filter fun e => e.1 = name).map Prod.snd).getLast?

/-- The names under which an attribute is stated, in the order in which they first are. -/
def statedNames (a : Attribute) (stated : List (String × String)) : List String :=
  (stated.map Prod.fst).eraseDups.filter fun name => ofName? name = some a

private theorem nodup_addStatement (h : (attributes.map Prod.fst).Nodup) (e : String × String) :
    ((addStatement attributes e).map Prod.fst).Nodup := by
  unfold addStatement
  split
  · exact h
  · exact Entries.nodup_put h e.1 e.2

private theorem nodup_foldl (stated : List (String × String)) :
    ((stated.foldl addStatement []).map Prod.fst).Nodup := by
  induction stated using List.reverseRecOn with
  | nil => exact List.nodup_nil
  | append_singleton stated e ih =>
    rw [List.foldl_append]
    exact nodup_addStatement ih e

private theorem keys_addStatement (attributes : MarkerAttributes) (e : String × String) :
    (addStatement attributes e).map Prod.fst =
      if e.1 ∈ attributes.map Prod.fst then attributes.map Prod.fst else attributes.map Prod.fst ++ [e.1] := by
  unfold addStatement
  split
  · next hh => rw [if_pos (Entries.has_iff.mp hh.2)]
  · rw [Entries.keys_put]
    simp only [Entries.has_iff]

private theorem keys_foldl (stated : List (String × String)) :
    (stated.foldl addStatement []).map Prod.fst = (stated.map Prod.fst).eraseDups := by
  induction stated using List.reverseRecOn with
  | nil => rfl
  | append_singleton stated e ih =>
    rw [List.foldl_append,List.foldl_cons,List.foldl_nil,keys_addStatement,ih,List.map_append,
      List.eraseDups_append]
    by_cases he : e.1 ∈ stated.map Prod.fst
    · simp [List.mem_eraseDups.mpr he,he,List.removeAll]
    · have he' : e.1 ∉ (stated.map Prod.fst).eraseDups := fun hm => he (List.mem_eraseDups.mp hm)
      rw [if_neg he']
      simp [he,List.removeAll,List.eraseDups_cons]

private theorem mem_keys_foldl (name : String) :
    name ∈ (stated.foldl addStatement []).map Prod.fst ↔ name ∈ stated.map Prod.fst := by
  rw [keys_foldl,List.mem_eraseDups]

private theorem get?_foldl {name : String} (hn : name ≠ Attribute.property.name) :
    Entries.get? (stated.foldl addStatement []) name = lastValue? stated name := by
  induction stated using List.reverseRecOn with
  | nil => rfl
  | append_singleton stated e ih =>
    have hlast : lastValue? (stated ++ [e]) name = if e.1 = name then some e.2 else lastValue? stated name := by
      by_cases he : e.1 = name <;> simp [lastValue?,he]
    rw [List.foldl_append,List.foldl_cons,List.foldl_nil,hlast,← ih]
    unfold addStatement
    split
    · next hh =>
      have hne : e.1 ≠ name := fun he => hn (he ▸ hh.1)
      rw [if_neg hne]
    · rw [Entries.get?_put]

/-- The values of an attribute are the last ones under each of its names. -/
theorem values_foldl (ha : a ≠ .property) : values a (stated.foldl addStatement []) =
    (statedNames a stated).filterMap (lastValue? stated) := by
  rw [values_eq (nodup_foldl stated),keys_foldl]
  apply List.filterMap_congr
  intro name hname
  apply get?_foldl
  rintro rfl
  have hproperty := (List.mem_filter.mp hname).2
  simp [ofName?_name,Ne.symm ha] at hproperty

private theorem values_foldl_of_one (ha : a ≠ .property) (name : String)
    (hn : ∀ e ∈ stated, ofName? e.1 = some a → e.1 = name) :
    values a (stated.foldl addStatement []) = (values a stated).getLast?.toList := by
  have hmem (k : String) : k ∈ statedNames a stated ↔ k ∈ stated.map Prod.fst ∧ ofName? k = some a := by
    simp [statedNames]
  have hall : ∀ k ∈ statedNames a stated, k = name ∧ ofName? k = some a := by
    intro k hk
    obtain ⟨hk,hka⟩ := (hmem k).mp hk
    obtain ⟨e,he,rfl⟩ := List.mem_map.mp hk
    exact ⟨hn e he hka,hka⟩
  have hnodup : (statedNames a stated).Nodup := by
    have hkeys := nodup_foldl stated
    rw [keys_foldl] at hkeys
    exact hkeys.filter _
  rw [values_foldl ha]
  match hnames : statedNames a stated with
  | [] =>
    have hnone : values a stated = [] := by
      rw [values_eq_nil_iff]
      intro k hk hka
      have hin := (hmem k).mpr ⟨hk,hka⟩
      simp [hnames] at hin
    rw [hnone]
    rfl
  | [k] =>
    obtain ⟨rfl,hk⟩ := hall k (by simp [hnames])
    have hsame : (stated.filter fun e => e.1 = k) = stated.filter fun e => ofName? e.1 = some a := by
      apply List.filter_congr
      intro e he
      have hiff : e.1 = k ↔ ofName? e.1 = some a := ⟨fun h => h ▸ hk,hn e he⟩
      simp only [hiff]
    have hlast : lastValue? stated k = (values a stated).getLast? := by
      rw [lastValue?,hsame,values]
    rw [← hlast]
    cases hl : lastValue? stated k <;> simp [hl]
  | k :: k' :: rest =>
    rw [hnames] at hnodup hall
    have hk := (hall k (by simp)).1
    have hk' := (hall k' (by simp)).1
    simp [hk,hk'] at hnodup

private theorem supported_foldl : supported (stated.foldl addStatement []) = supported stated := by
  have hall (l : List (String × String)) : supported l = true ↔ ∀ name ∈ l.map Prod.fst,
      ofName? name ≠ none ∧ ofName? name ≠ some .expression := by
    simp [supported]
  rw [Bool.eq_iff_iff,hall,hall]
  simp only [mem_keys_foldl]

private theorem values_foldl_eq_nil_iff (a : Attribute) :
    values a (stated.foldl addStatement []) = [] ↔ values a stated = [] := by
  rw [values_eq_nil_iff,values_eq_nil_iff]
  simp only [mem_keys_foldl]

private theorem property_addStatement (attributes : MarkerAttributes) (e : String × String) :
    Entries.get? (addStatement attributes e) Attribute.property.name =
      if e.1 = Attribute.property.name then
        (Entries.get? attributes Attribute.property.name).or (some e.2)
      else Entries.get? attributes Attribute.property.name := by
  unfold addStatement
  by_cases he : e.1 = Attribute.property.name
  · simp only [he,true_and,ite_true]
    cases hget : Entries.get? attributes Attribute.property.name <;> simp [Entries.has,hget]
  · simp [he]

private theorem property_foldl_respelled {attributes attributes' : MarkerAttributes}
    (h : Entries.get? attributes Attribute.property.name = Entries.get? attributes' Attribute.property.name) :
    Entries.get? (stated.foldl addStatement attributes) Attribute.property.name =
      Entries.get? ((stated.map respelled).foldl addStatement attributes') Attribute.property.name := by
  induction stated generalizing attributes attributes' with
  | nil => exact h
  | cons e stated ih =>
    rw [List.foldl_cons,List.map_cons,List.foldl_cons]
    apply ih
    simp only [property_addStatement,respelled,canonicalName_eq_property,h]

end Fold

section Respelled
variable (stated : List (String × String))

private theorem values_respelled (a : Attribute) : values a (stated.map respelled) = values a stated := by
  simp [values,respelled,List.filter_map,Function.comp_def]

private theorem supported_respelled : supported (stated.map respelled) = supported stated := by
  simp [supported,respelled,Function.comp_def]

/-- Under the attributes' own names, the last value of each attribute counts. -/
theorem values_foldl_respelled {a : Attribute} (ha : a ≠ .property) :
    values a ((stated.map respelled).foldl addStatement []) = (values a stated).getLast?.toList := by
  rw [← values_respelled stated a]
  apply values_foldl_of_one ha a.name
  intro e he hea
  obtain ⟨w,-,rfl⟩ := List.mem_map.mp he
  have hw : ofName? w.1 = some a := by rw [← ofName?_canonicalName]; exact hea
  exact canonicalName_eq hw

end Respelled
end MarkerAttributes

namespace Marker
open MarkerAttributes
variable {content : List Char} {t t' : MarkerAttributes}

/-- No attribute is stated under two names. -/
def OneName (stated : List (String × String)) : Prop :=
  ∀ e ∈ stated, ∀ e' ∈ stated, ∀ a,
    Attribute.ofName? e.1 = some a → Attribute.ofName? e'.1 = some a → e.1 = e'.1

private theorem describe?_respelled (stated : List (String × String)) (s : MarkerScope) (n : Nat) :
    let t := stated.foldl addStatement []
    let t' := (stated.map respelled).foldl addStatement []
    s.describe? n t = s.describe? n t' ↔
      s.ReadAlike t t' ∨ (s.describe? n t = none ∧ s.describe? n t' = none) := by
  intro t t'
  constructor
  · intro h
    cases hm : s.describe? n t with
    | none => exact .inr ⟨rfl,h ▸ hm⟩
    | some m =>
      have hstated : values .valueType t = [] ↔ values .valueType t' = [] := by
        rw [values_foldl_eq_nil_iff,values_foldl_eq_nil_iff,values_respelled]
      exact .inl (MarkerScope.readAlike_of_describe? hm (h ▸ hm) hstated)
  · rintro (halike | ⟨hnone,hnone'⟩)
    · have hsupported : supported t = supported t' := by
        rw [supported_foldl,supported_foldl,supported_respelled]
      apply MarkerScope.describe?_congr (property_foldl_respelled rfl) hsupported halike
      intro a ha
      have hrenamed : a ∉ Attribute.renamed ∧ a ≠ .property := by
        revert a
        decide
      rw [values_foldl_respelled stated hrenamed.2]
      exact values_foldl_of_one hrenamed.2 _ fun e _ he => Attribute.eq_name he hrenamed.1
    · rw [hnone,hnone']

/-- A marker has of each attribute the last values under each of its names, and the marker with the attributes' own
names has the last value alone. The two are described alike exactly when the type tag, the type and its name are read
alike off them, or neither is described; in particular when no attribute is stated under two names. -/
theorem respelled_marker (h : Marker.parse content = .ok t) : ∃ stated t',
    statements? content = some stated ∧ Marker.parse (respell content) = .ok t' ∧
      (∀ a, a ≠ .property → values a t = (statedNames a stated).filterMap (lastValue? stated) ∧
        values a t' = (values a stated).getLast?.toList) ∧
      (∀ (s : MarkerScope) (n : Nat), (s.describe n content).toOption = (s.describe n (respell content)).toOption ↔
        s.ReadAlike t t' ∨
          ((s.describe n content).toOption = none ∧ (s.describe n (respell content)).toOption = none)) ∧
      (OneName stated → ∀ (s : MarkerScope) (n : Nat),
        (s.describe n content).toOption = (s.describe n (respell content)).toOption) := by
  obtain ⟨stated,hstated,ht⟩ := Option.map_eq_some_iff.mp (parse_ok_iff.mp h)
  have hrespelled : Marker.parse (respell content) = .ok ((stated.map respelled).foldl addStatement []) := by
    rw [parse_ok_iff,statements?_respell,hstated]
    rfl
  have hdescribed (s : MarkerScope) (n : Nat) : (s.describe n content).toOption = s.describe? n t ∧
      (s.describe n (respell content)).toOption =
        s.describe? n ((stated.map respelled).foldl addStatement []) := by
    rw [s.describe_toOption,s.describe_toOption,h,hrespelled]
    exact ⟨rfl,rfl⟩
  have hvalues (a : Attribute) (ha : a ≠ .property) :
      values a t = (statedNames a stated).filterMap (lastValue? stated) := by
    rw [← ht,values_foldl ha]
  refine ⟨stated,_,hstated,hrespelled,fun a ha => ⟨hvalues a ha,values_foldl_respelled stated ha⟩,?_,?_⟩
  · intro s n
    rw [(hdescribed s n).1,(hdescribed s n).2,← ht]
    exact describe?_respelled stated s n
  · intro hone s n
    rw [(hdescribed s n).1,(hdescribed s n).2,← ht]
    apply MarkerScope.describe?_of_values
    · exact property_foldl_respelled rfl
    · rw [supported_foldl,supported_foldl,supported_respelled]
    · intro a ha
      rw [values_foldl_respelled stated ha]
      by_cases hname : ∃ e ∈ stated, Attribute.ofName? e.1 = some a
      · obtain ⟨e,he,hea⟩ := hname
        exact values_foldl_of_one ha _ fun e' he' hea' => hone e' he' e he a hea' hea
      · exact values_foldl_of_one ha a.name fun e he hea => absurd ⟨e,he,hea⟩ hname

theorem respelled_marker_legacy :
    let content := "id, jdbcType = INTEGER, javaType=int".toList
    let t := [("property","id"),("jdbcType","INTEGER"),("javaType","int")]
    Marker.parse content = .ok t ∧ respell content = "id, sqlType = INTEGER, valueType=int".toList ∧
      ∀ (s : MarkerScope) (n : Nat),
        (s.describe n content).toOption = (s.describe n (respell content)).toOption := by
  intro content t
  have hparse : Marker.parse content = .ok t := by
    rw [parse_ok_iff]
    decide +kernel
  obtain ⟨stated,t',hstated,-,-,-,hone⟩ := respelled_marker hparse
  obtain rfl : stated = t := by
    have hread : statements? content = some t := by decide +kernel
    exact Option.some.inj (hstated.symm.trans hread)
  refine ⟨hparse,by decide +kernel,hone ?_⟩
  unfold OneName
  decide +kernel

/-- A tag under the older name and another one under its own: the first one is read, but the last one once both
stand under one name. -/
theorem respelled_marker_differs :
    respell "id, jdbcType=INTEGER, sqlType=VARCHAR".toList = "id, sqlType=INTEGER, sqlType=VARCHAR".toList ∧
      ¬∀ (content : List Char) (t : MarkerAttributes) (s : MarkerScope) (n : Nat), Marker.parse content = .ok t →
        (s.describe n content).toOption = (s.describe n (respell content)).toOption := by
  refine ⟨by decide +kernel,fun h => ?_⟩
  have hparse : Marker.parse "id, jdbcType=INTEGER, sqlType=VARCHAR".toList =
      .ok [("property","id"),("jdbcType","INTEGER"),("sqlType","VARCHAR")] := by
    rw [parse_ok_iff]
    decide +kernel
  have hsame := congrArg (Option.map ParameterMapping.sqlType) (h _ _ ⟨.standard,.map,none⟩ 0 hparse)
  exact absurd hsame (by decide +kernel)

end Marker
end SqlTemplate
