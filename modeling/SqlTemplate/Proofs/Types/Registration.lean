import Mathlib.Data.List.Induction
import SqlTemplate.TypeRegistry
/-!
# Registrations

What a registry answers after any registrations, read off their log: a type, a handler or the properties of a
record are those that were registered last. Names are stored as they are registered but asked for without the
blanks around them, so a name with blanks at its ends is asked for in vain.
-/
namespace SqlTemplate
open Text

namespace Table
variable {κ κ' α : Type} [DecidableEq κ]

/-- What the last entry of a log with a key of some kind says. -/
def latest? (p : κ' → Bool) (log : List (κ' × α)) : Option α := ((log.filter fun e => p e.1).getLast?).map Prod.snd

@[simp] theorem latest?_nil (p : κ' → Bool) : latest? p ([] : List (κ' × α)) = none := rfl

private theorem latest?_concat (p : κ' → Bool) (log : List (κ' × α)) (e : κ' × α) :
    latest? p (log ++ [e]) = if p e.1 then some e.2 else latest? p log := by
  by_cases h : p e.1 <;> simp [latest?,h]

/-- Of the entries that are put under one key, the last one counts. -/
theorem get?_ofList_map (f : κ' → κ) (log : List (κ' × α)) (key : κ) :
    (ofList (log.map fun e => (f e.1,e.2))).get? key = latest? (fun k => f k = key) log := by
  induction log using List.reverseRecOn with
  | nil => rfl
  | append_singleton log e ih =>
    rw [List.map_append,List.map_cons,List.map_nil,ofList_concat,get?_put,latest?_concat,ih]
    simp

private theorem isSome_latest? (p : κ' → Bool) (log : List (κ' × α)) :
    (latest? p log).isSome = true ↔ ∃ e ∈ log, p e.1 = true := by
  induction log using List.reverseRecOn with
  | nil => simp
  | append_singleton log e ih =>
    rw [latest?_concat]
    by_cases h : p e.1
    · simp only [h,ite_true,Option.isSome_some,true_iff]
      exact ⟨e,by simp,h⟩
    · simp [h,ih]

private theorem get?_ofList (log : List (κ × α)) (key : κ) : (ofList log).get? key = latest? (· = key) log := by
  simpa using get?_ofList_map id log key

end Table

inductive Registration
  | named (name : String) (type : ValueType)
  | record (shape : RecordShape)
  | handler (type : ValueType) (name : String)

namespace Registration

def typeName? : Registration → Option (String × ValueType)
  | .named name type => some (name,type)
  | .record shape => some (shape.typeName,.record shape.typeName)
  | .handler _ _ => none

def properties? : Registration → Option (String × List (String × ValueType))
  | .record shape => some (shape.typeName,shape.properties)
  | .named _ _ | .handler _ _ => none

def handler? : Registration → Option (ValueType × TypeHandler)
  | .handler type name => some (type,⟨name⟩)
  | .named _ _ | .record _ => none

/-- The names of types in the order of their registration, the builtin ones first. -/
def typeNames (steps : List Registration) : List (String × ValueType) :=
  TypeRegistry.builtinNames ++ steps.filterMap typeName?

def handlers (steps : List Registration) : List (ValueType × TypeHandler) :=
  TypeRegistry.builtinHandlers ++ steps.filterMap handler?

/-- The type that a name equal to the text up to ASCII case was last registered for. -/
def latestType? (steps : List Registration) (text : List Char) : Option ValueType :=
  Table.latest? (fun name => sameWord name.toList text) (typeNames steps)

def latestHandler? (steps : List Registration) (type : ValueType) : Option TypeHandler :=
  Table.latest? (· = type) (handlers steps)

def latestProperties? (steps : List Registration) (name : String) : Option (List (String × ValueType)) :=
  Table.latest? (· = name) (steps.filterMap properties?)

end Registration

namespace TypeRegistry
open Registration

def register (r : TypeRegistry) : Registration → TypeRegistry
  | .named name type => r.registerName name type
  | .record shape => r.registerRecord shape
  | .handler type name => r.registerHandler type name

def ofRegistrations (steps : List Registration) : TypeRegistry := steps.foldl register builtin

private theorem ofRegistrations_concat (steps : List Registration) (step : Registration) :
    ofRegistrations (steps ++ [step]) = (ofRegistrations steps).register step := by
  simp [ofRegistrations]

/-- A table in which a registration puts an entry, or leaves everything as it is, holds the entries of the log. -/
theorem table_ofRegistrations {κ α : Type} [DecidableEq κ] {table : TypeRegistry → Table κ α}
    (written : Registration → Option (κ × α)) (start : List (κ × α)) (hstart : table builtin = Table.ofList start)
    (hstep : ∀ r step, table (register r step) =
      (written step).elim (table r) fun e => (table r).put e.1 e.2) (steps : List Registration) :
    table (ofRegistrations steps) = Table.ofList (start ++ steps.filterMap written) := by
  induction steps using List.reverseRecOn with
  | nil =>
    rw [List.filterMap_nil,List.append_nil]
    exact hstart
  | append_singleton steps step ih =>
    rw [ofRegistrations_concat,hstep,ih]
    cases h : written step <;> simp [h,← Table.ofList_concat]

private theorem typeNames_ofRegistrations (steps : List Registration) : (ofRegistrations steps).typeNames =
    Table.ofList ((Registration.typeNames steps).map fun e => (lowerCase e.1,e.2)) := by
  have hstart : builtin.typeNames = Table.ofList (builtinNames.map fun e => (lowerCase e.1,e.2)) :=
    congrArg Table.ofList (by decide +kernel)
  have h := table_ofRegistrations (fun step => step.typeName?.map fun e => (lowerCase e.1,e.2)) _ hstart
    (fun r step => by cases step <;> rfl) steps
  rw [h,Registration.typeNames,List.map_append,List.map_filterMap]

private theorem handlers_ofRegistrations (steps : List Registration) :
    (ofRegistrations steps).handlers = Table.ofList (Registration.handlers steps) :=
  table_ofRegistrations Registration.handler? builtinHandlers rfl (fun r step => by cases step <;> rfl) steps

private theorem records_ofRegistrations (steps : List Registration) :
    (ofRegistrations steps).records = Table.ofList (steps.filterMap properties?) :=
  table_ofRegistrations properties? [] rfl (fun r step => by cases step <;> rfl) steps

private theorem resolveType_ofRegistrations (steps : List Registration) (name : String) :
    (ofRegistrations steps).resolveType name =
      (latestType? steps (trim name.toList)).elim (.error (.unknownType name)) .ok := by
  have hkey (registered : String) : (lowerCase registered = String.ofList (lower (trim name.toList))) ↔
      sameWord registered.toList (trim name.toList) = true := by
    simp [lowerCase,sameWord,String.ofList_inj]
  have hget : (ofRegistrations steps).typeNames.get? (String.ofList (lower (trim name.toList))) =
      latestType? steps (trim name.toList) := by
    rw [typeNames_ofRegistrations,Table.get?_ofList_map,latestType?]
    simp only [hkey,Bool.decide_eq_true]
  rw [resolveType,hget]
  cases latestType? steps (trim name.toList) <;> rfl

private theorem handler?_ofRegistrations (steps : List Registration) (type : ValueType) :
    (ofRegistrations steps).handler? type = latestHandler? steps type := by
  rw [handler?,handlers_ofRegistrations,Table.get?_ofList,latestHandler?]

private theorem getterType?_ofRegistrations (steps : List Registration) (record : String) {path name : String}
    (h : Path.segments path.toList = [.name name]) : (ofRegistrations steps).getterType? (.record record) path =
      (latestProperties? steps record).bind (Entries.get? · name) := by
  have hproperty : (ofRegistrations steps).getterType? (.record record) path =
      (ofRegistrations steps).propertyType? (.record record) name := by
    simp [getterType?,h,stepType?]
  rw [hproperty,propertyType?,records_ofRegistrations,Table.get?_ofList,latestProperties?]

/-- A registry answers with what the steps that made it registered last. -/
structure AnswersLatest (steps : List Registration) (r : TypeRegistry) : Prop where
  type : ∀ name, r.resolveType name = (latestType? steps (trim name.toList)).elim (.error (.unknownType name)) .ok
  registered_type : ∀ name type, latestType? steps name.toList = some type →
    (r.resolveType name = .ok type ↔ latestType? steps (trim name.toList) = some type)
  known_iff : ∀ e ∈ Registration.typeNames steps, (∃ type, r.resolveType e.1 = .ok type) ↔
    ∃ other ∈ Registration.typeNames steps, sameWord other.1.toList (trim e.1.toList) = true
  handler : ∀ type sqlType, r.typeHandlers.handler? type sqlType = latestHandler? steps type
  has_handler_iff : ∀ type, r.typeHandlers.has type = true ↔ ∃ e ∈ Registration.handlers steps, e.1 = type
  property : ∀ record path name, Path.segments path.toList = [.name name] →
    r.introspector.getterType? (.record record) path = (latestProperties? steps record).bind (Entries.get? · name)

/-- A registry answers with what was registered last: for a name, the type it was registered for without regard to
ASCII case; for a type, its handler; for a property of a record, the type in the properties of that record. The blanks
around a name count in its registration only: the last registration of a name is found exactly when it is also the last
one of the name without them, and a registered name is known exactly when the name without them is registered. -/
theorem ofRegistrations_answers_latest (steps : List Registration) : AnswersLatest steps (ofRegistrations steps) := by
  have hresolve := resolveType_ofRegistrations steps
  have hhandler := handler?_ofRegistrations steps
  refine ⟨hresolve,fun name type _ => ?_,fun e _ => ?_,fun type _ => hhandler type,fun type => ?_,?_⟩
  · rw [hresolve]
    cases latestType? steps (trim name.toList) <;> simp
  · have hknown : (latestType? steps (trim e.1.toList)).isSome = true ↔ _ := Table.isSome_latest? _ _
    rw [hresolve,← hknown]
    cases latestType? steps (trim e.1.toList) <;> simp
  · change ((ofRegistrations steps).handler? type).isSome = true ↔ _
    rw [hhandler,latestHandler?,Table.isSome_latest?]
    simp
  · intro record path name h
    exact getterType?_ofRegistrations steps record h

theorem ofRegistrations_answers_latest_retaken :
    let steps := [Registration.record ⟨"User",[("id",.int)]⟩,.named "USER" .string,
      .record ⟨"User",[("id",.string)]⟩,.handler .int "first",.handler .int "second"]
    let r := ofRegistrations steps
    latestType? steps "uSeR".toList = some (.record "User") ∧ r.resolveType "uSeR" = .ok (.record "User") ∧
    r.typeHandlers.handler? .int none = some ⟨"second"⟩ ∧ r.typeHandlers.has .map = false ∧
    Path.segments " id ".toList = [.name "id"] ∧
    r.introspector.getterType? (.record "User") " id " = some .string := by
  intro steps r
  have hlast := ofRegistrations_answers_latest steps
  have hlatest : latestType? steps "uSeR".toList = some (.record "User") := by decide +kernel
  have htrimmed : latestType? steps (trim "uSeR".toList) = some (.record "User") := by decide +kernel
  have hmap : ¬∃ e ∈ Registration.handlers steps, e.1 = .map := by decide +kernel
  have hpath : Path.segments " id ".toList = [.name "id"] := by decide +kernel
  refine ⟨hlatest,(hlast.registered_type _ _ hlatest).mpr htrimmed,?_,?_,hpath,?_⟩
  · rw [hlast.handler .int none]
    decide +kernel
  · simpa using (hlast.has_handler_iff .map).not.mpr hmap
  · rw [hlast.property _ _ _ hpath]
    decide +kernel

/-- A name with blanks at its ends is registered, and unknown when it is asked for as it was registered. -/
theorem padded_name_unknown :
    latestType? [.named " Padded " .int] " Padded ".toList = some .int ∧
      (ofRegistrations [.named " Padded " .int]).resolveType " Padded " =
        .error (.unknownType " Padded ") := by
  have hnone : latestType? [.named " Padded " .int] (trim " Padded ".toList) = none := by decide +kernel
  refine ⟨by decide +kernel,?_⟩
  rw [resolveType_ofRegistrations,hnone]
  rfl

end TypeRegistry
end SqlTemplate
