import SqlTemplate.Bindings
import SqlTemplate.Configuration
import SqlTemplate.Parameter.Marker
/-!
# Parameter mappings

A mapping describes how the value of one placeholder is found and bound. It is read off a bind marker: its
type is inferred unless an attribute states it, and the type must have a handler or, for a result set, a
result map.
-/
namespace SqlTemplate
open Text

inductive ParameterMode
  | input
  | output
  | inputOutput
  deriving DecidableEq

namespace ParameterMode

def tag : ParameterMode → String
  | .input => "IN"
  | .output => "OUT"
  | .inputOutput => "INOUT"

def ofTag? (text : String) : Option ParameterMode :=
  [.input,.output,.inputOutput].find? fun (m : ParameterMode) => sameWord (trim text.toList) m.tag.toList

theorem ofTag?_tag (m : ParameterMode) : ofTag? m.tag = some m := by
  cases m <;> decide +kernel

end ParameterMode

structure ParameterMapping where
  /-- The place of the placeholder, counted from zero. -/
  position : Nat
  property : Option String
  valueType : ValueType
  sqlType : Option SqlType
  sqlTypeName : Option String
  mode : ParameterMode
  numericScale : Option UInt32
  resultMap : Option String
  typeHandler : Option TypeHandler

namespace ParameterMapping

def initial (position : Nat) (property : Option String) (valueType : ValueType)
    (sqlType : Option SqlType) : ParameterMapping where
  position := position
  property := property
  valueType := valueType
  sqlType := sqlType
  sqlTypeName := none
  mode := .input
  numericScale := none
  resultMap := none
  typeHandler := none

def path (m : ParameterMapping) : String := m.property.getD ""

/-- A result set needs a result map, any other type a handler. -/
def validate (m : ParameterMapping) : Except Error ParameterMapping :=
  if m.valueType = .resultSet then
    if m.resultMap.isNone then .error (.missingResultMap m.path) else .ok m
  else if m.typeHandler.isNone then .error (.missingTypeHandler m.path m.valueType m.sqlType)
  else .ok m

end ParameterMapping

/-- What bind markers are read against: the type of the argument and, in a rendering, its bindings. -/
structure MarkerScope where
  config : Configuration
  parameterType : ValueType
  bindings : Option Bindings

namespace MarkerScope

/-- The type tag of a marker: the first attribute that states one. -/
def sqlTypeOf (content : String) (attributes : MarkerAttributes) : Except Error (Option SqlType) :=
  match attributes.find? fun e => Attribute.ofName? e.1 = some .sqlType with
  | none => .ok none
  | some (_,value) => match SqlType.ofTag? value with
    | some t => .ok (some t)
    | none => .error (.invalidAttribute Attribute.sqlType.name value content)

def boundType? (s : MarkerScope) (property : Option String) : Option ValueType := do
  return (← (← s.bindings).additional? (← property).toList).type

/-- The type of a parameter whose marker does not state it: of the bound value, else of the argument if
that has a handler, else a result set for a cursor, else of the argument's property. -/
def inferType (s : MarkerScope) (property : Option String) (sqlType : Option SqlType) : ValueType :=
  match s.boundType? property with
  | some type => type
  | none =>
    if s.config.typeHandlers.has s.parameterType then s.parameterType
    else if sqlType = some .cursor then .resultSet
    else match property with
      | none => .any
      | some property =>
        if s.parameterType = .map then .any
        else (s.config.introspector.getterType? s.parameterType property).getD .any

structure Draft where
  mapping : ParameterMapping
  handlerName : Option String

def addAttribute (s : MarkerScope) (content : String) (d : Draft) (stated : String × String) :
    Except Error Draft :=
  let (name,value) := stated
  let invalid : Error := .invalidAttribute name value content
  match Attribute.ofName? name with
  | some .property | some .sqlType => .ok d
  | some .valueType => (s.config.typeHandlers.resolveType value).map
      fun type => { d with mapping.valueType := type }
  | some .mode => match ParameterMode.ofTag? value with
    | some mode => .ok { d with mapping.mode := mode }
    | none => .error invalid
  | some .numericScale => match Numeral.word? 32 value.toList with
    | some scale => .ok { d with mapping.numericScale := some (UInt32.ofNat scale) }
    | none => .error invalid
  | some .resultMap => .ok { d with mapping.resultMap := some value }
  | some .typeHandler => .ok { d with handlerName := some value }
  | some .sqlTypeName => .ok { d with mapping.sqlTypeName := some value }
  | some .expression => .error (.expressionParameter content)
  | none => .error (.unknownAttribute name content)

/-- The handler of a draft: the one its marker names, else the one of its type. -/
def handlerOf (s : MarkerScope) (d : Draft) : Except Error (Option TypeHandler) :=
  match d.handlerName with
  | some name => (s.config.typeHandlers.resolveHandler d.mapping.valueType name).map some
  | none => .ok (s.config.typeHandlers.handler? d.mapping.valueType d.mapping.sqlType)

def describeAttributes (s : MarkerScope) (position : Nat) (content : String)
    (attributes : MarkerAttributes) : Except Error ParameterMapping := do
  let property := Entries.get? attributes Attribute.property.name
  let sqlType ← sqlTypeOf content attributes
  let mapping := ParameterMapping.initial position property (s.inferType property sqlType) sqlType
  let draft ← attributes.foldlM (s.addAttribute content) ⟨mapping,none⟩
  let handler ← s.handlerOf draft
  { draft.mapping with typeHandler := handler }.validate

def describe (s : MarkerScope) (position : Nat) (content : List Char) :
    Except Error ParameterMapping := do
  s.describeAttributes position (String.ofList content) (← Marker.parse content)

end MarkerScope
end SqlTemplate
