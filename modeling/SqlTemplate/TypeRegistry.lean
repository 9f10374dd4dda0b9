import SqlTemplate.Error
import SqlTemplate.Value.Basic
/-!
# Type handlers and record shapes

Which handler converts a value of a type for the driver, which names stand for types, and which types the
properties of records have. Both services are capabilities of a configuration; a registry provides both
from what was registered last.
-/
namespace SqlTemplate

structure TypeHandler where
  name : String
  deriving DecidableEq

structure TypeHandlers where
  has : ValueType → Bool
  handler? : ValueType → Option SqlType → Option TypeHandler
  resolveHandler : ValueType → String → Except Error TypeHandler
  resolveType : String → Except Error ValueType

structure Introspector where
  getterType? : ValueType → String → Option ValueType

structure RecordShape where
  typeName : String
  properties : List (String × ValueType)

structure TypeRegistry where
  handlers : Table ValueType TypeHandler
  /-- The types by their names in lower case. -/
  typeNames : Table String ValueType
  records : Table String (List (String × ValueType))

namespace TypeRegistry

def lowerCase (s : String) : String := String.ofList (Text.lower s.toList)

def registerHandler (r : TypeRegistry) (type : ValueType) (name : String) : TypeRegistry :=
  { r with handlers := r.handlers.put type ⟨name⟩ }

def registerName (r : TypeRegistry) (name : String) (type : ValueType) : TypeRegistry :=
  { r with typeNames := r.typeNames.put (lowerCase name) type }

/-- The properties of the record become known, and its name becomes a name of its type. -/
def registerRecord (r : TypeRegistry) (shape : RecordShape) : TypeRegistry :=
  { r with records := r.records.put shape.typeName shape.properties }.registerName shape.typeName
    (.record shape.typeName)

def builtinNames : List (String × ValueType) := [
  ("bool",.bool),("boolean",.bool),("int",.int),("integer",.int),("long",.int),("short",.int),
  ("byte",.int),("float",.float),("double",.float),("string",.string),("list",.list),("map",.map),
  ("hashmap",.map),("object",.any),("any",.any),("resultset",.resultSet)]

def builtinHandlers : List (ValueType × TypeHandler) :=
  [(.bool,⟨"bool"⟩),(.int,⟨"int"⟩),(.float,⟨"float"⟩),(.string,⟨"string"⟩),(.any,⟨"unknown"⟩)]

def builtin : TypeRegistry := ⟨.ofList builtinHandlers,.ofList builtinNames,.empty⟩

instance : Inhabited TypeRegistry := ⟨builtin⟩

def handler? (r : TypeRegistry) (type : ValueType) : Option TypeHandler := r.handlers.get? type

/-- The handler with a name, up to ASCII case and blanks around it. Handlers are searched in the order in which their
types were registered first. A hash table leaves the order open, which shows only when the names of two handlers differ
in nothing but case. -/
def resolveHandler (r : TypeRegistry) (type : ValueType) (name : String) : Except Error TypeHandler :=
  match r.handlers.entries.find? fun e => Text.sameWord e.2.name.toList (Text.trim name.toList) with
  | some (_,handler) => .ok handler
  | none => .error (.unknownTypeHandler name type)

def resolveType (r : TypeRegistry) (name : String) : Except Error ValueType :=
  match r.typeNames.get? (String.ofList (Text.lower (Text.trim name.toList))) with
  | some type => .ok type
  | none => .error (.unknownType name)

/-- The type of a property. Entries of maps and members of what has no known type are untyped. -/
def propertyType? (r : TypeRegistry) : ValueType → String → Option ValueType
  | .record record, name => (r.records.get? record).bind (Entries.get? · name)
  | .map, _ | .any, _ => some .any
  | _, _ => none

def stepType? (r : TypeRegistry) : ValueType → Segment → Option ValueType
  | .list, .index _ => some .any
  | type, .name name | type, .index name => r.propertyType? type name

def getterType? (r : TypeRegistry) (type : ValueType) (path : String) : Option ValueType :=
  (Path.segments path.toList).foldlM r.stepType? type

def typeHandlers (r : TypeRegistry) : TypeHandlers where
  has type := (r.handler? type).isSome
  handler? type _ := r.handler? type
  resolveHandler := r.resolveHandler
  resolveType := r.resolveType

def introspector (r : TypeRegistry) : Introspector := ⟨r.getterType?⟩

end TypeRegistry
end SqlTemplate
