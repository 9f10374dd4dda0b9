import SqlTemplate.Value.Basic
/-!
# Conversion to values

The types whose members can be handed to a template as an argument, and the value type of each where it is
known without looking at a member.
-/
namespace SqlTemplate

class ToValue (α : Type) where
  toValue : α → Value

class HasValueType (α : Type) where
  valueType : ValueType

export ToValue (toValue)

instance : ToValue Value := ⟨id⟩
instance : ToValue Unit := ⟨fun _ => .null⟩
instance : ToValue Bool := ⟨.bool⟩
instance : ToValue Int8 := ⟨fun i => .int i.toInt64⟩
instance : ToValue Int16 := ⟨fun i => .int i.toInt64⟩
instance : ToValue Int32 := ⟨fun i => .int i.toInt64⟩
instance : ToValue Int64 := ⟨.int⟩
instance : ToValue UInt8 := ⟨fun n => .int (Int64.ofNat n.toNat)⟩
instance : ToValue UInt16 := ⟨fun n => .int (Int64.ofNat n.toNat)⟩
instance : ToValue UInt32 := ⟨fun n => .int (Int64.ofNat n.toNat)⟩
instance : ToValue Float32 := ⟨fun x => .float x.toFloat⟩
instance : ToValue Float := ⟨.float⟩
instance : ToValue Char := ⟨fun c => .string (String.singleton c)⟩
instance : ToValue String := ⟨.string⟩

instance {α : Type} [ToValue α] : ToValue (Option α) := ⟨fun
  | some a => toValue a
  | none => .null⟩

instance {α : Type} [ToValue α] : ToValue (List α) := ⟨fun as => .list (as.map toValue)⟩

instance {α : Type} [ToValue α] : ToValue (Table String α) :=
  ⟨fun t => .map (t.entries.map fun (key,a) => (key,toValue a))⟩

instance : HasValueType Bool := ⟨.bool⟩
instance : HasValueType Int8 := ⟨.int⟩
instance : HasValueType Int16 := ⟨.int⟩
instance : HasValueType Int32 := ⟨.int⟩
instance : HasValueType Int64 := ⟨.int⟩
instance : HasValueType UInt8 := ⟨.int⟩
instance : HasValueType UInt16 := ⟨.int⟩
instance : HasValueType UInt32 := ⟨.int⟩
instance : HasValueType Float32 := ⟨.float⟩
instance : HasValueType Float := ⟨.float⟩
instance : HasValueType Char := ⟨.string⟩
instance : HasValueType String := ⟨.string⟩
instance {α : Type} [HasValueType α] : HasValueType (Option α) := ⟨HasValueType.valueType α⟩
instance {α : Type} : HasValueType (List α) := ⟨.list⟩
instance {α : Type} : HasValueType (Table String α) := ⟨.map⟩

/-- A JSON value as a library reads it. A number may be known as an integer of 64 bits and as a float. -/
inductive JsonValue
  | null
  | bool (b : Bool)
  | number (int? : Option Int64) (float? : Option Float)
  | string (s : String)
  | array (items : List JsonValue)
  | object (members : List (String × JsonValue))

instance : Inhabited JsonValue := ⟨.null⟩

namespace JsonValue

mutual

def toValue : JsonValue → Value
  | .null => .null
  | .bool b => .bool b
  | .number (some i) _ => .int i
  | .number none x => x.elim .null .float
  | .string s => .string s
  | .array items => .list (itemValues items)
  | .object members => .map (memberValues members)

def itemValues : List JsonValue → List Value
  | [] => []
  | j :: js => toValue j :: itemValues js

def memberValues : List (String × JsonValue) → List (String × Value)
  | [] => []
  | (key,j) :: js => (key,toValue j) :: memberValues js

end
end JsonValue

instance : ToValue JsonValue := ⟨JsonValue.toValue⟩

end SqlTemplate
