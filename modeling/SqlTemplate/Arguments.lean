import SqlTemplate.Template
/-!
# Driver arguments

The resolved values as the typed arguments of a database driver. A null is typed after the value type of
its mapping; a value that is neither null nor a scalar cannot be an argument.
-/
namespace SqlTemplate

/-- An argument of one of the driver's types; none is a typed null. -/
inductive Argument
  | bool (b : Option Bool)
  | int8 (i : Option Int64)
  | float8 (x : Option Float)
  | text (s : Option String)

namespace Argument

def null : ValueType → Argument
  | .bool => .bool none
  | .int => .int8 none
  | .float => .float8 none
  | _ => .text none

def ofBoundValue (b : BoundValue) : Except Error Argument :=
  match b.value with
  | .null => .ok (null b.mapping.valueType)
  | .bool x => .ok (.bool (some x))
  | .int i => .ok (.int8 (some i))
  | .float x => .ok (.float8 (some x))
  | .string s => .ok (.text (some s))
  | other => .error (.unsupportedValue b.mapping.path other.type)

end Argument

/-- The arguments of the values, in order. The first value that cannot be one is the error. -/
def toArguments (values : List BoundValue) : Except Error (List Argument) :=
  values.mapM Argument.ofBoundValue

end SqlTemplate
