import SqlTemplate.Bindings
import SqlTemplate.Expr.Basic
import SqlTemplate.Expr.Error
/-!
# Evaluating expressions

Integers are computed modulo `2^64`; an integer meets a float as a float. Comparisons and arithmetic are
refused on types that do not have them. A missing member of a map is null, a missing field of a record is
an error.
-/
namespace SqlTemplate

def Comparison.holds : Comparison → Ordering → Bool
  | .less, o => o.isLT
  | .lessEq, o => o.isLE
  | .greater, o => o.isGT
  | .greaterEq, o => o.isGE

namespace Expr

abbrev Evaluated (α : Type) := Except ExpressionError α

def member (target : Value) (name : String) : Evaluated Value :=
  match target with
  | .null => .error (.nullSource name)
  | .map entries => .ok ((Entries.get? entries name).getD .null)
  | .record typeName fields => match Entries.get? fields name with
    | some v => .ok v
    | none => .error (.unknownProperty name (.record typeName))
  | other => .error (.unknownProperty name other.type)

/-- The value of a name: what it is bound to, else a member of the argument. A scalar argument answers to
every name. -/
def variableValue (b : Bindings) (name : String) : Evaluated Value :=
  match b.explicit? name with
  | some v => .ok v
  | none => match b.parameter with
    | .list _ => .ok .null
    | .map entries => member (.map entries) name
    | .record typeName fields => member (.record typeName fields) name
    | scalar => .ok scalar

def element : Value → Value → Evaluated Value
  | .null, key => .error (.nullSource ("[" ++ key.text ++ "]"))
  | .list items, .int i => .ok (if i < 0 then .null else (items[i.toInt.toNat]?).getD .null)
  | .map entries, .string name => member (.map entries) name
  | .record typeName fields, .string name => member (.record typeName fields) name
  | target, key => .error (.typeMismatch "[]" target.type key.type)

def callMethod (target : Value) (method : String) : Evaluated Value :=
  let unknown := ExpressionError.unknownMethod method target.type
  if method = "size" ∨ method = "length" then
    match target.size? with
    | some n => .ok (.int (Int64.ofNat n))
    | none => .error unknown
  else if method = "isEmpty" then
    match target.size? with
    | some n => .ok (.bool (n == 0))
    | none => .error unknown
  else if method = "trim" then
    match target with
    | .string s => .ok (.string (String.ofList (Text.trim s.toList)))
    | _ => .error unknown
  else if method = "toString" then .ok (.string target.text)
  else .error unknown

def float? : Value → Option Float
  | .int i => some i.toFloat
  | .float x => some x
  | _ => none

/-- Equality in expressions: an integer equals a float that it converts to. -/
def equal : Value → Value → Bool
  | .int a, .float b => a.toFloat == b
  | .float a, .int b => b.toFloat == a
  | a, b => a.same b

def floatOrder? (x y : Float) : Option Ordering :=
  if x < y then some .lt else if y < x then some .gt else if x == y then some .eq else none

/-- The order of two values of one ordered type; strings are ordered by code points. -/
def order? : Value → Value → Option Ordering
  | .int a, .int b => some (compare a.toInt b.toInt)
  | .string a, .string b => some (compare a b)
  | .bool a, .bool b => some (compare a b)
  | a, b => do floatOrder? (← float? a) (← float? b)

/-- Integer arithmetic modulo `2^64`; division truncates and is refused for a zero divisor. -/
def onInts (a b : Int64) : Arithmetic → Evaluated Int64
  | .add => .ok (a+b)
  | .sub => .ok (a-b)
  | .mul => .ok (a*b)
  | .div => if b = 0 then .error .divisionByZero else .ok (a/b)
  | .rem => if b = 0 then .error .divisionByZero else .ok (a%b)

def onFloats (x y : Float) : Arithmetic → Float
  | .add => x+y
  | .sub => x-y
  | .mul => x*y
  | .div => x/y
  | .rem => floatRemainder x y

def mismatch (operator : String) (a b : Value) : ExpressionError :=
  .typeMismatch operator a.type b.type

def arithmetic (op : Arithmetic) : Value → Value → Evaluated Value
  | .int a, .int b => (onInts a b op).map .int
  | a, b => match float? a, float? b with
    | some x, some y => .ok (.float (onFloats x y op))
    | _, _ => .error (mismatch op.symbol a b)

def isString : Value → Bool
  | .string _ => true
  | _ => false

def sum (a b : Value) : Evaluated Value :=
  if isString a || isString b then .ok (.string (a.text ++ b.text)) else arithmetic .add a b

def compareBy (c : Comparison) (a b : Value) : Evaluated Value :=
  match order? a b with
  | some o => .ok (.bool (c.holds o))
  | none => .error (mismatch c.symbol a b)

def negative : Value → Evaluated Value
  | .int i => .ok (.int (-i))
  | .float x => .ok (.float (-x))
  | v => .error (mismatch "-" .null v)

/-- The value of an expression. Operands are evaluated from the left; the right operand of `and` and `or`
only when the left one does not decide. -/
def evaluate (b : Bindings) : Expr → Evaluated Value
  | .literal v => .ok v
  | .variable name => variableValue b name
  | .property target name => do member (← evaluate b target) name
  | .index target key => do
    let v ← evaluate b target
    element v (← evaluate b key)
  | .call target method => do callMethod (← evaluate b target) method
  | .not e => do return .bool (!(← evaluate b e).truthy)
  | .negate e => do negative (← evaluate b e)
  | .binary lhs op rhs => do
    let x ← evaluate b lhs
    match op with
    | .and => if x.truthy then return .bool (← evaluate b rhs).truthy else return .bool false
    | .or => if x.truthy then return .bool true else return .bool (← evaluate b rhs).truthy
    | .eq => return .bool (equal x (← evaluate b rhs))
    | .ne => return .bool (!equal x (← evaluate b rhs))
    | .comparison c => compareBy c x (← evaluate b rhs)
    | .arithmetic .add => sum x (← evaluate b rhs)
    | .arithmetic a => arithmetic a x (← evaluate b rhs)

end Expr
end SqlTemplate
