import SqlTemplate.Number.Numeral
import SqlTemplate.Path
import SqlTemplate.Table
/-!
# Values

The argument of a template and everything derived from it. Maps and records keep the order of their
entries; a record also has a declared type name. Members are found by name, by bracketed key or along a
property path.
-/
namespace SqlTemplate

inductive Value
  | null
  | bool (b : Bool)
  | int (i : Int64)
  | float (x : Float)
  | string (s : String)
  | list (items : List Value)
  | map (entries : List (String × Value))
  | record (typeName : String) (fields : List (String × Value))

instance : Inhabited Value := ⟨.null⟩

inductive ValueType
  | any
  | bool
  | int
  | float
  | string
  | list
  | map
  | record (name : String)
  | resultSet
  deriving DecidableEq

namespace ValueType

instance : Inhabited ValueType := ⟨.any⟩

def isSimple : ValueType → Bool
  | .bool | .int | .float | .string => true
  | _ => false

def text : ValueType → String
  | .any => "any"
  | .bool => "bool"
  | .int => "int"
  | .float => "float"
  | .string => "string"
  | .list => "list"
  | .map => "map"
  | .record name => name
  | .resultSet => "result set"

end ValueType

namespace Value

def type : Value → ValueType
  | .null => .any
  | .bool _ => .bool
  | .int _ => .int
  | .float _ => .float
  | .string _ => .string
  | .list _ => .list
  | .map _ => .map
  | .record name _ => .record name

def isNull : Value → Bool
  | .null => true
  | _ => false

def isSimple : Value → Bool
  | .list _ | .map _ | .record _ _ => false
  | _ => true

def string? : Value → Option String
  | .string s => some s
  | _ => none

def size? : Value → Option Nat
  | .string s => some s.length
  | .list items => some items.length
  | .map entries => some entries.length
  | .record _ fields => some fields.length
  | _ => none

/-- Null is false, a number is true when it is not zero, anything else but `false` is true. -/
def truthy : Value → Bool
  | .null => false
  | .bool b => b
  | .int i => i != 0
  | .float x => x != 0
  | _ => true

def property? : Value → String → Option Value
  | .map entries, name => Entries.get? entries name
  | .record _ fields, name => Entries.get? fields name
  | _, _ => none

/-- Bracketed member: an element of a list by its position, a member of a map or record by its name. -/
def index? : Value → String → Option Value
  | .list items, key => (Numeral.word? 64 (Text.trim key.toList)).bind (items[·]?)
  | v, key => v.property? key

def step? (v : Value) : Segment → Option Value
  | .name name => v.property? name
  | .index key => v.index? key

def lookup? (v : Value) (path : List Char) : Option Value := (Path.segments path).foldlM step? v

mutual

/-- Equality of values. Maps and records are equal when they have equal members under the same names, in
any order; a float that is not a number is unequal to every value. -/
def same : Value → Value → Bool
  | .null, .null => true
  | .bool a, .bool b => a == b
  | .int a, .int b => a == b
  | .float a, .float b => a == b
  | .string a, .string b => a == b
  | .list as, .list bs => sameItems as bs
  | .map as, .map bs => as.length == bs.length && sameMembers as bs
  | .record a as, .record b bs => a == b && as.length == bs.length && sameMembers as bs
  | _, _ => false

def sameItems : List Value → List Value → Bool
  | [], [] => true
  | a :: as, b :: bs => same a b && sameItems as bs
  | _, _ => false

def sameMembers : List (String × Value) → List (String × Value) → Bool
  | [], _ => true
  | (key,a) :: as, bs => (match Entries.get? bs key with
    | some b => same a b
    | none => false) && sameMembers as bs

end

end Value
end SqlTemplate
