import SqlTemplate.Number.Shortest
import SqlTemplate.Value.Basic
/-!
# Text of values

How a value is written into a text: null as nothing, strings as they are, floats by their shortest
decimal, lists as `[a, b]`, maps as `{k=v}` and records as their type name followed by their fields.
-/
namespace SqlTemplate.Value

mutual

def text : Value → String
  | .null => ""
  | .bool b => if b then "true" else "false"
  | .int i => toString i.toInt
  | .float x => floatText x
  | .string s => s
  | .list items => "[" ++ textItems items ++ "]"
  | .map entries => "\x7b" ++ textEntries entries ++ "\x7d"
  | .record name fields => name ++ "\x7b" ++ textEntries fields ++ "\x7d"

def textItems : List Value → String
  | [] => ""
  | [v] => text v
  | v :: vs => text v ++ ", " ++ textItems vs

def textEntries : List (String × Value) → String
  | [] => ""
  | [(key,v)] => key ++ "=" ++ text v
  | (key,v) :: es => key ++ "=" ++ text v ++ ", " ++ textEntries es

end

end SqlTemplate.Value
