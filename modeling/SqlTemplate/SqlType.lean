import SqlTemplate.Text.Blank
import SqlTemplate.Text.Cut
/-!
# SQL type tags

The explicit type tag that a parameter can carry. Tags are written in upper case and read in any case.
-/
namespace SqlTemplate

inductive SqlType
  | array
  | bigInt
  | binary
  | bit
  | blob
  | boolean
  | char
  | clob
  | cursor
  | date
  | decimal
  | double
  | float
  | integer
  | longVarChar
  | nChar
  | nClob
  | null
  | numeric
  | nVarChar
  | other
  | real
  | smallInt
  | struct
  | time
  | timestamp
  | tinyInt
  | undefined
  | varBinary
  | varChar
  deriving DecidableEq

namespace SqlType

def tag : SqlType → String
  | .array => "ARRAY"
  | .bigInt => "BIGINT"
  | .binary => "BINARY"
  | .bit => "BIT"
  | .blob => "BLOB"
  | .boolean => "BOOLEAN"
  | .char => "CHAR"
  | .clob => "CLOB"
  | .cursor => "CURSOR"
  | .date => "DATE"
  | .decimal => "DECIMAL"
  | .double => "DOUBLE"
  | .float => "FLOAT"
  | .integer => "INTEGER"
  | .longVarChar => "LONGVARCHAR"
  | .nChar => "NCHAR"
  | .nClob => "NCLOB"
  | .null => "NULL"
  | .numeric => "NUMERIC"
  | .nVarChar => "NVARCHAR"
  | .other => "OTHER"
  | .real => "REAL"
  | .smallInt => "SMALLINT"
  | .struct => "STRUCT"
  | .time => "TIME"
  | .timestamp => "TIMESTAMP"
  | .tinyInt => "TINYINT"
  | .undefined => "UNDEFINED"
  | .varBinary => "VARBINARY"
  | .varChar => "VARCHAR"

def all : List SqlType := [.array,.bigInt,.binary,.bit,.blob,.boolean,.char,.clob,.cursor,.date,.decimal,
  .double,.float,.integer,.longVarChar,.nChar,.nClob,.null,.numeric,.nVarChar,.other,.real,.smallInt,
  .struct,.time,.timestamp,.tinyInt,.undefined,.varBinary,.varChar]

def ofTag? (text : String) : Option SqlType :=
  all.find? fun t => Text.sameWord (Text.trim text.toList) t.tag.toList

theorem ofTag?_tag (t : SqlType) : ofTag? t.tag = some t := by
  cases t <;> decide +kernel

end SqlType
end SqlTemplate
