import SqlTemplate.Error
import SqlTemplate.Table
/-!
# Bind markers

The content of a bind marker is a property path, an optional `:TYPE`, and attributes `, name=value`. The
attributes are kept under the names they are written with; a name that is written twice keeps its first
place and its last value.
-/
namespace SqlTemplate
open Text

inductive Attribute
  | property
  | valueType
  | sqlType
  | sqlTypeName
  | mode
  | numericScale
  | resultMap
  | typeHandler
  | expression
  deriving DecidableEq

namespace Attribute

def name : Attribute → String
  | .property => "property"
  | .valueType => "valueType"
  | .sqlType => "sqlType"
  | .sqlTypeName => "sqlTypeName"
  | .mode => "mode"
  | .numericScale => "numericScale"
  | .resultMap => "resultMap"
  | .typeHandler => "typeHandler"
  | .expression => "expression"

def names : List (String × Attribute) := [
  ("property",.property),("valueType",.valueType),("javaType",.valueType),("sqlType",.sqlType),
  ("jdbcType",.sqlType),("sqlTypeName",.sqlTypeName),("jdbcTypeName",.sqlTypeName),("mode",.mode),
  ("numericScale",.numericScale),("resultMap",.resultMap),("typeHandler",.typeHandler),
  ("expression",.expression)]

def ofName? (name : String) : Option Attribute := Entries.get? names name

end Attribute

abbrev MarkerAttributes := Entries String String

namespace Marker

def endsProperty (c : Char) : Bool := c = ':' || c = ','

def ofProperty (property : List Char) : MarkerAttributes :=
  if property = [] then [] else [(Attribute.property.name,String.ofList property)]

/-- The attributes with one more `name=value`. A leading property path is not replaced. -/
def addOption (content : String) (attributes : MarkerAttributes) (option : List Char) :
    Except Error MarkerAttributes :=
  match option.dropWhile (· ≠ '=') with
  | [] => .error (.markerSyntax content .missingValue)
  | _ :: value =>
    let key := String.ofList (trim (option.takeWhile (· ≠ '=')))
    if key = "" then .error (.markerSyntax content .emptyName)
    else if key = Attribute.property.name ∧ Entries.has attributes key then .ok attributes
    else .ok (Entries.put attributes key (String.ofList (trim value)))

def addOptions (content : String) (attributes : MarkerAttributes) :
    List Char → Except Error MarkerAttributes
  | ',' :: options => (List.splitOn ',' options).foldlM (addOption content) attributes
  | _ => .ok attributes

def addTypeAndOptions (content : String) (attributes : MarkerAttributes) :
    List Char → Except Error MarkerAttributes
  | ':' :: tail =>
    let type := trim (tail.takeWhile (· ≠ ','))
    if type = [] then .error (.markerSyntax content .missingType)
    else addOptions content (Entries.put attributes Attribute.sqlType.name (String.ofList type))
      (tail.dropWhile (· ≠ ','))
  | rest => addOptions content attributes rest

def parse (content : List Char) : Except Error MarkerAttributes :=
  let text := String.ofList content
  let body := trimStart content
  if body.head? = some '(' then .error (.expressionParameter text)
  else addTypeAndOptions text (ofProperty (trim (body.takeWhile (!endsProperty ·))))
    (body.dropWhile (!endsProperty ·))

end Marker
end SqlTemplate
