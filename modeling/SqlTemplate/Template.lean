import SqlTemplate.Context
import SqlTemplate.Parameter.Placeholder
import SqlTemplate.Text.Shrink
/-!
# Templates

A template is compiled against arguments. A static one is rendered once, when it is made, and gives the
same SQL for every argument. Compiling gives SQL with a mapping for each placeholder, from which the value
of each is resolved.
-/
namespace SqlTemplate

/-- SQL with the mappings of its placeholders, the bindings that were added while rendering, and the
argument. -/
structure BoundSql where
  sql : String
  mappings : List ParameterMapping
  bindings : Bindings
  parameter : Value

structure BoundValue where
  mapping : ParameterMapping
  value : Value
  sqlType : Option SqlType

namespace BoundSql

/-- The value that a property path stands for: what its root is bound to explicitly, then the argument as
a whole if its type has a handler, then a member of the argument. -/
def resolve (b : BoundSql) (c : Configuration) (property : String) : Value :=
  let path := property.toList
  if b.bindings.has (String.ofList (Path.root path)) then (b.bindings.additional? path).getD .null
  else if b.parameter.isNull then .null
  else if c.typeHandlers.has b.parameter.type then b.parameter
  else (b.parameter.lookup? path).getD .null

/-- The value of one placeholder. An output parameter is null; a null without a type tag gets the
configured one. -/
def boundValue (b : BoundSql) (c : Configuration) (m : ParameterMapping) : BoundValue :=
  let value := if m.mode = .output then .null else b.resolve c m.path
  ⟨m,value,m.sqlType.or (if value.isNull then some c.nullSqlType else none)⟩

def boundValues (b : BoundSql) (c : Configuration) : List BoundValue := b.mappings.map (b.boundValue c)

end BoundSql

def MarkerScope.finish (s : MarkerScope) (text : List Char) : Except Error MappedSql :=
  s.mapMarkers (if s.config.shrinkWhitespace then Text.shrink text else text)

namespace Template

inductive Source
  | fixed (sql : MappedSql)
  | dynamic (root : Node)

end Template

structure Template where
  source : Template.Source
  /-- The type that the argument is declared with. -/
  parameterType : ValueType

namespace Template

/-- The template with a body. A static body is rendered here, without an argument. -/
def ofNode (c : Configuration) (root : Node) (parameterType : Option ValueType) :
    Except Error Template := do
  let type := parameterType.getD .any
  if root.isDynamic then return ⟨.dynamic root,type⟩
  else
    let (context,outcome) := (Context.ofArgument .null c.databaseId).apply c root
    let _ ← outcome
    let sql ← MarkerScope.finish ⟨c,type,none⟩ context.sql
    return ⟨.fixed sql,type⟩

def isDynamic (t : Template) : Bool :=
  match t.source with
  | .fixed _ => false
  | .dynamic _ => true

def argumentType (declared : ValueType) (argument : Value) : ValueType :=
  if argument.isNull then declared else argument.type

def compileNode (c : Configuration) (root : Node) (declared : ValueType) (argument : Value) :
    Except Error BoundSql := do
  let (context,outcome) := (Context.ofArgument argument c.databaseId).apply c root
  let _ ← outcome
  let sql ← MarkerScope.finish ⟨c,argumentType declared argument,some context.bindings⟩ context.sql
  return ⟨String.ofList sql.text,sql.mappings,context.bindings,argument⟩

def compile (t : Template) (c : Configuration) (argument : Value) : Except Error BoundSql :=
  match t.source with
  | .fixed sql => .ok ⟨String.ofList sql.text,sql.mappings,.empty,argument⟩
  | .dynamic root => compileNode c root t.parameterType argument

end Template

def compile (c : Configuration) (root : Node) (argument : Value) : Except Error BoundSql := do
  (← Template.ofNode c root none).compile c argument

end SqlTemplate
