import SqlTemplate.Proofs.Lexical.Chunk
import SqlTemplate.Proofs.Placeholder.Descriptions
import SqlTemplate.Proofs.Placeholder.Drafts
/-!
# Lexical rendering

A rendering without counters, manufactured names or a second scan. It carries the variables of the enclosing
repetitions as a scope, in which expressions are evaluated and every bind marker is resolved where it stands.
The templates it is meant for have their delimiters only around complete markers, and loop variables of their
own in nested repetitions.
-/
namespace SqlTemplate
open Text

def Configuration.ofDialect (d : Dialect) : Configuration := { Configuration.standard with dialect := d }

structure Lexical where
  dialect : Dialect
  parameterType : ValueType

def BoundValue.at (b : BoundValue) (n : Nat) : BoundValue := { b with mapping.position := n }

namespace Lexical

abbrev config (l : Lexical) : Configuration := .ofDialect l.dialect

/-- The value of a path: a variable that the scope binds, followed along the rest of the path, else a scalar
argument as a whole, else a member of the argument. -/
def value (scope : Bindings) (path : List Char) : Value :=
  match scope.explicit? (String.ofList (Path.root path)) with
  | some v => (v.lookup? (Path.afterRoot path)).getD .null
  | none =>
    if scope.parameter.isSimple then scope.parameter else (scope.parameter.lookup? path).getD .null

/-- What a marker binds in a scope, none if it cannot be described. -/
def bound? (l : Lexical) (scope : Bindings) (content : List Char) : Option BoundValue := do
  let m ← (MarkerScope.describe ⟨l.config,l.parameterType,some scope⟩ 0 content).toOption
  let v := if m.mode = .output then .null else value scope m.path.toList
  return ⟨m,v,m.sqlType.or (if v.isNull then some l.config.nullSqlType else none)⟩

def resolve (l : Lexical) (scope : Bindings) (text : String) : Chunk (Option BoundValue) :=
  Chunk.mapSlots (l.bound? scope) (Scanner.bindMarkers.tokens text.toList)

def enter (r : Repetition) (position : Nat) (e : Entry) (scope : Bindings) : Bindings :=
  let scope := r.index.elim scope (scope.bind · (Repetition.indexValue position e))
  r.item.elim scope (scope.bind · e.value)

def iterate (l : Lexical) (r : Repetition)
    (body : Bindings → Except Error (List (Chunk (Option BoundValue)))) (scope : Bindings) :
    List Entry → Nat → Bool → Except Error (List (Chunk (Option BoundValue)))
  | [], _, _ => .ok []
  | e :: es, position, started => do
    let chunks ← body (enter r position e scope)
    let rest ← l.iterate r body scope es (position+1) (started || chunks.any (!·.isBlank))
    return Chunk.place (r.separator.map (l.resolve scope)) started chunks ++ rest

def renderEntries (l : Lexical) (r : Repetition)
    (body : Bindings → Except Error (List (Chunk (Option BoundValue)))) (scope : Bindings)
    (entries : List Entry) : Except Error (List (Chunk (Option BoundValue))) :=
  if entries.isEmpty then .ok []
  else do
    let chunks ← l.iterate r body scope entries 0 false
    return (r.opening.map (l.resolve scope)).toList ++ chunks ++ (r.closing.map (l.resolve scope)).toList

def renderConditional (c : Configuration) (test : String)
    (body : Bindings → Except Error (List (Chunk (Option BoundValue)))) (scope : Bindings) :
    Except Error (List (Chunk (Option BoundValue))) :=
  match c.evaluator.test test scope with
  | .error e => .error (.expression test e)
  | .ok true => body scope
  | .ok false => .ok []

def renderRepetition (c : Configuration) (r : Repetition)
    (write : List Entry → Except Error (List (Chunk (Option BoundValue)))) (scope : Bindings) :
    Except Error (List (Chunk (Option BoundValue))) :=
  match c.evaluator.collect r.collection scope with
  | .error e => .error (.expression r.collection e)
  | .ok entries => write entries

def renderTrim (l : Lexical) (t : Trim) (body : Bindings → Except Error (List (Chunk (Option BoundValue))))
    (scope : Bindings) : Except Error (List (Chunk (Option BoundValue))) := do
  let chunks ← body scope
  return [Chunk.finish t (l.resolve scope (t.front.getD "")) (l.resolve scope (t.back.getD ""))
    chunks.flatten]

mutual

def render (l : Lexical) : Node → Bindings → Except Error (List (Chunk (Option BoundValue)))
  | .text s, scope => .ok [l.resolve scope s]
  | .conditional test body, scope => renderConditional l.config test (l.render body) scope
  | .repetition r body, scope =>
    renderRepetition l.config r (l.renderEntries r (l.render body) scope) scope
  | .trim t body, scope => l.renderTrim t (l.render body) scope
  | .sequence nodes, scope => l.renderAll nodes scope

def renderAll (l : Lexical) : List Node → Bindings → Except Error (List (Chunk (Option BoundValue)))
  | [], _ => .ok []
  | n :: ns, scope => do
    let chunks ← l.render n scope
    let rest ← l.renderAll ns scope
    return chunks ++ rest

end

def collect (d : Dialect) (chunks : List (Chunk (Option BoundValue))) :
    Option (String × List BoundValue) := do
  let sql := Chunk.trim chunks.flatten
  let values ← (Token.slots sql).mapM id
  return (String.ofList (d.place 0 sql),values.zipIdx.map fun (v,n) => v.at n)

/-- The lexical compilation of a template for an argument. -/
def compile (d : Dialect) (root : Node) (argument : Value) : Option (String × List BoundValue) := do
  let l : Lexical := ⟨d,Template.argumentType .any argument⟩
  let chunks ← (l.render root (.ofArgument argument l.config.databaseId)).toOption
  collect d chunks

end Lexical

def Expr.names : Expr → List String
  | .literal _ => []
  | .variable name => [name]
  | .property target _ => target.names
  | .index target key => target.names ++ key.names
  | .call target _ => target.names
  | .not e => e.names
  | .negate e => e.names
  | .binary lhs _ rhs => lhs.names ++ rhs.names

def isPlain (c : Char) : Bool := !(['$','\\','#','{','}'].contains c)

def IsName (cs : List Char) : Prop := cs ≠ [] ∧ ∀ c ∈ cs, isNameChar c = true

/-- The names that are kept for iterations. -/
def IsReserved (cs : List Char) : Prop := "__frch_".toList <+: cs

/-- A path as a template has it: a name that an iteration has manufactured stands for the loop variable, as
`item` for `__frch_item_3`. -/
def Path.original (path : List Char) : List Char :=
  match afterStart? "__frch_".toList path with
  | none => path
  | some named =>
    let numbered := (named.takeWhile isNameChar).reverse
    ((numbered.dropWhile Char.isDigit).drop 1).reverse ++ named.dropWhile isNameChar

def BoundValue.original (b : BoundValue) : BoundValue :=
  { b with mapping.property := b.mapping.property.map fun p => String.ofList (Path.original p.toList) }

def Marker.path (content : List Char) : List Char :=
  Text.trim ((Text.trimStart content).takeWhile (!endsProperty ·))

/-- A marker without delimiters in it, whose path begins with a name. -/
structure PlainMarker (content : List Char) : Prop where
  plain : ∀ c ∈ content, isPlain c = true
  root_name : IsName (Path.root (Marker.path content))
  root_free : ¬IsReserved (Path.root (Marker.path content))

def PlainToken : Token (List Char) → Prop
  | .char c => isPlain c = true
  | .slot content => PlainMarker content

/-- A text that has its delimiters around complete markers only. -/
def MarkedText (text : String) : Prop :=
  ∃ ts : Chunk (List Char), text.toList = ts.write id ∧ ∀ t ∈ ts, PlainToken t

def FreeExpression (expression : String) : Prop :=
  ∀ e, Expr.parse expression = .ok e → ∀ name ∈ e.names, ¬IsReserved name.toList

def Repetition.names (r : Repetition) : List String := r.item.toList ++ r.index.toList

/-- The loop variables are names that nothing around the repetition uses. -/
structure Repetition.Fresh (r : Repetition) (bound : List String) : Prop where
  fresh : ∀ name ∈ r.names, name ∉ bound
  is_name : ∀ name ∈ r.names, IsName name.toList
  free : ∀ name ∈ r.names, ¬IsReserved name.toList

namespace Node

mutual

/-- The template is well formed where some names are bound already: a repetition binds names that are not
among them. -/
def WellFormed (bound : List String) : Node → Prop
  | .text s => MarkedText s
  | .conditional test body => FreeExpression test ∧ WellFormed bound body
  | .repetition r body => FreeExpression r.collection ∧
    (∀ s ∈ r.opening.toList ++ r.closing.toList ++ r.separator.toList, MarkedText s) ∧ r.Fresh bound ∧
    WellFormed (r.names ++ bound) body
  | .trim t body => (∀ s ∈ t.front.toList ++ t.back.toList, MarkedText s) ∧
    (∀ w ∈ t.frontOverrides ++ t.backOverrides, Chunk.IsWord w) ∧ WellFormed bound body
  | .sequence nodes => AllWellFormed bound nodes

def AllWellFormed (bound : List String) : List Node → Prop
  | [] => True
  | n :: ns => WellFormed bound n ∧ AllWellFormed bound ns

end

end Node
end SqlTemplate
