import SqlTemplate.Environment
import SqlTemplate.Expr.Evaluator
import SqlTemplate.Node.Basic
import SqlTemplate.Text.Blank
import SqlTemplate.Text.Letter
/-!
# Repetitions

Every iteration takes a number and binds its element, and its key or position, under the loop variables
and under manufactured names that carry the number. Bind markers in what an iteration writes are made to
refer to the manufactured names, which stay bound. The separator stands before the first chunk of an
iteration that is not blank, once an earlier iteration has written one.
-/
namespace SqlTemplate
open Text

namespace Repetition

/-- The name that a loop variable has in one iteration only. -/
def manufactured (name : String) (n : Nat) : String := "__frch_" ++ name ++ "_" ++ toString n

/-- The content of a marker that refers to a variable, made to refer to its manufactured name. The variable
must be the whole leading name: `items` does not refer to `item`. -/
def renameVariable? (n : Nat) (content : List Char) (name : String) : Option (List Char) :=
  match afterStart? name.toList (trimStart content) with
  | some rest => if continuesName rest then none else some ((manufactured name n).toList ++ rest)
  | none => none

/-- The content of a marker in an iteration: the item is tried before the index. -/
def renameContent (r : Repetition) (n : Nat) (content : List Char) : List Char :=
  ((r.item.bind (renameVariable? n content)).or (r.index.bind (renameVariable? n content))).getD content

/-- A chunk with its markers renamed. Escapes are kept, as the text is scanned again later. -/
def renameMarkers (r : Repetition) (n : Nat) (chunk : List Char) : List Char :=
  let s := Scanner.bindMarkers.keepingEscapes
  s.replace (fun content => s.opening ++ r.renameContent n content ++ s.closing) chunk

def indexValue (position : Nat) (e : Entry) : Value :=
  e.key.getD (.int (Int64.ofNat position))

def enter (r : Repetition) (position : Nat) (e : Entry) (env : Environment) : Environment :=
  let n := env.counter
  let index := indexValue position e
  (((env.advance.bind? (r.index.map (manufactured · n)) index).bind? r.index index).bind?
    (r.item.map (manufactured · n)) e.value).bind? r.item e.value

def leave (r : Repetition) (env : Environment) : Environment := (env.unbind? r.item).unbind? r.index

/-- Chunks with the separator before the first one that is not blank. -/
def separate (separator : List Char) : List (List Char) → List (List Char)
  | [] => []
  | chunk :: chunks =>
    if allBlank chunk then chunk :: separate separator chunks else separator :: chunk :: chunks

/-- The chunks of an iteration; `started` says that an earlier one has written something. -/
def place (r : Repetition) (started : Bool) (chunks : List (List Char)) : List (List Char) :=
  if started then r.separator.elim chunks fun s => separate s.toList chunks else chunks

def iterate (r : Repetition) (body : Environment → Rendered) :
    List Entry → Nat → Bool → Environment → Rendered
  | [], _, _, env => .done true env
  | e :: es, position, started, env =>
    let iteration := (body (r.enter position e env)).mapChunks (·.map (r.renameMarkers env.counter))
    (iteration.mapChunks (r.place started)).andThen
      (r.iterate body es (position+1) (started || iteration.chunks.any (!allBlank ·)))

def renderEntries (r : Repetition) (body : Environment → Rendered) (entries : List Entry)
    (env : Environment) : Rendered :=
  if entries.isEmpty then .done true env
  else ((Rendered.write? r.opening env).andThen (r.iterate body entries 0 false)).andThen fun env =>
    (Rendered.write? r.closing env).andThen fun env => .done true (r.leave env)

end Repetition
end SqlTemplate
