import SqlTemplate.Expr.Evaluation
import SqlTemplate.Expr.Parser
/-!
# Evaluators

An evaluator answers an expression, given as text, under some bindings: with a value, as a test, or as a
collection.
-/
namespace SqlTemplate

structure Entry where
  key : Option Value
  value : Value

def Value.entries : Value → Except ExpressionError (List Entry)
  | .list items => .ok (items.map (Entry.mk none))
  | .map entries => .ok (entries.map fun (key,v) => ⟨some (.string key),v⟩)
  | .record _ fields => .ok (fields.map fun (key,v) => ⟨some (.string key),v⟩)
  | v => .error (.notIterable v)

/-- Unless they are given, tests and collections are read off the value of an expression. -/
structure Evaluator where
  evaluate : String → Bindings → Except ExpressionError Value
  test : String → Bindings → Except ExpressionError Bool :=
    fun expression b => (evaluate expression b).map Value.truthy
  collect : String → Bindings → Except ExpressionError (List Entry) :=
    fun expression b => (evaluate expression b).bind Value.entries

namespace Evaluator

def standard : Evaluator where
  evaluate expression b := (Expr.parse expression).bind (Expr.evaluate b)

def ofAnswers (answers : List (String × Value)) : Evaluator where
  evaluate expression _ := match Entries.get? answers expression with
    | some v => .ok v
    | none => .error (.custom ("no entry for [" ++ expression ++ "]"))

end Evaluator
end SqlTemplate
