import SqlTemplate.Value.Text
/-!
# Expression errors

What can go wrong when an expression is read or evaluated, and how it is told.
-/
namespace SqlTemplate

inductive SyntaxProblem
  | invalidExpression
  | unexpectedInput
  deriving DecidableEq

inductive ExpressionError
  /-- The position is the number of bytes of the text before the problem. -/
  | malformed (position : Nat) (problem : SyntaxProblem)
  | nullSource (property : String)
  | unknownProperty (property : String) (on : ValueType)
  | unknownMethod (method : String) (on : ValueType)
  | typeMismatch (operator : String) (lhs rhs : ValueType)
  | divisionByZero
  | notIterable (v : Value)
  | custom (message : String)

def SyntaxProblem.message : SyntaxProblem → String
  | .invalidExpression => "invalid expression"
  | .unexpectedInput => "unexpected input"

namespace ExpressionError

def describe (v : Value) : String :=
  if v.isNull then "null" else v.text ++ " of type " ++ v.type.text

def message : ExpressionError → String
  | .malformed position problem =>
    "syntax error at position " ++ toString position ++ ": " ++ problem.message
  | .nullSource property => "source is null for property '" ++ property ++ "'"
  | .unknownProperty property on => "no property '" ++ property ++ "' on " ++ on.text
  | .unknownMethod method on => "no method '" ++ method ++ "()' on " ++ on.text
  | .typeMismatch operator lhs rhs =>
    "cannot apply '" ++ operator ++ "' to " ++ lhs.text ++ " and " ++ rhs.text
  | .divisionByZero => "division by zero"
  | .notIterable v => "return value (" ++ describe v ++ ") was not iterable"
  | .custom message => message

end ExpressionError
end SqlTemplate
