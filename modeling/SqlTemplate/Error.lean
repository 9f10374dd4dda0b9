import SqlTemplate.Expr.Error
import SqlTemplate.SqlType
/-!
# Errors of templates

What can go wrong when a template is rendered, its bind markers are read or its arguments are collected.
-/
namespace SqlTemplate

inductive MarkerProblem
  | missingType
  | missingValue
  | emptyName
  deriving DecidableEq

def MarkerProblem.message : MarkerProblem → String
  | .missingType => "expected a type after ':'"
  | .missingValue => "expected 'name=value'"
  | .emptyName => "empty attribute name"

inductive Error
  | markerSyntax (content : String) (problem : MarkerProblem)
  | unknownAttribute (name content : String)
  | expressionParameter (content : String)
  | invalidAttribute (name value content : String)
  | expression (text : String) (source : ExpressionError)
  | injection (value pattern : String)
  | unknownType (name : String)
  | unknownTypeHandler (name : String) (type : ValueType)
  | missingResultMap (property : String)
  | missingTypeHandler (property : String) (type : ValueType) (sqlType : Option SqlType)
  | unsupportedValue (property : String) (type : ValueType)

namespace Error

def marker (content : String) : String := "#\x7b" ++ content ++ "\x7d"

def markerForm : String := marker "property|(expression), var1=value1, var2=value2, ..."

def validAttributes : String :=
  "valueType,sqlType,mode,numericScale,resultMap,typeHandler,sqlTypeName"

def message : Error → String
  | .markerSyntax content problem =>
    "parsing error was found in mapping " ++ marker content ++ ": " ++ problem.message ++ ". Check syntax " ++
      markerForm
  | .unknownAttribute name content =>
    "an invalid property '" ++ name ++ "' was found in mapping " ++ marker content ++
      ". Valid properties are " ++ validAttributes
  | .expressionParameter content =>
    "expression based parameters are not supported yet, found in mapping " ++ marker content
  | .invalidAttribute name value content =>
    "invalid value '" ++ value ++ "' for '" ++ name ++ "' in mapping " ++ marker content
  | .expression text source => "error evaluating expression '" ++ text ++ "': " ++ source.message
  | .injection value pattern =>
    "invalid input '" ++ value ++ "', substitutions must conform to regex " ++ pattern
  | .unknownType name => "could not resolve type alias '" ++ name ++ "'"
  | .unknownTypeHandler name type =>
    "could not resolve type handler '" ++ name ++ "' for " ++ type.text
  | .missingResultMap property =>
    "missing result map in property '" ++ property ++
      "', result set parameters require a resultMap"
  | .missingTypeHandler property type sqlType =>
    "type handler was null on parameter mapping for property '" ++ property ++ "', none found for " ++
      type.text ++ " : " ++ sqlType.elim "null" SqlType.tag
  | .unsupportedValue property type =>
    "cannot bind " ++ type.text ++ " value of parameter '" ++ property ++ "'"

end Error

section outcomes
variable {ε α β γ δ : Type} {x : Except ε α}

theorem toOption_bind (x : Except ε α) (f : α → Except ε β) :
    (x >>= f).toOption = x.toOption.bind fun a => (f a).toOption := by
  cases x <;> rfl

theorem toOption_eq_some {a : α} : x.toOption = some a ↔ x = .ok a := by
  cases x <;> simp [Except.toOption]

theorem bind_eq_ok {f : α → Except ε β} {b : β} (h : (x >>= f) = .ok b) : ∃ a, x = .ok a ∧ f a = .ok b := by
  cases x with
  | error e => simp [bind,Except.bind] at h
  | ok a => exact ⟨a,rfl,h⟩

/-- Two computations that are alike up to their errors and up to what `f` leaves out, each followed by another one. -/
theorem toOption_bind_congr {y : Except ε α} {f : α → γ} {g : β → δ} {p q : α → Except ε β}
    (h : x.toOption.map f = y.toOption.map f)
    (hnext : ∀ a b, f a = f b → (p a).toOption.map g = (q b).toOption.map g) :
    (x >>= p).toOption.map g = (y >>= q).toOption.map g := by
  cases x with
  | error e =>
    cases y with
    | error e' => rfl
    | ok b => simp [Except.toOption] at h
  | ok a =>
    cases y with
    | error e' => simp [Except.toOption] at h
    | ok b => exact hnext a b (by simpa [Except.toOption] using h)

end outcomes
end SqlTemplate
