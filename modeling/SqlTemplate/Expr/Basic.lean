import SqlTemplate.Value.Basic
/-!
# Expressions

The trees of test, collection and substitution expressions.
-/
namespace SqlTemplate

inductive Comparison
  | less
  | lessEq
  | greater
  | greaterEq
  deriving DecidableEq

inductive Arithmetic
  | add
  | sub
  | mul
  | div
  | rem
  deriving DecidableEq

inductive BinaryOp
  | or
  | and
  | eq
  | ne
  | comparison (c : Comparison)
  | arithmetic (a : Arithmetic)
  deriving DecidableEq

def Comparison.symbol : Comparison → String
  | .less => "<"
  | .lessEq => "<="
  | .greater => ">"
  | .greaterEq => ">="

def Arithmetic.symbol : Arithmetic → String
  | .add => "+"
  | .sub => "-"
  | .mul => "*"
  | .div => "/"
  | .rem => "%"

def BinaryOp.symbol : BinaryOp → String
  | .or => "or"
  | .and => "and"
  | .eq => "=="
  | .ne => "!="
  | .comparison c => c.symbol
  | .arithmetic a => a.symbol

inductive Expr
  | literal (v : Value)
  | variable (name : String)
  | property (target : Expr) (name : String)
  | index (target key : Expr)
  | call (target : Expr) (method : String)
  | not (e : Expr)
  | negate (e : Expr)
  | binary (lhs : Expr) (op : BinaryOp) (rhs : Expr)

instance : Inhabited Expr := ⟨.literal .null⟩

end SqlTemplate
