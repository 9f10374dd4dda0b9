/-!
# Dialects

How placeholders are written: numbered from one in the Postgres dialect, as a question mark in the others.
-/
namespace SqlTemplate

inductive Dialect
  | generic
  | postgres
  | mysql
  | sqlite
  deriving DecidableEq

namespace Dialect

def isNumbered : Dialect → Bool
  | .postgres => true
  | _ => false

def placeholder (d : Dialect) (position : Nat) : List Char :=
  if d.isNumbered then '$' :: Nat.toDigits 10 (position+1) else ['?']

end Dialect
end SqlTemplate
