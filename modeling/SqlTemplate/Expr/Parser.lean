import SqlTemplate.Expr.Basic
import SqlTemplate.Expr.Error
import SqlTemplate.Text.Cut
import SqlTemplate.Text.Letter
/-!
# Reading expressions

Six levels of binary operators, from `or` to `*`, over signs, over members and keys, over atoms. Every
binary operator is left associative. Spaces, tabs and line ends may stand between any two tokens.
-/
namespace SqlTemplate.Expr
open Text

/-- Why no expression stands at the front of a text. After a mismatch another reading is tried; an integer
literal that is too large ends the reading. The text is what was left where the problem was found. -/
inductive Fault
  | mismatch (rest : List Char)
  | overflow (rest : List Char)
  deriving DecidableEq

abbrev Parser := List Char → Except Fault (Expr × List Char)

def isSpace (c : Char) : Bool := c = ' ' || c = '\t' || c = '\r' || c = '\n'

def skip (cs : List Char) : List Char := cs.dropWhile isSpace

/-- A spelling of an operator. A word must not go on as a name, so that `order` does not begin with `or`. -/
inductive Token
  | symbol (text : List Char)
  | word (text : List Char)
  deriving DecidableEq

def Token.after? : Token → List Char → Option (List Char)
  | .symbol text, cs => afterStart? text cs
  | .word text, cs => (afterStart? text cs).filter (!continuesName ·)

/-- The meaning of the first token in a list that the text begins with, spaces skipped on both sides. -/
def token? {α : Type} : List (Token × α) → List Char → Option (α × List Char)
  | [], _ => none
  | (t,a) :: ts, cs => match t.after? (skip cs) with
    | some rest => some (a,skip rest)
    | none => token? ts cs

def symbol? (c : Char) (cs : List Char) : Option (List Char) :=
  match skip cs with
  | [] => none
  | d :: rest => if d = c then some (skip rest) else none

def levels : List (List (Token × BinaryOp)) := [
  [(.symbol ['|','|'],.or),(.word ['o','r'],.or)],
  [(.symbol ['&','&'],.and),(.word ['a','n','d'],.and)],
  [(.symbol ['=','='],.eq),(.word ['e','q'],.eq),(.symbol ['!','='],.ne),(.word ['n','e','q'],.ne),
    (.symbol ['<','='],.comparison .lessEq),(.word ['l','t','e'],.comparison .lessEq),
    (.symbol ['>','='],.comparison .greaterEq),(.word ['g','t','e'],.comparison .greaterEq),
    (.symbol ['<'],.comparison .less),(.word ['l','t'],.comparison .less),
    (.symbol ['>'],.comparison .greater),(.word ['g','t'],.comparison .greater)],
  [(.symbol ['+'],.arithmetic .add),(.symbol ['-'],.arithmetic .sub)],
  [(.symbol ['*'],.arithmetic .mul),(.symbol ['/'],.arithmetic .div),(.symbol ['%'],.arithmetic .rem)]]

def signs : List (Token × (Expr → Expr)) :=
  [(.symbol ['!'],.not),(.word ['n','o','t'],.not),(.symbol ['-'],.negate)]

def chainFrom (operand : Parser) (operators : List (Token × BinaryOp)) :
    Nat → Expr → List Char → Except Fault (Expr × List Char)
  | 0, lhs, cs => .ok (lhs,cs)
  | fuel+1, lhs, cs => match token? operators cs with
    | none => .ok (lhs,cs)
    | some (op,rest) => match operand rest with
      | .error fault => .error fault
      | .ok (rhs,rest) => chainFrom operand operators fuel (.binary lhs op rhs) rest

def chain (operand : Parser) (operators : List (Token × BinaryOp)) : Parser := fun cs =>
  match operand cs with
  | .error fault => .error fault
  | .ok (lhs,rest) => chainFrom operand operators rest.length lhs rest

/-- An operand behind any number of signs, at most `fuel`. Where no operand follows a sign, the sign is
read as an operand itself: `not` is a name then. -/
def signed (operand : Parser) : Nat → Parser
  | 0, cs => operand cs
  | fuel+1, cs => match token? signs cs with
    | none => operand cs
    | some (sign,rest) => match signed operand fuel rest with
      | .ok (e,rest) => .ok (sign e,rest)
      | .error (.overflow rest) => .error (.overflow rest)
      | .error (.mismatch _) => operand cs

def name? (cs : List Char) : Option (String × List Char) :=
  match cs with
  | [] => none
  | c :: _ => if isNameStart c then some (String.ofList (cs.takeWhile isNameChar),cs.dropWhile isNameChar)
    else none

def member? (cs : List Char) : Option (String × List Char) := (symbol? '.' cs).bind name?

def emptyCall? (cs : List Char) : Option (List Char) := (symbol? '(' cs).bind (symbol? ')')

def key? (expression : Parser) (cs : List Char) : Option (Expr × List Char) :=
  match symbol? '[' cs with
  | none => none
  | some rest => match expression rest with
    | .error _ => none
    | .ok (e,rest) => (symbol? ']' rest).map (e,·)

def membersFrom (expression : Parser) : Nat → Expr → List Char → Expr × List Char
  | 0, e, cs => (e,cs)
  | fuel+1, e, cs => match member? cs with
    | some (name,rest) => match emptyCall? rest with
      | some rest => membersFrom expression fuel (.call e name) rest
      | none => membersFrom expression fuel (.property e name) rest
    | none => match key? expression cs with
      | some (key,rest) => membersFrom expression fuel (.index e key) rest
      | none => (e,cs)

def number? (cs : List Char) : Option (Except Fault (Expr × List Char)) :=
  let whole := cs.takeWhile Char.isDigit
  let rest := cs.dropWhile Char.isDigit
  let integer : Except Fault (Expr × List Char) :=
    let n := Nat.ofDigitChars 10 whole 0
    if n < Nat.pow 2 63 then .ok (.literal (.int (Int64.ofNat n)),rest) else .error (.overflow cs)
  if whole = [] then none
  else some (match rest with
    | '.' :: more =>
      let fraction := more.takeWhile Char.isDigit
      if fraction = [] then integer
      else
        let x := Numeral.Real.decimal false (Nat.ofDigitChars 10 (whole ++ fraction) 0) (-fraction.length)
        .ok (.literal (.float x.toFloat),more.dropWhile Char.isDigit)
    | _ => integer)

def string? : List Char → Option (String × List Char)
  | [] => none
  | q :: cs =>
    if q = '\'' ∨ q = '"' then
      match cs.dropWhile (· ≠ q) with
      | [] => none
      | _ :: rest => some (String.ofList (cs.takeWhile (· ≠ q)),rest)
    else none

def ofName (name : String) : Expr :=
  if name = "null" then .literal .null
  else if name = "true" then .literal (.bool true)
  else if name = "false" then .literal (.bool false)
  else .variable name

def atom (expression : Parser) : Parser := fun cs =>
  match symbol? '(' cs with
  | some rest => match expression rest with
    | .error (.overflow rest) => .error (.overflow rest)
    | .error (.mismatch _) => .error (.mismatch cs)
    | .ok (e,rest) => match symbol? ')' rest with
      | some rest => .ok (e,rest)
      | none => .error (.mismatch cs)
  | none => match number? cs with
    | some result => result
    | none => match string? cs with
      | some (s,rest) => .ok (.literal (.string s),rest)
      | none => match name? cs with
        | some (name,rest) => .ok (ofName name,rest)
        | none => .error (.mismatch cs)

def operand (expression : Parser) : Parser := fun cs =>
  match atom expression (skip cs) with
  | .error fault => .error fault
  | .ok (e,rest) => .ok (membersFrom expression rest.length e (skip rest))

/-- An expression in which parentheses and brackets are nested less than `depth` deep. -/
def expression : Nat → Parser
  | 0 => fun cs => .error (.mismatch (skip cs))
  | depth+1 => levels.foldr (fun operators operand => chain operand operators)
      fun cs => signed (operand (expression depth)) cs.length cs

def parse (text : String) : Except ExpressionError Expr :=
  let cs := text.toList
  let position (rest : List Char) := byteSize cs-byteSize rest
  match expression (cs.length+1) cs with
  | .ok (e,rest) =>
    if skip rest = [] then .ok e else .error (.malformed (position (skip rest)) .unexpectedInput)
  | .error (.mismatch rest) | .error (.overflow rest) =>
    .error (.malformed (position rest) .invalidExpression)

end SqlTemplate.Expr
