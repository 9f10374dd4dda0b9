/-!
# Reading numerals

Integers and decimals are read from their text, all of it or not at all. A decimal is rounded to the
nearest number of its precision.
-/
namespace SqlTemplate.Numeral

def digits? (cs : List Char) : Option Nat :=
  if cs ≠ [] ∧ cs.all Char.isDigit then some (Nat.ofDigitChars 10 cs 0) else none

def natural? : List Char → Option Nat
  | '+' :: cs => digits? cs
  | cs => digits? cs

def integer? : List Char → Option Int
  | '-' :: cs => (digits? cs).map fun n => -n
  | cs => (natural? cs).map fun n => n

/-- A natural number that fits in `bits` bits. -/
def word? (bits : Nat) (cs : List Char) : Option Nat := (natural? cs).filter (· < Nat.pow 2 bits)

/-- A decimal `±coefficient · 10^exponent`, or one of the values without digits. -/
inductive Real
  | decimal (negative : Bool) (coefficient : Nat) (exponent : Int)
  | infinite (negative : Bool)
  | nan

namespace Real

def exponent? : List Char → Option Int
  | [] => some 0
  | c :: cs => if c = 'e' ∨ c = 'E' then integer? cs else none

/-- A decimal without its sign: digits with an optional point among them or at an end, then an exponent. -/
def unsigned? (negative : Bool) (cs : List Char) : Option Real := do
  let whole := cs.takeWhile Char.isDigit
  let (fraction,tail) := match cs.dropWhile Char.isDigit with
    | '.' :: rest => (rest.takeWhile Char.isDigit,rest.dropWhile Char.isDigit)
    | rest => ([],rest)
  let n ← digits? (whole ++ fraction)
  let e ← exponent? tail
  return .decimal negative n (e-fraction.length)

def magnitude? (negative : Bool) (cs : List Char) : Option Real :=
  let word := cs.map Char.toLower
  if word = ['i','n','f'] ∨ word = ['i','n','f','i','n','i','t','y'] then some (.infinite negative)
  else if word = ['n','a','n'] then some .nan
  else unsigned? negative cs

def ofChars? : List Char → Option Real
  | '-' :: cs => magnitude? true cs
  | '+' :: cs => magnitude? false cs
  | cs => magnitude? false cs

def order (coefficient : Nat) (exponent : Int) : Int :=
  (Nat.toDigits 10 coefficient).length+exponent

/-- The nearest double. Beyond `10^400` and below `10^-400` it is an infinity or a zero. -/
def toFloat : Real → Float
  | .decimal negative n e =>
    let x : Float := if n = 0 || order n e < -400 then 0 else if order n e > 400 then 1.0/0.0
      else Float.ofScientific n (e < 0) e.natAbs
    if negative then -x else x
  | .infinite negative => if negative then -1.0/0.0 else 1.0/0.0
  | .nan => 0.0/0.0

end Real

def float? (cs : List Char) : Option Float := (Real.ofChars? cs).map Real.toFloat

end SqlTemplate.Numeral
