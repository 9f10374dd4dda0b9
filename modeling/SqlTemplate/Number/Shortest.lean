import SqlTemplate.Number.Binary64
/-!
# Shortest decimals

The shortest decimal of a double is the one with the fewest digits among those that read back to it, and of
those the nearest. Digits are searched one grid after the other: on each grid only the two neighbours of the
number can be hit. All comparisons are between natural numbers.
-/
namespace SqlTemplate

structure Decimal where
  coefficient : Nat
  exponent : Int
  deriving DecidableEq

/-- The numbers that read back to a double, as fractions over a common denominator: those from `low` to
`high`, the ends included when the mantissa is even. -/
structure ReadingInterval where
  low : Nat
  value : Nat
  high : Nat
  closed : Bool

namespace ReadingInterval

/-- The interval of `m · 2^e` in quarters of the unit in the last place. Below a power of two the
neighbour is half as far. -/
def ofMantissa (m : Nat) : ReadingInterval :=
  ⟨4*m-(if m = Nat.pow 2 52 then 1 else 2),4*m,4*m+2,m%2 = 0⟩

def has (i : ReadingInterval) (x : Nat) : Bool :=
  if i.closed then i.low ≤ x && x ≤ i.high else i.low < x && x < i.high

def scale (i : ReadingInterval) (k : Nat) : ReadingInterval :=
  { i with low := i.low*k, value := i.value*k, high := i.high*k }

/-- The multiple of `step` in the interval that is nearest to its value; the upper one of two as near. -/
def nearest? (i : ReadingInterval) (step : Nat) : Option Nat :=
  let below := i.value/step
  let above := below+1
  match i.has (below*step), i.has (above*step) with
  | true, true => if i.value-below*step < above*step-i.value then some below else some above
  | true, false => some below
  | false, true => some above
  | false, false => none

end ReadingInterval

def tenPow (k : Int) : Nat := Nat.pow 10 k.toNat

def twoPow (k : Int) : Nat := Nat.pow 2 k.toNat

namespace Decimal

/-- The number of digits before the point of `m · 2^e`; minus the number of zeros after it when none. -/
def magnitude (m : Nat) (e : Int) : Int :=
  (Nat.toDigits 10 (m*twoPow e*Nat.pow 10 400/twoPow (-e))).length-400

/-- The nearest decimal with exponent `t` that reads back to `m · 2^e`. -/
def onGrid? (m : Nat) (e t : Int) : Option Decimal :=
  let i := (ReadingInterval.ofMantissa m).scale (twoPow (e-2)*tenPow (-t))
  (i.nearest? (twoPow (2-e)*tenPow t)).map (Decimal.mk · t)

/-- The shortest decimal of `m · 2^e`; seventeen digits always suffice. -/
def shortest (m : Nat) (e : Int) : Decimal :=
  let k := magnitude m e
  ((List.range 17).findSome? fun (n : Nat) => onGrid? m e (k-(n+1))).getD ⟨m*twoPow e,0⟩

def stripZeros : Nat → Decimal → Decimal
  | 0, d => d
  | fuel+1, d =>
    if d.coefficient ≠ 0 ∧ d.coefficient%10 = 0 then stripZeros fuel ⟨d.coefficient/10,d.exponent+1⟩ else d

def positional (d : Decimal) : List Char :=
  let digits := Nat.toDigits 10 d.coefficient
  if 0 ≤ d.exponent then digits ++ List.replicate d.exponent.toNat '0'
  else
    let places := (-d.exponent).toNat
    let padded := List.replicate (places+1-digits.length) '0' ++ digits
    padded.take (padded.length-places) ++ '.' :: padded.drop (padded.length-places)

end Decimal

/-- The text of a double: the shortest decimal that reads back, never with an exponent. -/
def floatText (x : Float) : String :=
  match Binary64.ofFloat x with
  | .nan => "NaN"
  | .infinite negative => if negative then "-inf" else "inf"
  | .finite negative m e =>
    let body := if m = 0 then ['0'] else ((Decimal.shortest m e).stripZeros 17).positional
    String.ofList (if negative then '-' :: body else body)

end SqlTemplate
