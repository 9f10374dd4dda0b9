/-!
# Double precision numbers taken apart

A finite double is `±m · 2^e` with natural `m` and integer `e`. The remainder of a division is computed on
that form, exactly.
-/
namespace SqlTemplate

inductive Binary64
  | finite (negative : Bool) (mantissa : Nat) (exponent : Int)
  | infinite (negative : Bool)
  | nan
  deriving DecidableEq

namespace Binary64

def ofBits (bits : Nat) : Binary64 :=
  let negative := decide (bits/Nat.pow 2 63%2 = 1)
  let exponent : Nat := bits/Nat.pow 2 52%Nat.pow 2 11
  let fraction : Nat := bits%Nat.pow 2 52
  if exponent = 2047 then if fraction = 0 then .infinite negative else .nan
  else if exponent = 0 then .finite negative fraction (-1074)
  else .finite negative (Nat.pow 2 52+fraction) ((exponent : Int)-1075)

def ofFloat (x : Float) : Binary64 := ofBits x.toBits.toNat

def toFloat : Binary64 → Float
  | .finite negative m e => let x := (Float.ofNat m).scaleB e; if negative then -x else x
  | .infinite negative => if negative then -1.0/0.0 else 1.0/0.0
  | .nan => 0.0/0.0

/-- What a division truncated toward zero leaves; it has the sign of the dividend. -/
def remainder : Binary64 → Binary64 → Binary64
  | .finite negative m e, .finite _ n f =>
    if n = 0 then .nan
    else
      let unit := min e f
      .finite negative ((m*Nat.pow 2 (e-unit).toNat)%(n*Nat.pow 2 (f-unit).toNat)) unit
  | .finite negative m e, .infinite _ => .finite negative m e
  | _, _ => .nan

end Binary64

def floatRemainder (a b : Float) : Float :=
  ((Binary64.ofFloat a).remainder (Binary64.ofFloat b)).toFloat

end SqlTemplate
