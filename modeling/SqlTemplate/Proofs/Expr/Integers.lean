import Mathlib.Data.Int.ModEq
import SqlTemplate.Expr.Evaluation
/-!
# Integer expressions

What an expression over integers comes to, said on the integers: every operator gives the 64-bit integer that is
congruent to the exact result on its operands. The evaluation computes just this, and fails just where a divisor
is zero.
-/
namespace SqlTemplate

namespace Arithmetic

/-- The result on the integers. A quotient is truncated toward zero, a remainder has the sign of the dividend. -/
def exact : Arithmetic → Int → Int → Int
  | .add, x, y => x+y
  | .sub, x, y => x-y
  | .mul, x, y => x*y
  | .div, x, y => x.tdiv y
  | .rem, x, y => x.tmod y

def divides : Arithmetic → Bool
  | .add | .sub | .mul => false
  | .div | .rem => true

end Arithmetic

theorem Bindings.variableValue_of_get? {b : Bindings} {name : String} {v : Value} (h : b.get? name = some v) :
    Expr.variableValue b name = .ok v := by
  rw [get?] at h
  rw [Expr.variableValue]
  cases he : b.explicit? name with
  | some w =>
    obtain rfl : w = v := by simpa [he] using h
    rfl
  | none =>
    have hp : b.ofParameter? name = some v := by simpa [he] using h
    rw [ofParameter?] at hp
    cases hv : b.parameter <;> simp_all [Value.isNull,Value.isSimple,Value.property?,Expr.member]

namespace Expr

/-- Operators of arithmetic on integer literals and variables bound to integers. -/
inductive IsInteger (b : Bindings) : Expr → Prop
  | literal (i : Int64) : IsInteger b (.literal (.int i))
  | named {name : String} {i : Int64} (bound : b.get? name = some (.int i)) : IsInteger b (.variable name)
  | negate {e : Expr} (inner : IsInteger b e) : IsInteger b (.negate e)
  | binary {lhs rhs : Expr} (op : Arithmetic) (left : IsInteger b lhs) (right : IsInteger b rhs) :
    IsInteger b (.binary lhs (.arithmetic op) rhs)

/-- The expression comes to an integer: at every operator, to the one of 64 bits that is congruent to the exact
result on its operands. A divisor is not zero. -/
inductive Computes (b : Bindings) : Expr → Int64 → Prop
  | literal (i : Int64) : Computes b (.literal (.int i)) i
  | named {name : String} {i : Int64} (bound : b.get? name = some (.int i)) : Computes b (.variable name) i
  | negate {e : Expr} {x i : Int64} (inner : Computes b e x) (congruent : i.toInt ≡ -x.toInt [ZMOD 2^64]) :
    Computes b (.negate e) i
  | binary {lhs rhs : Expr} {op : Arithmetic} {x y i : Int64} (left : Computes b lhs x)
    (right : Computes b rhs y) (divisor : op.divides = true → y ≠ 0)
    (congruent : i.toInt ≡ op.exact x.toInt y.toInt [ZMOD 2^64]) :
    Computes b (.binary lhs (.arithmetic op) rhs) i

/-- Some division or remainder in the expression has operands that come to integers, the divisor to zero. -/
inductive DividesByZero (b : Bindings) : Expr → Prop
  | here {lhs rhs : Expr} {op : Arithmetic} {x : Int64} (divides : op.divides = true) (left : Computes b lhs x)
    (right : Computes b rhs 0) : DividesByZero b (.binary lhs (.arithmetic op) rhs)
  | negate {e : Expr} (inner : DividesByZero b e) : DividesByZero b (.negate e)
  | left {lhs rhs : Expr} {op : Arithmetic} (inner : DividesByZero b lhs) :
    DividesByZero b (.binary lhs (.arithmetic op) rhs)
  | right {lhs rhs : Expr} {op : Arithmetic} (inner : DividesByZero b rhs) :
    DividesByZero b (.binary lhs (.arithmetic op) rhs)

variable {b : Bindings}

private theorem eq_of_modEq {x y : Int64} (h : x.toInt ≡ y.toInt [ZMOD 2^64]) : x = y := by
  rw [← Int64.toInt_inj]
  have hx := x.le_toInt
  have hx' := x.toInt_lt
  have hy := y.le_toInt
  have hy' := y.toInt_lt
  simp only [Int.ModEq] at h
  omega

private theorem toInt_neg_modEq (x : Int64) : (-x).toInt ≡ -x.toInt [ZMOD 2^64] := by
  rw [Int64.toInt_neg]
  exact Int.bmod_emod

private theorem toInt_add_modEq (x y : Int64) : (x+y).toInt ≡ x.toInt+y.toInt [ZMOD 2^64] := by
  rw [Int64.toInt_add]
  exact Int.bmod_emod

private theorem toInt_sub_modEq (x y : Int64) : (x-y).toInt ≡ x.toInt-y.toInt [ZMOD 2^64] := by
  rw [Int64.toInt_sub]
  exact Int.bmod_emod

private theorem toInt_mul_modEq (x y : Int64) : (x*y).toInt ≡ x.toInt*y.toInt [ZMOD 2^64] := by
  rw [Int64.toInt_mul]
  exact Int.bmod_emod

private theorem toInt_div_modEq (x y : Int64) : (x/y).toInt ≡ x.toInt.tdiv y.toInt [ZMOD 2^64] := by
  rw [Int64.toInt_div]
  exact Int.bmod_emod

private theorem onInts_eq_ok_iff {op : Arithmetic} {x y i : Int64} : onInts x y op = .ok i ↔
    (op.divides = true → y ≠ 0) ∧ i.toInt ≡ op.exact x.toInt y.toInt [ZMOD 2^64] := by
  have hwrapped {j : Int64} {k : Int} (hj : j.toInt ≡ k [ZMOD 2^64]) : j = i ↔ i.toInt ≡ k [ZMOD 2^64] := by
    constructor
    · rintro rfl
      exact hj
    · intro hi
      exact eq_of_modEq (hj.trans hi.symm)
  cases op with
  | add => simp [onInts,Arithmetic.divides,Arithmetic.exact,hwrapped (toInt_add_modEq x y)]
  | sub => simp [onInts,Arithmetic.divides,Arithmetic.exact,hwrapped (toInt_sub_modEq x y)]
  | mul => simp [onInts,Arithmetic.divides,Arithmetic.exact,hwrapped (toInt_mul_modEq x y)]
  | div =>
    by_cases hy : y = 0
    · simp [onInts,Arithmetic.divides,hy]
    · simp [onInts,Arithmetic.divides,Arithmetic.exact,hwrapped (toInt_div_modEq x y),hy]
  | rem =>
    have hrem : (x%y).toInt ≡ x.toInt.tmod y.toInt [ZMOD 2^64] := by rw [Int64.toInt_mod]
    by_cases hy : y = 0
    · simp [onInts,Arithmetic.divides,hy]
    · simp [onInts,Arithmetic.divides,Arithmetic.exact,hwrapped hrem,hy]

private theorem onInts_eq_error_iff {op : Arithmetic} {x y : Int64} {fault : ExpressionError} :
    onInts x y op = .error fault ↔ fault = .divisionByZero ∧ op.divides = true ∧ y = 0 := by
  cases op <;> by_cases hy : y = 0 <;> simp [onInts,Arithmetic.divides,hy,eq_comm]

private theorem evaluate_arithmetic {lhs rhs : Expr} {x y : Int64} (hl : evaluate b lhs = .ok (.int x))
    (hr : evaluate b rhs = .ok (.int y)) (op : Arithmetic) :
    evaluate b (.binary lhs (.arithmetic op) rhs) = (onInts x y op).map .int := by
  rw [evaluate,hl]
  cases op <;> simp [bind,Except.bind,hr,sum,isString,arithmetic]

private theorem evaluate_arithmetic_left {lhs : Expr} {fault : ExpressionError} (h : evaluate b lhs = .error fault)
    (op : Arithmetic) (rhs : Expr) : evaluate b (.binary lhs (.arithmetic op) rhs) = .error fault := by
  rw [evaluate,h]
  rfl

private theorem evaluate_arithmetic_right {lhs rhs : Expr} {v : Value} {fault : ExpressionError}
    (hl : evaluate b lhs = .ok v) (h : evaluate b rhs = .error fault) (op : Arithmetic) :
    evaluate b (.binary lhs (.arithmetic op) rhs) = .error fault := by
  rw [evaluate,hl]
  cases op <;> simp only [bind,Except.bind,h]

theorem Computes.evaluate {e : Expr} {i : Int64} (h : Computes b e i) : evaluate b e = .ok (.int i) := by
  induction h with
  | literal i => rfl
  | named bound => exact Bindings.variableValue_of_get? bound
  | @negate e x i _ congruent ih =>
    obtain rfl : -x = i := eq_of_modEq ((toInt_neg_modEq x).trans congruent.symm)
    rw [Expr.evaluate,ih]
    rfl
  | binary _ _ divisor congruent ihl ihr =>
    rw [evaluate_arithmetic ihl ihr,onInts_eq_ok_iff.mpr ⟨divisor,congruent⟩]
    rfl

private theorem Computes.unique {e : Expr} {i j : Int64} (hi : Computes b e i) (hj : Computes b e j) : i = j := by
  simpa using hi.evaluate.symm.trans hj.evaluate

private theorem Computes.not_dividesByZero {e : Expr} {i : Int64} (h : Computes b e i) : ¬DividesByZero b e := by
  intro hd
  induction h with
  | literal i => cases hd
  | named bound => cases hd
  | negate _ _ ih =>
    cases hd with
    | negate inner => exact ih inner
  | binary _ right divisor _ ihl ihr =>
    cases hd with
    | here divides _ zero => exact divisor divides (right.unique zero)
    | left inner => exact ihl inner
    | right inner => exact ihr inner

/-- An integer expression comes to an integer, or a divisor in it is zero and the evaluation fails for that. -/
theorem IsInteger.computes_or_divides {e : Expr} (h : IsInteger b e) : (∃ i, Computes b e i) ∨
    DividesByZero b e ∧ Expr.evaluate b e = .error .divisionByZero := by
  induction h with
  | literal i => exact .inl ⟨i,.literal i⟩
  | named bound => exact .inl ⟨_,.named bound⟩
  | negate _ ih =>
    rcases ih with ⟨x,hx⟩ | ⟨hd,he⟩
    · exact .inl ⟨-x,.negate hx (toInt_neg_modEq x)⟩
    · refine .inr ⟨.negate hd,?_⟩
      rw [Expr.evaluate,he]
      rfl
  | binary op _ _ ihl ihr =>
    rcases ihl with ⟨x,hx⟩ | ⟨hd,he⟩
    · rcases ihr with ⟨y,hy⟩ | ⟨hd,he⟩
      · have hvalue := evaluate_arithmetic hx.evaluate hy.evaluate op
        cases hi : onInts x y op with
        | ok i =>
          obtain ⟨divisor,congruent⟩ := onInts_eq_ok_iff.mp hi
          exact .inl ⟨i,.binary hx hy divisor congruent⟩
        | error fault =>
          obtain ⟨rfl,divides,rfl⟩ := onInts_eq_error_iff.mp hi
          exact .inr ⟨.here divides hx hy,by rw [hvalue,hi]; rfl⟩
      · exact .inr ⟨.right hd,evaluate_arithmetic_right hx.evaluate he op⟩
    · exact .inr ⟨.left hd,evaluate_arithmetic_left he op _⟩

private theorem div_mul_add_mod (x y : Int64) : x/y*y+x%y = x := by
  apply eq_of_modEq
  calc (x/y*y+x%y).toInt
    _ ≡ (x/y*y).toInt+(x%y).toInt [ZMOD 2^64] := toInt_add_modEq _ _
    _ ≡ (x/y).toInt*y.toInt+(x%y).toInt [ZMOD 2^64] := (toInt_mul_modEq _ _).add_right _
    _ ≡ x.toInt.tdiv y.toInt*y.toInt+(x%y).toInt [ZMOD 2^64] := ((toInt_div_modEq x y).mul_right _).add_right _
    _ = x.toInt := by rw [Int64.toInt_mod,Int.tdiv_mul_add_tmod]

/-- An expression over integers has the value that it comes to, the exact results of its operators being taken
modulo `2^64`, and it fails only for a zero divisor and just where there is one. So a quotient times its divisor
plus the remainder is the dividend. -/
theorem evaluate_modulo (b : Bindings) :
    (∀ e, IsInteger b e → (∀ v, evaluate b e = .ok v ↔ ∃ i, v = .int i ∧ Computes b e i) ∧
      ∀ fault, evaluate b e = .error fault ↔ fault = .divisionByZero ∧ DividesByZero b e) ∧
    ∀ lhs rhs x y, evaluate b lhs = .ok (.int x) → evaluate b rhs = .ok (.int y) → y ≠ 0 →
      evaluate b (.binary (.binary (.binary lhs (.arithmetic .div) rhs) (.arithmetic .mul) rhs) (.arithmetic .add)
        (.binary lhs (.arithmetic .rem) rhs)) = .ok (.int x) := by
  refine ⟨fun e h => ?_,fun lhs rhs x y hl hr hy => ?_⟩
  · rcases h.computes_or_divides with ⟨i,hi⟩ | ⟨hd,he⟩
    · constructor
      · intro v
        rw [hi.evaluate]
        constructor
        · intro hv
          exact ⟨i,(Except.ok.inj hv).symm,hi⟩
        · rintro ⟨j,rfl,hj⟩
          rw [hi.unique hj]
      · intro fault
        simp [hi.evaluate,hi.not_dividesByZero]
    · constructor
      · intro v
        rw [he]
        constructor
        · intro hv
          cases hv
        · rintro ⟨i,-,hi⟩
          exact absurd hd hi.not_dividesByZero
      · intro fault
        simp [he,hd,eq_comm]
  · have hquotient : evaluate b (.binary lhs (.arithmetic .div) rhs) = .ok (.int (x/y)) := by
      rw [evaluate_arithmetic hl hr]
      simp [onInts,hy,Except.map]
    have hproduct := evaluate_arithmetic hquotient hr .mul
    have hremainder : evaluate b (.binary lhs (.arithmetic .rem) rhs) = .ok (.int (x%y)) := by
      rw [evaluate_arithmetic hl hr]
      simp [onInts,hy,Except.map]
    rw [evaluate_arithmetic hproduct hremainder .add]
    simp [onInts,Except.map,div_mul_add_mod]

theorem evaluate_modulo_least :
    let b := (Bindings.empty.bind "a" (.int Int64.minValue)).bind "b" (.int (-1))
    let quotient := Expr.binary (.variable "a") (.arithmetic .div) (.variable "b")
    let remainder := Expr.binary (.variable "a") (.arithmetic .rem) (.variable "b")
    IsInteger b (.negate quotient) ∧ evaluate b (.negate quotient) = .ok (.int Int64.minValue) ∧
    IsInteger b (.binary quotient (.arithmetic .rem) remainder) ∧
    evaluate b (.binary quotient (.arithmetic .rem) remainder) = .error .divisionByZero ∧
    evaluate b (.binary (.binary quotient (.arithmetic .mul) (.variable "b")) (.arithmetic .add) remainder) =
      .ok (.int Int64.minValue) := by
  intro b quotient remainder
  obtain ⟨hcomputed,hlaw⟩ := evaluate_modulo b
  have ha : b.get? "a" = some (.int Int64.minValue) := rfl
  have hb : b.get? "b" = some (.int (-1)) := rfl
  have hinteger (op : Arithmetic) : IsInteger b (.binary (.variable "a") (.arithmetic op) (.variable "b")) :=
    .binary op (.named ha) (.named hb)
  have hquotient : Computes b quotient Int64.minValue :=
    .binary (.named ha) (.named hb) (fun _ => by decide) (by decide)
  have hremainder : Computes b remainder 0 := .binary (.named ha) (.named hb) (fun _ => by decide) (by decide)
  have hnegated : Computes b (.negate quotient) Int64.minValue := .negate hquotient (by decide)
  refine ⟨.negate (hinteger .div),?_,.binary .rem (hinteger .div) (hinteger .rem),?_,?_⟩
  · exact ((hcomputed _ (.negate (hinteger .div))).1 _).mpr ⟨_,rfl,hnegated⟩
  · have hdivides : DividesByZero b (.binary quotient (.arithmetic .rem) remainder) :=
      .here rfl hquotient hremainder
    exact ((hcomputed _ (.binary .rem (hinteger .div) (hinteger .rem))).2 _).mpr ⟨rfl,hdivides⟩
  · exact hlaw _ _ _ _ rfl rfl (by decide)

end Expr
end SqlTemplate
