import Mathlib
import SymCalc.Proofs.Formula.Leaves

/-!
# Exact constants

* `Exact`: a real number, or the result of an operation that has none;
* the instance of `Scalar` for it, in which no operation rounds or overflows.

Operations on numbers are computed by `simp`. Products, quotients and opposites commute with
`Exact.toReal` even where there is no number.
-/

namespace SymCalc

/-- A real number, or the result of an operation that has none. -/
inductive Exact where
  | number (x : ℝ)
  | undefined

namespace Exact

/-- The number, and zero if there is none. -/
def toReal : Exact → ℝ
  | number x => x
  | undefined => 0

/-- Whether the value is a number. -/
def isNumber : Exact → Bool
  | number _ => true
  | undefined => false

/-- An operation that is defined for every number. -/
def map (f : ℝ → ℝ) : Exact → Exact
  | number x => number (f x)
  | undefined => undefined

/-- An operation that is defined for any two numbers. -/
def map₂ (f : ℝ → ℝ → ℝ) : Exact → Exact → Exact
  | number x, number y => number (f x y)
  | _, _ => undefined

open Classical in
/-- The number `x`, if it is one by the condition `p`. -/
noncomputable def numberIf (p : Prop) (x : ℝ) : Exact := if p then number x else undefined

/-- There is no quotient by zero. -/
noncomputable def div : Exact → Exact → Exact
  | number x, number y => numberIf (y ≠ 0) (x / y)
  | _, _ => undefined

/-- There is no logarithm of zero or of a negative number. -/
noncomputable def ln : Exact → Exact
  | number x => numberIf (0 < x) (Real.log x)
  | undefined => undefined

/-- There is no tangent where the cosine is zero. -/
noncomputable def tan : Exact → Exact
  | number x => numberIf (Real.cos x ≠ 0) (Real.tan x)
  | undefined => undefined

open Classical in
/-- Whether two values are numbers in the relation `r`. -/
noncomputable def related (r : ℝ → ℝ → Prop) : Exact → Exact → Bool
  | number x, number y => decide (r x y)
  | _, _ => false

noncomputable instance : Scalar Exact where
  zero := number 0
  one := number 1
  neg := map (- ·)
  add := map₂ (· + ·)
  sub := map₂ (· - ·)
  mul := map₂ (· * ·)
  div := div
  beq := related (· = ·)
  lt := related (· < ·)
  isNumber := isNumber
  isFinite := isNumber
  undefined := undefined
  ofDecimal d := number (d.digits / 10 ^ d.places)
  pi := number Real.pi
  euler := number (Real.exp 1)
  exp := map Real.exp
  ln := ln
  cos := map Real.cos
  sin := map Real.sin
  tan := tan

variable {v w : Exact} {x y : ℝ} {p : Prop}

/-! ## Operations on numbers -/

@[simp] theorem toReal_number : (number x).toReal = x := rfl

@[simp] theorem isNumber_number : Scalar.isNumber (number x) = true := rfl

theorem zero_eq : (0 : Exact) = number 0 := rfl

theorem one_eq : (1 : Exact) = number 1 := rfl

@[simp] theorem neg_number : -number x = number (-x) := rfl

@[simp] theorem add_number : number x + number y = number (x + y) := rfl

@[simp] theorem div_number : number x / number y = numberIf (y ≠ 0) (x / y) := rfl

@[simp] theorem ln_number : Scalar.ln (number x) = numberIf (0 < x) (Real.log x) := rfl

@[simp] theorem tan_number :
    Scalar.tan (number x) = numberIf (Real.cos x ≠ 0) (Real.tan x) := rfl

theorem numberIf_pos (h : p) : numberIf p x = number x := if_pos h

theorem numberIf_neg (h : ¬p) : numberIf p x = undefined := if_neg h

@[simp] theorem beq_number : number x == number y ↔ x = y := decide_eq_true_iff

@[simp] theorem lt_number : Scalar.lt (number x) (number y) ↔ x < y := decide_eq_true_iff

@[simp] theorem ofNat_eq (n : Nat) : (Scalar.ofNat n : Exact) = number n := by
  change number ((n : ℝ) / 10 ^ 0) = number n
  rw [pow_zero, div_one]

theorem magnitude_number : Scalar.magnitude (number x) = number |x| := by
  rw [Scalar.magnitude, zero_eq]
  split
  · next h => rw [neg_number, abs_of_neg (lt_number.1 h)]
  · next h => rw [abs_of_nonneg (not_lt.1 fun hx => h (lt_number.2 hx))]

theorem eq_of_toCount? {n : Nat} (h : Scalar.toCount? (number x) = some n) : x = n := by
  have hn := List.find?_some h
  rw [ofNat_eq] at hn
  exact beq_number.1 hn

/-! ## Being a number -/

theorem exists_number (h : Scalar.isNumber v) : ∃ x, v = number x := by
  cases v with
  | number x => exact ⟨x, rfl⟩
  | undefined => cases h

theorem eq_of_beq (h : v == w) : v = w := by
  cases v with
  | number x =>
    cases w with
    | number y => rw [beq_number.1 h]
    | undefined => cases h
  | undefined => cases h

/-- The order of values tells any two of them apart. -/
theorem eq_of_compare (h : Scalar.compare v w = .eq) : v = w := by
  unfold Scalar.compare at h
  split at h
  · split at h
    · cases h
    · split at h
      · next hvw => exact eq_of_beq hvw
      · cases h
  · cases h
  · cases h
  · next hv hw =>
    cases v with
    | number x => cases hv
    | undefined =>
      cases w with
      | number y => cases hw
      | undefined => rfl

/-! ## The number of a result -/

@[simp] theorem toReal_zero : (0 : Exact).toReal = 0 := rfl

@[simp] theorem toReal_one : (1 : Exact).toReal = 1 := rfl

@[simp] theorem toReal_neg : (-v).toReal = -v.toReal := by
  cases v with
  | number x => rfl
  | undefined => exact neg_zero.symm

@[simp] theorem toReal_mul : (v * w).toReal = v.toReal * w.toReal := by
  cases v with
  | number x =>
    cases w with
    | number y => rfl
    | undefined => exact (mul_zero x).symm
  | undefined => exact (zero_mul w.toReal).symm

@[simp] theorem toReal_div : (v / w).toReal = v.toReal / w.toReal := by
  cases v with
  | number x =>
    cases w with
    | number y =>
      by_cases h : y = 0
      · rw [div_number, numberIf_neg (not_not.2 h), toReal_number, toReal_number, h, div_zero]
        rfl
      · rw [div_number, numberIf_pos h]
        rfl
    | undefined => exact (div_zero x).symm
  | undefined => exact (zero_div w.toReal).symm

theorem toReal_eq_of_beq (h : v == w) : v.toReal = w.toReal := congrArg toReal (eq_of_beq h)

end Exact
end SymCalc
