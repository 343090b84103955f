import SymCalc.Decimal.Double

/-! # The arithmetic of constants

* `Scalar`: the values and operations that formulas are computed with;
* `Scalar.compare`: the order of values, in which all values that are not numbers are equal and
  come last;
* `Scalar.toCount?`: the small whole number that a value is, if it is one;
* the instance of `Scalar` for doubles.

Everything that works on formulas is stated for any `Scalar`, so it can be run with doubles and
reasoned about with exact numbers. -/

namespace SymCalc

/-- Values with the operations of a formula. `isNumber` excludes `undefined`, and `isFinite` also
excludes infinite values. `==` and `lt` compare numbers. -/
class Scalar (α : Type) extends Zero α, One α, Neg α, Add α, Sub α, Mul α, Div α, BEq α where
  /-- Whether the first number is less than the second. -/
  lt : α → α → Bool
  /-- Whether the value is a number, possibly an infinite one. -/
  isNumber : α → Bool
  /-- Whether the value is a finite number. -/
  isFinite : α → Bool
  /-- The value that is no number. -/
  undefined : α
  /-- The value of a written number. -/
  ofDecimal : Decimal → α
  /-- The ratio of a circle's circumference to its diameter. -/
  pi : α
  /-- The base of the natural logarithm. -/
  euler : α
  exp : α → α
  ln : α → α
  cos : α → α
  sin : α → α
  tan : α → α

namespace Scalar

variable {α : Type} [Scalar α]

/-- The value of a whole number. -/
def ofNat (n : Nat) : α := ofDecimal (.ofNat n)

/-- The value without its sign. -/
def magnitude (v : α) : α := if lt v 0 then -v else v

/-- Numbers in their order, and after them everything that is no number. -/
def compare (a b : α) : Ordering :=
  match isNumber a, isNumber b with
  | true, true => if lt a b then .lt else if a == b then .eq else .gt
  | true, false => .lt
  | false, true => .gt
  | false, false => .eq

/-- The whole number below 100 that the value is equal to, if there is one. -/
def toCount? (v : α) : Option Nat := (List.range 100).find? fun n => v == ofNat n

end Scalar

instance : Scalar Float where
  zero := 0
  one := 1
  neg := Float.neg
  add := Float.add
  sub := Float.sub
  mul := Float.mul
  div := Float.div
  beq := Float.beq
  lt a b := decide (a < b)
  isNumber v := !v.isNaN
  isFinite := Float.isFinite
  undefined := 0 / 0
  ofDecimal := Decimal.toDouble
  pi := Float.ofBits 0x400921FB54442D18
  euler := Float.ofBits 0x4005BF0A8B145769
  exp := Float.exp
  ln := Float.log
  cos := Float.cos
  sin := Float.sin
  tan := Float.tan

end SymCalc
