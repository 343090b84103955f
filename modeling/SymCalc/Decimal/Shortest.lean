import SymCalc.Decimal

/-! # The shortest decimal of a double

A positive double is `m * 2 ^ q`, and the reals that round to it form an interval around it. Its
shortest decimal is the one with the fewest significant digits in that interval, and of two with
equally many digits the nearer to the double.

* `Rounding`: a double and its interval, as whole numbers over one denominator;
* `Rounding.onGrid?`: the decimal chosen among those with a given number of digits;
* `Decimal.shortest`: the first one found, from one digit up. -/

namespace SymCalc

/-- A positive double `value / scale` with the ends `low / scale` and `high / scale` of the
interval that rounds to it. `closed` says that the ends belong to the interval. -/
structure Rounding where
  low : Nat
  value : Nat
  high : Nat
  scale : Nat
  closed : Bool

namespace Rounding

/-- The interval of the double `m * 2 ^ q`. The next double below is half as far away as the next
one above exactly if `narrow`. -/
def ofBinary (m : Nat) (q : Int) (narrow : Bool) : Rounding :=
  let up := Nat.pow 2 (q - 2).toNat
  { low := (if narrow then 4 * m - 1 else 4 * m - 2) * up
    value := 4 * m * up
    high := (4 * m + 2) * up
    scale := Nat.pow 2 (2 - q).toNat
    closed := m % 2 == 0 }

/-- The interval of the positive finite double with the given bits. -/
def ofBits (bits : UInt64) : Rounding :=
  let fraction : Nat := bits.toNat % Nat.pow 2 52
  let exponent : Nat := bits.toNat / Nat.pow 2 52 % Nat.pow 2 11
  if exponent == 0 then ofBinary fraction (-1074) false
  else ofBinary (fraction + Nat.pow 2 52) ((exponent : Int) - 1075) (fraction == 0 && exponent > 1)

/-- The position of the first significant digit: `10 ^ (order - 1)` is at most the value and
`10 ^ order` is greater. -/
def order (r : Rounding) : Int :=
  if r.scale ≤ r.value then (Nat.toDigits 10 (r.value / r.scale)).length
  else 1 - (Nat.toDigits 10 (r.scale / r.value)).length

/-- Whether `n / d` lies in the interval. -/
def contains (r : Rounding) (n d : Nat) : Bool :=
  if r.closed then r.low * d ≤ n * r.scale && n * r.scale ≤ r.high * d
  else r.low * d < n * r.scale && n * r.scale < r.high * d

/-- Among the multiples of `10 ^ (order - count)`, the neighbour of the value that lies in the
interval. Of two such neighbours it is the nearer, and the upper one if they are equally near. -/
def onGrid? (r : Rounding) (count : Nat) : Option Decimal :=
  let power := r.order - count
  let unit := Nat.pow 10 power.toNat
  let parts := Nat.pow 10 (-power).toNat
  let below := r.value * parts / (r.scale * unit)
  let answer (n : Nat) : Decimal := ⟨n * unit, (-power).toNat⟩
  match r.contains (below * unit) parts, r.contains ((below + 1) * unit) parts with
  | false, false => none
  | true, false => some (answer below)
  | false, true => some (answer (below + 1))
  | true, true =>
    if 2 * (r.value * parts) < (2 * below + 1) * (r.scale * unit) then some (answer below)
    else some (answer (below + 1))

end Rounding

/-- The decimal with the fewest digits that rounds to the positive finite double with the given
bits. Seventeen digits are always enough. -/
def Decimal.shortest (bits : UInt64) : Decimal :=
  let r := Rounding.ofBits bits
  (((List.range 17).findSome? fun n => r.onGrid? (n + 1)).getD ⟨0, 0⟩).normalize

end SymCalc
