import SymCalc.Text.Span

/-! # Decimal numbers as they are written

* `Decimal`: a whole number of units of `10 ^ -places`;
* `Decimal.ofChars?`: reads digits, or digits, a point and digits;
* `Decimal.toChars`: writes the positional form, the inverse of reading. -/

namespace SymCalc

/-- The number `digits / 10 ^ places`. -/
structure Decimal where
  digits : Nat
  places : Nat
deriving DecidableEq, Repr, Inhabited

namespace Decimal

/-- The whole number `n`. -/
def ofNat (n : Nat) : Decimal := ⟨n, 0⟩

/-- The number that a list of decimal digits denotes. -/
def digitsToNat (ds : List Char) : Nat :=
  ds.foldl (fun n d => 10 * n + (d.toNat - '0'.toNat)) 0

/-- Whether the list is a nonempty run of decimal digits. -/
def isDigits (ds : List Char) : Bool := !ds.isEmpty && ds.all Char.isDigit

/-- Reads `digits` or `digits.digits`; anything else is no number. -/
def ofChars? (cs : List Char) : Option Decimal :=
  let whole := cs.takeWhile (· != '.')
  match cs.dropWhile (· != '.') with
  | [] => if isDigits whole then some ⟨digitsToNat whole, 0⟩ else none
  | _ :: part =>
    if isDigits whole && isDigits part then some ⟨digitsToNat (whole ++ part), part.length⟩
    else none

/-- The same number without trailing zeros after the point. -/
def normalize : Decimal → Decimal
  | ⟨d, 0⟩ => ⟨d, 0⟩
  | ⟨d, p + 1⟩ => if d % 10 = 0 then normalize ⟨d / 10, p⟩ else ⟨d, p + 1⟩
termination_by d => d.places

/-- The positional form: at least one digit before the point, and no point without places. -/
def toChars (d : Decimal) : List Char :=
  if d.places = 0 then Nat.toDigits 10 d.digits
  else
    let ds := Nat.toDigits 10 d.digits
    let ds := List.replicate (d.places + 1 - ds.length) '0' ++ ds
    ds.take (ds.length - d.places) ++ '.' :: ds.drop (ds.length - d.places)

end Decimal
end SymCalc
