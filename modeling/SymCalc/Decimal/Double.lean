import SymCalc.Decimal.Shortest

/-! # Doubles as text

* `Decimal.toDouble`: the double nearest to a decimal;
* `doubleChars`: the positional form of the shortest decimal that reads back as a double. -/

namespace SymCalc

/-- The double nearest to the decimal, infinite if that is too large. -/
def Decimal.toDouble (d : Decimal) : Float := Float.ofScientific d.digits true d.places

/-- The text of a double: the shortest decimal that reads back, in positional form and without an
exponent, with a sign if the sign bit is set. -/
def doubleChars (x : Float) : List Char :=
  if x.isNaN then "NaN".toList
  else
    let bits := x.toBits &&& 0x7FFFFFFFFFFFFFFF
    let unsigned :=
      if !x.isFinite then "inf".toList
      else if bits = 0 then ['0']
      else (Decimal.shortest bits).toChars
    if bits = x.toBits then unsigned else '-' :: unsigned

/-- The text of a double as a string. -/
def doubleText (x : Float) : String := String.ofList (doubleChars x)

end SymCalc
