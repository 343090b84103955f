import SymCalc.Formula

/-! # Formulas as text

* `Formula.toChars`, `Formula.toText`: a formula in the notation in which formulas are read, with
  parentheses around every operand that is itself an operation with two operands. -/

namespace SymCalc
namespace Formula

/-- The text of a constant: its name if it has one, or the shortest decimal. -/
def constChars (v : Float) : List Char :=
  if v.isNaN then "UNDEFINED".toList
  else if v == Scalar.pi then "PI".toList
  else if v == Scalar.euler then "E".toList
  else doubleChars v

/-- The characters `cs` between parentheses. -/
def enclose (cs : List Char) : List Char := '(' :: cs ++ [')']

/-- Whether the formula has to stand in parentheses as an operand of an operation with two
operands. -/
def needsParens : Formula Float → Bool
  | binary .. => true
  | _ => false

/-- The text of a formula as a list of characters. -/
def toChars : Formula Float → List Char
  | const v => constChars v
  | var x => x.toList
  | unary .percent a => enclose a.toChars ++ ['%']
  | unary op a => op.text.toList ++ enclose a.toChars
  | binary op a b =>
    (if a.needsParens then enclose a.toChars else a.toChars) ++ op.text.toList ++
      (if b.needsParens then enclose b.toChars else b.toChars)

/-- The text of a formula. -/
def toText (f : Formula Float) : String := String.ofList f.toChars

end Formula
end SymCalc
