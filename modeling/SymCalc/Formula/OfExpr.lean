import SymCalc.Formula
import SymCalc.Syntax.Grammar

/-! # Formulas from syntax trees

* `Formula.ofPower`: the formula for a power;
* `Formula.ofExpr`: the formula that a syntax tree stands for, without regions and parentheses;
* `Formula.ofText`: the formula that a text stands for. -/

namespace SymCalc
namespace Formula

variable {α : Type} [Scalar α]

/-- The formula for `base ^ exponent`. For an exponent that is a whole number below 100 it is a
product, and otherwise `exp(exponent * ln(base))`. -/
def ofPower (base exponent : Formula α) : Formula α :=
  match exponent with
  | const v =>
    if Scalar.isNumber v then
      match Scalar.toCount? v with
      | some n => base.power n
      | none => unary .exp (const v * unary .ln base)
    else undefined
  | exponent => unary .exp (exponent * unary .ln base)

/-- The constant that a name stands for, if it is not a variable. -/
def constantNamed? (name : String) : Option (Formula α) :=
  if name = "PI" then some (const Scalar.pi)
  else if name = "E" then some (const Scalar.euler)
  else if name = "UNDEFINED" then some undefined
  else none

/-- The formula that a syntax tree stands for. -/
def ofExpr : Expr → Formula α
  | .number d _ => ofValue (Scalar.ofDecimal d)
  | .symbol name _ => (constantNamed? name).getD (var name)
  | .paren inner _ => ofExpr inner
  | .unary op _ operand _ => unary op (ofExpr operand)
  | .binary .power _ lhs rhs _ => ofPower (ofExpr lhs) (ofExpr rhs)
  | .binary (.arith op) _ lhs rhs _ => binary op (ofExpr lhs) (ofExpr rhs)

/-- The formula that a text stands for. -/
def ofText (text : String) : Except Report (Formula α) := (Expr.ofText text).map ofExpr

end Formula
end SymCalc
