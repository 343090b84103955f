import SymCalc.Formula

/-! # Derivatives

* `Formula.derivative`: the derivative of a formula, by the rules of calculus and without any
  simplification. -/

namespace SymCalc

/-- The derivative of a formula with respect to the variable `x`. A constant that is no number has
the derivative zero like any other. -/
def Formula.derivative {α : Type} [Scalar α] (x : String) : Formula α → Formula α
  | const _ => const 0
  | var y => if y = x then const 1 else const 0
  | unary .negate a => -a.derivative x
  | unary .exp a => a.derivative x * unary .exp a
  | unary .ln a => a.derivative x / a
  | unary .cos a => -(a.derivative x * unary .sin a)
  | unary .sin a => a.derivative x * unary .cos a
  | unary .tan a => a.derivative x / (unary .cos a * unary .cos a)
  | unary .percent a => unary .percent (a.derivative x)
  | binary .add a b => a.derivative x + b.derivative x
  | binary .sub a b => a.derivative x - b.derivative x
  | binary .mul a b => a.derivative x * b + a * b.derivative x
  | binary .div a b => (a.derivative x * b - a * b.derivative x) / (b * b)

end SymCalc
