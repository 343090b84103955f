import SymCalc.Bindings
import SymCalc.Formula
import SymCalc.Problem

/-! # The value of a formula

* `UnaryOp.apply`, `ArithOp.apply`: what the operators do with values;
* `Formula.eval`: the value of a formula whose variables have values. -/

namespace SymCalc

variable {α : Type} [Scalar α]

/-- The result of an operator on a value. -/
def UnaryOp.apply : UnaryOp → α → α
  | .negate, v => -v
  | .exp, v => Scalar.exp v
  | .ln, v => Scalar.ln v
  | .cos, v => Scalar.cos v
  | .sin, v => Scalar.sin v
  | .tan, v => Scalar.tan v
  | .percent, v => v / Scalar.ofNat 100

/-- The result of an operator on two values. -/
def ArithOp.apply : ArithOp → α → α → α
  | .add, v, w => v + w
  | .sub, v, w => v - w
  | .mul, v, w => v * w
  | .div, v, w => v / w

/-- The value of a formula. It fails at the first variable, in the order of evaluation, that has
no value. -/
def Formula.eval (b : Bindings α) : Formula α → Except Problem α
  | const v => .ok v
  | var x =>
    match b.get? x with
    | some v => .ok v
    | none => .error (.undefinedVariable x (b.similar x))
  | unary op a => do
    let v ← a.eval b
    return op.apply v
  | binary op f g => do
    let v ← f.eval b
    let w ← g.eval b
    return op.apply v w

end SymCalc
