import SymCalc.Simplify.Product
import SymCalc.Simplify.Sum

/-! # The normal form of a function

* `Formula.negativeForm?`: the opposite of a formula, if the formula counts as negative;
* `Formula.normalizeUnary`: the normal form of a unary operation. -/

namespace SymCalc
namespace Formula

variable {α : Type} [Scalar α]

/-- The opposite of the formula, if the formula counts as negative. Negations, negative constants
and products with a negative coefficient do. Of a sum and its opposite, the one that comes later
in the order does. -/
def negativeForm? (f : Formula α) : Option (Formula α) :=
  match f with
  | unary .negate a => some a
  | const v => if Scalar.lt v 0 then some (ofValue (-v)) else none
  | binary .mul _ _ | binary .div _ _ => do
    let m ← Monomial.of? f
    guard (Scalar.lt m.coeff 0)
    return m.negated.toFormula
  | binary .add _ _ | binary .sub _ _ =>
    let g := (-f).normalizeSum.value
    if g.isBefore f then some g else none
  | _ => none

/-- The base and the exponent if the formula is `k*ln(a)` for a whole number `k` from 2 to 99. -/
def logPower? (f : Formula α) : Option (Formula α × Nat) :=
  match Monomial.of? f with
  | some ⟨coeff, [unary .ln base], []⟩ =>
    match Scalar.toCount? coeff with
    | some (k + 2) => some (base, k + 2)
    | _ => none
  | _ => none

/-- The normal form of `-a`. -/
def normalizeNegation : Formula α → Traced (Formula α)
  | const v => do
    .emit .foldConstants
    return ofValue (-v)
  | unary .negate a => do
    .emit .doubleNegation
    return a
  | binary .add a b => (-binary .add a b).normalizeSum
  | binary .sub a b => (-binary .sub a b).normalizeSum
  | f => (-f).normalizeProduct

/-- The normal form of `exp(a)`. -/
def normalizeExp : Formula α → Traced (Formula α)
  | const v => do
    .emit .foldConstants
    return if v == 1 then const Scalar.euler else ofValue (Scalar.exp v)
  | unary .ln a => do
    .emit .inverseFunctions
    return a
  | f =>
    match f.logPower? with
    | some (base, k) => do
      .emit .powerToProduct
      return base.power k
    | none => return unary .exp f

/-- The normal form of `ln(a)`. -/
def normalizeLn : Formula α → Traced (Formula α)
  | const v =>
    if Scalar.lt 0 v then do
      .emit .foldConstants
      return if v == Scalar.euler then const 1 else ofValue (Scalar.ln v)
    else do
      .emit .undefined
      return undefined
  | unary .exp a => do
    .emit .inverseFunctions
    return a
  | f => return unary .ln f

/-- The normal form of `cos(a)`. -/
def normalizeCos (f : Formula α) : Traced (Formula α) :=
  match f with
  | const v => do
    .emit .foldConstants
    return if v == Scalar.pi then const (-1) else ofValue (Scalar.cos v)
  | f =>
    match f.negativeForm? with
    | some g => do
      .emit .evenFunction
      return unary .cos g
    | none => return unary .cos f

/-- The normal form of `op(a)` for an odd function `op`, if `a` is not a constant. -/
def normalizeOdd (op : UnaryOp) (f : Formula α) : Traced (Formula α) :=
  match f.negativeForm? with
  | some g => do
    .emit .oddFunction
    return -unary op g
  | none => return unary op f

/-- The normal form of `sin(a)`. -/
def normalizeSin : Formula α → Traced (Formula α)
  | const v => do
    .emit .foldConstants
    return ofValue (Scalar.sin v)
  | f => normalizeOdd .sin f

/-- The normal form of `tan(a)`. -/
def normalizeTan : Formula α → Traced (Formula α)
  | const v => do
    .emit .foldConstants
    return ofValue (Scalar.tan v)
  | f => normalizeOdd .tan f

/-- The normal form of `(a)%`. Percentages of constants other than zero stay as they are. -/
def normalizePercent (f : Formula α) : Traced (Formula α) :=
  if f.value?.any (· == 0) then do
    .emit .percentOfZero
    return const 0
  else normalizeOdd .percent f

/-- The normal form of a unary operation whose operand is in normal form and defined. -/
def normalizeUnary (op : UnaryOp) (f : Formula α) : Traced (Formula α) :=
  match op with
  | .negate => normalizeNegation f
  | .exp => normalizeExp f
  | .ln => normalizeLn f
  | .cos => normalizeCos f
  | .sin => normalizeSin f
  | .tan => normalizeTan f
  | .percent => normalizePercent f

end Formula
end SymCalc
