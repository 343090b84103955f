import SymCalc.Simplify.Function

/-! # Simplification

* `Formula.simplifyPass`: one pass, which brings every part of a formula into normal form once its
  operands are;
* `Formula.simplifyFor`: passes until nothing changes, but no more than a given number;
* `Formula.simplify`, `Formula.simplifyTraced`, `Formula.simplifyWithin?`: its uses;
* `Formula.isEquivalent`: whether two formulas simplify to the same one. -/

namespace SymCalc
namespace Formula

variable {α : Type} [Scalar α]

/-- The normal form of an operation with two operands that are in normal form and defined. -/
def normalizeBinary (op : ArithOp) (f g : Formula α) : Traced (Formula α) :=
  match op with
  | .add | .sub => (binary op f g).normalizeSum
  | .mul | .div => (binary op f g).normalizeProduct

/-- One pass of simplification, from the leaves up. -/
def simplifyPass : Formula α → Traced (Formula α)
  | const v => return ofValue v
  | var x => return var x
  | unary op a => do
    let a ← a.simplifyPass
    if a.isUndefined then
      .emit .propagateUndefined
      return undefined
    else normalizeUnary op a
  | binary op a b => do
    let a ← a.simplifyPass
    let b ← b.simplifyPass
    if a.isUndefined || b.isUndefined then
      .emit .propagateUndefined
      return undefined
    else normalizeBinary op a b

/-- The formula after one pass. -/
def simplifyOnce (f : Formula α) : Formula α := f.simplifyPass.value

/-- The formula after passes that go on until one changes nothing, but not more than `limit`, and
whether the last one changed nothing. -/
def simplifyFor (f : Formula α) : (limit : Nat) → Traced (Formula α × Bool)
  | 0 => return (f, false)
  | limit + 1 => do
    let g ← f.simplifyPass
    if g == f then return (g, true) else g.simplifyFor limit

/-- How many passes are made at most. -/
def maxPasses : Nat := 256

/-- The simplified formula with the steps of all passes. -/
def simplifyTraced (f : Formula α) : Traced (Formula α) := do
  return (← f.simplifyFor maxPasses).1

/-- The simplified formula. -/
def simplify (f : Formula α) : Formula α := f.simplifyTraced.value

/-- The simplified formula, if a pass changes nothing before `limit` passes are over. -/
def simplifyWithin? (f : Formula α) (limit : Nat) : Option (Formula α) :=
  match (f.simplifyFor limit).value with
  | (g, true) => some g
  | (_, false) => none

/-- The formulas after one, two, … passes, up to the first pass that changes nothing or to
`limit` passes. -/
def stages (f : Formula α) : (limit : Nat) → List (Formula α)
  | 0 => []
  | limit + 1 =>
    let g := f.simplifyOnce
    if g == f then [] else g :: g.stages limit

/-- Whether two formulas simplify to the same one. -/
def isEquivalent (f g : Formula α) : Bool := f.simplify == g.simplify

end Formula
end SymCalc
