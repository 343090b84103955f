import SymCalc.Simplify.Monomial
import SymCalc.Simplify.Step

/-! # The normal form of a product

* `Monomial.cancelFactors`: factors that stand above and below the fraction bar cancel;
* `Monomial.tangentQuotients`: quotients of sine and cosine become tangents;
* `Monomial.mergeExponentials`: all exponentials become one;
* `Formula.normalizeProduct`: all of this, and then the factors in order. -/

namespace SymCalc

variable {α : Type} [Scalar α]

/-! ## Cancelling -/

/-- What is left of a numerator and a denominator when every factor of the numerator has cancelled
the first factor of the denominator that is the same. -/
def cancel : (numer denom : List (Formula α)) → List (Formula α) × List (Formula α)
  | [], denom => ([], denom)
  | f :: numer, denom =>
    match eraseFirst? f.isSame denom with
    | some denom => cancel numer denom
    | none =>
      let (numer, denom) := cancel numer denom
      (f :: numer, denom)

/-- `(a*b)/(b*c) = a/c`. -/
def Monomial.cancelFactors (m : Monomial α) : Traced (Monomial α) := do
  let (numer, denom) := cancel m.numer m.denom
  .emitIf (numer.length < m.numer.length) .cancelFactors
  return { m with numer, denom }

/-! ## Tangents -/

/-- Whether the formula is `op` of an argument that is the same as `a`. -/
def Formula.isFunctionOf (op : UnaryOp) (a : Formula α) : Formula α → Bool
  | unary op' a' => op' = op && a'.isSame a
  | _ => false

/-- The numerator and the denominator after every sine of the numerator has been combined with a
cosine of the same argument in the denominator, and every cosine with a sine. The tangents come
last, those of the numerator after `tangents`. -/
def combineTangents :
    (numer denom tangents : List (Formula α)) → Traced (List (Formula α) × List (Formula α))
  | [], denom, tangents => return (tangents, denom)
  | .unary .sin a :: numer, denom, tangents =>
    match eraseFirst? (Formula.isFunctionOf .cos a) denom with
    | some denom => do
      .emit .tangentQuotient
      combineTangents numer denom (tangents ++ [.unary .tan a])
    | none => do
      let (numer, denom) ← combineTangents numer denom tangents
      return (.unary .sin a :: numer, denom)
  | .unary .cos a :: numer, denom, tangents =>
    match eraseFirst? (Formula.isFunctionOf .sin a) denom with
    | some denom => do
      .emit .tangentQuotient
      combineTangents numer (denom ++ [.unary .tan a]) tangents
    | none => do
      let (numer, denom) ← combineTangents numer denom tangents
      return (.unary .cos a :: numer, denom)
  | f :: numer, denom, tangents => do
    let (numer, denom) ← combineTangents numer denom tangents
    return (f :: numer, denom)

/-- `sin(a)/cos(a) = tan(a)` and `cos(a)/sin(a) = 1/tan(a)`. -/
def Monomial.tangentQuotients (m : Monomial α) : Traced (Monomial α) := do
  let (numer, denom) ← combineTangents m.numer m.denom []
  return { m with numer, denom }

/-! ## Exponentials -/

/-- The argument of an exponential. -/
def Formula.exponent? : Formula α → Option (Formula α)
  | unary .exp a => some a
  | _ => none

/-- The factors that are not exponentials. -/
def withoutExponentials (fs : List (Formula α)) : List (Formula α) :=
  fs.filter (·.exponent?.isNone)

/-- The exponent of the only exponential of a product, with the exponents `added` from the
numerator and `subtracted` from the denominator. -/
def mergedExponent (added subtracted : List (Formula α)) : Formula α :=
  match added with
  | [] => -.sum subtracted
  | fs => subtracted.foldl (· - ·) (.sum fs)

/-- `exp(a)*exp(b) = exp(a+b)` and `exp(a)/exp(b) = exp(a-b)`. -/
def Monomial.mergeExponentials (m : Monomial α) : Traced (Monomial α) :=
  let added := m.numer.filterMap Formula.exponent?
  let subtracted := m.denom.filterMap Formula.exponent?
  if added.length + subtracted.length < 2 then return m
  else do
    .emit .mergeExponentials
    return { m with
      numer := withoutExponentials m.numer ++ [.unary .exp (mergedExponent added subtracted)]
      denom := withoutExponentials m.denom }

/-! ## The normal form -/

/-- The normal form of a product, quotient or negation whose operands are in normal form. -/
def Formula.normalizeProduct (f : Formula α) : Traced (Formula α) :=
  let ps := f.pieces false
  match Monomial.ofPieces? ps with
  | none => do
    .emit .undefined
    return undefined
  | some m => do
    .emitIf (1 < ps.countP Piece.isConst) .foldConstants
    if m.coeff == 0 then
      .emit .multiplyZero
      return const 0
    else
      let m ← m.cancelFactors
      let m ← m.tangentQuotients
      let m ← m.mergeExponentials
      return m.sorted.toFormula

end SymCalc
