import SymCalc.Simplify.AngleSum

/-! # The normal form of a sum

* `Formula.signedTerms`: the terms of a chain of sums, differences and negations;
* `combineLikeTerms`: terms with the same factors become one;
* `mergeLogarithms`: all logarithms become one;
* `assemble`: the sum of terms, with the constant first and the negative terms last;
* `Formula.normalizeSum`: all of this and the sums of angles. -/

namespace SymCalc

variable {α : Type}

/-- The terms of a chain of sums, differences and negations, from left to right, each with whether
it is subtracted. -/
def Formula.signedTerms : Formula α → (negative : Bool) → List (Bool × Formula α)
  | binary .add a b, negative => a.signedTerms negative ++ b.signedTerms negative
  | binary .sub a b, negative => a.signedTerms negative ++ b.signedTerms (!negative)
  | unary .negate a, negative => a.signedTerms (!negative)
  | f, negative => [(negative, f)]

variable [Scalar α]

/-- The monomial of a term that is subtracted if `negative`. -/
def Monomial.ofTerm? (term : Bool × Formula α) : Option (Monomial α) :=
  (of? term.2).map fun m => if term.1 then m.negated else m

/-! ## Like terms -/

/-- Which of two terms comes first, by their factors alone. -/
def Monomial.compareFactors (a b : Monomial α) : Ordering :=
  (Formula.compareLists a.numer b.numer).then (Formula.compareLists a.denom b.denom)

/-- The sum of `term` and of terms in order, in which terms with the same factors are added up. -/
def addLikeTerms (term : Monomial α) : List (Monomial α) → Traced (List (Monomial α))
  | [] => return [term]
  | t :: ts =>
    if term.compareFactors t == .eq then do
      .emit .combineLikeTerms
      addLikeTerms { term with coeff := term.coeff + t.coeff } ts
    else do
      return term :: (← addLikeTerms t ts)

/-- `5*a-2*a = 3*a`. Terms that become zero are left out. -/
def combineLikeTerms (terms : List (Monomial α)) : Traced (List (Monomial α)) :=
  match terms.mergeSort fun a b => (a.compareFactors b).isLE with
  | [] => return []
  | t :: ts => do
    return (← addLikeTerms t ts).filter fun m => !(m.coeff == 0)

/-! ## Logarithms -/

/-- The argument of the logarithm, if the term is one or the negation of one. -/
def Monomial.logArgument? (m : Monomial α) : Option (Formula α) :=
  match m.numer, m.denom with
  | [.unary .ln a], [] => if Scalar.magnitude m.coeff == 1 then some a else none
  | _, _ => none

/-- The logarithm for the difference of the logarithms of `added` and of `subtracted`. -/
def mergedLogarithm (added subtracted : List (Formula α)) : Monomial α :=
  match added, subtracted with
  | [], fs => ⟨-1, [.unary .ln (.product fs)], []⟩
  | fs, [] => ⟨1, [.unary .ln (.product fs)], []⟩
  | fs, gs => ⟨1, [.unary .ln (.product fs / .product gs)], []⟩

/-- `ln(a)+ln(b) = ln(a*b)` and `ln(a)-ln(b) = ln(a/b)`. -/
def mergeLogarithms (terms : List (Monomial α)) : Traced (List (Monomial α)) :=
  let (logs, rest) := terms.partition (·.logArgument?.isSome)
  if logs.length < 2 then return terms
  else do
    .emit .mergeLogarithms
    let (added, subtracted) := logs.partition fun m => Scalar.lt 0 m.coeff
    return rest ++ [mergedLogarithm (added.filterMap Monomial.logArgument?)
      (subtracted.filterMap Monomial.logArgument?)]

/-! ## The normal form -/

/-- The sum of positive terms and of the opposites of the terms `negative`, which are given by
their magnitudes and by themselves. -/
def subtractAll (positive : List (Formula α)) (negative : List (Formula α × Formula α)) :
    Formula α :=
  match positive, negative with
  | [], [] => .const 0
  | [], [(_, term)] => term
  | [], terms => -.sum (terms.map (·.1))
  | fs, terms => terms.foldl (fun f term => f - term.1) (.sum fs)

/-- The sum of a constant and terms. First come the positive terms in order, then the others are
subtracted in order; a constant comes before the terms of its sign. -/
def assemble (constant : α) (terms : List (Monomial α)) : Formula α :=
  let positive := (terms.filter fun m => Scalar.lt 0 m.coeff).map Monomial.toFormula
  let negative := (terms.filter fun m => Scalar.lt m.coeff 0).map fun m =>
    (m.negated.toFormula, m.toFormula)
  let positive := Formula.sort positive
  let negative := negative.mergeSort fun a b => (a.1.compare b.1).isLE
  if Scalar.lt 0 constant then subtractAll (.ofValue constant :: positive) negative
  else if Scalar.lt constant 0 then
    subtractAll positive ((.ofValue (-constant), .ofValue constant) :: negative)
  else subtractAll positive negative

/-- The normal form of a sum, difference or negated sum whose operands are in normal form. -/
def Formula.normalizeSum (f : Formula α) : Traced (Formula α) :=
  match (f.signedTerms false).mapM Monomial.ofTerm? with
  | none => do
    .emit .undefined
    return undefined
  | some monomials => do
    let (constants, terms) := monomials.partition Monomial.isConstant
    let constant := constants.foldl (fun v m => v + m.coeff) 0
    .emitIf (1 < constants.length) .foldConstants
    let terms ← combineLikeTerms (terms.map Monomial.sorted)
    let terms ← mergeLogarithms terms
    let terms ← mergeAngleSums terms
    if Scalar.isFinite constant && terms.all (Scalar.isFinite ·.coeff) then
      return assemble constant terms
    else
      .emit .undefined
      return undefined

end SymCalc
