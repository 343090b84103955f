import SymCalc.Formula.Chain

/-! # Monomials

* `Monomial`: a coefficient times the factors of a numerator over those of a denominator;
* `Formula.pieces`: the factors and signs of a chain of products, quotients and negations, from
  left to right;
* `Monomial.of?`: the monomial that such a chain stands for, with its constants multiplied into
  the coefficient;
* `Monomial.toFormula`: the chain for a monomial. -/

namespace SymCalc

/-- The product `coeff * numer / denom`. -/
structure Monomial (α : Type) where
  coeff : α
  numer : List (Formula α)
  denom : List (Formula α)

/-- A part of a chain of products: a change of sign, or a constant or another factor, which is a
divisor if `below`. -/
inductive Piece (α : Type) where
  | negation
  | const (value : α) (below : Bool)
  | factor (f : Formula α) (below : Bool)

namespace Piece

variable {α : Type}

/-- Whether the piece is a constant. -/
def isConst : Piece α → Bool
  | const _ _ => true
  | _ => false

/-- The factor that the piece adds to the numerator, or to the denominator if `below`. -/
def factor? (below : Bool) : Piece α → Option (Formula α)
  | factor f b => if b = below then some f else none
  | _ => none

variable [Scalar α]

/-- The product of the constants of the numerator so far, after one more piece. -/
def above (v : α) : Piece α → α
  | negation => -v
  | const w false => v * w
  | _ => v

/-- The product of the constants of the denominator so far, after one more piece. -/
def under (v : α) : Piece α → α
  | const w true => v * w
  | _ => v

end Piece

/-- The pieces of a chain of products, quotients and negations, all of it a divisor if `below`. -/
def Formula.pieces {α : Type} : Formula α → (below : Bool) → List (Piece α)
  | binary .mul a b, below => a.pieces below ++ b.pieces below
  | binary .div a b, below => a.pieces below ++ b.pieces (!below)
  | unary .negate a, below => .negation :: a.pieces below
  | const v, below => [.const v below]
  | f, below => [.factor f below]

namespace Monomial

variable {α : Type}

/-- Whether the monomial has no factors but its coefficient. -/
def isConstant (m : Monomial α) : Bool := m.numer.isEmpty && m.denom.isEmpty

variable [Scalar α]

/-- The monomial made of pieces, if its coefficient is a finite number. -/
def ofPieces? (ps : List (Piece α)) : Option (Monomial α) :=
  let divisor := ps.foldl Piece.under 1
  if divisor == 0 then none
  else
    let coeff := ps.foldl Piece.above 1 / divisor
    if Scalar.isFinite coeff then
      some ⟨coeff, ps.filterMap (·.factor? false), ps.filterMap (·.factor? true)⟩
    else none

/-- The monomial that a chain of products stands for, without rewriting any factor. There is none
if the coefficient has no finite value. -/
def of? (f : Formula α) : Option (Monomial α) := ofPieces? (f.pieces false)

/-- The monomial with the opposite sign. -/
def negated (m : Monomial α) : Monomial α := { m with coeff := -m.coeff }

/-- The monomial with its factors in order. -/
def sorted (m : Monomial α) : Monomial α :=
  { m with numer := Formula.sort m.numer, denom := Formula.sort m.denom }

/-- The numerator, which does not show a coefficient of one. -/
def numerator (m : Monomial α) : Formula α :=
  match m.numer with
  | [] => .ofValue m.coeff
  | fs =>
    if m.coeff == 1 then .product fs
    else if m.coeff == -1 then -.product fs
    else .product (.ofValue m.coeff :: fs)

/-- The formula for the monomial, with the factors in the order in which they are stored. -/
def toFormula (m : Monomial α) : Formula α :=
  match m.denom with
  | [] => m.numerator
  | fs => m.numerator / .product fs

end Monomial
end SymCalc
