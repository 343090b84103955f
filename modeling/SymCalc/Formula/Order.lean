import SymCalc.Formula

/-! # The order of formulas

* `Formula.compare`: operations with two operands come first, then those with one, then variables,
  then constants; formulas of one kind are compared by operator and then by operands from left to
  right;
* `f == g` holds if neither comes first: if they differ at most in the sign of a zero;
* `Formula.sort`: a list of formulas in this order. -/

namespace SymCalc
namespace Formula

variable {α : Type} [Scalar α]

/-- The place of the kind of a formula in the order. -/
def kindRank : Formula α → Nat
  | binary .. => 0
  | unary .. => 1
  | var _ => 2
  | const _ => 3

/-- Which of two formulas comes first. -/
def compare : Formula α → Formula α → Ordering
  | binary op a b, binary op' a' b' =>
    (Ord.compare op.rank op'.rank).then ((compare a a').then (compare b b'))
  | unary op a, unary op' a' => (Ord.compare op.rank op'.rank).then (compare a a')
  | var x, var y => Ord.compare x y
  | const v, const w => Scalar.compare v w
  | f, g => Ord.compare f.kindRank g.kindRank

instance : Ord (Formula α) := ⟨compare⟩

instance : BEq (Formula α) := ⟨fun f g => f.compare g == .eq⟩

/-- Whether `f` comes strictly before `g`. -/
def isBefore (f g : Formula α) : Bool := f.compare g == .lt

/-- The formulas in order. Formulas that are equal keep their places. -/
def sort (fs : List (Formula α)) : List (Formula α) :=
  fs.mergeSort fun f g => (f.compare g).isLE

/-- Which of two lists comes first, by the first place where they differ; a shorter list comes
before its extensions. -/
def compareLists : List (Formula α) → List (Formula α) → Ordering
  | [], [] => .eq
  | [], _ :: _ => .lt
  | _ :: _, [] => .gt
  | f :: fs, g :: gs => (f.compare g).then (compareLists fs gs)

end Formula
end SymCalc
