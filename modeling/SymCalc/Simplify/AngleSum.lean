import SymCalc.Simplify.Monomial
import SymCalc.Simplify.Step

/-! # Sums of angles

* `angleSum?`: two terms of a sum as one sine or cosine;
* `firstMerge?`: the first two terms of a sum for which this is possible;
* `mergeAngleSums`: a sum in which it is possible for no two terms. -/

namespace SymCalc

variable {α : Type} [Scalar α]

/-- The argument of the function `op`. -/
def Formula.argument? (op : UnaryOp) : Formula α → Option (Formula α)
  | unary op' a => if op' = op then some a else none
  | _ => none

/-- The arguments of a product of exactly two functions, `f` and `g`. -/
def Monomial.functionPair? (m : Monomial α) (f g : UnaryOp) :
    Option (Formula α × Formula α) :=
  match m.numer, m.denom with
  | [a, b], [] => do return (← a.argument? f, ← b.argument? g)
  | _, _ => none

/-- The cosine that the terms make:
`k*cos(x)*cos(y) + k*sin(x)*sin(y) = k*cos(x-y)` and
`k*cos(x)*cos(y) - k*sin(x)*sin(y) = k*cos(x+y)`. -/
def cosineSum? (a b : Monomial α) : Option (Formula α) := do
  let (x, y) ← a.functionPair? .cos .cos
  let (u, v) ← b.functionPair? .sin .sin
  guard (x == u && y == v)
  return .unary .cos (if a.coeff == b.coeff then x - y else x + y)

/-- The sine that the terms make:
`k*cos(q)*sin(p) + k*cos(p)*sin(q) = k*sin(p+q)` and
`k*cos(q)*sin(p) - k*cos(p)*sin(q) = k*sin(p-q)`. -/
def sineSum? (a b : Monomial α) : Option (Formula α) := do
  let (q, p) ← a.functionPair? .cos .sin
  let (p', q') ← b.functionPair? .cos .sin
  guard (p == p' && q == q' && !(p == q))
  return .unary .sin (if a.coeff == b.coeff then p + q else p - q)

/-- The single term for two terms whose coefficients differ at most in sign, if they are the two
sides of a sum of angles. The factors of both terms have to be in order. -/
def angleSum? (a b : Monomial α) : Option (Monomial α × Step) :=
  if Scalar.magnitude a.coeff == Scalar.magnitude b.coeff then
    match cosineSum? a b, sineSum? a b with
    | some f, _ => some (⟨a.coeff, [f], []⟩, .cosineAngleSum)
    | none, some f => some (⟨a.coeff, [f], []⟩, .sineAngleSum)
    | none, none => none
  else none

/-- Two terms have been replaced by one: the new term, the step, and the other terms. -/
structure Merge (α : Type) where
  term : Monomial α
  step : Step
  others : List (Monomial α)

/-- Merges `a` with the first of the terms for which this is possible. -/
def mergeWith? (a : Monomial α) : List (Monomial α) → Option (Merge α)
  | [] => none
  | b :: terms =>
    match angleSum? a b with
    | some (term, step) => some ⟨term, step, terms⟩
    | none => (mergeWith? a terms).map fun m => { m with others := b :: m.others }

/-- Merges the first of the terms for which this is possible with any other term. `before` are the
terms that have been tried. -/
def firstMerge? (before : List (Monomial α)) : List (Monomial α) → Option (Merge α)
  | [] => none
  | a :: terms =>
    match mergeWith? a (before ++ terms) with
    | some m => some m
    | none => firstMerge? (before ++ [a]) terms

theorem length_others_of_mergeWith? {a : Monomial α} {terms : List (Monomial α)} {m : Merge α}
    (h : mergeWith? a terms = some m) : m.others.length + 1 = terms.length := by
  induction terms generalizing m with
  | nil => cases h
  | cons b terms ih =>
    rw [mergeWith?] at h
    split at h
    · cases h
      rfl
    · obtain ⟨m', h', rfl⟩ := Option.map_eq_some_iff.1 h
      simpa using ih h'

theorem length_others_of_firstMerge? {before terms : List (Monomial α)} {m : Merge α}
    (h : firstMerge? before terms = some m) :
    m.others.length + 2 = before.length + terms.length := by
  induction terms generalizing before with
  | nil => cases h
  | cons a terms ih =>
    rw [firstMerge?] at h
    split at h
    · next h' =>
      cases h
      have := length_others_of_mergeWith? h'
      simp only [List.length_append, List.length_cons] at *
      omega
    · have := ih h
      simp only [List.length_append, List.length_cons, List.length_nil] at *
      omega

/-- The terms of a sum after pairs of them have been merged as long as there are any. A new term
comes last. -/
def mergeAngleSums (terms : List (Monomial α)) : Traced (List (Monomial α)) :=
  match h : firstMerge? [] terms with
  | none => return terms
  | some m =>
    have := length_others_of_firstMerge? h
    do
      .emit m.step
      mergeAngleSums (m.others ++ [m.term])
termination_by terms.length
decreasing_by
  simp only [List.length_append, List.length_cons, List.length_nil] at *
  omega

end SymCalc
