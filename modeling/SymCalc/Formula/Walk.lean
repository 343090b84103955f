import SymCalc.Formula

/-! # Walking through a formula

* `Occurrence`: a part of a formula at its place, so that equal parts at two places differ;
* `Walk`: a walk through all occurrences of parts, operands before the operations on them;
* `Walk.next?`: the next part on the walk;
* `Walk.take`: the first parts on the walk. -/

namespace SymCalc

/-- Which operand to go to at every step from a part up to the whole formula: 0 for the first and
1 for the second one. -/
abbrev Place := List Nat

/-- A part of a formula and where it stands. -/
structure Occurrence (α : Type) where
  place : Place
  formula : Formula α

/-- A walk: the occurrences that have been entered but not left, the innermost first, and the place
of the one left last. -/
structure Walk (α : Type) where
  pending : List (Occurrence α)
  last? : Option Place

namespace Walk

variable {α : Type}

/-- The start of the walk through a formula. -/
def ofFormula (f : Formula α) : Walk α := ⟨[⟨[], f⟩], none⟩

/-- The first part to leave on a walk that has come to `f`, and the walk after it. An operation is
left if its last operand has just been left; otherwise its operands come before it. -/
def descend (last? : Option Place) (place : Place) :
    Formula α → List (Occurrence α) → Formula α × Walk α
  | .const v, above => (.const v, ⟨above, some place⟩)
  | .var x, above => (.var x, ⟨above, some place⟩)
  | .unary op a, above =>
    if last? = some (0 :: place) then (.unary op a, ⟨above, some place⟩)
    else descend last? (0 :: place) a (⟨place, .unary op a⟩ :: above)
  | .binary op a b, above =>
    if last? = some (1 :: place) then (.binary op a b, ⟨above, some place⟩)
    else descend last? (0 :: place) a (⟨1 :: place, b⟩ :: ⟨place, .binary op a b⟩ :: above)

/-- The next part on the walk and the walk after it. -/
def next? (w : Walk α) : Option (Formula α × Walk α) :=
  match w.pending with
  | [] => none
  | o :: above => some (descend w.last? o.place o.formula above)

/-- The next `n` parts on the walk, or all of them if there are fewer. -/
def take : Nat → Walk α → List (Formula α)
  | 0, _ => []
  | n + 1, w =>
    match w.next? with
    | none => []
    | some (f, w) => f :: w.take n

end Walk
end SymCalc
