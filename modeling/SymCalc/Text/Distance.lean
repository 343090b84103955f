/-! # Edit distance

* `editDistance`: the least number of insertions, deletions and replacements of single
  characters that turn one text into another, computed row by row;
* `isSimilar`: at most one such edit apart. -/

namespace SymCalc

/-- The remaining entries of a row of distances. `diagonal` and `left` are the distances above
and before the last entry written, and `above` is the rest of the previous row. -/
def editRowFrom (x : Char) (diagonal left : Nat) : List Char → List Nat → List Nat
  | y :: ys, up :: above =>
    let entry := min (min (up + 1) (left + 1)) (if x = y then diagonal else diagonal + 1)
    entry :: editRowFrom x up entry ys above
  | _, _ => []

/-- The distances from one more character of the source, `x`, to every initial part of `ys`. -/
def editRow (ys : List Char) (row : List Nat) (x : Char) : List Nat :=
  match row with
  | [] => []
  | first :: above => (first + 1) :: editRowFrom x first (first + 1) ys above

/-- The least number of edits of single characters that turn `xs` into `ys`. -/
def editDistance (xs ys : List Char) : Nat :=
  (xs.foldl (editRow ys) (List.range (ys.length + 1))).getLastD 0

/-- Two names that are at most one edit apart. -/
def isSimilar (a b : String) : Bool := editDistance a.toList b.toList < 2

end SymCalc
