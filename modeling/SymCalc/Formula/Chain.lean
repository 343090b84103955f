import SymCalc.Formula.Order

/-! # Equality up to the order of operands

* `Formula.operands`: the operands of a chain of one operation;
* `Formula.isSame`: whether two formulas are equal up to grouping and order in chains of sums and
  in chains of products, at any depth.

Both are cheap: nothing is simplified. -/

namespace SymCalc

/-- The list without the first element that satisfies `p`, if there is such an element. -/
def eraseFirst? {β : Type} (p : β → Bool) : List β → Option (List β)
  | [] => none
  | x :: xs => if p x then some xs else (eraseFirst? p xs).map (x :: ·)

namespace Formula

section
variable {α : Type}

/-- The operands of a chain of the operation `op`, from left to right. -/
def operands (op : ArithOp) : Formula α → List (Formula α)
  | binary op' a b => if op' = op then a.operands op ++ b.operands op else [binary op' a b]
  | f => [f]

theorem size_le_of_mem_operands {op : ArithOp} {f g : Formula α} (h : g ∈ f.operands op) :
    g.size ≤ f.size := by
  induction f with
  | const _ | var _ | unary _ _ _ => simp_all [operands]
  | binary op' a b iha ihb =>
    rw [operands] at h
    split at h
    · rcases List.mem_append.1 h with h | h
      · have := iha h
        simp only [size]
        omega
      · have := ihb h
        simp only [size]
        omega
    · simp_all

/-- The operands of an operation are smaller than the chain that it heads. -/
theorem size_lt_of_mem_operands {op : ArithOp} {a b g : Formula α}
    (h : g ∈ a.operands op ++ b.operands op) : g.size < (binary op a b).size := by
  rcases List.mem_append.1 h with h | h
  · have := size_le_of_mem_operands h
    simp only [size]
    omega
  · have := size_le_of_mem_operands h
    simp only [size]
    omega

end

variable {α : Type} [Scalar α]

/-- Whether two formulas are equal up to grouping and order in chains of sums and of products. The
operands on the left are matched one after another with the first operand on the right that is left
and is the same. -/
def isSame (f g : Formula α) : Bool :=
  f == g ||
    match f, g with
    | binary op a b, binary op' a' b' =>
      if op = op' then
        if op.isCommutative then
          let lhs := a.operands op ++ b.operands op
          let rhs := a'.operands op ++ b'.operands op
          lhs.length = rhs.length &&
            (lhs.attach.foldlM (fun rest x => eraseFirst? (isSame x.1) rest) rhs).isSome
        else a.isSame a' && b.isSame b'
      else false
    | unary op a, unary op' a' => op = op' && a.isSame a'
    | _, _ => false
termination_by f.size
decreasing_by
  · exact size_lt_of_mem_operands x.2
  all_goals simp only [size]; omega

end Formula
end SymCalc
