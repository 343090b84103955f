import Mathlib
import SymCalc.Proofs.Formula.Leaves
import SymCalc.Proofs.Scalar.Lawful

/-!
# The order of formulas is linear

* `Formula.heads`: the operators and the leaves of a formula, operations before their operands;
* `Formula.IsSorted`: whether a list of formulas is in order.

Formulas are in the order of their heads (`Formula.compareLex_heads`), so the comparison is
transitive. It tells formulas with proper constants apart, so a list of them has one sorted
arrangement (`Formula.sort_eq_of_perm`).
-/

namespace SymCalc

/-- An order transferred along a function. -/
theorem transCmp_on {β γ : Type} (cmp : γ → γ → Ordering) [Std.TransCmp cmp] (f : β → γ) :
    Std.TransCmp fun a b => cmp (f a) (f b) where
  eq_swap := Std.OrientedCmp.eq_swap
  isLE_trans := Std.TransCmp.isLE_trans

/-- Sorting puts a list in order. -/
theorem pairwise_mergeSort_isLE {β : Type} (cmp : β → β → Ordering) [Std.TransCmp cmp]
    (xs : List β) : (xs.mergeSort fun a b => (cmp a b).isLE).Pairwise fun a b => (cmp a b).isLE := by
  refine List.pairwise_mergeSort (fun _ _ _ => Std.TransCmp.isLE_trans) (fun a b => ?_) xs
  have hswap : cmp b a = (cmp a b).swap := Std.OrientedCmp.eq_swap
  rw [hswap]
  cases cmp a b <;> rfl

variable {α : Type} [Scalar α]

/-! ## Heads -/

/-- The operator, the name or the value at the head of a formula. What a formula of its kind does
not have is filled in. -/
structure Head (α : Type) where
  kind : Nat
  rank : Nat
  name : String
  value : α

namespace Head

/-- The order of the values of heads. -/
def compareValues (a b : Head α) : Ordering := Scalar.compare a.value b.value

/-- The order of heads, by kind, operator, name and value. -/
def compare : Head α → Head α → Ordering :=
  compareLex (compareOn kind)
    (compareLex (compareOn rank) (compareLex (compareOn name) compareValues))

theorem compare_mk (k k' r r' : Nat) (x x' : String) (v v' : α) :
    compare ⟨k, r, x, v⟩ ⟨k', r', x', v'⟩ = (Ord.compare k k').then
      ((Ord.compare r r').then ((Ord.compare x x').then (Scalar.compare v v'))) := rfl

variable [LawfulScalar α]

instance : Std.TransCmp (compareValues (α := α)) := transCmp_on Scalar.compare value

instance : Std.TransCmp (compare (α := α)) := by
  unfold compare
  infer_instance

end Head

namespace Formula

/-- The operators and the leaves, operations before their operands. -/
def heads : Formula α → List (Head α)
  | binary op a b => ⟨0, op.rank, "", 0⟩ :: (a.heads ++ b.heads)
  | unary op a => ⟨1, op.rank, "", 0⟩ :: a.heads
  | var x => [⟨2, 0, x, 0⟩]
  | const v => [⟨3, 0, "", v⟩]

theorem compareLists_eq (fs gs : List (Formula α)) :
    compareLists fs gs = List.compareLex compare fs gs := by
  induction fs generalizing gs with
  | nil => cases gs <;> rfl
  | cons f fs ih =>
    cases gs with
    | nil => rfl
    | cons g gs => rw [compareLists, List.compareLex_cons_cons, ih]

variable [LawfulScalar α] {f g : Formula α} {fs gs : List (Formula α)}

/-- The comparison stops at the first heads that differ, or goes on behind both formulas. -/
theorem compareLex_heads_append (f g : Formula α) (xs ys : List (Head α)) :
    List.compareLex Head.compare (f.heads ++ xs) (g.heads ++ ys) =
      (f.compare g).then (List.compareLex Head.compare xs ys) := by
  have hzero : Scalar.compare (0 : α) 0 = .eq := Std.ReflCmp.compare_self
  induction f generalizing g xs ys with
  | const v =>
    cases g with
    | const w => simp [heads, List.compareLex_cons_cons, Head.compare_mk, compare]
    | _ => rfl
  | var x =>
    cases g with
    | var y => simp [heads, List.compareLex_cons_cons, Head.compare_mk, compare, hzero]
    | _ => rfl
  | unary op a ih =>
    cases g with
    | unary op' a' =>
      simp [heads, List.compareLex_cons_cons, Head.compare_mk, compare, hzero, ih,
        Ordering.then_assoc]
    | _ => rfl
  | binary op a b iha ihb =>
    cases g with
    | binary op' a' b' =>
      simp [heads, List.compareLex_cons_cons, Head.compare_mk, compare, hzero, iha, ihb,
        Ordering.then_assoc]
    | _ => rfl

theorem compareLex_heads (f g : Formula α) :
    List.compareLex Head.compare f.heads g.heads = f.compare g := by
  have h := compareLex_heads_append f g [] []
  rwa [List.append_nil, List.append_nil, List.compareLex_nil_nil, Ordering.then_eq] at h

instance : Std.TransCmp (compare (α := α)) where
  eq_swap {f g} := by
    rw [← compareLex_heads, ← compareLex_heads]
    exact Std.OrientedCmp.eq_swap
  isLE_trans {f g h} hfg hgh := by
    rw [← compareLex_heads] at *
    exact Std.TransCmp.isLE_trans hfg hgh

instance : Std.TransCmp (compareLists (α := α)) := by
  have h : compareLists (α := α) = List.compareLex compare := funext₂ compareLists_eq
  rw [h]
  infer_instance

/-! ## Proper formulas -/

/-- Whether all constants of the formula are proper values. -/
def IsProper (f : Formula α) : Prop := f.Forall Scalar.IsProper fun _ => True

theorem IsProper.eq_of_compare (hf : f.IsProper) (hg : g.IsProper) (h : f.compare g = .eq) :
    f = g :=
  Formula.eq_of_compare (fun _ _ hv hw => hv.eq_of_compare hw) hf hg h

/-! ## Sorted lists -/

/-- Whether the formulas are in order. -/
def IsSorted (fs : List (Formula α)) : Prop := fs.Pairwise fun f g => (f.compare g).isLE

theorem isSorted_sort (fs : List (Formula α)) : IsSorted (sort fs) :=
  pairwise_mergeSort_isLE compare fs

omit [LawfulScalar α] in
theorem sort_perm (fs : List (Formula α)) : (sort fs).Perm fs := List.mergeSort_perm ..

omit [LawfulScalar α] in
theorem sort_of_isSorted (h : IsSorted fs) : sort fs = fs := List.mergeSort_of_pairwise h

theorem sort_eq_of_perm (hf : ∀ f ∈ fs, f.IsProper) (h : fs.Perm gs) : sort fs = sort gs := by
  have hperm : (sort fs).Perm (sort gs) :=
    (sort_perm fs).trans (h.trans (sort_perm gs).symm)
  refine hperm.eq_of_pairwise ?_ (isSorted_sort fs) (isSorted_sort gs)
  intro f g hmemf hmemg hfg hgf
  have hf' := hf f ((sort_perm fs).mem_iff.1 hmemf)
  have hg' := hf g (h.mem_iff.2 ((sort_perm gs).mem_iff.1 hmemg))
  exact hf'.eq_of_compare hg' (Std.OrientedCmp.isLE_antisymm hfg hgf)

end Formula
end SymCalc
