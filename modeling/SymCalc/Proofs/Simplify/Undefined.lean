import SymCalc.Proofs.Formula.Constant

/-!
# Undefined results

A pass makes a formula undefined as a whole or not at all: an undefined or infinite constant
anywhere makes the result undefined (`Formula.simplifyOnce_of_not_isFinite`), and a result that is
not undefined has finite constants only (`Formula.simplifyOnce_undefined_or_finite`).
-/

namespace SymCalc
namespace Formula

variable {α : Type} [Scalar α] [LawfulScalar α] {f : Formula α} {v : α}

/-- A constant that is not finite spreads from its place to the whole formula. -/
theorem simplifyOnce_of_not_isFinite (hmem : const v ∈ f.postOrder)
    (hv : Scalar.isFinite v = false) : f.simplifyOnce = undefined := by
  induction f with
  | const w =>
    cases List.mem_singleton.1 hmem
    exact ofValue_of_not_isFinite hv
  | var x => cases List.mem_singleton.1 hmem
  | unary op a ih =>
    have ha : const v ∈ a.postOrder := by simpa [postOrder] using hmem
    rw [simplifyOnce_unary, ih ha, isUndefined_undefined, if_pos rfl]
  | binary op a b iha ihb =>
    have hab : const v ∈ a.postOrder ∨ const v ∈ b.postOrder := by simpa [postOrder] using hmem
    rw [simplifyOnce_binary]
    rcases hab with ha | hb
    · rw [iha ha, isUndefined_undefined, Bool.true_or, if_pos rfl]
    · rw [ihb hb, isUndefined_undefined, Bool.or_true, if_pos rfl]

/-- The result of a pass is undefined, or all its constants are finite and none is the negative
zero. It is undefined if any constant of the formula is undefined or infinite. -/
theorem simplifyOnce_undefined_or_finite (f : Formula Float) :
    (f.simplifyOnce = undefined ∨
      ∀ v, const v ∈ f.simplifyOnce.postOrder → v.isFinite ∧ v ≠ -0) ∧
    ((∃ v, const v ∈ f.postOrder ∧ v.isFinite = false) → f.simplifyOnce = undefined) := by
  refine ⟨?_, fun ⟨v, hmem, hv⟩ => simplifyOnce_of_not_isFinite hmem hv⟩
  have hf : f.Forall (fun _ => True) fun _ => True := forall_iff_postOrder.2 fun _ _ => trivial
  exact (hf.simplifyOnce Double.isClosed_finite).imp_right forall_iff_postOrder.1

/-- An infinite constant inside a function of a sum. -/
theorem simplifyOnce_undefined_or_finite_cos :
    (unary .cos (var "x" + const (1 / 0)) * var "y" : Formula Float).simplifyOnce = undefined :=
  (simplifyOnce_undefined_or_finite _).2
    ⟨1 / 0, by simp [postOrder, add_eq], by decide⟩

end Formula
end SymCalc
