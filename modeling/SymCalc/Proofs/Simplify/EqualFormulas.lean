import SymCalc.Proofs.Formula.Rearrangement
import SymCalc.Proofs.Simplify.Shape

/-!
# Simplifying equal formulas

Formulas that are equal for `==` have constants that may differ in the sign of a zero or in what is
no number. The first pass removes these differences, since `Formula.ofValue` does
(`Formula.simplifyPass_congr`). So equal formulas take the same steps to the same formula, and
whether a formula is the same as another one does not depend on them either.
-/

namespace SymCalc
namespace Formula

variable {α : Type} [Scalar α] [LawfulScalar α] {f g h : Formula α}

/-- A pass does the same to equal formulas. -/
theorem simplifyPass_congr (hfg : f == g) : f.simplifyPass = g.simplifyPass := by
  rw [beq_iff] at hfg
  induction f generalizing g with
  | const v =>
    cases g with
    | const w => exact congrArg pure (ofValue_eq_of_compare hfg)
    | _ => cases hfg
  | var x =>
    cases g with
    | var y => rw [compare_var_eq_iff.1 hfg]
    | _ => cases hfg
  | unary op a ih =>
    cases g with
    | unary op' a' =>
      obtain ⟨rfl, ha⟩ := compare_unary_eq_iff.1 hfg
      rw [simplifyPass, simplifyPass, ih ha]
    | _ => cases hfg
  | binary op a b iha ihb =>
    cases g with
    | binary op' a' b' =>
      obtain ⟨rfl, ha, hb⟩ := compare_binary_eq_iff.1 hfg
      rw [simplifyPass, simplifyPass, iha ha, ihb hb]
    | _ => cases hfg

/-- At least one pass makes equal formulas the same, with the same steps. -/
theorem simplifyFor_congr (hfg : f == g) (limit : Nat) :
    f.simplifyFor (limit + 1) = g.simplifyFor (limit + 1) := by
  rw [simplifyFor, simplifyFor, simplifyPass_congr hfg]
  simp only [BEq.congr_right hfg]

theorem simplifyTraced_congr (hfg : f == g) : f.simplifyTraced = g.simplifyTraced := by
  rw [simplifyTraced, simplifyTraced, maxPasses, simplifyFor_congr hfg]

theorem isSame_congr_left (hfg : f == g) : f.isSame h = g.isSame h := by
  have hr : Rearranged f g := .of_compare (beq_iff.1 hfg)
  rw [Bool.eq_iff_iff, isSame_iff, isSame_iff]
  exact ⟨hr.symm.trans, hr.trans⟩

theorem isSame_congr_right (hfg : f == g) : h.isSame f = h.isSame g := by
  have hr : Rearranged f g := .of_compare (beq_iff.1 hfg)
  rw [Bool.eq_iff_iff, isSame_iff, isSame_iff]
  exact ⟨(·.trans hr), (·.trans hr.symm)⟩

/-! ## Main statement -/

variable (α) in
/-- The order of formulas is total for all constants, and it tells formulas apart unless they are
the same tree with the same values. So the order of a list does not matter for sorting it, and it
does not matter for simplifying or matching which of equal formulas is given. -/
theorem compare_total :
    (∀ f g : Formula α, g.compare f = (f.compare g).swap) ∧
    (∀ f g h : Formula α, (f.compare g).isLE → (g.compare h).isLE → (f.compare h).isLE) ∧
    (∀ f g : Formula α, f.compare g = .eq ↔ f.Forall₂ Scalar.SameValue g) ∧
    (∀ fs gs : List (Formula α), fs.Perm gs → List.Forall₂ (· == ·) (sort fs) (sort gs)) ∧
    ∀ f g : Formula α, f == g → f.simplifyOnce = g.simplifyOnce ∧ f.simplify = g.simplify ∧
      f.simplifyTraced = g.simplifyTraced ∧
      ∀ h : Formula α, f.isSame h = g.isSame h ∧ h.isSame f = h.isSame g :=
  ⟨fun _ _ => Std.OrientedCmp.eq_swap, fun _ _ _ => Std.TransCmp.isLE_trans,
    fun _ _ => compare_eq_iff, fun _ _ => forall₂_sort_of_perm,
    fun _ _ h => ⟨congrArg Traced.value (simplifyPass_congr h),
      congrArg Traced.value (simplifyTraced_congr h), simplifyTraced_congr h,
      fun _ => ⟨isSame_congr_left h, isSame_congr_right h⟩⟩⟩

/-- `cos(-0)+x` is simplified as `cos(0)+x` is, `x` comes before what is no number since it comes
before an infinite value, and the order of two zeros in a list does not matter. -/
theorem compare_total_zero :
    (.unary .cos (.const (-0)) + .var "x" : Formula Float).simplifyOnce =
      (.unary .cos (.const 0) + .var "x" : Formula Float).simplifyOnce ∧
    ((.var "x" : Formula Float).compare undefined).isLE ∧
    List.Forall₂ (· == ·) (sort [undefined, .const (1 / 0), .var "x", .const (-0), .const 0])
      (sort [.const 0, .const (-0), .var "x", .const (1 / 0), (undefined : Formula Float)]) := by
  obtain ⟨-, htrans, heq, hsort, hcongr⟩ := compare_total Float
  refine ⟨(hcongr _ _ (beq_iff.2 ((heq _ _).2 ?_))).1, ?_, hsort _ _ ?_⟩
  · exact ⟨rfl, ⟨rfl, .inr (.inl (by decide))⟩, rfl⟩
  · exact htrans _ (.const (1 / 0)) _ (by decide) (by decide)
  · exact (List.reverse_perm _).symm

end Formula
end SymCalc
