import Mathlib
import SymCalc.Proofs.Scalar.Exact
import SymCalc.Proofs.Scalar.Lawful

/-!
# Laws of exact constants

Exact constants satisfy the laws that hold in spite of rounding. Their order is the one of the real
numbers, with what is no number at the top (`Exact.compare_eq`).
-/

namespace SymCalc
namespace Exact

/-- The number, and the top element if there is none. -/
def toWithTop : Exact → WithTop ℝ
  | number x => x
  | undefined => ⊤

variable {v v' w w' : Exact}

theorem compare_eq (v w : Exact) : Scalar.compare v w = Ord.compare v.toWithTop w.toWithTop := by
  cases v with
  | undefined =>
    cases w with
    | undefined => exact (compare_eq_iff_eq.2 rfl).symm
    | number y => exact (compare_gt_iff_gt.2 (WithTop.coe_lt_top y)).symm
  | number x =>
    cases w with
    | undefined => exact (compare_lt_iff_lt.2 (WithTop.coe_lt_top x)).symm
    | number y =>
      have hcompare : Scalar.compare (number x) (number y) =
          if Scalar.lt (number x) (number y) then .lt
          else if number x == number y then .eq else .gt := rfl
      simp only [hcompare, lt_number, beq_number, toWithTop]
      rcases lt_trichotomy x y with h | h | h
      · rw [if_pos h, compare_lt_iff_lt.2 (WithTop.coe_lt_coe.2 h)]
      · rw [if_neg h.not_lt, if_pos h, compare_eq_iff_eq.2 (congrArg _ h)]
      · rw [if_neg h.not_gt, if_neg h.ne', compare_gt_iff_gt.2 (WithTop.coe_lt_coe.2 h)]

theorem beq_iff : v == w ↔ v = w ∧ v.isNumber := by
  constructor
  · intro h
    have hvw := eq_of_beq h
    subst hvw
    cases v with
    | number x => exact ⟨rfl, rfl⟩
    | undefined => cases h
  · rintro ⟨rfl, h⟩
    cases v with
    | number x => exact beq_number.2 rfl
    | undefined => cases h

theorem congr_of_beq {f : Exact → Exact → Exact} (hv : v == v') (hw : w == w') :
    Scalar.Agree (f v w) (f v' w') := by
  rw [eq_of_beq hv, eq_of_beq hw]
  refine ⟨rfl, fun h => beq_iff.2 ⟨rfl, h⟩⟩

instance : LawfulScalar Exact where
  isNumber_of_isFinite h := h
  isNumber_undefined := rfl
  isFinite_zero := rfl
  isFinite_one := rfl
  isFinite_pi := rfl
  isFinite_euler := rfl
  isFinite_neg v := by cases v <;> rfl
  beq_self h := beq_iff.2 ⟨rfl, h⟩
  beq_comm v w := by
    rw [Bool.eq_iff_iff, beq_iff, beq_iff]
    exact ⟨fun ⟨h, hv⟩ => ⟨h.symm, h ▸ hv⟩, fun ⟨h, hv⟩ => ⟨h.symm, h ▸ hv⟩⟩
  eq_or_zero_of_beq h := .inl (eq_of_beq h)
  transCmp :=
    { eq_swap := by
        intro v w
        rw [compare_eq, compare_eq]
        exact Std.OrientedCmp.eq_swap
      isLE_trans := by
        intro u v w
        simp only [compare_eq]
        exact Std.TransCmp.isLE_trans }
  zero_lt_one := lt_number.2 one_pos
  zero_lt_pi := lt_number.2 Real.pi_pos
  zero_lt_euler := lt_number.2 (Real.exp_pos 1)
  neg_neg v := by
    cases v with
    | number x => exact congrArg number (neg_neg x)
    | undefined => rfl
  neg_beq_neg v w := by
    rw [Bool.eq_iff_iff]
    cases v with
    | undefined => exact ⟨nofun, nofun⟩
    | number x =>
      cases w with
      | undefined => exact ⟨nofun, nofun⟩
      | number y => rw [neg_number, neg_number, beq_number, beq_number, neg_inj]
  zero_lt_neg v := by
    cases v with
    | number x =>
      rw [Bool.eq_iff_iff, zero_eq, neg_number, lt_number, lt_number]
      exact neg_pos
    | undefined => rfl
  one_mul v := by
    cases v with
    | number x => exact congrArg number (one_mul x)
    | undefined => rfl
  div_one v := by
    cases v with
    | number x => rw [one_eq, div_number, numberIf_pos one_ne_zero, div_one]
    | undefined => rfl
  zero_add {v} _ _ := by
    cases v with
    | number x => exact congrArg number (zero_add x)
    | undefined => rfl
  sub_eq_add_neg v w := by
    cases v with
    | undefined => rfl
    | number x =>
      cases w with
      | undefined => rfl
      | number y => exact congrArg number (sub_eq_add_neg x y)
  isFinite_div_zero v w h := by
    rw [eq_of_beq h, zero_eq]
    cases v with
    | number x =>
      rw [div_number, numberIf_neg (not_not.2 rfl)]
      rfl
    | undefined => rfl
  add_congr := congr_of_beq
  mul_congr := congr_of_beq
  div_congr := congr_of_beq

end Exact
end SymCalc
