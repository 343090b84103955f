import SymCalc.Formula

/-!
# Laws of arithmetic

* `Scalar.IsProper`: the values that the constants of simplified formulas have;
* `Scalar.Agree`: values that make the same constant;
* `LawfulScalar`: the laws that hold of doubles as well as of exact numbers.

Sums and products are neither associative nor exact here. What is left are laws about signs, about
zero and one, about the order, and about values that differ in the sign of a zero.
-/

namespace SymCalc

namespace Scalar

variable {α : Type} [Scalar α]

/-- Whether the value is a finite number, and the positive one of the two zeros if it is zero. -/
structure IsProper (v : α) : Prop where
  isFinite : isFinite v
  eq_zero : v == 0 → v = 0

/-- Whether neither value is a finite number, or both are and they are equal. -/
def Agree (v w : α) : Prop := isFinite v = isFinite w ∧ (isFinite v → v == w)

end Scalar

open Scalar

/-- The laws of arithmetic that hold in spite of rounding. -/
class LawfulScalar (α : Type) [Scalar α] : Prop where
  isNumber_of_isFinite {v : α} : isFinite v → isNumber v
  isNumber_undefined : isNumber (undefined : α) = false
  isFinite_zero : isFinite (0 : α)
  isFinite_one : isFinite (1 : α)
  isFinite_pi : isFinite (pi : α)
  isFinite_euler : isFinite (euler : α)
  isFinite_neg (v : α) : isFinite (-v) = isFinite v
  beq_self {v : α} : isNumber v → v == v
  beq_comm (v w : α) : (v == w) = (w == v)
  eq_or_zero_of_beq {v w : α} : v == w → v = w ∨ v == 0 ∧ w == 0
  transCmp : Std.TransCmp (Scalar.compare (α := α))
  zero_lt_one : lt (0 : α) 1
  zero_lt_pi : lt (0 : α) pi
  zero_lt_euler : lt (0 : α) euler
  neg_neg (v : α) : - -v = v
  neg_beq_neg (v w : α) : (-v == -w) = (v == w)
  zero_lt_neg (v : α) : lt 0 (-v) = lt v 0
  one_mul (v : α) : 1 * v = v
  div_one (v : α) : v / 1 = v
  zero_add {v : α} : isFinite v → (v == 0 → v = 0) → 0 + v = v
  sub_eq_add_neg (v w : α) : v - w = v + -w
  isFinite_div_zero (v : α) {w : α} : w == 0 → isFinite (v / w) = false
  add_congr {v v' w w' : α} : v == v' → w == w' → Agree (v + w) (v' + w')
  mul_congr {v v' w w' : α} : v == v' → w == w' → Agree (v * w) (v' * w')
  div_congr {v v' w w' : α} : v == v' → w == w' → Agree (v / w) (v' / w')

attribute [simp] LawfulScalar.isNumber_undefined LawfulScalar.isFinite_zero
  LawfulScalar.isFinite_one LawfulScalar.isFinite_neg LawfulScalar.neg_neg
  LawfulScalar.neg_beq_neg LawfulScalar.zero_lt_neg LawfulScalar.zero_lt_one
  LawfulScalar.one_mul LawfulScalar.div_one

instance {α : Type} [Scalar α] [LawfulScalar α] : Std.TransCmp (Scalar.compare (α := α)) :=
  LawfulScalar.transCmp

section
variable {α : Type} [Scalar α] {v w : α}

theorem Scalar.compare_of_isNumber (hv : isNumber v) (hw : isNumber w) :
    compare v w = if lt v w then .lt else if v == w then .eq else .gt := by
  rw [compare, hv, hw]

theorem Scalar.isProper_of_ne_zero (hv : isFinite v) (h0 : (v == 0) = false) : IsProper v :=
  ⟨hv, fun h => absurd h (ne_true_of_eq_false h0)⟩

namespace Formula

theorem ofValue_of_not_isFinite (h : isFinite v = false) : ofValue v = undefined :=
  if_neg (ne_true_of_eq_false h)

theorem ofValue_of_beq_zero (hv : isFinite v) (h : v == 0) : ofValue v = const 0 := by
  rw [ofValue, if_pos hv, if_pos h]

theorem ofValue_of_isProper (h : IsProper v) : ofValue v = const v := by
  unfold ofValue
  rw [if_pos h.isFinite]
  split
  · next h0 => rw [h.eq_zero h0]
  · rfl

end Formula
end

namespace Scalar

variable {α : Type} [Scalar α] [LawfulScalar α] {v w : α}

open LawfulScalar

/-! ## Signs -/

@[simp] theorem lt_neg_zero (v : α) : lt (-v) 0 = lt 0 v := by rw [← zero_lt_neg, LawfulScalar.neg_neg]

/-- A finite number is positive, negative or zero. -/
theorem sign_cases (hv : isFinite v) : (lt 0 v ∧ lt v 0 = false ∧ (v == 0) = false) ∨
    (lt 0 v = false ∧ lt v 0 ∧ (v == 0) = false) ∨
    (lt 0 v = false ∧ lt v 0 = false ∧ v == 0) := by
  have hzero := compare_of_isNumber (isNumber_of_isFinite hv) (isNumber_of_isFinite isFinite_zero)
  have hzero' := compare_of_isNumber (isNumber_of_isFinite isFinite_zero) (isNumber_of_isFinite hv)
  have hswap : compare v 0 = (compare 0 v).swap := Std.OrientedCmp.eq_swap
  rw [hzero, hzero', beq_comm 0 v] at hswap
  cases h₁ : lt v 0 <;> cases h₂ : lt 0 v <;> cases h₃ : v == 0 <;> simp_all

@[simp] theorem lt_zero_zero : lt (0 : α) 0 = false := by
  rcases sign_cases (v := (0 : α)) isFinite_zero with h | h | h
  · exact h.2.1
  · exact h.1
  · exact h.1

theorem beq_zero_eq_false_of_pos (h : lt 0 v) (hv : isFinite v) : (v == 0) = false := by
  rcases sign_cases hv with h' | h' | h' <;> simp_all

theorem beq_zero_eq_false_of_neg (h : lt v 0) (hv : isFinite v) : (v == 0) = false := by
  rcases sign_cases hv with h' | h' | h' <;> simp_all

theorem lt_zero_eq_false_of_pos (h : lt 0 v) (hv : isFinite v) : lt v 0 = false := by
  rcases sign_cases hv with h' | h' | h' <;> simp_all

theorem zero_lt_eq_false_of_neg (h : lt v 0) (hv : isFinite v) : lt 0 v = false := by
  rcases sign_cases hv with h' | h' | h' <;> simp_all

theorem magnitude_neg (hv : isFinite v) (h0 : (v == 0) = false) :
    magnitude (-v) = magnitude v := by
  unfold magnitude
  rcases sign_cases hv with h | h | h
  · simp [h]
  · simp [h]
  · rw [h.2.2] at h0
    cases h0

@[simp] theorem one_beq_zero : ((1 : α) == 0) = false :=
  beq_zero_eq_false_of_pos zero_lt_one isFinite_one

@[simp] theorem zero_beq_zero : ((0 : α) == 0) = true :=
  beq_self (isNumber_of_isFinite isFinite_zero)

@[simp] theorem one_beq_one : ((1 : α) == 1) = true :=
  beq_self (isNumber_of_isFinite isFinite_one)

@[simp] theorem neg_one_beq_one : ((-1 : α) == 1) = false := by
  refine eq_false_of_ne_true fun h => ?_
  rcases eq_or_zero_of_beq h with h | h
  · have hpos := lt_zero_eq_false_of_pos (v := (1 : α)) zero_lt_one isFinite_one
    rw [← h, lt_neg_zero, LawfulScalar.zero_lt_one] at hpos
    cases hpos
  · rw [one_beq_zero] at h
    cases h.2

theorem neg_beq_one (v : α) : (-v == 1) = (v == -1) := by rw [← neg_beq_neg v (-1), LawfulScalar.neg_neg]

theorem neg_beq_neg_one (v : α) : (-v == -1) = (v == 1) := neg_beq_neg v 1

theorem neg_beq_zero (hv : isFinite v) : (-v == 0) = (v == 0) := by
  have hneg := sign_cases (v := -v) (by rwa [isFinite_neg])
  rw [zero_lt_neg, lt_neg_zero] at hneg
  rcases sign_cases hv with h | h | h <;> rcases hneg with h' | h' | h' <;> simp_all

theorem eq_of_beq_of_ne_zero (h : v == w) (hw : (w == 0) = false) : v = w := by
  rcases eq_or_zero_of_beq h with h | h
  · exact h
  · rw [hw] at h
    cases h.2

theorem eq_one_of_beq (h : v == 1) : v = 1 := eq_of_beq_of_ne_zero h one_beq_zero

theorem eq_neg_one_of_beq (h : v == -1) : v = -1 := by
  rw [← neg_beq_one] at h
  rw [← LawfulScalar.neg_neg v, eq_one_of_beq h]

/-! ## Proper values -/

theorem isProper_zero : IsProper (0 : α) := ⟨isFinite_zero, fun _ => rfl⟩

theorem isProper_one : IsProper (1 : α) := isProper_of_ne_zero isFinite_one one_beq_zero

theorem isProper_neg (hv : isFinite v) (h0 : (v == 0) = false) : IsProper (-v) :=
  isProper_of_ne_zero ((isFinite_neg v).trans hv) ((neg_beq_zero hv).trans h0)

theorem isProper_euler : IsProper (euler : α) :=
  isProper_of_ne_zero isFinite_euler (beq_zero_eq_false_of_pos zero_lt_euler isFinite_euler)

/-- The comparison tells proper values apart. -/
theorem IsProper.eq_of_compare (hv : IsProper v) (hw : IsProper w) (h : compare v w = .eq) :
    v = w := by
  rw [compare_of_isNumber (isNumber_of_isFinite hv.isFinite) (isNumber_of_isFinite hw.isFinite)]
    at h
  split at h
  · cases h
  · split at h
    · next heq =>
      rcases eq_or_zero_of_beq heq with h | h
      · exact h
      · rw [hv.eq_zero h.1, hw.eq_zero h.2]
    · cases h

/-! ## Values that agree -/

theorem agree_of_eq (h : v = w) : Agree v w := by
  subst h
  exact ⟨rfl, fun hv => beq_self (isNumber_of_isFinite hv)⟩

theorem Agree.symm (h : Agree v w) : Agree w v :=
  ⟨h.1.symm, fun hw => (beq_comm w v).trans (h.2 (h.1.trans hw))⟩

end Scalar

/-! ## Constants of formulas -/

namespace Formula

open LawfulScalar

variable {α : Type} [Scalar α] [LawfulScalar α] {v w : α}

/-- A finite value makes a constant with a proper value that is equal to it. -/
theorem exists_ofValue_of_isFinite (hv : isFinite v) :
    ∃ w, ofValue v = const w ∧ IsProper w ∧ v == w := by
  by_cases h0 : v == 0
  · exact ⟨0, ofValue_of_beq_zero hv h0, isProper_zero, h0⟩
  · have hp := isProper_of_ne_zero hv (eq_false_of_ne_true h0)
    exact ⟨v, ofValue_of_isProper hp, hp, LawfulScalar.beq_self (isNumber_of_isFinite hv)⟩

theorem ofValue_eq_of_agree (h : Agree v w) : ofValue v = ofValue w := by
  obtain ⟨hfin, hbeq⟩ := h
  cases hv : isFinite v with
  | false => rw [ofValue_of_not_isFinite hv, ofValue_of_not_isFinite (hfin ▸ hv)]
  | true =>
    rcases eq_or_zero_of_beq (hbeq hv) with rfl | ⟨h, h'⟩
    · rfl
    · rw [ofValue_of_beq_zero hv h, ofValue_of_beq_zero (hfin ▸ hv) h']

@[simp] theorem isUndefined_undefined : (undefined : Formula α).isUndefined = true :=
  congrArg (!·) isNumber_undefined

theorem isUndefined_const (hv : isFinite v) : (const v).isUndefined = false :=
  congrArg (!·) (isNumber_of_isFinite hv)

end Formula
end SymCalc
