import SymCalc.Formula
import SymCalc.Proofs.Decimal.Text
import SymCalc.Proofs.Scalar.Double
import SymCalc.Proofs.Simplify.Leaves

/-!
# Doubles as constants

* `Double.IsConstant`: the doubles that constants of formulas are made of.

`Formula.ofValue` makes these constants and keeps them (`Double.ofValue_eq_const`), and they are told
apart by their comparison (`Double.eq_of_compare`). The text of a finite one is read as this double
(`Double.reads_doubleChars`), after a sign if it is negative (`Double.chars_of_lt_zero`).
-/

namespace SymCalc
namespace Double

open Formula

/-- Whether the double is no number, or finite and not the negative zero. -/
def IsConstant (v : Float) : Prop := v.isNaN ∨ v.isFinite ∧ v ≠ -0

instance (v : Float) : Decidable (IsConstant v) := inferInstanceAs (Decidable (_ ∨ _ ∧ _))

variable {v w : Float}

theorem IsConstant.cases (h : IsConstant v) :
    v = 0 / 0 ∨ v = 0 ∨ v.isFinite ∧ (v == 0) = false := by
  rcases h with h | ⟨hfin, hneg⟩
  · exact .inl (isNaN_iff.1 h)
  · cases h : v == 0 with
    | false => exact .inr (.inr ⟨hfin, rfl⟩)
    | true =>
      rcases eq_or_zero_of_beq h with h | ⟨h | h, -⟩
      · exact .inr (.inl h)
      · exact .inr (.inl h)
      · exact absurd h hneg

theorem ofValue_eq_const (h : IsConstant v) : ofValue v = const v := by
  rcases h.cases with rfl | rfl | ⟨hfin, h0⟩
  · rfl
  · rfl
  · have hfin : Scalar.isFinite v = true := hfin
    unfold ofValue
    rw [if_pos hfin, if_neg (ne_true_of_eq_false h0)]

/-- The finite constants that passes make are those of formulas. -/
theorem isClosed_finite : IsClosed fun v : Float => v.isFinite ∧ v ≠ -0 where
  isFinite _ h := h.1
  ofValue v w hv h := by
    unfold ofValue at h
    rw [if_pos hv] at h
    split at h
    · cases h
      decide
    · next h0 =>
      cases h
      refine ⟨hv, ?_⟩
      rintro rfl
      exact h0 (by decide)
  zero := by decide
  one := by decide
  negOne := by decide
  euler := by decide

theorem forall_isConstant_simplifyOnce {f : Formula Float} {Q : String → Prop}
    (hf : f.Forall (fun _ => True) Q) : f.simplifyOnce.Forall IsConstant Q := by
  rcases hf.simplifyOnce isClosed_finite with h | h
  · rw [h]
    exact .inl (isNaN_iff.2 rfl)
  · exact h.imp (fun _ => .inr) fun _ h => h

/-! ## Comparison -/

theorem compare_self (v : Float) : Scalar.compare v v = .eq := by
  have hlt : Scalar.lt v v = false := decide_eq_false (lt_irrefl v)
  unfold Scalar.compare
  cases h : v.isNaN with
  | false =>
    have hnum : Scalar.isNumber v = true := by simp only [Scalar.isNumber, h, Bool.not_false]
    simp [hnum, hlt, beq_self h]
  | true =>
    have hnum : Scalar.isNumber v = false := by simp only [Scalar.isNumber, h, Bool.not_true]
    simp [hnum]

theorem eq_of_compare (hv : IsConstant v) (hw : IsConstant w) (h : Scalar.compare v w = .eq) :
    v = w := by
  have hzero {v : Float} (hv : IsConstant v) (h : v = 0 ∨ v = -0) : v = 0 := by
    rcases h with h | rfl
    · exact h
    · exact absurd hv (by decide)
  have hnum (v : Float) : Scalar.isNumber v = !v.isNaN := rfl
  unfold Scalar.compare at h
  rw [hnum, hnum] at h
  cases hvn : v.isNaN <;> cases hwn : w.isNaN <;> simp only [hvn, hwn, Bool.not_true,
    Bool.not_false, reduceCtorEq] at h
  · split at h
    · cases h
    · split at h
      · next heq =>
        rcases eq_or_zero_of_beq heq with h | ⟨hv0, hw0⟩
        · exact h
        · rw [hzero hv hv0, hzero hw hw0]
      · cases h
  · rw [isNaN_iff.1 hvn, isNaN_iff.1 hwn]

/-! ## Signs -/

/-- A negative constant has a sign and a mantissa. -/
theorem IsConstant.exists_unpacked (h : IsConstant v) (hv : v < 0) :
    ∃ m q hm, unpacked v = .finite .negative m q hm := by
  rcases h.cases with rfl | rfl | ⟨hfin, h0⟩
  · exact absurd hv (by decide)
  · exact absurd hv (by decide)
  · obtain ⟨s, m, q, hm, h⟩ := exists_unpacked_eq_finite hfin h0
    obtain rfl := (lt_zero_iff h).1 hv
    exact ⟨m, q, hm, h⟩

theorem unpacked_neg_of_lt_zero (h : IsConstant v) (hv : v < 0) :
    ∃ m q hm, unpacked (-v) = .finite .positive m q hm := by
  obtain ⟨m, q, hm, h⟩ := h.exists_unpacked hv
  exact ⟨m, q, hm, by rw [unpacked_neg, h]; rfl⟩

theorem isConstant_neg (h : IsConstant v) (hv : v < 0) : IsConstant (-v) := by
  obtain ⟨m, q, hm, h⟩ := unpacked_neg_of_lt_zero h hv
  exact .inr ⟨isFinite_of_unpacked h, (ne_of_unpacked h).2⟩

/-- The text of a negative double is that of its magnitude after a sign. -/
theorem chars_of_lt_zero (h : IsConstant v) (hv : v < 0) :
    doubleChars v = '-' :: doubleChars (-v) := by
  obtain ⟨m, q, hm, hneg⟩ := unpacked_neg_of_lt_zero h hv
  obtain ⟨m, q, hm, hpos⟩ := h.exists_unpacked hv
  have hnlt : ¬ -v < 0 := by simp [lt_zero_iff hneg]
  have hbits : v.toBits &&& 0x7FFFFFFFFFFFFFFF = (-v).toBits := by rw [toBits_and hpos, if_pos hv]
  have hbits' : (-v).toBits &&& 0x7FFFFFFFFFFFFFFF = (-v).toBits := by
    rw [toBits_and hneg, if_neg hnlt]
  unfold doubleChars
  simp only [isNaN_of_unpacked hpos, isNaN_of_unpacked hneg, hbits, hbits',
    isFinite_of_unpacked hpos, isFinite_of_unpacked hneg, toBits_neg_ne hpos, if_false,
    Bool.false_eq_true, if_true]

/-- The text of a finite constant that is not negative is read as this double. -/
theorem reads_doubleChars (h : IsConstant v) (hfin : v.isFinite) (hv : ¬ v < 0) :
    ∃ d, Decimal.ofChars? (doubleChars v) = some d ∧ d.toDouble = v := by
  rcases h.cases with rfl | rfl | ⟨hfin, h0⟩
  · exact absurd hfin (by decide)
  · exact ⟨⟨0, 0⟩, by decide, by decide⟩
  · obtain ⟨s, m, q, hm, h⟩ := exists_unpacked_eq_finite hfin h0
    obtain rfl : s = .positive := by
      cases s with
      | positive => rfl
      | negative => exact absurd ((lt_zero_iff h).2 rfl) hv
    exact ⟨_, ofChars?_doubleChars h, toDouble_shortest h⟩

end Double
end SymCalc
