import Mathlib
import SymCalc.Proofs.Decimal.Reading
import SymCalc.Proofs.Scalar.Double
import SymCalc.Proofs.Scalar.ExactLaws

/-!
# The exact values of constants

* `Double.toReal`: the real number that a finite double is;
* `Double.exact`: the exact constant that a double stands for;
* `Scalar.IsReading`: a way to read constants as exact ones under which equal constants stay equal and
  small whole numbers and the named constants are what they are called;
* `Scalar.IsSignedReading`: one under which equal constants stay equal and opposite ones opposite.

Doubles are read in such ways (`Double.isReading_exact`, `Double.isSignedReading_literal`,
`Double.isSignedReading_signed`), and so are exact constants as themselves (`Exact.isReading_id`,
`Exact.isSignedReading_id`).
-/

namespace SymCalc

/-! ## Readings -/

/-- Whether `read` gives finite constants the exact values that they stand for. -/
structure Scalar.IsReading {α : Type} [Scalar α] (read : α → Exact) : Prop where
  isNumber_iff {v : α} : isNumber (read v) ↔ isFinite v
  congr {v w : α} : v == w → read v = read w
  one : read 1 = 1
  ofNat {n : ℕ} : n < 100 → read (Scalar.ofNat n) = .number n
  pi : read pi = .number Real.pi
  euler : read euler = .number (Real.exp 1)

/-- Whether `read` gives finite constants exact values, equal constants the same value and opposite ones
opposite values. -/
structure Scalar.IsSignedReading {α : Type} [Scalar α] (read : α → Exact) : Prop where
  isNumber_iff {v : α} : isNumber (read v) ↔ isFinite v
  congr {v w : α} : v == w → read v = read w
  neg (v : α) : read (-v) = -read v

section
variable {α : Type} [Scalar α] {read : α → Exact} {v : α} {n : ℕ}

/-- A small whole number is read as itself. -/
theorem Scalar.IsReading.of_toCount? (h : IsReading read) (hn : toCount? v = some n) :
    read v = .number n := by
  have hv : v == Scalar.ofNat n := List.find?_some (p := fun n => v == Scalar.ofNat n) hn
  rw [h.congr hv, h.ofNat (List.mem_range.1 (List.mem_of_find?_eq_some hn))]

end

theorem Exact.isReading_id : Scalar.IsReading (id : Exact → Exact) where
  isNumber_iff := .rfl
  congr h := eq_of_beq h
  one := rfl
  ofNat _ := ofNat_eq _
  pi := rfl
  euler := rfl

theorem Exact.isSignedReading_id : Scalar.IsSignedReading (id : Exact → Exact) where
  isNumber_iff := .rfl
  congr h := eq_of_beq h
  neg _ := rfl

/-! ## Doubles -/

namespace Double

open Float.Model Float.Model.UnpackedFloat

variable {v w : Float} {n : ℕ}

/-- The real number that a finite double is. -/
noncomputable def toReal (v : Float) : ℝ :=
  match unpacked v with
  | .finite s m q _ => ((s.apply m : ℤ) * 2 ^ q : ℚ)
  | _ => 0

/-- The exact constant that a double stands for. The doubles nearest to the two named constants stand
for these, and all other finite doubles for the numbers that they are. -/
noncomputable def exact (v : Float) : Exact :=
  if !v.isFinite then .undefined
  else if v == Scalar.pi then .number Real.pi
  else if v == Scalar.euler then .number (Real.exp 1)
  else .number (toReal v)

theorem exact_of_isFinite (hv : v.isFinite) (hpi : (v == Scalar.pi) = false)
    (he : (v == Scalar.euler) = false) : exact v = .number (toReal v) := by
  rw [exact, hv, hpi, he]
  rfl

theorem isNumber_exact : Scalar.isNumber (exact v) ↔ v.isFinite := by
  unfold exact
  cases v.isFinite with
  | false => exact .rfl
  | true =>
    simp only [Bool.not_true, Bool.false_eq_true, if_false, iff_true]
    split
    · rfl
    · split <;> rfl

/-- The two zeros stand for the same number. -/
theorem exact_congr (h : v == w) : exact v = exact w := by
  have hzero {u : Float} (h : u = 0 ∨ u = -0) : exact u = .number 0 := by
    rcases h with rfl | rfl <;>
    · rw [exact_of_isFinite (by decide) (by decide) (by decide)]
      rfl
  rcases eq_or_zero_of_beq h with rfl | ⟨hv, hw⟩
  · rfl
  · rw [hzero hv, hzero hw]

/-- Whole numbers that are small enough are read exactly. -/
theorem toReal_ofNat (hn : n < 2 ^ 53) : toReal (Scalar.ofNat n) = n := by
  rcases Nat.eq_zero_or_pos n with rfl | h0
  · have hzero : (Scalar.ofNat 0 : Float) = 0 := by decide
    rw [toReal, hzero, unpacked_zero, Nat.cast_zero]
  · obtain ⟨m, q, hm, hu, hv⟩ := exists_unpacked_toFloat h0 hn
    have hround : RoundsTo (n / 10 ^ 0) m q := by simpa [← hv] using roundsTo_self m q
    have hread : (Scalar.ofNat n : Float) = n.toUInt64.toFloat :=
      toDouble_eq_of_roundsTo hu h0 hround
    have hreal : ((m * 2 ^ q : ℚ) : ℝ) = (n : ℚ) := congrArg Rat.cast hv
    rw [toReal, hread, hu]
    simpa [Sign.apply] using hreal

theorem isReading_exact : Scalar.IsReading exact where
  isNumber_iff := isNumber_exact
  congr := exact_congr
  one := by
    have hone : (1 : Float) = Scalar.ofNat 1 := by decide
    rw [exact_of_isFinite (by decide) (by decide) (by decide), hone,
      toReal_ofNat (by decide), Nat.cast_one]
    rfl
  ofNat {n} hn := by
    have hsmall : ∀ n : Fin 100, (Scalar.ofNat n : Float).isFinite ∧
        ((Scalar.ofNat n : Float) == Scalar.pi) = false ∧
          ((Scalar.ofNat n : Float) == Scalar.euler) = false := by
      decide +kernel
    obtain ⟨hfin, hpi, he⟩ := hsmall ⟨n, hn⟩
    rw [exact_of_isFinite hfin hpi he, toReal_ofNat (hn.trans (by decide))]
  pi := by
    have hfin : (Scalar.pi : Float).isFinite := by decide
    have hpi : (Scalar.pi : Float) == Scalar.pi := by decide
    rw [exact, hfin, hpi]
    rfl
  euler := by
    have hfin : (Scalar.euler : Float).isFinite := by decide
    have hpi : ((Scalar.euler : Float) == Scalar.pi) = false := by decide
    have he : (Scalar.euler : Float) == Scalar.euler := by decide
    rw [exact, hfin, hpi, he]
    rfl

/-! ### Opposite constants -/

theorem toReal_neg (v : Float) : toReal (-v) = -toReal v := by
  rw [toReal, toReal, unpacked_neg]
  cases unpacked v with
  | notANumber | zero | infinity => exact neg_zero.symm
  | finite s m q hm => cases s <;> simp [UnpackedFloat.neg, Sign.apply]

/-- The exact constant that is the same number as a finite double. -/
noncomputable def literal (v : Float) : Exact :=
  if v.isFinite then .number (toReal v) else .undefined

theorem isSignedReading_literal : Scalar.IsSignedReading literal where
  isNumber_iff {v} := by
    change Scalar.isNumber (literal v) ↔ v.isFinite
    unfold literal
    split
    · next h => exact iff_of_true rfl h
    · next h => exact iff_of_false Bool.false_ne_true h
  congr {v w} h := by
    have hzero {u : Float} (h : u = 0 ∨ u = -0) : literal u = .number 0 := by
      rcases h with rfl | rfl <;> exact if_pos (by decide)
    rcases eq_or_zero_of_beq h with rfl | ⟨hv, hw⟩
    · rfl
    · rw [hzero hv, hzero hw]
  neg v := by
    rw [literal, literal, isFinite_neg, toReal_neg]
    split <;> rfl

/-- The exact constant that a double stands for, where the opposites of the two doubles nearest to the named
constants stand for the opposites of these. -/
noncomputable def signed (v : Float) : Exact := if v < 0 then -exact (-v) else exact v

theorem isSignedReading_signed : Scalar.IsSignedReading signed where
  isNumber_iff {v} := by
    have hneg (u : Exact) : Scalar.isNumber (-u) = Scalar.isNumber u := by cases u <;> rfl
    unfold signed
    split
    · rw [hneg, isNumber_exact, isFinite_neg]
      rfl
    · exact isNumber_exact
  congr {v w} h := by
    rcases eq_or_zero_of_beq h with rfl | ⟨hv, hw⟩
    · rfl
    · have hzero {u : Float} (h : u = 0 ∨ u = -0) : ¬ u < 0 := by
        rcases h with rfl | rfl <;> decide
      rw [signed, signed, if_neg (hzero hv), if_neg (hzero hw), exact_congr h]
  neg v := by
    have hneg : -v < 0 ↔ 0 < v := by rw [← zero_lt_neg_iff, neg_neg]
    rw [signed, signed, neg_neg]
    cases hv : v.isFinite with
    | false =>
      have hundefined {u : Float} (h : u.isFinite = false) : exact u = .undefined := by
        rw [exact, h]
        rfl
      rw [hundefined hv, hundefined ((isFinite_neg v).trans hv)]
      split <;> split <;> rfl
    | true =>
      have hv : Scalar.isFinite v := hv
      rcases Scalar.sign_cases hv with ⟨hpos, hnot, -⟩ | ⟨hnot, hlt, -⟩ | ⟨hnot, hnot', hzero⟩
      · rw [if_pos (hneg.2 (of_decide_eq_true hpos)), if_neg (of_decide_eq_false hnot)]
      · rw [if_neg (mt hneg.1 (of_decide_eq_false hnot)), if_pos (of_decide_eq_true hlt)]
        exact (LawfulScalar.neg_neg _).symm
      · have h0 : exact 0 = .number 0 := exact_of_isFinite (by decide) (by decide)
          (by decide)
        rw [if_neg (mt hneg.1 (of_decide_eq_false hnot)), if_neg (of_decide_eq_false hnot'),
          exact_congr hzero, exact_congr ((Scalar.neg_beq_zero hv).trans hzero), h0,
          Exact.neg_number, neg_zero]

end Double
end SymCalc
