import SymCalc.Proofs.Decimal.Reading

/-!
# The sign of a double that is read

* `Double.IsUnsigned`: whether a double has no negative sign.

A decimal has no sign, and neither has the double that is read from it
(`Double.isUnsigned_toDouble`): rounding, products and quotients keep signs.
-/

namespace SymCalc
namespace Double

open Float.Model Float.Model.UnpackedFloat

variable {v : Float} {x y : UnpackedFloat}

/-- Whether the double has no negative sign. -/
def IsUnsigned : UnpackedFloat → Prop
  | .notANumber => True
  | .infinity s | .zero s | .finite s _ _ _ => s = .positive

theorem isUnsigned_unpack_packComponents {e : BitVec Format.binary64.exponentBits}
    {m : BitVec Format.binary64.mantissaBitsWithoutImplicit} :
    IsUnsigned (UnpackedFloat.unpack Format.binary64
      (packComponents Format.binary64 .positive e m)) := by
  rw [unpack_packComponents]
  split
  · split
    · rfl
    · trivial
  · split
    · split <;> rfl
    · rfl

/-- Packing keeps the sign. -/
theorem isUnsigned_unpack_pack (h : IsUnsigned x) :
    IsUnsigned (UnpackedFloat.unpack Format.binary64 (UnpackedFloat.pack Format.binary64 x)) := by
  cases x with
  | notANumber => exact isUnsigned_unpack_packComponents
  | infinity s | zero s =>
    obtain rfl : s = .positive := h
    exact isUnsigned_unpack_packComponents
  | finite s m q hm =>
    obtain rfl : s = .positive := h
    rw [pack_finite]
    split
    · exact isUnsigned_unpack_packComponents
    · split <;> exact isUnsigned_unpack_packComponents

theorem isUnsigned_roundWithAccuracy (m : ℕ) (e : ℤ) (a : Accuracy) :
    IsUnsigned (roundWithAccuracy Format.binary64 .positive m e a) := by
  unfold roundWithAccuracy
  simp only
  split <;> rfl

/-- Products and quotients of numbers without a sign have none. -/
theorem isUnsigned_mul_div (hx : IsUnsigned x) (hy : IsUnsigned y) :
    IsUnsigned (UnpackedFloat.mul Format.binary64 x y) ∧
      IsUnsigned (UnpackedFloat.div Format.binary64 x y) := by
  cases x with
  | notANumber => exact ⟨trivial, trivial⟩
  | infinity s | zero s =>
    obtain rfl : s = .positive := hx
    cases y with
    | notANumber => exact ⟨trivial, trivial⟩
    | infinity s' | zero s' | finite s' =>
      obtain rfl : s' = .positive := hy
      constructor <;> first | rfl | trivial
  | finite s m q hm =>
    obtain rfl : s = .positive := hx
    cases y with
    | notANumber => exact ⟨trivial, trivial⟩
    | infinity s' | zero s' =>
      obtain rfl : s' = .positive := hy
      exact ⟨rfl, rfl⟩
    | finite s' m' q' hm' =>
      obtain rfl : s' = .positive := hy
      exact ⟨isUnsigned_roundWithAccuracy _ _ _, isUnsigned_roundWithAccuracy _ _ _⟩

theorem isUnsigned_ofNat (n : ℕ) : IsUnsigned (UnpackedFloat.ofNat Format.binary64 n) := by
  rw [UnpackedFloat.ofNat, UnpackedFloat.ofInt, UnpackedFloat.normalize]
  split
  · next h => exact absurd (Int.compare_eq_lt.1 h) (by omega)
  · rfl
  · exact isUnsigned_roundWithAccuracy _ _ _

theorem isUnsigned_ofScientific (n : ℕ) (e : ℤ) :
    IsUnsigned (UnpackedFloat.ofScientific Format.binary64 n e) := by
  have hpos {m : ℕ} {q : ℤ} {hm : 0 < m} : IsUnsigned (.finite .positive m q hm) := rfl
  unfold UnpackedFloat.ofScientific
  split
  · rfl
  split
  · rfl
  split
  · rfl
  split
  · exact (isUnsigned_mul_div hpos hpos).1
  · exact (isUnsigned_mul_div hpos hpos).2

theorem isUnsigned_powerOfTen {p : ℕ} (h : p < Float.exactlyRepresentablePowersOfTen.size) :
    IsUnsigned (unpacked Float.exactlyRepresentablePowersOfTen[p]) := by
  obtain ⟨m, e, hm, hu, -⟩ := exists_of_isPowerOfTen (isPowerOfTen_table ⟨p, h⟩)
  exact (congrArg IsUnsigned hu).mpr rfl

/-- A double that is read has no sign. -/
theorem isUnsigned_toDouble (d : Decimal) : IsUnsigned (unpacked d.toDouble) := by
  unfold Decimal.toDouble Float.ofScientific
  split
  · next h =>
    have hn : IsUnsigned (unpacked d.digits.toUInt64.toFloat) :=
      isUnsigned_unpack_pack (isUnsigned_ofNat _)
    exact isUnsigned_unpack_pack (isUnsigned_mul_div hn
      (isUnsigned_powerOfTen (Nat.lt_succ_of_le h.2))).2
  · exact isUnsigned_unpack_pack (isUnsigned_ofScientific _ _)

/-- What has no sign is not below zero. -/
theorem not_lt_zero_of_isUnsigned (h : IsUnsigned (unpacked v)) : ¬ v < 0 := by
  rw [lt_iff, unpacked_zero]
  cases hv : unpacked v with
  | notANumber | zero => exact Bool.false_ne_true
  | infinity s | finite s =>
    rw [hv] at h
    obtain rfl : s = .positive := h
    exact Bool.false_ne_true

end Double
end SymCalc
