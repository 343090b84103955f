import Mathlib
import SymCalc.Decimal.Double
import SymCalc.Proofs.Decimal.Rounding

/-!
# Reading a decimal

A decimal is read as the double in whose interval it lies (`Double.toDouble_eq_of_roundsTo`). Small
decimals are read by a division of doubles, all others by rounding an exact quotient.
-/

namespace SymCalc
namespace Double

open Float.Model Float.Model.UnpackedFloat

variable {m n d p : ℕ} {q e : ℤ} {x : ℚ}

/-! ## Small decimals -/

/-- A whole number below `2 ^ 53` is brought into canonical form by a shift. -/
theorem isCanonical_shiftLeft (h0 : 0 < n) (hlog : n.log2 ≤ 52) :
    IsCanonical (n <<< (52 - n.log2)) (0 - (52 - n.log2 : ℕ)) := by
  have hlow : 2 ^ 52 ≤ n <<< (52 - n.log2) := by
    rw [Nat.shiftLeft_eq]
    calc 2 ^ 52 = 2 ^ n.log2 * 2 ^ (52 - n.log2) := by rw [← pow_add]; congr 1; omega
      _ ≤ n * 2 ^ (52 - n.log2) := Nat.mul_le_mul_right _ (Nat.log2_self_le h0.ne')
  have hhigh : n <<< (52 - n.log2) < 2 ^ 53 := by
    rw [Nat.shiftLeft_eq]
    calc n * 2 ^ (52 - n.log2) < 2 ^ (n.log2 + 1) * 2 ^ (52 - n.log2) :=
          Nat.mul_lt_mul_of_pos_right Nat.lt_log2_self (by positivity)
      _ = 2 ^ 53 := by rw [← pow_add]; congr 1; omega
  exact ⟨by omega, hhigh, by omega, fun _ => hlow⟩

theorem ofNat_eq_shiftLeft (h0 : 0 < n) (hlog : n.log2 ≤ 52) :
    UnpackedFloat.ofNat Format.binary64 n = .finite .positive (n <<< (52 - n.log2))
      (0 - (52 - n.log2 : ℕ)) (isCanonical_shiftLeft h0 hlog).pos := by
  have hc := isCanonical_shiftLeft h0 hlog
  have hshift : (0 - target n 0).toNat = 52 - n.log2 := by
    rw [target_eq]
    omega
  have hlow : 2 ^ 52 ≤ n <<< (52 - n.log2) := by
    by_cases hq : (0 - (52 - n.log2 : ℕ) : ℤ) = -1074
    · omega
    · exact hc.normal hq
  rw [UnpackedFloat.ofNat, UnpackedFloat.ofInt, UnpackedFloat.normalize,
    Int.compare_eq_gt.2 (by exact_mod_cast h0)]
  change roundWithAccuracy Format.binary64 .positive (n <<< (0 - target n 0).toNat)
    (0 - (0 - target n 0).toNat) .exact = _
  rw [hshift]
  exact roundWithAccuracy_exact _ hlow hc (roundsTo_self ..)

/-- Whole numbers below `2 ^ 53` are doubles. -/
theorem exists_unpacked_toFloat (h0 : 0 < n) (hn : n < 2 ^ 53) : ∃ m e hm,
    unpacked n.toUInt64.toFloat = .finite .positive m e hm ∧ (m * 2 ^ e : ℚ) = n := by
  have hnat : n.toUInt64.toNat = n := UInt64.toNat_ofNat_of_lt' (hn.trans (by decide))
  have hlog : n.log2 ≤ 52 := Nat.le_of_lt_succ ((Nat.log2_lt h0.ne').2 hn)
  refine ⟨_, 0 - (52 - n.log2 : ℕ), (isCanonical_shiftLeft h0 hlog).pos, ?_, ?_⟩
  · have hunpack : unpacked n.toUInt64.toFloat = UnpackedFloat.unpack Format.binary64
        (UnpackedFloat.pack Format.binary64 (UnpackedFloat.ofNat Format.binary64
          n.toUInt64.toNat)) := rfl
    rw [hunpack, hnat, ofNat_eq_shiftLeft h0 hlog]
    exact unpack_pack_finite .positive (isCanonical_shiftLeft h0 hlog) (by omega)
  · rw [Nat.shiftLeft_eq, zero_sub, zpow_neg, zpow_natCast]
    push_cast
    field_simp

/-- Whether the double is `10 ^ p`. -/
def isPowerOfTen (v : Float) (p : ℕ) : Bool :=
  match unpacked v with
  | .finite .positive m e _ => decide (-52 ≤ e) && m * 2 ^ (e + 52).toNat == 10 ^ p * 2 ^ 52
  | _ => false

theorem exists_of_isPowerOfTen {v : Float} (h : isPowerOfTen v p) :
    ∃ m e hm, unpacked v = .finite .positive m e hm ∧ (m * 2 ^ e : ℚ) = 10 ^ p := by
  unfold isPowerOfTen at h
  split at h
  · next m e hm hu =>
    obtain ⟨he, hp⟩ := Bool.and_eq_true_iff.1 h
    have he : -52 ≤ e := of_decide_eq_true he
    have hp : (m * 2 ^ (e + 52).toNat : ℚ) = 10 ^ p * 2 ^ 52 := by exact_mod_cast eq_of_beq hp
    refine ⟨m, e, hm, hu, ?_⟩
    have hsplit : (2 : ℚ) ^ (e + 52).toNat = 2 ^ e * 2 ^ 52 := by
      rw [← zpow_natCast, ← zpow_natCast, ← zpow_add₀ two_ne_zero]
      congr 1
      omega
    rw [hsplit, ← mul_assoc] at hp
    exact mul_right_cancel₀ (by positivity) hp
  · cases h

theorem isPowerOfTen_table : ∀ p : Fin Float.exactlyRepresentablePowersOfTen.size,
    isPowerOfTen Float.exactlyRepresentablePowersOfTen[p] p := by
  decide

/-! ## All decimals -/

/-- A decimal that lies in the interval of a double is not too small to be read. -/
theorem places_lt_of_roundsTo (hc : IsCanonical m q) (h : RoundsTo (d / 10 ^ p) m q) :
    p < d.log2 + 1076 := by
  have hm : (1 : ℚ) ≤ m := by exact_mod_cast hc.pos
  have hx : 1 / 2 ≤ (d / 10 ^ p : ℚ) / 2 ^ q := by linarith [h.low, reach_le m q]
  rw [le_div_iff₀ (by positivity), le_div_iff₀ (by positivity)] at hx
  have hd : (d : ℚ) < 2 ^ (d.log2 + 1) := by exact_mod_cast Nat.lt_log2_self
  have hlt : (2 : ℚ) ^ (-1075 + p : ℤ) < 2 ^ (d.log2 + 1 : ℤ) := by
    calc (2 : ℚ) ^ (-1075 + p : ℤ) = 1 / 2 * 2 ^ (-1074 : ℤ) * 2 ^ p := by
          rw [show (-1075 + p : ℤ) = -1 + -1074 + p from rfl, zpow_add₀ two_ne_zero,
            zpow_add₀ two_ne_zero, zpow_natCast, zpow_neg_one, one_div]
      _ ≤ 1 / 2 * 2 ^ q * 10 ^ p := by
          gcongr
          · norm_num
          · exact hc.le
          · norm_num
      _ ≤ d := hx
      _ < 2 ^ (d.log2 + 1) := hd
      _ = 2 ^ (d.log2 + 1 : ℤ) := by exact_mod_cast (zpow_natCast (2 : ℚ) (d.log2 + 1)).symm
  have := (zpow_lt_zpow_iff_right₀ one_lt_two).1 hlt
  omega

theorem ofScientific_eq_of_roundsTo (hd : 0 < d) (hc : IsCanonical m q)
    (h : RoundsTo (d / 10 ^ p) m q) :
    UnpackedFloat.ofScientific Format.binary64 d (Int.negOfNat p) =
      .finite .positive m q hc.pos := by
  have hp := places_lt_of_roundsTo hc h
  have hneg : Int.negOfNat p = -(p : ℤ) := Int.negOfNat_eq
  have hlow : ¬-(p : ℤ) < -((2 ^ 11 : ℤ) + d.log2) := by omega
  have hhigh : ¬-(p : ℤ) > 2 ^ 11 := by omega
  unfold UnpackedFloat.ofScientific
  rw [hneg, dif_neg hd.ne', if_neg hhigh, if_neg hlow]
  split
  · next h0 =>
    obtain rfl : p = 0 := by omega
    change roundWithAccuracy Format.binary64 .positive (d <<< 53 * 1) (-53 + 0) .exact = _
    rw [mul_one, add_zero, Nat.shiftLeft_eq]
    refine roundWithAccuracy_exact _ (by omega) hc ?_
    have hvalue : ((d * 2 ^ 53 : ℕ) * 2 ^ (-53 : ℤ) : ℚ) = d / 10 ^ 0 := by
      rw [zpow_neg]
      push_cast
      field_simp
    rwa [hvalue]
  · have hpow : (-(-(p : ℤ))).toNat = p := by omega
    refine div_finite hd _ hc ?_
    rw [hpow]
    simpa using h

/-- A decimal is read as the double in whose interval it lies. -/
theorem toDouble_eq_of_roundsTo {v : Float} {hm : 0 < m} (hv : unpacked v = .finite .positive m q hm)
    (hd : 0 < d) (h : RoundsTo (d / 10 ^ p) m q) : (Decimal.mk d p).toDouble = v := by
  have hc := isCanonical_of_unpacked hv
  change Float.ofScientific d true p = v
  unfold Float.ofScientific
  split
  · next hsmall =>
    obtain ⟨m₁, e₁, h₁, hu₁, hv₁⟩ := exists_unpacked_toFloat hd hsmall.1
    obtain ⟨m₂, e₂, h₂, hu₂, hv₂⟩ := exists_of_isPowerOfTen
      (isPowerOfTen_table ⟨p, Nat.lt_succ_of_le hsmall.2⟩)
    exact div_eq_of_roundsTo hu₁ hu₂ hv (by rw [hv₁, hv₂]; exact h)
  · have hpack := congrArg Float.Model.pack ((ofScientific_eq_of_roundsTo hd hc h).trans hv.symm)
    rw [pack_unpacked] at hpack
    exact congrArg Float.ofModel hpack

end Double
end SymCalc
