import Mathlib
import SymCalc.Proofs.Decimal.Bits

/-!
# Rounding to the nearest double

* `Double.IsCanonical`: the mantissa and the exponent of a finite double;
* `Double.RoundsTo`: the rationals that lie in the interval of such a double.

A quotient is rounded to the double in whose interval it lies (`Double.div_eq_of_roundsTo`).
-/

namespace SymCalc
namespace Double

open Float.Model Float.Model.UnpackedFloat

/-! ## Shifting -/

/-- The quotient `n / d` as a mantissa, with what is left as residual bits. -/
def quotient (n d : ℕ) : ExtendedMantissa :=
  .ofMantissaAndAccuracy (n / d) (accuracyOfFraction (n % d) d)

theorem roundedMantissa_ofMantissaAndAccuracy (m : ℕ) (a : Accuracy) :
    (ExtendedMantissa.ofMantissaAndAccuracy m a).roundedMantissa = a.roundToNearestEven m := by
  cases a with
  | exact => rfl
  | inexact o => cases o <;> rfl

theorem quotient_eq {n d : ℕ} (hd : 0 < d) : quotient n d =
    ⟨n / d, decide (d ≤ 2 * (n % d)), decide (n % d ≠ 0 ∧ 2 * (n % d) ≠ d)⟩ := by
  unfold quotient accuracyOfFraction
  split
  · next h => simp [h, hd.ne', ExtendedMantissa.ofMantissaAndAccuracy]
  · next h =>
    rcases lt_trichotomy (2 * (n % d)) d with hlt | heq | hgt
    · rw [Nat.compare_eq_lt.2 hlt]
      simp [ExtendedMantissa.ofMantissaAndAccuracy, h, hlt.not_ge, hlt.ne]
    · rw [Nat.compare_eq_eq.2 heq]
      simp [ExtendedMantissa.ofMantissaAndAccuracy, h, heq]
    · rw [Nat.compare_eq_gt.2 hgt]
      simp [ExtendedMantissa.ofMantissaAndAccuracy, h, hgt.le, hgt.ne']

theorem shiftRightOne_quotient {n d : ℕ} (hd : 0 < d) :
    (quotient n d).shiftRightOne = quotient n (d * 2) := by
  have hr : n % d < d := Nat.mod_lt n hd
  rw [quotient_eq hd, quotient_eq (by omega), ExtendedMantissa.shiftRightOne, Nat.mod_mul,
    Nat.div_div_eq_div_mul]
  have hodd : n / d % 2 = 0 ∨ n / d % 2 = 1 := Nat.mod_two_eq_zero_or_one _
  refine ExtendedMantissa.mk.injEq .. ▸ ⟨rfl, Bool.eq_iff_iff.2 ?_, Bool.eq_iff_iff.2 ?_⟩
  · rcases hodd with h | h <;> rw [h] <;> simp <;> omega
  · rcases hodd with h | h <;> rw [h] <;> simp <;> omega

theorem shiftRight_quotient {n d : ℕ} (hd : 0 < d) (k : ℕ) :
    quotient n d >>> k = quotient n (d * 2 ^ k) := by
  change k.repeat ExtendedMantissa.shiftRightOne (quotient n d) = _
  induction k with
  | zero => rw [pow_zero, mul_one]; rfl
  | succ k ih =>
    rw [Nat.repeat, ih, shiftRightOne_quotient (by positivity), pow_succ, mul_assoc]

theorem roundedMantissa_quotient (n : ℕ) {d : ℕ} (hd : 0 < d) : (quotient n d).roundedMantissa =
    if 2 * (n % d) < d then n / d
    else if 2 * (n % d) = d then n / d + n / d % 2 else n / d + 1 := by
  rw [quotient, roundedMantissa_ofMantissaAndAccuracy, accuracyOfFraction]
  split
  · next h => rw [h, if_pos (by omega), Accuracy.roundToNearestEven]
  · rcases lt_trichotomy (2 * (n % d)) d with hlt | heq | hgt
    · rw [Nat.compare_eq_lt.2 hlt, if_pos hlt, Accuracy.roundToNearestEven]
    · rw [Nat.compare_eq_eq.2 heq, if_neg heq.not_lt, if_pos heq, Accuracy.roundToNearestEven]
    · rw [Nat.compare_eq_gt.2 hgt, if_neg hgt.not_gt, if_neg hgt.ne', Accuracy.roundToNearestEven]

/-- A quotient is rounded to the nearest whole number, and to an even one if there are two. -/
theorem roundedMantissa_eq {n d m : ℕ} (hd : 0 < d) (hlow : 2 * (d * m) ≤ 2 * n + d)
    (hhigh : 2 * n ≤ 2 * (d * m) + d)
    (heven : m % 2 = 0 ∨ 2 * (d * m) < 2 * n + d ∧ 2 * n < 2 * (d * m) + d) :
    (quotient n d).roundedMantissa = m := by
  have hn : d * (n / d) + n % d = n := Nat.div_add_mod n d
  have hr : n % d < d := Nat.mod_lt n hd
  have hmul {j k : ℕ} (h : j < k) : d * j + d ≤ d * k := by
    simpa [mul_add] using Nat.mul_le_mul_left d (Nat.succ_le_of_lt h)
  rw [roundedMantissa_quotient n hd]
  rcases lt_trichotomy (n / d) m with h | h | h
  · have h₁ := hmul h
    have hsucc : n / d + 1 = m := by
      by_contra hne
      have h₂ := hmul (show n / d + 1 < m by omega)
      rw [mul_add] at h₂
      omega
    rw [if_neg (by omega)]
    split
    · omega
    · exact hsucc
  · rw [h] at hn
    rw [h]
    split
    · rfl
    · split
      · omega
      · omega
  · have := hmul h
    omega

/-! ## The interval of a double -/

/-- Whether `m * 2 ^ q` is the canonical form of a finite double. -/
structure IsCanonical (m : ℕ) (q : ℤ) : Prop where
  pos : 0 < m
  lt : m < 2 ^ 53
  le : -1074 ≤ q
  normal : q ≠ -1074 → 2 ^ 52 ≤ m

/-- How far the interval of `m * 2 ^ q` reaches down, in multiples of `2 ^ q`. -/
def reach (m : ℕ) (q : ℤ) : ℚ := if m = 2 ^ 52 ∧ q ≠ -1074 then 1 / 4 else 1 / 2

/-- Whether `x` lies in the interval of `m * 2 ^ q`. -/
structure RoundsTo (x : ℚ) (m : ℕ) (q : ℤ) : Prop where
  low : m - reach m q ≤ x / 2 ^ q
  high : x / 2 ^ q ≤ m + 1 / 2
  even : m % 2 = 0 ∨ m - reach m q < x / 2 ^ q ∧ x / 2 ^ q < m + 1 / 2

variable {m n d : ℕ} {q t e : ℤ} {x : ℚ}

theorem reach_le (m : ℕ) (q : ℤ) : reach m q ≤ 1 / 2 := by
  unfold reach
  split <;> norm_num

/-- A decimal in the interval of a double is positive. -/
theorem RoundsTo.pos {p : ℕ} (h : RoundsTo (d / 10 ^ p) m q) (hm : 0 < m) : 0 < d := by
  have hm : (1 : ℚ) ≤ m := by exact_mod_cast hm
  have hlow : 0 < (d / 10 ^ p : ℚ) / 2 ^ q := by linarith [h.low, reach_le m q]
  by_contra h0
  rw [Nat.eq_zero_of_not_pos h0] at hlow
  simp at hlow

/-- The exponent that a rational is rounded at is that of the double, or one less just below a
power of two. -/
theorem target_cases (hc : IsCanonical m q) (h : RoundsTo x m q) (hmin : -1074 ≤ t)
    (hlt : x < 2 ^ (t + 53)) (hge : t = -1074 ∨ 2 ^ (t + 52) ≤ x) :
    t = q ∨ t = q - 1 ∧ m = 2 ^ 52 ∧ q ≠ -1074 := by
  have hq : (0 : ℚ) < 2 ^ q := by positivity
  have hpow {a b : ℤ} (hab : a ≤ b) : (2 : ℚ) ^ a ≤ 2 ^ b := zpow_le_zpow_right₀ one_le_two hab
  have hsplit (k : ℕ) : (2 : ℚ) ^ (q + k) = 2 ^ k * 2 ^ q := by
    rw [zpow_add₀ two_ne_zero, mul_comm, zpow_natCast]
  rcases lt_trichotomy t q with htq | htq | htq
  · right
    have hq' : q ≠ -1074 := by omega
    have hm : 2 ^ 52 ≤ m := hc.normal hq'
    have hy : x / 2 ^ q < 2 ^ 52 := by
      rw [div_lt_iff₀ hq, ← hsplit 52]
      exact hlt.trans_le (hpow (by push_cast; omega))
    have hm : m = 2 ^ 52 := by
      have := h.low.trans_lt hy
      have := reach_le m q
      have : (m : ℚ) < 2 ^ 52 + 1 := by linarith
      have : m < 2 ^ 52 + 1 := by exact_mod_cast this
      omega
    refine ⟨?_, hm, hq'⟩
    by_contra hne
    have hy : x / 2 ^ q < 2 ^ 51 := by
      rw [div_lt_iff₀ hq, ← hsplit 51]
      exact hlt.trans_le (hpow (by push_cast; omega))
    have := h.low.trans_lt hy
    have := reach_le m q
    rw [hm] at *
    norm_num at *
    linarith
  · exact .inl htq
  · have hy : 2 ^ 53 ≤ x / 2 ^ q := by
      rw [le_div_iff₀ hq, ← hsplit 53]
      have hmin : t ≠ -1074 := by have := hc.le; omega
      exact (hpow (by push_cast; omega)).trans (hge.resolve_left hmin)
    have := hy.trans h.high
    have hm : (m : ℚ) + 1 ≤ 2 ^ 53 := by exact_mod_cast hc.lt
    norm_num at *
    linarith

theorem roundedMantissa_of_near {n d m : ℕ} (hd : 0 < d) (hlow : (m : ℚ) - 1 / 2 ≤ n / d)
    (hhigh : (n : ℚ) / d ≤ m + 1 / 2)
    (heven : m % 2 = 0 ∨ (m : ℚ) - 1 / 2 < n / d ∧ (n : ℚ) / d < m + 1 / 2) :
    (quotient n d).roundedMantissa = m := by
  have hd' : (0 : ℚ) < d := by exact_mod_cast hd
  rw [le_div_iff₀ hd'] at hlow
  rw [div_le_iff₀ hd'] at hhigh
  rw [lt_div_iff₀ hd', div_lt_iff₀ hd'] at heven
  apply roundedMantissa_eq hd
  · have : (2 * (d * m) : ℚ) ≤ 2 * n + d := by linarith
    exact_mod_cast this
  · have : (2 * n : ℚ) ≤ 2 * (d * m) + d := by linarith
    exact_mod_cast this
  · refine heven.imp_right fun ⟨hlow, hhigh⟩ => ⟨?_, ?_⟩
    · have : (2 * (d * m) : ℚ) < 2 * n + d := by linarith
      exact_mod_cast this
    · have : (2 * n : ℚ) < 2 * (d * m) + d := by linarith
      exact_mod_cast this

/-! ## Rounding -/

/-- The exponent that a number between `m * 2 ^ e` and `(m + 1) * 2 ^ e` is rounded at. -/
def target (m : ℕ) (e : ℤ) : ℤ := Format.binary64.targetExponent (totalExponent m e)

theorem target_eq (m : ℕ) (e : ℤ) : target m e = max (m.log2 + 1 + e - 53) (-1074) := rfl

theorem shiftToTargetExponent_quotient (hd : 0 < d) (he : e ≤ target (n / d) e) :
    shiftToTargetExponent Format.binary64 (n / d) e (accuracyOfFraction (n % d) d) =
      (quotient n (d * 2 ^ (target (n / d) e - e).toNat), target (n / d) e) := by
  have ht : e + ((target (n / d) e - e).toNat : ℤ) = target (n / d) e := by omega
  exact Prod.ext (shiftRight_quotient hd _) ht

theorem lt_two_zpow_target (hd : 0 < d) (e : ℤ) :
    (n / d * 2 ^ e : ℚ) < 2 ^ (target (n / d) e + 53) := by
  have hd' : (0 : ℚ) < d := by exact_mod_cast hd
  have hfloor : (n : ℚ) / d < 2 ^ ((n / d).log2 + 1) := by
    rw [div_lt_iff₀ hd', mul_comm]
    have hlog : n / d + 1 ≤ 2 ^ ((n / d).log2 + 1) := Nat.lt_log2_self
    exact_mod_cast (Nat.lt_mul_div_succ n hd).trans_le (Nat.mul_le_mul_left d hlog)
  calc (n / d * 2 ^ e : ℚ) < 2 ^ ((n / d).log2 + 1) * 2 ^ e := by gcongr
    _ = 2 ^ (((n / d).log2 + 1 : ℕ) + e : ℤ) := by rw [zpow_add₀ two_ne_zero, zpow_natCast]
    _ ≤ 2 ^ (target (n / d) e + 53) := by
      apply zpow_le_zpow_right₀ one_le_two
      rw [target_eq]
      push_cast
      omega

theorem two_zpow_target_le (hd : 0 < d) (he : e ≤ target (n / d) e) :
    target (n / d) e = -1074 ∨ 2 ^ (target (n / d) e + 52) ≤ (n / d * 2 ^ e : ℚ) := by
  rw [target_eq] at *
  by_cases ht : (n / d).log2 + 1 + e - 53 ≤ -1074
  · exact .inl (max_eq_right ht)
  · right
    rw [max_eq_left (by omega)] at he ⊢
    have hpos : n / d ≠ 0 := by
      intro h0
      rw [h0, Nat.log2_zero] at he
      omega
    have hfloor : (2 : ℚ) ^ (n / d).log2 ≤ n / d := by
      rw [le_div_iff₀ (by exact_mod_cast hd)]
      exact_mod_cast (Nat.mul_le_mul_right d (Nat.log2_self_le hpos)).trans (Nat.div_mul_le_self n d)
    calc (2 : ℚ) ^ (((n / d).log2 : ℤ) + 1 + e - 53 + 52) = 2 ^ (n / d).log2 * 2 ^ e := by
          rw [← zpow_natCast, ← zpow_add₀ two_ne_zero]
          congr 1
          omega
      _ ≤ n / d * 2 ^ e := by gcongr

theorem shiftToTargetExponent_of_lt (hm : m < 2 ^ 53) (ht : -1074 ≤ t) :
    shiftToTargetExponent Format.binary64 m t .exact = (⟨m, false, false⟩, t) := by
  have hlog : m.log2 < 53 := by
    by_cases h0 : m = 0
    · rw [h0, Nat.log2_zero]
      decide
    · exact (Nat.log2_lt h0).2 hm
  have htarget : target m t ≤ t := by
    rw [target_eq]
    omega
  have hshift : (target m t - t).toNat = 0 := by omega
  change shiftToExponent m t .exact (target m t) = _
  rw [shiftToExponent, hshift]
  exact Prod.ext rfl (add_zero t)

theorem shiftToTargetExponent_two_pow (ht : -1074 ≤ t) :
    shiftToTargetExponent Format.binary64 (2 ^ 53) t .exact = (⟨2 ^ 52, false, false⟩, t + 1) := by
  have hshift : (target (2 ^ 53) t - t).toNat = 1 := by
    rw [target_eq, Nat.log2_two_pow]
    omega
  change shiftToExponent (2 ^ 53) t .exact (target (2 ^ 53) t) = _
  rw [shiftToExponent, hshift]
  rfl

theorem roundWithAccuracy_eq {a : ℕ} {acc : Accuracy} {em : ExtendedMantissa} (s : Sign)
    (hfirst : shiftToTargetExponent Format.binary64 a e acc = (em, t))
    (hlast : shiftToTargetExponent Format.binary64 em.roundedMantissa t .exact =
      (⟨m, false, false⟩, q)) (hm : 0 < m) :
    roundWithAccuracy Format.binary64 s a e acc = .finite s m q hm := by
  unfold roundWithAccuracy
  simp only [hfirst, hlast]
  rw [dif_neg hm.ne']

theorem div_two_zpow (n d : ℕ) (he : e ≤ t) :
    (n / d * 2 ^ e : ℚ) / 2 ^ t = n / (d * 2 ^ (t - e).toNat : ℕ) := by
  have hsplit : (2 : ℚ) ^ t = 2 ^ e * 2 ^ (t - e).toNat := by
    rw [← zpow_natCast, ← zpow_add₀ two_ne_zero]
    congr 1
    omega
  rw [hsplit]
  push_cast
  field_simp

/-- At the exponent of the double, what lies in its interval is rounded to its mantissa. -/
theorem roundedMantissa_shift (hd : 0 < d) (he : e ≤ q) (h : RoundsTo (n / d * 2 ^ e) m q) :
    (quotient n (d * 2 ^ (q - e).toNat)).roundedMantissa = m := by
  have hreach : (m : ℚ) - 1 / 2 ≤ m - reach m q := by linarith [reach_le m q]
  obtain ⟨hlow, hhigh, heven⟩ := h
  rw [div_two_zpow n d he] at hlow hhigh heven
  exact roundedMantissa_of_near (by positivity) (hreach.trans hlow) hhigh
    (heven.imp_right fun h => ⟨hreach.trans_lt h.1, h.2⟩)

/-- Just below a power of two, what lies in its interval is rounded to it at the exponent below. -/
theorem roundedMantissa_shift_pred (hd : 0 < d) (hq : q ≠ -1074) (he : e ≤ q - 1)
    (h : RoundsTo (n / d * 2 ^ e) (2 ^ 52) q) (hlt : (n / d * 2 ^ e : ℚ) < 2 ^ (q - 1 + 53)) :
    (quotient n (d * 2 ^ (q - 1 - e).toNat)).roundedMantissa = 2 ^ 53 := by
  have hdouble : ((n : ℚ) / d * 2 ^ e) / 2 ^ (q - 1) = 2 * (n / d * 2 ^ e / 2 ^ q) := by
    rw [zpow_sub₀ two_ne_zero, zpow_one]
    field_simp
  have hlow := h.low
  rw [reach, if_pos ⟨rfl, hq⟩] at hlow
  have hhigh : ((n : ℚ) / d * 2 ^ e) / 2 ^ (q - 1) < 2 ^ 53 := by
    rw [div_lt_iff₀ (by positivity), ← zpow_natCast, ← zpow_add₀ two_ne_zero, add_comm]
    exact hlt
  apply roundedMantissa_of_near (by positivity)
  · rw [← div_two_zpow n d he, hdouble]
    push_cast at hlow ⊢
    linarith
  · rw [← div_two_zpow n d he]
    push_cast
    linarith
  · exact .inl (by decide)

/-- A quotient is rounded to the double in whose interval it lies. -/
theorem roundWithAccuracy_quotient (s : Sign) (hd : 0 < d) (he : e ≤ target (n / d) e)
    (hc : IsCanonical m q) (h : RoundsTo (n / d * 2 ^ e) m q) :
    roundWithAccuracy Format.binary64 s (n / d) e (accuracyOfFraction (n % d) d) =
      .finite s m q hc.pos := by
  have hmin : -1074 ≤ target (n / d) e := le_max_right _ _
  have hlt := lt_two_zpow_target (n := n) hd e
  have hcases := target_cases hc h hmin hlt (two_zpow_target_le hd he)
  refine roundWithAccuracy_eq s (shiftToTargetExponent_quotient hd he) ?_ hc.pos
  generalize target (n / d) e = t at *
  rcases hcases with rfl | ⟨rfl, rfl, hq⟩
  · rw [roundedMantissa_shift hd he h]
    exact shiftToTargetExponent_of_lt hc.lt hc.le
  · rw [roundedMantissa_shift_pred hd hq he h hlt, shiftToTargetExponent_two_pow hmin,
      sub_add_cancel]

theorem roundsTo_self (m : ℕ) (q : ℤ) : RoundsTo (m * 2 ^ q) m q := by
  have hq : (m * 2 ^ q : ℚ) / 2 ^ q = m := mul_div_cancel_right₀ _ (by positivity)
  have hreach : 0 < reach m q := by
    unfold reach
    split <;> norm_num
  constructor
  · rw [hq]
    linarith
  · rw [hq]
    linarith
  · right
    rw [hq]
    constructor <;> linarith

theorem le_target_of_le {e : ℤ} (h : 2 ^ 52 ≤ m) : e ≤ target m e := by
  have hlog : 52 ≤ m.log2 := (Nat.le_log2 (by omega)).2 h
  rw [target_eq]
  omega

/-- Rounding of `n * 2 ^ e`. -/
theorem roundWithAccuracy_exact (s : Sign) (hn : 2 ^ 52 ≤ n) (hc : IsCanonical m q)
    (h : RoundsTo (n * 2 ^ e) m q) :
    roundWithAccuracy Format.binary64 s n e .exact = .finite s m q hc.pos := by
  have hone : n / 1 = n := Nat.div_one n
  have hexact : accuracyOfFraction (n % 1) 1 = .exact := if_pos (Nat.mod_one n)
  have := roundWithAccuracy_quotient s one_pos (e := e) (by rw [hone]; exact le_target_of_le hn) hc
    (by rwa [Nat.cast_one, div_one])
  rwa [hone, hexact] at this

/-- The quotient of two mantissas has enough bits. -/
theorem le_target_shiftLeft {m₁ m₂ : ℕ} {e₁ e₂ : ℤ} (h₁ : 0 < m₁) (h₂ : 0 < m₂)
    (hle : e ≤ max (totalExponent m₁ e₁ - totalExponent m₂ e₂ - 53) (-1074)) :
    e ≤ target ((m₁ <<< (e₁ - e₂ - e).toNat) / m₂) e := by
  by_cases hmin : e ≤ -1074
  · exact hmin.trans (le_max_right _ _)
  · apply le_target_of_le
    have hlog : m₂.log2 + 53 ≤ m₁.log2 + (e₁ - e₂ - e).toNat := by
      unfold totalExponent at hle
      omega
    rw [Nat.le_div_iff_mul_le h₂, Nat.shiftLeft_eq]
    calc 2 ^ 52 * m₂ ≤ 2 ^ 52 * 2 ^ (m₂.log2 + 1) := Nat.mul_le_mul_left _ Nat.lt_log2_self.le
      _ = 2 ^ (m₂.log2 + 53) := by ring
      _ ≤ 2 ^ (m₁.log2 + (e₁ - e₂ - e).toNat) := Nat.pow_le_pow_right two_pos hlog
      _ = 2 ^ m₁.log2 * 2 ^ (e₁ - e₂ - e).toNat := pow_add ..
      _ ≤ m₁ * 2 ^ (e₁ - e₂ - e).toNat := Nat.mul_le_mul_right _ (Nat.log2_self_le h₁.ne')

/-- A quotient of finite numbers is rounded to the double in whose interval it lies. -/
theorem div_finite {s₁ s₂ : Sign} {m₁ m₂ : ℕ} {e₁ e₂ : ℤ} (h₁ : 0 < m₁) (h₂ : 0 < m₂)
    (hc : IsCanonical m q) (h : RoundsTo (m₁ * 2 ^ e₁ / (m₂ * 2 ^ e₂)) m q) :
    UnpackedFloat.div Format.binary64 (.finite s₁ m₁ e₁ h₁) (.finite s₂ m₂ e₂ h₂) =
      .finite (s₁ / s₂) m q hc.pos := by
  change roundWithAccuracy Format.binary64 (s₁ / s₂) _ _ _ = _
  have hle := min_le_right (e₁ - e₂)
    (Format.binary64.targetExponent (totalExponent m₁ e₁ - totalExponent m₂ e₂))
  have hle' := min_le_left (e₁ - e₂)
    (Format.binary64.targetExponent (totalExponent m₁ e₁ - totalExponent m₂ e₂))
  generalize min (e₁ - e₂) (Format.binary64.targetExponent
    (totalExponent m₁ e₁ - totalExponent m₂ e₂)) = e at hle hle'
  refine roundWithAccuracy_quotient _ h₂ (le_target_shiftLeft h₁ h₂ hle) hc ?_
  have hshift : (2 : ℚ) ^ e₁ = 2 ^ (e₁ - e₂ - e).toNat * 2 ^ e * 2 ^ e₂ := by
    rw [← zpow_natCast, ← zpow_add₀ two_ne_zero, ← zpow_add₀ two_ne_zero]
    congr 1
    omega
  have hvalue : (m₁ * 2 ^ e₁ / (m₂ * 2 ^ e₂) : ℚ) =
      (m₁ <<< (e₁ - e₂ - e).toNat : ℕ) / m₂ * 2 ^ e := by
    rw [hshift, Nat.shiftLeft_eq]
    push_cast
    field_simp
  rwa [← hvalue]

/-! ## Doubles -/

theorem toNat_ofNat_of_lt {w k : ℕ} (hk : k < 2 ^ w) : (BitVec.ofNat w k).toNat = k := by
  rw [BitVec.toNat_ofNat]
  exact Nat.mod_eq_of_lt hk

/-- A canonical form without the implicit bit has the least exponent. -/
theorem unpack_subnormal (s : Sign) (hc : IsCanonical m q) (hm : m < 2 ^ 52) :
    UnpackedFloat.unpack Format.binary64
      (packComponents Format.binary64 s 0#11 (BitVec.ofNat 52 m)) = .finite s m q hc.pos := by
  have hpos := hc.pos
  obtain rfl : q = -1074 := by
    by_contra hne
    exact absurd (hc.normal hne) (not_le.2 hm)
  have hf0 : BitVec.ofNat 52 m ≠ 0#52 := by
    intro h
    have := toNat_ofNat_of_lt hm
    rw [h, BitVec.toNat_zero] at this
    omega
  rw [unpack_packComponents, if_neg (by decide), if_pos rfl, dif_neg hf0]
  simp only [toNat_ofNat_of_lt hm]

theorem unpack_normal (s : Sign) (hc : IsCanonical m q) (hm : 2 ^ 52 ≤ m) (hq : q ≤ 971) :
    UnpackedFloat.unpack Format.binary64 (packComponents Format.binary64 s
      (BitVec.ofNat 11 (q + 1075).toNat) (BitVec.ofNat 52 (m - 2 ^ 52))) =
        .finite s m q hc.pos := by
  have hle := hc.le
  have hlt := hc.lt
  have he := toNat_ofNat_of_lt (w := 11) (k := (q + 1075).toNat) (by omega)
  have hf := toNat_ofNat_of_lt (w := 52) (k := m - 2 ^ 52) (by omega)
  have hne {b : BitVec 11} (hb : b.toNat = 2047 ∨ b.toNat = 0) :
      BitVec.ofNat 11 (q + 1075).toNat ≠ b := by
    intro h
    rw [← h, he] at hb
    omega
  rw [unpack_packComponents, if_neg (hne (by decide)), if_neg (hne (by decide))]
  simp only [he, hf, UnpackedFloat.finite.injEq, true_and]
  omega

theorem unpack_pack_finite (s : Sign) (hc : IsCanonical m q) (hq : q ≤ 971) :
    UnpackedFloat.unpack Format.binary64 (UnpackedFloat.pack Format.binary64
      (.finite s m q hc.pos)) = .finite s m q hc.pos := by
  have hbits : ∃ e f, UnpackedFloat.unpack Format.binary64
      (packComponents Format.binary64 s e f) = .finite s m q hc.pos := by
    by_cases hm : m < 2 ^ 52
    · exact ⟨_, _, unpack_subnormal s hc hm⟩
    · exact ⟨_, _, unpack_normal s hc (not_lt.1 hm) hq⟩
  obtain ⟨e, f, h⟩ := hbits
  rw [← h]
  exact congrArg _ (pack_unpack_packComponents (by simp [h]))

/-- The bits of a finite double are those of its sign, its exponent and its mantissa. -/
theorem exists_bits {v : Float} {s : Sign} {hm : 0 < m} (h : unpacked v = .finite s m q hm) :
    ∃ e f : ℕ, e < 2047 ∧ f < 2 ^ 52 ∧
      v.toBits.toNat = s.toBitVec.toNat * 2 ^ 63 + e * 2 ^ 52 + f ∧
      (e = 0 ∧ m = f ∧ q = -1074 ∨ e ≠ 0 ∧ m = 2 ^ 52 + f ∧ q = e - 1075) := by
  obtain ⟨e, f, hbits, hu⟩ := exists_packComponents_of_unpacked h
  have he : e.toNat < 2 ^ 11 := e.isLt
  have hn : v.toBits.toNat = s.toBitVec.toNat * 2 ^ 63 + e.toNat * 2 ^ 52 + f.toNat := by
    rw [← UInt64.toNat_toBitVec, hbits, toNat_packComponents]
  rw [h, unpack_packComponents] at hu
  split at hu
  · split at hu <;> cases hu
  · next he1 =>
    have he1 : e.toNat ≠ 2 ^ 11 - 1 := fun h => he1 (BitVec.eq_of_toNat_eq h)
    refine ⟨e.toNat, f.toNat, by omega, f.isLt, ?_⟩
    split at hu
    · next he0 =>
      split at hu
      · cases hu
      · obtain ⟨-, rfl, rfl⟩ := UnpackedFloat.finite.inj hu
        exact ⟨hn, .inl ⟨congrArg BitVec.toNat he0, rfl, rfl⟩⟩
    · next he0 =>
      obtain ⟨-, rfl, rfl⟩ := UnpackedFloat.finite.inj hu
      exact ⟨hn, .inr ⟨fun h => he0 (BitVec.eq_of_toNat_eq h), rfl, rfl⟩⟩

theorem isCanonical_of_unpacked {v : Float} {s : Sign} {hm : 0 < m}
    (h : unpacked v = .finite s m q hm) : IsCanonical m q := by
  obtain ⟨e, f, he, hf, -, hcase⟩ := exists_bits h
  constructor <;> omega

/-- A quotient of doubles is the double in whose interval it lies. -/
theorem div_eq_of_roundsTo {a b v : Float} {m₁ m₂ : ℕ} {e₁ e₂ : ℤ} {h₁ : 0 < m₁} {h₂ : 0 < m₂}
    {hm : 0 < m} (ha : unpacked a = .finite .positive m₁ e₁ h₁)
    (hb : unpacked b = .finite .positive m₂ e₂ h₂) (hv : unpacked v = .finite .positive m q hm)
    (h : RoundsTo (m₁ * 2 ^ e₁ / (m₂ * 2 ^ e₂)) m q) : a / b = v := by
  have hdiv : UnpackedFloat.div Format.binary64 (unpacked a) (unpacked b) = unpacked v := by
    rw [ha, hb, hv]
    exact div_finite h₁ h₂ (isCanonical_of_unpacked hv) h
  have hpack := congrArg Float.Model.pack hdiv
  rw [pack_unpacked] at hpack
  exact congrArg Float.ofModel hpack

end Double
end SymCalc
