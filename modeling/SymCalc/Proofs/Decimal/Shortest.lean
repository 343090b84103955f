import Mathlib
import SymCalc.Proofs.Decimal.Reading

/-!
# The shortest decimal of a double

Every decimal that `Rounding.onGrid?` chooses lies in the interval of the double, and with seventeen
digits it chooses one (`Rounding.isSome_onGrid?`). So the shortest decimal of a double is read as
this double (`Double.toDouble_shortest`).
-/

namespace SymCalc

open Float.Model Float.Model.UnpackedFloat

/-! ## The interval of a double -/

namespace Rounding

variable {r : Rounding} {m n d count : ℕ} {q : ℤ}

/-- The interval of `m * 2 ^ q`, as it is computed from the bits. -/
def ofCanonical (m : ℕ) (q : ℤ) : Rounding := ofBinary m q (decide (m = 2 ^ 52 ∧ q ≠ -1074))

theorem ofBits_eq {v : Float} {hm : 0 < m}
    (h : Double.unpacked v = .finite .positive m q hm) : ofBits v.toBits = ofCanonical m q := by
  obtain ⟨e, f, he, hf, hbits, hcase⟩ := Double.exists_bits h
  have hbits : v.toBits.toNat = e * 2 ^ 52 + f := by simpa [Sign.toBitVec] using hbits
  have hfraction : v.toBits.toNat % Nat.pow 2 52 = f := by
    change v.toBits.toNat % 2 ^ 52 = f
    omega
  have hexponent : v.toBits.toNat / Nat.pow 2 52 % Nat.pow 2 11 = e := by
    change v.toBits.toNat / 2 ^ 52 % 2 ^ 11 = e
    omega
  unfold ofBits ofCanonical
  rw [hfraction, hexponent]
  rcases hcase with ⟨rfl, rfl, rfl⟩ | ⟨h0, rfl, rfl⟩
  · rw [decide_eq_false (by simp)]
    rfl
  · rw [if_neg (by simpa using h0), Nat.add_comm]
    congr 1
    rw [Bool.eq_iff_iff]
    simp
    omega

theorem scale_pos (m : ℕ) (q : ℤ) : 0 < (ofCanonical m q).scale := Nat.pow_pos two_pos

theorem value_pos (hm : 0 < m) (q : ℤ) : 0 < (ofCanonical m q).value :=
  Nat.mul_pos (by omega) (Nat.pow_pos two_pos)

/-- A multiple of a quarter of the last place, over the denominator. -/
theorem quarter_div_scale (n m : ℕ) (q : ℤ) :
    ((n * Nat.pow 2 (q - 2).toNat : ℕ) : ℚ) / (ofCanonical m q).scale = n / 4 * 2 ^ q := by
  have hscale : (ofCanonical m q).scale = 2 ^ (2 - q).toNat := rfl
  have hsplit : (2 : ℚ) ^ q * 2 ^ (2 - q).toNat = 4 * 2 ^ (q - 2).toNat := by
    rw [show (4 : ℚ) = 2 ^ 2 by norm_num, ← zpow_natCast, ← zpow_natCast, ← zpow_natCast,
      ← zpow_add₀ two_ne_zero, ← zpow_add₀ two_ne_zero]
    congr 1
    push_cast
    omega
  rw [hscale, Nat.pow_eq]
  push_cast
  rw [div_eq_iff (by positivity), mul_assoc, hsplit]
  ring

theorem value_div_scale (m : ℕ) (q : ℤ) :
    ((ofCanonical m q).value : ℚ) / (ofCanonical m q).scale = m * 2 ^ q := by
  refine (quarter_div_scale (4 * m) m q).trans ?_
  push_cast
  ring

theorem high_div_scale (m : ℕ) (q : ℤ) :
    ((ofCanonical m q).high : ℚ) / (ofCanonical m q).scale = (m + 1 / 2) * 2 ^ q := by
  refine (quarter_div_scale (4 * m + 2) m q).trans ?_
  push_cast
  ring

theorem low_div_scale (hm : 0 < m) (q : ℤ) :
    ((ofCanonical m q).low : ℚ) / (ofCanonical m q).scale = (m - Double.reach m q) * 2 ^ q := by
  refine (quarter_div_scale _ m q).trans ?_
  unfold Double.reach
  by_cases h : m = 2 ^ 52 ∧ q ≠ -1074
  · rw [if_pos (decide_eq_true h), if_pos h, Nat.cast_sub (by omega)]
    push_cast
    ring
  · rw [if_neg (by simpa using h), if_neg h, Nat.cast_sub (by omega)]
    push_cast
    ring

/-- What is found in the interval rounds to the double. -/
theorem contains_iff (hm : 0 < m) (hd : 0 < d) :
    (ofCanonical m q).contains n d ↔ Double.RoundsTo (n / d) m q := by
  have hs : (0 : ℚ) < (ofCanonical m q).scale := by exact_mod_cast scale_pos m q
  have hd : (0 : ℚ) < d := by exact_mod_cast hd
  have hq : (0 : ℚ) < 2 ^ q := by positivity
  have hlow := low_div_scale hm q
  have hhigh := high_div_scale m q
  rw [div_eq_iff hs.ne'] at hlow hhigh
  have hle (a b c e : ℕ) : a * b ≤ c * e ↔ (a * b : ℚ) ≤ c * e := by exact_mod_cast Iff.rfl
  have hlt (a b c e : ℕ) : a * b < c * e ↔ (a * b : ℚ) < c * e := by exact_mod_cast Iff.rfl
  have hlowle : (ofCanonical m q).low * d ≤ n * (ofCanonical m q).scale ↔
      m - Double.reach m q ≤ (n / d : ℚ) / 2 ^ q := by
    rw [hle, hlow, le_div_iff₀ hq, le_div_iff₀ hd, mul_right_comm, mul_le_mul_iff_left₀ hs]
  have hlowlt : (ofCanonical m q).low * d < n * (ofCanonical m q).scale ↔
      m - Double.reach m q < (n / d : ℚ) / 2 ^ q := by
    rw [hlt, hlow, lt_div_iff₀ hq, lt_div_iff₀ hd, mul_right_comm, mul_lt_mul_iff_left₀ hs]
  have hhighle : n * (ofCanonical m q).scale ≤ (ofCanonical m q).high * d ↔
      (n / d : ℚ) / 2 ^ q ≤ m + 1 / 2 := by
    rw [hle, hhigh, div_le_iff₀ hq, div_le_iff₀ hd, mul_right_comm, mul_le_mul_iff_left₀ hs]
  have hhighlt : n * (ofCanonical m q).scale < (ofCanonical m q).high * d ↔
      (n / d : ℚ) / 2 ^ q < m + 1 / 2 := by
    rw [hlt, hhigh, div_lt_iff₀ hq, div_lt_iff₀ hd, mul_right_comm, mul_lt_mul_iff_left₀ hs]
  have hclosed : (ofCanonical m q).closed = (m % 2 == 0) := rfl
  unfold contains
  rw [hclosed]
  split
  · next heven =>
    rw [Bool.and_eq_true, decide_eq_true_iff, decide_eq_true_iff, hlowle, hhighle]
    exact ⟨fun h => ⟨h.1, h.2, .inl (eq_of_beq heven)⟩, fun h => ⟨h.low, h.high⟩⟩
  · next hodd =>
    rw [Bool.and_eq_true, decide_eq_true_iff, decide_eq_true_iff, hlowlt, hhighlt]
    exact ⟨fun h => ⟨h.1.le, h.2.le, .inr h⟩, fun h => h.even.resolve_left (by simpa using hodd)⟩

/-! ## Multiples of a power of ten -/

/-- A number is at least the power of ten at its first digit. -/
theorem ten_pow_le_of_length {k : ℕ} (hn : 0 < n) (hk : (Nat.toDigits 10 n).length = k) :
    10 ^ (k - 1) ≤ n := by
  by_cases h1 : k = 1
  · rw [h1]
    exact hn
  · have hpos : 0 < k := hk ▸ Nat.length_toDigits_pos
    have hlen : ¬ (Nat.toDigits 10 n).length ≤ k - 1 := by omega
    rwa [Nat.length_toDigits_le_iff (by decide) (by omega), not_lt] at hlen

theorem ten_zpow_order_le (hs : 0 < r.scale) (hv : 0 < r.value) :
    (10 : ℚ) ^ (r.order - 1) ≤ r.value / r.scale := by
  have hs' : (0 : ℚ) < r.scale := by exact_mod_cast hs
  have hv' : (0 : ℚ) < r.value := by exact_mod_cast hv
  unfold order
  split
  · next hle =>
    have hlow := ten_pow_le_of_length (Nat.div_pos hle hs) rfl
    have hpos : 0 < (Nat.toDigits 10 (r.value / r.scale)).length := Nat.length_toDigits_pos
    generalize (Nat.toDigits 10 (r.value / r.scale)).length = k at *
    rw [show (k : ℤ) - 1 = (k - 1 : ℕ) by omega, zpow_natCast, le_div_iff₀ hs']
    exact_mod_cast (Nat.mul_le_mul_right _ hlow).trans (Nat.div_mul_le_self _ _)
  · have hhigh := (Nat.length_toDigits_le_iff (b := 10) (n := r.scale / r.value) (by decide)
      Nat.length_toDigits_pos).1 le_rfl
    generalize (Nat.toDigits 10 (r.scale / r.value)).length = k at *
    rw [show (1 : ℤ) - k - 1 = -k by ring, zpow_neg, zpow_natCast, inv_le_comm₀ (by positivity)
      (by positivity), inv_div, div_le_iff₀ hv']
    exact_mod_cast ((Nat.div_lt_iff_lt_mul hv).1 hhigh).le

/-- What is chosen lies in the interval. -/
theorem contains_of_onGrid? {a : Decimal} (h : r.onGrid? count = some a) :
    r.contains a.digits (10 ^ a.places) := by
  simp only [onGrid?] at h
  split at h
  · cases h
  · next h₁ _ =>
    cases h
    exact h₁
  · next _ h₂ =>
    cases h
    exact h₂
  · next h₁ h₂ =>
    split at h
    · cases h
      exact h₁
    · cases h
      exact h₂

/-- What lies between the ends of the interval rounds to the double. -/
theorem roundsTo_of_lt {x : ℚ} (hlow : (m - Double.reach m q) * 2 ^ q < x)
    (hhigh : x < (m + 1 / 2) * 2 ^ q) : Double.RoundsTo x m q := by
  have hq : (0 : ℚ) < 2 ^ q := by positivity
  rw [← lt_div_iff₀ hq] at hlow
  rw [← div_lt_iff₀ hq] at hhigh
  exact ⟨hlow.le, hhigh.le, .inr ⟨hlow, hhigh⟩⟩

/-- One of two neighbours of `m * 2 ^ q` rounds to it if they are not too far apart. -/
theorem roundsTo_or_roundsTo {a b : ℚ} (ha : a ≤ m * 2 ^ q) (hb : m * 2 ^ q < b)
    (hgap : b - a < 2 * Double.reach m q * 2 ^ q) :
    Double.RoundsTo a m q ∨ Double.RoundsTo b m q := by
  have hq : (0 : ℚ) < 2 ^ q := by positivity
  have hreach : Double.reach m q * 2 ^ q ≤ 1 / 2 * 2 ^ q := by
    gcongr
    exact Double.reach_le m q
  by_cases hnear : (m - Double.reach m q) * 2 ^ q < a
  · exact .inl (roundsTo_of_lt hnear (by linarith))
  · exact .inr (roundsTo_of_lt (by linarith) (by linarith))

theorem unit_div_parts (power : ℤ) :
    ((Nat.pow 10 power.toNat : ℕ) : ℚ) / (Nat.pow 10 (-power).toNat : ℕ) = 10 ^ power := by
  rw [Nat.pow_eq, Nat.pow_eq]
  push_cast
  rw [div_eq_iff (by positivity), ← zpow_natCast, ← zpow_natCast, ← zpow_add₀ (by norm_num)]
  congr 1
  omega

/-- A neighbour is chosen if the neighbours are not too far apart. -/
theorem isSome_onGrid?_of_lt (hm : 0 < m)
    (hg : (10 : ℚ) ^ ((ofCanonical m q).order - count) < 2 * Double.reach m q * 2 ^ q) :
    ((ofCanonical m q).onGrid? count).isSome := by
  have hs := scale_pos m q
  have hs' : (0 : ℚ) < (ofCanonical m q).scale := by exact_mod_cast hs
  simp only [onGrid?]
  generalize (ofCanonical m q).order - count = power at hg ⊢
  rw [← unit_div_parts] at hg
  have hu : 0 < Nat.pow 10 power.toNat := Nat.pow_pos (by decide)
  have hp : 0 < Nat.pow 10 (-power).toNat := Nat.pow_pos (by decide)
  generalize Nat.pow 10 power.toNat = unit at *
  generalize Nat.pow 10 (-power).toNat = parts at *
  have hp' : (0 : ℚ) < parts := by exact_mod_cast hp
  set below := (ofCanonical m q).value * parts / ((ofCanonical m q).scale * unit)
  have hfloor : below * unit * (ofCanonical m q).scale ≤ (ofCanonical m q).value * parts := by
    rw [mul_assoc, mul_comm unit]
    exact Nat.div_mul_le_self _ _
  have hceil : (ofCanonical m q).value * parts < (below + 1) * unit * (ofCanonical m q).scale := by
    rw [mul_assoc, mul_comm unit]
    exact (Nat.div_lt_iff_lt_mul (Nat.mul_pos hs hu)).1 (Nat.lt_succ_self below)
  have hnear := roundsTo_or_roundsTo (m := m) (q := q) (a := (below * unit : ℕ) / (parts : ℚ))
    (b := ((below + 1) * unit : ℕ) / (parts : ℚ))
    (by rw [← value_div_scale, div_le_div_iff₀ hp' hs']; exact_mod_cast hfloor)
    (by rw [← value_div_scale, div_lt_div_iff₀ hs' hp']; exact_mod_cast hceil)
    (by rw [← sub_div, add_mul, Nat.cast_add, add_sub_cancel_left, one_mul]; exact hg)
  rw [← contains_iff hm hp, ← contains_iff hm hp] at hnear
  split
  · next h₁ h₂ =>
    rw [h₁, h₂] at hnear
    simp at hnear
  · rfl
  · rfl
  · split <;> rfl

/-- Seventeen digits are always enough. -/
theorem isSome_onGrid? (hc : Double.IsCanonical m q) :
    ((ofCanonical m q).onGrid? 17).isSome := by
  apply isSome_onGrid?_of_lt hc.pos
  have hvalue := ten_zpow_order_le (scale_pos m q) (value_pos hc.pos q)
  rw [value_div_scale] at hvalue
  have hq : (0 : ℚ) < 2 ^ q := by positivity
  have hsplit : (10 : ℚ) ^ ((ofCanonical m q).order - (17 : ℕ)) =
      10 ^ ((ofCanonical m q).order - 1) / 10 ^ 16 := by
    rw [← zpow_natCast, ← zpow_sub₀ (by norm_num)]
    congr 1
    push_cast
    ring
  have hm : (m : ℚ) < 2 * Double.reach m q * 10 ^ 16 := by
    unfold Double.reach
    split
    · next h =>
      rw [h.1]
      norm_num
    · have : (m : ℚ) < 2 ^ 53 := by exact_mod_cast hc.lt
      norm_num at *
      linarith
  rw [hsplit, div_lt_iff₀ (by positivity)]
  calc (10 : ℚ) ^ ((ofCanonical m q).order - 1) ≤ m * 2 ^ q := hvalue
    _ < 2 * Double.reach m q * 10 ^ 16 * 2 ^ q := by gcongr
    _ = 2 * Double.reach m q * 2 ^ q * 10 ^ 16 := by ring

end Rounding

/-! ## The shortest decimal -/

theorem Decimal.normalize_value (d : Decimal) :
    (d.normalize.digits : ℚ) / 10 ^ d.normalize.places = d.digits / 10 ^ d.places := by
  induction d using Decimal.normalize.induct with
  | case1 d => rw [normalize]
  | case2 d p h ih =>
    rw [normalize, if_pos h, ih]
    have hd : (d : ℚ) = (d / 10 : ℕ) * 10 := by
      exact_mod_cast (Nat.div_mul_cancel (Nat.dvd_of_mod_eq_zero h)).symm
    simp only
    rw [hd, pow_succ, mul_div_mul_right _ _ (by norm_num)]
  | case3 d p h => rw [normalize, if_neg h]

/-- The shortest decimal lies in the interval of the double. -/
theorem Decimal.roundsTo_shortest {v : Float} {m : ℕ} {q : ℤ} {hm : 0 < m}
    (h : Double.unpacked v = .finite .positive m q hm) :
    Double.RoundsTo ((shortest v.toBits).digits / 10 ^ (shortest v.toBits).places) m q := by
  have hsome : ((List.range 17).findSome? fun n =>
      (Rounding.ofCanonical m q).onGrid? (n + 1)).isSome :=
    List.findSome?_isSome_iff.2
      ⟨16, List.mem_range.2 (by decide), Rounding.isSome_onGrid? (Double.isCanonical_of_unpacked h)⟩
  obtain ⟨a, ha⟩ := Option.isSome_iff_exists.1 hsome
  obtain ⟨n, -, hn⟩ := List.exists_of_findSome?_eq_some ha
  have hshortest : shortest v.toBits = a.normalize := by
    simp only [shortest, Rounding.ofBits_eq h, ha, Option.getD_some]
  rw [hshortest, normalize_value]
  have := Rounding.contains_of_onGrid? hn
  rw [Rounding.contains_iff hm (by positivity)] at this
  exact_mod_cast this

/-- The shortest decimal of a double is read as this double. -/
theorem Double.toDouble_shortest {v : Float} {m : ℕ} {q : ℤ} {hm : 0 < m}
    (h : unpacked v = .finite .positive m q hm) : (Decimal.shortest v.toBits).toDouble = v := by
  have hrounds := Decimal.roundsTo_shortest h
  exact toDouble_eq_of_roundsTo h (hrounds.pos hm) hrounds

end SymCalc
