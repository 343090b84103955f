import Mathlib
import SymCalc.Proofs.Decimal.Rounding
import SymCalc.Proofs.Scalar.Lawful

/-!
# Doubles obey the laws of arithmetic

* `Functions`: functions in place of the exponential, the logarithm, the cosine, the sine and the
  tangent of doubles, about which nothing is known here;
* `Functions.scalar`: doubles with these functions.

Doubles with any functions are a `LawfulScalar`. The order of doubles is that of their places, which
consist of sign, exponent and mantissa (`Double.compare_eq`).
-/

namespace SymCalc

open Float.Model Float.Model.UnpackedFloat

namespace Double

variable {v w v' w' : Float} {x y : UnpackedFloat}

/-! ## Order -/

/-- The sign of a number, and whether it is infinite. What is no number comes last. -/
def kind : UnpackedFloat → ℤ
  | .infinity .negative => -2
  | .finite .negative _ _ _ => -1
  | .zero _ => 0
  | .finite .positive _ _ _ => 1
  | .infinity .positive => 2
  | .notANumber => 3

/-- The exponent, with the sign of the number. -/
def signedExponent : UnpackedFloat → ℤ
  | .finite .negative _ q _ => -q
  | .finite .positive _ q _ => q
  | _ => 0

/-- The mantissa, with the sign of the number. -/
def signedMantissa : UnpackedFloat → ℤ
  | .finite .negative m _ _ => -m
  | .finite .positive m _ _ => m
  | _ => 0

/-- The order of doubles, in which what is no number comes last. -/
def comparePlaces : Float → Float → Ordering :=
  compareLex (compareOn fun v => kind (unpacked v))
    (compareLex (compareOn fun v => signedExponent (unpacked v))
      (compareOn fun v => signedMantissa (unpacked v)))

theorem compare_neg_neg (a b : ℤ) : compare (-a) (-b) = (compare a b).swap := by
  rw [Int.compare_swap]
  rcases Int.lt_trichotomy a b with h | h | h
  · rw [Int.compare_eq_gt.2 h, Int.compare_eq_gt.2 (Int.neg_lt_neg h)]
  · rw [h, Int.compare_eq_eq.2 rfl, Int.compare_eq_eq.2 rfl]
  · rw [Int.compare_eq_lt.2 h, Int.compare_eq_lt.2 (Int.neg_lt_neg h)]

theorem compare_natCast (m n : ℕ) : compare (m : ℤ) n = compare m n := by
  rcases lt_trichotomy m n with h | h | h
  · rw [Nat.compare_eq_lt.2 h, Int.compare_eq_lt.2 (by exact_mod_cast h)]
  · rw [h, Nat.compare_eq_eq.2 rfl, Int.compare_eq_eq.2 rfl]
  · rw [Nat.compare_eq_gt.2 h, Int.compare_eq_gt.2 (by exact_mod_cast h)]

theorem comparePlaces_eq (hv : v.isNaN = false) (hw : w.isNaN = false) :
    (unpacked v).compare (unpacked w) = some (comparePlaces v w) := by
  change (unpacked v).isNaN = false at hv
  change (unpacked w).isNaN = false at hw
  simp only [comparePlaces, compareLex, compareOn]
  cases hx : unpacked v with
  | notANumber => rw [hx] at hv; cases hv
  | infinity s =>
    cases hy : unpacked w with
    | notANumber => rw [hy] at hw; cases hw
    | infinity s' | zero s' => cases s <;> cases s' <;> rfl
    | finite s' m' q' hm' => cases s <;> cases s' <;> rfl
  | zero s =>
    cases hy : unpacked w with
    | notANumber => rw [hy] at hw; cases hw
    | infinity s' => cases s' <;> rfl
    | zero s' => rfl
    | finite s' m' q' hm' => cases s' <;> rfl
  | finite s m q hm =>
    cases hy : unpacked w with
    | notANumber => rw [hy] at hw; cases hw
    | infinity s' => cases s <;> cases s' <;> rfl
    | zero s' => cases s <;> rfl
    | finite s' m' q' hm' =>
      cases s with
      | negative =>
        cases s' with
        | negative => simp [UnpackedFloat.compare, kind, signedExponent, signedMantissa,
            compare_neg_neg, compare_natCast, Ordering.swap_then]
        | positive => rfl
      | positive =>
        cases s' with
        | negative => rfl
        | positive => simp [UnpackedFloat.compare, kind, signedExponent, signedMantissa,
            compare_natCast]

theorem kind_of_isNaN (h : v.isNaN) : kind (unpacked v) = 3 := by
  change (unpacked v).isNaN at h
  cases hx : unpacked v with
  | notANumber => rfl
  | infinity | zero | finite => rw [hx] at h; cases h

theorem kind_lt_of_not_isNaN (h : v.isNaN = false) : kind (unpacked v) < 3 := by
  change (unpacked v).isNaN = false at h
  cases hx : unpacked v with
  | notANumber => rw [hx] at h; cases h
  | infinity s | finite s => cases s <;> simp [kind]
  | zero => simp [kind]

theorem compare_eq (v w : Float) : Scalar.compare v w = comparePlaces v w := by
  have hnum (v : Float) : Scalar.isNumber v = !v.isNaN := rfl
  have hlt : Scalar.lt v w = ((unpacked v).compare (unpacked w) == some .lt) := by
    rw [Bool.eq_iff_iff]
    exact decide_eq_true_iff.trans lt_iff
  have heq : (v == w) = ((unpacked v).compare (unpacked w) == some .eq) := rfl
  rw [Scalar.compare, hnum, hnum, hlt, heq]
  cases hv : v.isNaN with
  | true =>
    cases hw : w.isNaN with
    | true =>
      obtain rfl := isNaN_iff.1 hv
      obtain rfl := isNaN_iff.1 hw
      simp [comparePlaces, compareLex, compareOn]
    | false =>
      have hgt : compare (kind (unpacked v)) (kind (unpacked w)) = .gt := by
        rw [kind_of_isNaN hv]
        exact Int.compare_eq_gt.2 (kind_lt_of_not_isNaN hw)
      simp only [comparePlaces, compareLex, compareOn, hgt]
      rfl
  | false =>
    cases hw : w.isNaN with
    | true =>
      have hlt : compare (kind (unpacked v)) (kind (unpacked w)) = .lt := by
        rw [kind_of_isNaN hw]
        exact Int.compare_eq_lt.2 (kind_lt_of_not_isNaN hv)
      simp only [comparePlaces, compareLex, compareOn, hlt]
      rfl
    | false =>
      rw [comparePlaces_eq hv hw]
      cases comparePlaces v w <;> rfl

theorem transCmp_compare : Std.TransCmp (Scalar.compare (α := Float)) := by
  have h : Scalar.compare (α := Float) = comparePlaces := funext₂ compare_eq
  rw [h]
  unfold comparePlaces
  infer_instance

theorem beq_comm (v w : Float) : (v == w) = (w == v) := by
  rw [Bool.eq_iff_iff, beq_iff, beq_iff]
  have h (x y : UnpackedFloat) (hxy : x.compare y = some .eq) : y.compare x = some .eq := by
    rcases eq_or_zero_of_compare hxy with rfl | ⟨s, s', rfl, rfl⟩
    · exact hxy
    · rfl
  exact ⟨h _ _, h _ _⟩

/-! ## Signs -/

theorem compare_neg (x y : UnpackedFloat) :
    x.neg.compare y.neg = (x.compare y).map Ordering.swap := by
  cases x with
  | notANumber => rfl
  | infinity s =>
    cases y with
    | notANumber => rfl
    | infinity s' | zero s' | finite s' => cases s <;> cases s' <;> rfl
  | zero s =>
    cases y with
    | notANumber | zero => rfl
    | infinity s' | finite s' => cases s' <;> rfl
  | finite s m q hm =>
    cases y with
    | notANumber => cases s <;> rfl
    | infinity s' => cases s <;> cases s' <;> rfl
    | zero s' => cases s <;> rfl
    | finite s' => cases s <;> cases s' <;> simp [UnpackedFloat.neg, UnpackedFloat.compare]

theorem neg_beq_neg (v w : Float) : (-v == -w) = (v == w) := by
  rw [Bool.eq_iff_iff, beq_iff, beq_iff, unpacked_neg, unpacked_neg, compare_neg]
  cases (unpacked v).compare (unpacked w) with
  | none => rfl
  | some o => cases o <;> decide

theorem zero_lt_neg_iff (v : Float) : 0 < -v ↔ v < 0 := by
  rw [lt_iff, lt_iff, unpacked_neg, unpacked_zero]
  cases unpacked v with
  | notANumber | zero => rfl
  | infinity s | finite s => cases s <;> rfl

theorem isFinite_neg (v : Float) : (-v).isFinite = v.isFinite := by
  change (unpacked (-v)).isFinite = (unpacked v).isFinite
  rw [unpacked_neg]
  cases unpacked v <;> rfl

/-! ## Arithmetic -/

theorem add_eq_of_unpacked (h : UnpackedFloat.add Format.binary64 (unpacked v) (unpacked w) =
    unpacked v') : v + w = v' := by
  have hpack := congrArg Float.Model.pack h
  rw [pack_unpacked] at hpack
  exact congrArg Float.ofModel hpack

theorem mul_eq_of_unpacked (h : UnpackedFloat.mul Format.binary64 (unpacked v) (unpacked w) =
    unpacked v') : v * w = v' := by
  have hpack := congrArg Float.Model.pack h
  rw [pack_unpacked] at hpack
  exact congrArg Float.ofModel hpack

theorem div_eq_of_unpacked (h : UnpackedFloat.div Format.binary64 (unpacked v) (unpacked w) =
    unpacked v') : v / w = v' := by
  have hpack := congrArg Float.Model.pack h
  rw [pack_unpacked] at hpack
  exact congrArg Float.ofModel hpack

theorem unpacked_one : unpacked 1 = .finite .positive (2 ^ 52) (-52) (by decide) := rfl

theorem one_mul (v : Float) : 1 * v = v := by
  apply mul_eq_of_unpacked
  rw [unpacked_one]
  cases h : unpacked v with
  | notANumber => rfl
  | infinity s | zero s => cases s <;> rfl
  | finite s m q hm =>
    have hc := isCanonical_of_unpacked h
    have hvalue : ((2 ^ 52 * m : ℕ) * 2 ^ (-52 + q) : ℚ) = m * 2 ^ q := by
      rw [zpow_add₀ two_ne_zero]
      push_cast
      ring
    have hround := roundWithAccuracy_exact s (n := 2 ^ 52 * m) (e := -52 + q)
      (Nat.le_mul_of_pos_right _ hm) hc (by rw [hvalue]; exact roundsTo_self m q)
    cases s <;> exact hround

theorem div_one (v : Float) : v / 1 = v := by
  apply div_eq_of_unpacked
  rw [unpacked_one]
  cases h : unpacked v with
  | notANumber => rfl
  | infinity s | zero s => cases s <;> rfl
  | finite s m q hm =>
    have hc := isCanonical_of_unpacked h
    have hvalue : (m * 2 ^ q / ((2 ^ 52 : ℕ) * 2 ^ (-52 : ℤ)) : ℚ) = m * 2 ^ q := by
      norm_num
    rw [div_finite hm _ hc (by rw [hvalue]; exact roundsTo_self m q)]
    cases s <;> rfl

theorem zero_add (h : v ≠ -0) : 0 + v = v := by
  apply add_eq_of_unpacked
  rw [unpacked_zero]
  cases hv : unpacked v with
  | zero s =>
    cases s with
    | positive => rfl
    | negative => exact absurd (unpacked_injective (hv.trans unpacked_neg_zero.symm)) h
  | notANumber | infinity | finite => rfl

theorem sub_eq_add_neg (v w : Float) : v - w = v + -w := by
  have h : UnpackedFloat.sub Format.binary64 (unpacked v) (unpacked w) =
      UnpackedFloat.add Format.binary64 (unpacked v) (unpacked (-w)) := by
    rw [unpacked_neg]
    cases unpacked v with
    | notANumber => cases unpacked w <;> rfl
    | infinity s | zero s => cases unpacked w <;> rfl
    | finite s m q hm =>
      cases unpacked w with
      | notANumber | infinity | zero => rfl
      | finite s' m' q' hm' =>
        have happly (k : ℕ) : (-s').apply k = -s'.apply k := by cases s' <;> simp [Sign.apply]
        simp only [UnpackedFloat.sub, UnpackedFloat.add, UnpackedFloat.neg, happly,
          Int.sub_eq_add_neg]
  exact congrArg (fun x => Float.ofModel (Float.Model.pack x)) h

/-! ## The sign of a zero -/

/-- Whether two results differ at most in the sign of a zero or of an infinite number. -/
def SameUpToSign (x y : UnpackedFloat) : Prop :=
  x = y ∨ (∃ s s', x = .zero s ∧ y = .zero s') ∨ ∃ s s', x = .infinity s ∧ y = .infinity s'

theorem agree_of_sameUpToSign (h : SameUpToSign x y) :
    Scalar.Agree (Float.ofModel (Float.Model.pack x)) (Float.ofModel (Float.Model.pack y)) := by
  rcases h with rfl | ⟨s, s', rfl, rfl⟩ | ⟨s, s', rfl, rfl⟩
  · refine ⟨rfl, fun hfin => beq_self ?_⟩
    change (UnpackedFloat.unpack Format.binary64 (UnpackedFloat.pack Format.binary64 x)).isFinite
      at hfin
    change (UnpackedFloat.unpack Format.binary64 (UnpackedFloat.pack Format.binary64 x)).isNaN =
      false
    generalize UnpackedFloat.unpack Format.binary64 _ = z at *
    cases z <;> first | rfl | cases hfin
  · cases s <;> cases s' <;> exact ⟨rfl, fun _ => rfl⟩
  · cases s <;> cases s' <;> exact ⟨rfl, fun h => absurd h Bool.false_ne_true⟩

theorem eq_or_zero_of_beq_unpacked (h : v == v') : unpacked v = unpacked v' ∨
    ∃ s s', unpacked v = .zero s ∧ unpacked v' = .zero s' :=
  eq_or_zero_of_compare (beq_iff.1 h)

theorem sameUpToSign_add {x' y' : UnpackedFloat}
    (hx : x = x' ∨ ∃ s s', x = .zero s ∧ x' = .zero s')
    (hy : y = y' ∨ ∃ s s', y = .zero s ∧ y' = .zero s') :
    SameUpToSign (UnpackedFloat.add Format.binary64 x y)
      (UnpackedFloat.add Format.binary64 x' y') := by
  have hzeros (s₁ s₂ s₃ s₄ : Sign) : SameUpToSign
      (UnpackedFloat.add Format.binary64 (.zero s₁) (.zero s₂))
      (UnpackedFloat.add Format.binary64 (.zero s₃) (.zero s₄)) := by
    refine .inr (.inl ?_)
    cases s₁ <;> cases s₂ <;> cases s₃ <;> cases s₄ <;> exact ⟨_, _, rfl, rfl⟩
  rcases hx with rfl | ⟨s, s', rfl, rfl⟩
  · rcases hy with rfl | ⟨s, s', rfl, rfl⟩
    · exact .inl rfl
    · cases x with
      | zero => exact hzeros ..
      | notANumber | infinity | finite => exact .inl rfl
  · rcases hy with rfl | ⟨s, s', rfl, rfl⟩
    · cases y with
      | zero => exact hzeros ..
      | notANumber | infinity | finite => exact .inl rfl
    · exact hzeros ..

theorem sameUpToSign_mul {x' y' : UnpackedFloat}
    (hx : x = x' ∨ ∃ s s', x = .zero s ∧ x' = .zero s')
    (hy : y = y' ∨ ∃ s s', y = .zero s ∧ y' = .zero s') :
    SameUpToSign (UnpackedFloat.mul Format.binary64 x y)
      (UnpackedFloat.mul Format.binary64 x' y') := by
  rcases hx with rfl | ⟨s, s', rfl, rfl⟩
  · rcases hy with rfl | ⟨s, s', rfl, rfl⟩
    · exact .inl rfl
    · cases x with
      | zero | finite => exact .inr (.inl ⟨_, _, rfl, rfl⟩)
      | notANumber | infinity => exact .inl rfl
  · rcases hy with rfl | ⟨s, s', rfl, rfl⟩
    · cases y with
      | zero | finite => exact .inr (.inl ⟨_, _, rfl, rfl⟩)
      | notANumber | infinity => exact .inl rfl
    · exact .inr (.inl ⟨_, _, rfl, rfl⟩)

theorem sameUpToSign_div {x' y' : UnpackedFloat}
    (hx : x = x' ∨ ∃ s s', x = .zero s ∧ x' = .zero s')
    (hy : y = y' ∨ ∃ s s', y = .zero s ∧ y' = .zero s') :
    SameUpToSign (UnpackedFloat.div Format.binary64 x y)
      (UnpackedFloat.div Format.binary64 x' y') := by
  rcases hx with rfl | ⟨s, s', rfl, rfl⟩
  · rcases hy with rfl | ⟨s, s', rfl, rfl⟩
    · exact .inl rfl
    · cases x with
      | finite | infinity => exact .inr (.inr ⟨_, _, rfl, rfl⟩)
      | notANumber | zero => exact .inl rfl
  · rcases hy with rfl | ⟨s, s', rfl, rfl⟩
    · cases y with
      | finite | infinity => exact .inr (.inl ⟨_, _, rfl, rfl⟩)
      | notANumber | zero => exact .inl rfl
    · exact .inl rfl

theorem isFinite_div_zero (v : Float) (h : w == 0) : (v / w).isFinite = false := by
  have hw : ∃ s, unpacked w = .zero s := by
    rcases eq_or_zero_of_beq_unpacked h with h | ⟨s, -, h, -⟩
    · exact ⟨_, h⟩
    · exact ⟨s, h⟩
  obtain ⟨s, hw⟩ := hw
  have hdiv : UnpackedFloat.div Format.binary64 (unpacked v) (unpacked w) = .notANumber ∨
      ∃ s, UnpackedFloat.div Format.binary64 (unpacked v) (unpacked w) = .infinity s := by
    rw [hw]
    cases unpacked v with
    | notANumber | zero => exact .inl rfl
    | infinity | finite => exact .inr ⟨_, rfl⟩
  change (UnpackedFloat.unpack Format.binary64 (UnpackedFloat.pack Format.binary64
    (UnpackedFloat.div Format.binary64 (unpacked v) (unpacked w)))).isFinite = false
  rcases hdiv with h | ⟨s, h⟩
  · rw [h]
    decide
  · rw [h]
    cases s <;> decide

end Double

open Double in
instance : LawfulScalar Float where
  isNumber_of_isFinite {v} h := by
    change (unpacked v).isFinite at h
    change (!(unpacked v).isNaN) = true
    generalize unpacked v = x at h
    cases x <;> first | rfl | cases h
  isNumber_undefined := by decide
  isFinite_zero := by decide
  isFinite_one := by decide
  isFinite_pi := by decide
  isFinite_euler := by decide
  isFinite_neg := isFinite_neg
  beq_self {v} h := beq_self (Bool.not_eq_true' _ ▸ h)
  beq_comm := beq_comm
  eq_or_zero_of_beq {v w} h := by
    have hzero {v : Float} (h : v = 0 ∨ v = -0) : v == 0 := by
      rcases h with rfl | rfl <;> decide
    exact (eq_or_zero_of_beq h).imp_right fun h => ⟨hzero h.1, hzero h.2⟩
  transCmp := transCmp_compare
  zero_lt_one := by decide
  zero_lt_pi := by decide
  zero_lt_euler := by decide
  neg_neg := neg_neg
  neg_beq_neg := neg_beq_neg
  zero_lt_neg v := decide_eq_decide.2 (zero_lt_neg_iff v)
  one_mul := one_mul
  div_one := div_one
  zero_add {v} _ h := by
    refine zero_add ?_
    rintro rfl
    exact absurd (h (by decide)) (by decide)
  sub_eq_add_neg := sub_eq_add_neg
  isFinite_div_zero v _ h := isFinite_div_zero v h
  add_congr hv hw := agree_of_sameUpToSign (sameUpToSign_add (eq_or_zero_of_beq_unpacked hv)
    (eq_or_zero_of_beq_unpacked hw))
  mul_congr hv hw := agree_of_sameUpToSign (sameUpToSign_mul (eq_or_zero_of_beq_unpacked hv)
    (eq_or_zero_of_beq_unpacked hw))
  div_congr hv hw := agree_of_sameUpToSign (sameUpToSign_div (eq_or_zero_of_beq_unpacked hv)
    (eq_or_zero_of_beq_unpacked hw))

/-! ## Other functions -/

/-- Functions of doubles. -/
structure Functions where
  exp : Float → Float
  ln : Float → Float
  cos : Float → Float
  sin : Float → Float
  tan : Float → Float

namespace Functions

/-- The functions that doubles come with. -/
def double : Functions := ⟨Float.exp, Float.log, Float.cos, Float.sin, Float.tan⟩

/-- Doubles with the given functions. -/
@[reducible] def scalar (F : Functions) : Scalar Float :=
  { instScalarFloat with exp := F.exp, ln := F.ln, cos := F.cos, sin := F.sin, tan := F.tan }

theorem scalar_double : double.scalar = instScalarFloat := rfl

/-- The laws of arithmetic do not depend on the functions. -/
theorem lawfulScalar (F : Functions) : @LawfulScalar Float F.scalar :=
  have h : LawfulScalar Float := inferInstance
  @LawfulScalar.mk Float F.scalar h.isNumber_of_isFinite h.isNumber_undefined h.isFinite_zero
    h.isFinite_one h.isFinite_pi h.isFinite_euler h.isFinite_neg h.beq_self h.beq_comm
    h.eq_or_zero_of_beq h.transCmp h.zero_lt_one h.zero_lt_pi h.zero_lt_euler h.neg_neg
    h.neg_beq_neg h.zero_lt_neg h.one_mul h.div_one h.zero_add h.sub_eq_add_neg
    h.isFinite_div_zero h.add_congr h.mul_congr h.div_congr

end Functions
end SymCalc
