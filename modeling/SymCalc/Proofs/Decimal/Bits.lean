import SymCalc.Scalar
import Mathlib

/-!
# The bits of a double

A double is determined by its sign, exponent and mantissa, and so by what it unpacks to
(`Float.unpack_injective`). From this follow the facts about negation, comparison and undefined
values that hold for every double.
-/

namespace SymCalc

open Float.Model Float.Model.UnpackedFloat

/-! ## Components -/

section
variable {s : Sign} {e : BitVec Format.binary64.exponentBits}
  {m : BitVec Format.binary64.mantissaBitsWithoutImplicit} {b : BitVec Format.binary64.numBits}

theorem toNat_packComponents : (packComponents Format.binary64 s e m).toNat =
    s.toBitVec.toNat * 2 ^ 63 + e.toNat * 2 ^ 52 + m.toNat := by
  simp only [packComponents, BitVec.toNat_append]
  rw [← Nat.shiftLeft_add_eq_or_of_lt m.isLt, ← Nat.shiftLeft_add_eq_or_of_lt e.isLt]
  simp only [Nat.shiftLeft_eq]
  omega

theorem toNat_unpackMantissa : (unpackMantissa b).toNat = b.toNat % 2 ^ 52 := by
  simp [unpackMantissa]

theorem toNat_unpackExponent : (unpackExponent b).toNat = b.toNat / 2 ^ 52 % 2 ^ 11 := by
  simp [unpackExponent, Nat.shiftRight_eq_div_pow]

theorem toNat_unpackSign : (unpackSign b).toNat = b.toNat / 2 ^ 63 := by
  have : b.toNat < 2 ^ 64 := b.isLt
  simp only [unpackSign, BitVec.toNat_cast, BitVec.extractLsb_toNat, Nat.shiftRight_eq_div_pow]
  omega

theorem ofBitVec_toBitVec (s : Sign) : Sign.ofBitVec s.toBitVec = s := by cases s <;> rfl

theorem toBitVec_ofBitVec (x : BitVec 1) : (Sign.ofBitVec x).toBitVec = x := by
  revert x
  decide

theorem eq_packComponents (b : BitVec Format.binary64.numBits) :
    b = packComponents Format.binary64 (Sign.ofBitVec (unpackSign b)) (unpackExponent b)
      (unpackMantissa b) := by
  have : b.toNat < 2 ^ 64 := b.isLt
  apply BitVec.eq_of_toNat_eq
  rw [toNat_packComponents, toBitVec_ofBitVec, toNat_unpackMantissa, toNat_unpackExponent,
    toNat_unpackSign]
  omega

theorem unpackSign_packComponents :
    unpackSign (packComponents Format.binary64 s e m) = s.toBitVec := by
  have he : e.toNat < 2 ^ 11 := e.isLt
  have hm : m.toNat < 2 ^ 52 := m.isLt
  apply BitVec.eq_of_toNat_eq
  rw [toNat_unpackSign, toNat_packComponents]
  omega

/-- What a double with the given components unpacks to. -/
theorem unpack_packComponents : UnpackedFloat.unpack Format.binary64
    (packComponents Format.binary64 s e m) =
      if e = -1#_ then if m = 0#_ then .infinity s else .notANumber
      else if e = 0#_ then
        if h : m = 0#_ then .zero s
        else .finite s m.toNat (-1074) (by simpa [BitVec.toNat_pos, BitVec.pos_iff_ne_zero])
      else .finite s (2 ^ 52 + m.toNat) (e.toNat - 1075) (by omega) := by
  have hm : m.toNat < 2 ^ 52 := m.isLt
  have himplicit : (1#1 ++ m).toNat = 2 ^ 52 + m.toNat := by
    rw [BitVec.toNat_append, ← Nat.shiftLeft_add_eq_or_of_lt hm]
    rfl
  unfold UnpackedFloat.unpack
  simp only [unpackMantissa_packComponents, unpackExponent_packComponents,
    unpackSign_packComponents, ofBitVec_toBitVec, himplicit]
  split
  · rfl
  · split
    · next he =>
      subst he
      rfl
    · rfl

theorem pack_finite {k : Nat} {q : Int} {hk : 0 < k} :
    UnpackedFloat.pack Format.binary64 (.finite s k q hk) =
      if 2048 ≤ (q + 1075).toNat + 1 then packedInfinity Format.binary64 s
      else if k.log2 = 52 then
        packComponents Format.binary64 s (BitVec.ofNat _ (q + 1075).toNat) (BitVec.ofNat _ k)
      else packComponents Format.binary64 s 0#_ (BitVec.ofNat _ k) := by
  have hbias : q + (Format.exponentBias Format.binary64 : Nat) + (52 : Nat) = q + 1075 := by
    rw [Int.add_assoc]
    rfl
  have hlog : k.log2 + 1 = Format.binary64.mantissaBits ↔ k.log2 = 52 := by
    rw [Nat.add_comm]
    exact Nat.add_left_cancel_iff
  unfold UnpackedFloat.pack
  simp only [hbias, hlog]

/-- Packing undoes unpacking. -/
theorem pack_unpack_packComponents (h : UnpackedFloat.unpack Format.binary64
      (packComponents Format.binary64 s e m) ≠ .notANumber) :
    UnpackedFloat.pack Format.binary64 (UnpackedFloat.unpack Format.binary64
      (packComponents Format.binary64 s e m)) = packComponents Format.binary64 s e m := by
  have hm : m.toNat < 2 ^ 52 := m.isLt
  have he : e.toNat < 2 ^ 11 := e.isLt
  rw [unpack_packComponents] at *
  split at h
  · next h₁ =>
    split at h
    · next h₂ =>
      subst h₁ h₂
      simp only [↓reduceIte]
      rfl
    · exact absurd rfl h
  · next h₁ =>
    have h₁' : e.toNat ≠ 2 ^ 11 - 1 := fun h => h₁ (BitVec.eq_of_toNat_eq h)
    rw [if_neg h₁]
    split
    · next h₂ =>
      subst h₂
      split
      · next h₃ =>
        subst h₃
        rfl
      · next h₃ =>
        have hpos : m.toNat ≠ 0 := fun h => h₃ (BitVec.eq_of_toNat_eq h)
        have hlog : m.toNat.log2 ≠ 52 := Nat.ne_of_lt ((Nat.log2_lt hpos).2 hm)
        rw [pack_finite, if_neg (by decide), if_neg hlog, BitVec.ofNat_toNat, BitVec.setWidth_eq]
    · have hlog : (2 ^ 52 + m.toNat).log2 = 52 := (Nat.log2_eq_iff (by omega)).2 (by omega)
      have hexp : ((e.toNat : Int) - 1075 + 1075).toNat = e.toNat := by omega
      have hmod : BitVec.ofNat Format.binary64.mantissaBitsWithoutImplicit (2 ^ 52 + m.toNat) = m := by
        apply BitVec.eq_of_toNat_eq
        rw [BitVec.toNat_ofNat]
        exact (Nat.add_mod_left ..).trans (Nat.mod_eq_of_lt hm)
      rw [pack_finite, hexp, if_neg (by omega), if_pos hlog, hmod, BitVec.ofNat_toNat,
        BitVec.setWidth_eq]

theorem unpack_eq_notANumber_iff : UnpackedFloat.unpack Format.binary64
      (packComponents Format.binary64 s e m) = .notANumber ↔ e = -1#_ ∧ m ≠ 0#_ := by
  rw [unpack_packComponents]
  repeat' split
  all_goals simp_all

theorem exists_packComponents (b : BitVec Format.binary64.numBits) :
    ∃ s e m, b = packComponents Format.binary64 s e m :=
  ⟨_, _, _, eq_packComponents b⟩

theorem pack_unpack (h : Format.binary64.Valid b) :
    UnpackedFloat.pack Format.binary64 (UnpackedFloat.unpack Format.binary64 b) = b := by
  obtain ⟨s, e, m, rfl⟩ := exists_packComponents b
  by_cases hnan : UnpackedFloat.unpack Format.binary64 (packComponents Format.binary64 s e m) =
      .notANumber
  · rw [hnan]
    obtain ⟨he, hm⟩ := unpack_eq_notANumber_iff.1 hnan
    exact (h.eq_packedNaN (by simpa using he) (by simpa using hm)).symm
  · exact pack_unpack_packComponents hnan

theorem neg_unpack_packComponents : (UnpackedFloat.unpack Format.binary64
      (packComponents Format.binary64 s e m)).neg =
    UnpackedFloat.unpack Format.binary64 (packComponents Format.binary64 (-s) e m) := by
  simp only [unpack_packComponents]
  repeat' split
  all_goals rfl

theorem unpack_pack_neg : UnpackedFloat.unpack Format.binary64 (UnpackedFloat.pack Format.binary64
      (UnpackedFloat.unpack Format.binary64 b).neg) =
    (UnpackedFloat.unpack Format.binary64 b).neg := by
  obtain ⟨s, e, m, rfl⟩ := exists_packComponents b
  rw [neg_unpack_packComponents]
  by_cases hnan : UnpackedFloat.unpack Format.binary64 (packComponents Format.binary64 (-s) e m) =
      .notANumber
  · rw [hnan]
    exact unpack_eq_notANumber_iff.2 ⟨rfl, by decide⟩
  · rw [pack_unpack_packComponents hnan]

end

/-! ## Doubles -/

namespace Double

attribute [local simp] UnpackedFloat.compare

/-- What the double unpacks to. -/
def unpacked (v : Float) : UnpackedFloat := v.toModel.unpack

variable {v w : Float}

theorem pack_unpacked (v : Float) : Float.Model.pack (unpacked v) = v.toModel := by
  obtain ⟨⟨bits, valid⟩⟩ := v
  simp only [unpacked, Float.Model.unpack, Float.Model.pack, pack_unpack valid]

theorem unpacked_injective (h : unpacked v = unpacked w) : v = w := by
  have := congrArg Float.Model.pack h
  rw [pack_unpacked, pack_unpacked] at this
  cases v
  cases w
  exact congrArg _ this

theorem unpacked_neg (v : Float) : unpacked (-v) = (unpacked v).neg :=
  unpack_pack_neg

@[simp] theorem neg_neg (v : Float) : - -v = v := by
  apply unpacked_injective
  rw [unpacked_neg, unpacked_neg]
  cases unpacked v with
  | notANumber => rfl
  | infinity s | zero s | finite s => cases s <;> rfl

/-- There is only one double that is no number. -/
theorem isNaN_iff : v.isNaN ↔ v = 0 / 0 := by
  have hundefined : (0 / 0 : Float).isNaN := by decide
  have hnan (w : Float) (h : w.isNaN) : unpacked w = .notANumber := by
    change (unpacked w).isNaN at h
    cases hw : unpacked w <;> simp_all [UnpackedFloat.isNaN]
  constructor
  · intro h
    exact unpacked_injective ((hnan v h).trans (hnan _ hundefined).symm)
  · rintro rfl
    exact hundefined

theorem unpacked_zero : unpacked 0 = .zero .positive := rfl

/-- A finite double is zero or has a mantissa. -/
theorem exists_unpacked_eq_finite (hv : v.isFinite) (h0 : (v == 0) = false) :
    ∃ s m q hm, unpacked v = .finite s m q hm := by
  change (unpacked v).isFinite at hv
  change (unpacked v).beq (unpacked 0) = false at h0
  rw [unpacked_zero] at h0
  cases hu : unpacked v with
  | finite s m q hm => exact ⟨s, m, q, hm, rfl⟩
  | zero s =>
    rw [hu] at h0
    cases h0
  | notANumber | infinity =>
    rw [hu] at hv
    cases hv

/-- Only zeros are equal without being the same. -/
theorem eq_or_zero_of_compare {x y : UnpackedFloat} (h : x.compare y = some .eq) :
    x = y ∨ ∃ s s', x = .zero s ∧ y = .zero s' := by
  cases x with
  | notANumber => cases h
  | zero s =>
    cases y with
    | zero s' => exact .inr ⟨s, s', rfl, rfl⟩
    | finite s' => cases s' <;> cases h
    | infinity s' => cases s' <;> cases h
    | notANumber => cases h
  | infinity s =>
    cases y with
    | infinity s' => cases s <;> cases s' <;> first | exact .inl rfl | cases h
    | _ => cases s <;> cases h
  | finite s m q hm =>
    cases y with
    | finite s' m' q' hm' =>
      cases s <;> cases s' <;>
        simp_all [Ordering.then_eq_eq]
    | infinity s' => cases s <;> cases s' <;> cases h
    | zero => cases s <;> cases h
    | notANumber => cases s <;> cases h

theorem beq_iff : v == w ↔ (unpacked v).compare (unpacked w) = some .eq := by
  change (unpacked v).beq (unpacked w) ↔ _
  simp [UnpackedFloat.beq]

theorem unpacked_neg_zero : unpacked (-0) = .zero .negative := rfl

/-- Only the two zeros are equal without being the same. -/
theorem eq_or_zero_of_beq (h : v == w) : v = w ∨ (v = 0 ∨ v = -0) ∧ (w = 0 ∨ w = -0) := by
  have hzero {v : Float} {s : Sign} (h : unpacked v = .zero s) : v = 0 ∨ v = -0 := by
    cases s with
    | negative => exact .inr (unpacked_injective (h.trans unpacked_neg_zero.symm))
    | positive => exact .inl (unpacked_injective (h.trans unpacked_zero.symm))
  rcases eq_or_zero_of_compare (beq_iff.1 h) with h | ⟨s, s', hv, hw⟩
  · exact .inl (unpacked_injective h)
  · exact .inr ⟨hzero hv, hzero hw⟩

theorem beq_self (h : v.isNaN = false) : v == v := by
  change (unpacked v).isNaN = false at h
  change (unpacked v).beq (unpacked v)
  cases hu : unpacked v with
  | notANumber => simp [hu, UnpackedFloat.isNaN] at h
  | infinity s => cases s <;> rfl
  | zero s => rfl
  | finite s m q hm =>
    cases s <;> simp [UnpackedFloat.beq]

theorem lt_iff : v < w ↔ (unpacked v).lt (unpacked w) :=
  decide_eq_true_iff

theorem lt_irrefl (v : Float) : ¬ v < v := by
  rw [lt_iff]
  cases unpacked v with
  | notANumber => decide
  | infinity s => cases s <;> decide
  | zero s => cases s <;> decide
  | finite s m q hm => cases s <;> simp [UnpackedFloat.lt]

/-! ## Signs -/

section
variable {s : Sign} {m : Nat} {q : Int} {hm : 0 < m}

theorem isFinite_of_unpacked (h : unpacked v = .finite s m q hm) : v.isFinite := by
  change (unpacked v).isFinite
  rw [h]
  rfl

theorem isNaN_of_unpacked (h : unpacked v = .finite s m q hm) : v.isNaN = false := by
  change (unpacked v).isNaN = false
  rw [h]
  rfl

theorem ne_of_unpacked (h : unpacked v = .finite s m q hm) : v ≠ 0 ∧ v ≠ -0 := by
  constructor
  · rintro rfl
    cases unpacked_zero.symm.trans h
  · rintro rfl
    cases unpacked_neg_zero.symm.trans h

theorem lt_zero_iff (h : unpacked v = .finite s m q hm) : v < 0 ↔ s = .negative := by
  rw [lt_iff, h, unpacked_zero]
  cases s <;> simp [UnpackedFloat.lt]

/-- The sign among the bits of a finite double is its sign. -/
theorem exists_packComponents_of_unpacked (h : unpacked v = .finite s m q hm) :
    ∃ e f, v.toBits.toBitVec = packComponents Format.binary64 s e f ∧
      unpacked v = UnpackedFloat.unpack Format.binary64 (packComponents Format.binary64 s e f) := by
  obtain ⟨s', e, f, hbits⟩ := exists_packComponents v.toBits.toBitVec
  have hu : unpacked v =
      UnpackedFloat.unpack Format.binary64 (packComponents Format.binary64 s' e f) := by
    rw [← hbits]
    rfl
  obtain rfl : s' = s := by
    rw [h, unpack_packComponents] at hu
    repeat' split at hu
    all_goals simp_all
  exact ⟨e, f, hbits, hu⟩

/-- Negation changes only the first bit. -/
theorem exists_toNat_toBits (h : unpacked v = .finite s m q hm) : ∃ r < 2 ^ 63,
    v.toBits.toNat = s.toBitVec.toNat * 2 ^ 63 + r ∧
      (-v).toBits.toNat = (-s).toBitVec.toNat * 2 ^ 63 + r := by
  obtain ⟨e, f, hbits, hu⟩ := exists_packComponents_of_unpacked h
  have hneg : (-v).toBits.toBitVec = packComponents Format.binary64 (-s) e f := by
    have hnan : (unpacked v).neg ≠ .notANumber := by simp [h, UnpackedFloat.neg]
    rw [hu, neg_unpack_packComponents] at hnan
    rw [← pack_unpack_packComponents hnan, ← neg_unpack_packComponents, ← hu]
    rfl
  have he : e.toNat < 2 ^ 11 := e.isLt
  have hf : f.toNat < 2 ^ 52 := f.isLt
  refine ⟨e.toNat * 2 ^ 52 + f.toNat, by omega, ?_, ?_⟩
  · rw [← UInt64.toNat_toBitVec, hbits, toNat_packComponents, Nat.add_assoc]
  · rw [← UInt64.toNat_toBitVec, hneg, toNat_packComponents, Nat.add_assoc]

theorem toBits_and (h : unpacked v = .finite s m q hm) :
    v.toBits &&& 0x7FFFFFFFFFFFFFFF = if v < 0 then (-v).toBits else v.toBits := by
  obtain ⟨r, hr, hv, hneg⟩ := exists_toNat_toBits h
  have hmask : (v.toBits &&& 0x7FFFFFFFFFFFFFFF).toNat = v.toBits.toNat % 2 ^ 63 := by
    rw [UInt64.toNat_and]
    exact Nat.and_two_pow_sub_one_eq_mod _ 63
  apply UInt64.toNat_inj.1
  rw [hmask, hv]
  split
  · next hlt =>
    obtain rfl := (lt_zero_iff h).1 hlt
    rw [hneg]
    have : (-Sign.negative).toBitVec.toNat = 0 := rfl
    omega
  · next hlt =>
    cases s with
    | negative => exact absurd ((lt_zero_iff h).2 rfl) hlt
    | positive =>
      rw [hv]
      have : Sign.positive.toBitVec.toNat = 0 := rfl
      omega

theorem toBits_neg_ne (h : unpacked v = .finite s m q hm) : (-v).toBits ≠ v.toBits := by
  obtain ⟨r, hr, hv, hneg⟩ := exists_toNat_toBits h
  intro heq
  rw [heq, hv] at hneg
  cases s <;> simp [Sign.toBitVec] at hneg

end
end Double
end SymCalc
