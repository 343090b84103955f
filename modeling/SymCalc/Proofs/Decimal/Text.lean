import Mathlib
import SymCalc.Proofs.Decimal.Shortest
import SymCalc.Proofs.Token.Lexeme

/-!
# The text of a decimal

Reading the text of a decimal gives the decimal (`Decimal.ofChars?_toChars`), so reading the text of
a double gives the double (`Double.ofChars?_doubleChars`).
-/

namespace SymCalc

/-! ## Decimals -/

namespace Decimal

/-- Zeros in front of a number do not change it. -/
theorem digitsToNat_padded (k n : ℕ) :
    digitsToNat (List.replicate k '0' ++ Nat.toDigits 10 n) = n := by
  change Nat.ofDigitChars 10 _ 0 = n
  rw [Nat.ofDigitChars_append, Nat.ofDigitChars_replicate_zero, mul_zero,
    Nat.ofDigitChars_ten_toDigits]

theorem isDigit_of_mem_padded {k n : ℕ} {c : Char}
    (h : c ∈ List.replicate k '0' ++ Nat.toDigits 10 n) : c.isDigit := by
  rcases List.mem_append.1 h with h | h
  · rw [List.eq_of_mem_replicate h]
    rfl
  · exact Nat.isDigit_of_mem_toDigits (by decide) (by decide) h

/-- A run of digits with a point before the last `p` of them is read as a number with `p` places. -/
theorem ofChars?_split {ds : List Char} {p : ℕ} (hds : ∀ c ∈ ds, c.isDigit) (hp : p ≠ 0)
    (hlen : p < ds.length) :
    ofChars? (ds.take (ds.length - p) ++ '.' :: ds.drop (ds.length - p)) =
      some ⟨digitsToNat ds, p⟩ := by
  have hplaces : (ds.drop (ds.length - p)).length = p := by
    rw [List.length_drop]
    omega
  have hwhole : isDigits (ds.take (ds.length - p)) := by
    refine isDigits_iff.2 ⟨?_, fun c hc => hds c (List.mem_of_mem_take hc)⟩
    intro h
    have := congrArg List.length h
    rw [List.length_take, List.length_nil] at this
    omega
  have hpart : isDigits (ds.drop (ds.length - p)) := by
    refine isDigits_iff.2 ⟨?_, fun c hc => hds c (List.mem_of_mem_drop hc)⟩
    intro h
    rw [h, List.length_nil] at hplaces
    exact hp hplaces.symm
  rw [ofChars?_point hwhole hpart, List.take_append_drop, hplaces]

/-- The text of a decimal is read as this decimal. -/
theorem ofChars?_toChars (d : Decimal) : ofChars? d.toChars = some d := by
  obtain ⟨n, p⟩ := d
  unfold toChars
  split
  · next hp =>
    obtain rfl : p = 0 := hp
    have hdigits : isDigits (Nat.toDigits 10 n) :=
      isDigits_iff.2 ⟨Nat.toDigits_ne_nil, fun _ => isDigit_of_mem_padded (k := 0)⟩
    have hvalue : digitsToNat (Nat.toDigits 10 n) = n := digitsToNat_padded 0 n
    rw [ofChars?_digits hdigits, hvalue]
  · next hp =>
    refine (ofChars?_split (fun _ => isDigit_of_mem_padded) hp ?_).trans ?_
    · simp only [List.length_append, List.length_replicate]
      omega
    · rw [digitsToNat_padded]

end Decimal

/-! ## Doubles -/

namespace Double

open Float.Model Float.Model.UnpackedFloat

/-- The text of a positive double is that of its shortest decimal. -/
theorem doubleChars_eq {v : Float} {m : ℕ} {q : ℤ} {hm : 0 < m}
    (h : unpacked v = .finite .positive m q hm) :
    doubleChars v = (Decimal.shortest v.toBits).toChars := by
  have hbits : v.toBits &&& 0x7FFFFFFFFFFFFFFF = v.toBits := by
    rw [toBits_and h, if_neg (by simp [lt_zero_iff h])]
  have h0 : v.toBits ≠ 0 := by
    obtain ⟨e, f, -, -, hn, hcase⟩ := exists_bits h
    intro h0
    rw [h0, UInt64.toNat_zero] at hn
    omega
  unfold doubleChars
  simp only [isNaN_of_unpacked h, isFinite_of_unpacked h, hbits, h0, Bool.not_true,
    Bool.false_eq_true, if_false, if_true]

/-- The text of a positive double is a numeral, and it is read as this double. -/
theorem ofChars?_doubleChars {v : Float} {m : ℕ} {q : ℤ} {hm : 0 < m}
    (h : unpacked v = .finite .positive m q hm) :
    Decimal.ofChars? (doubleChars v) = some (Decimal.shortest v.toBits) := by
  rw [doubleChars_eq h, Decimal.ofChars?_toChars]

end Double
end SymCalc
