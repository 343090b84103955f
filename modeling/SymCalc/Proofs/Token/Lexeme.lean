import Mathlib
import SymCalc.Syntax.Grammar

/-!
# The tokens of a text

Every token of a text is `Token.IsProper`: its lexeme is the one its class asks for, and its region is
not empty. The regions of the tokens of a text are in order (`Token.pairwise_ofText`).
-/

namespace SymCalc

/-! ## Numerals -/

namespace Decimal

theorem isDigits_iff {ds : List Char} : isDigits ds ↔ ds ≠ [] ∧ ∀ c ∈ ds, c.isDigit := by
  simp [isDigits]

theorem ne_point_of_isDigits {ds : List Char} (h : isDigits ds) :
    ∀ c ∈ ds, (c != '.') = true := by
  intro c hc
  have hdigit := (isDigits_iff.1 h).2 c hc
  rw [bne_iff_ne]
  rintro rfl
  simp at hdigit

/-- A run of digits is read as a whole number. -/
theorem ofChars?_digits {ds : List Char} (h : isDigits ds) :
    ofChars? ds = some ⟨digitsToNat ds, 0⟩ := by
  have hp := ne_point_of_isDigits h
  have ht : ds.takeWhile (· != '.') = ds := List.takeWhile_eq_self_iff.2 hp
  have hd : ds.dropWhile (· != '.') = [] := List.dropWhile_eq_nil_iff.2 hp
  simp [ofChars?, ht, hd, h]

/-- Two runs of digits with a point between them are read as a number with places. -/
theorem ofChars?_point {ds fs : List Char} (h : isDigits ds) (hf : isDigits fs) :
    ofChars? (ds ++ '.' :: fs) = some ⟨digitsToNat (ds ++ fs), fs.length⟩ := by
  have hp := ne_point_of_isDigits h
  have ht : (ds ++ '.' :: fs).takeWhile (· != '.') = ds := by
    rw [List.takeWhile_append_of_pos hp, List.takeWhile_cons_of_neg (by decide), List.append_nil]
  have hd : (ds ++ '.' :: fs).dropWhile (· != '.') = '.' :: fs := by
    rw [List.dropWhile_append_of_pos hp, List.dropWhile_cons_of_neg (by decide)]
  simp [ofChars?, ht, hd, h, hf]

end Decimal

/-! ## Words -/

theorem UnaryOp.ofWord?_eq_some {w : String} {op : UnaryOp} (h : ofWord? w = some op) :
    op.text = w := by
  simpa using List.find?_some h

theorem UnaryOp.isSome_ofWord? {w : String} :
    (ofWord? w).isSome ↔ w ∈ ["exp", "ln", "cos", "sin", "tan"] := by
  simp only [ofWord?, List.find?_isSome, decide_eq_true_eq]
  simp [functions, text, @eq_comm _ w]

/-! ## Lexemes -/

namespace Lexeme

theorem exists_of_mem_all {cs : List Char} {l : Lexeme} (h : l ∈ all cs) :
    ∃ c rest, l = ⟨kindOf c, c :: continuation c rest⟩ := by
  induction cs using all.induct with
  | case1 => simp [all] at h
  | case2 c rest more ih =>
    rw [all] at h
    rcases List.mem_cons.1 h with rfl | h
    · exact ⟨c, rest, rfl⟩
    · exact ih h

theorem isAlpha_iff {c : Char} :
    c.isAlpha ↔ 65 ≤ c.toNat ∧ c.toNat ≤ 90 ∨ 97 ≤ c.toNat ∧ c.toNat ≤ 122 := by
  simp [Char.isAlpha, Char.isUpper, Char.isLower, UInt32.le_iff_toNat_le]

theorem isDigit_iff {c : Char} : c.isDigit ↔ 48 ≤ c.toNat ∧ c.toNat ≤ 57 := by
  simp [Char.isDigit, UInt32.le_iff_toNat_le]

theorem isSpace_iff {c : Char} :
    isSpace c ↔ c.toNat = 32 ∨ c.toNat = 9 ∨ c.toNat = 10 ∨ c.toNat = 13 := by
  simp [isSpace, ← Char.toNat_inj, or_assoc]

theorem not_isSpace_of_isAlpha {c : Char} (h : c.isAlpha) : ¬ isSpace c := by
  rw [isAlpha_iff] at h
  rw [isSpace_iff]
  omega

theorem not_isSpace_of_isDigit {c : Char} (h : c.isDigit) : ¬ isSpace c := by
  rw [isDigit_iff] at h
  rw [isSpace_iff]
  omega

theorem not_isAlpha_of_isDigit {c : Char} (h : c.isDigit) : ¬ c.isAlpha := by
  rw [isDigit_iff] at h
  rw [isAlpha_iff]
  omega

section

variable {c : Char}

theorem kindOf_of_isSpace (h : isSpace c) : kindOf c = .blank := if_pos h

theorem kindOf_of_isAlpha (h : c.isAlpha) : kindOf c = .name := by
  rw [kindOf, if_neg (not_isSpace_of_isAlpha h), if_pos h]

theorem kindOf_of_isDigit (h : c.isDigit) : kindOf c = .number := by
  rw [kindOf, if_neg (not_isSpace_of_isDigit h), if_neg (not_isAlpha_of_isDigit h), if_pos h]

theorem kindOf_eq_single (hs : ¬ isSpace c) (ha : ¬ c.isAlpha) (hd : ¬ c.isDigit) :
    kindOf c = single c := by
  rw [kindOf, if_neg hs, if_neg ha, if_neg hd]

theorem continuation_of_isSpace (h : isSpace c) (rest : List Char) :
    continuation c rest = rest.takeWhile isSpace := if_pos h

theorem continuation_of_isAlpha (h : c.isAlpha) (rest : List Char) :
    continuation c rest = rest.takeWhile isNameChar := by
  rw [continuation, if_neg (not_isSpace_of_isAlpha h), if_pos h]

theorem continuation_of_isDigit (h : c.isDigit) (rest : List Char) :
    continuation c rest = rest.takeWhile Char.isDigit ++ fraction (rest.dropWhile Char.isDigit) := by
  rw [continuation, if_neg (not_isSpace_of_isDigit h), if_neg (not_isAlpha_of_isDigit h), if_pos h]

theorem continuation_eq_nil (hs : ¬ isSpace c) (ha : ¬ c.isAlpha) (hd : ¬ c.isDigit)
    (rest : List Char) : continuation c rest = [] := by
  rw [continuation, if_neg hs, if_neg ha, if_neg hd]

end

theorem single_ne (c : Char) : single c ≠ .blank ∧ single c ≠ .name ∧ single c ≠ .number := by
  unfold single
  split <;> decide

theorem eq_of_single {c x : Char} (h : single c = single x) (hx : single x ≠ .symbol) : c = x := by
  unfold single at h hx
  split at h <;> split at h <;> first | rfl | (cases h; done) | simp_all

/-- A character is of the class of blanks, of names or of numbers, or it is a token by itself. -/
theorem kindOf_cases (c : Char) :
    isSpace c ∧ kindOf c = .blank ∨ c.isAlpha ∧ kindOf c = .name ∨ c.isDigit ∧ kindOf c = .number ∨
      kindOf c = single c ∧ ∀ rest, continuation c rest = [] := by
  by_cases hs : isSpace c
  · exact .inl ⟨hs, kindOf_of_isSpace hs⟩
  by_cases ha : c.isAlpha
  · exact .inr (.inl ⟨ha, kindOf_of_isAlpha ha⟩)
  by_cases hd : c.isDigit
  · exact .inr (.inr (.inl ⟨hd, kindOf_of_isDigit hd⟩))
  · exact .inr (.inr (.inr ⟨kindOf_eq_single hs ha hd, continuation_eq_nil hs ha hd⟩))

theorem isSpace_of_kindOf {c : Char} (h : kindOf c = .blank) : isSpace c := by
  rcases kindOf_cases c with ⟨hs, -⟩ | ⟨-, hk⟩ | ⟨-, hk⟩ | ⟨hk, -⟩
  · exact hs
  · cases hk.symm.trans h
  · cases hk.symm.trans h
  · exact absurd (hk.symm.trans h) (single_ne c).1

theorem isAlpha_of_kindOf {c : Char} (h : kindOf c = .name) : c.isAlpha := by
  rcases kindOf_cases c with ⟨-, hk⟩ | ⟨ha, -⟩ | ⟨-, hk⟩ | ⟨hk, -⟩
  · cases hk.symm.trans h
  · exact ha
  · cases hk.symm.trans h
  · exact absurd (hk.symm.trans h) (single_ne c).2.1

theorem isDigit_of_kindOf {c : Char} (h : kindOf c = .number) : c.isDigit := by
  rcases kindOf_cases c with ⟨-, hk⟩ | ⟨-, hk⟩ | ⟨hd, -⟩ | ⟨hk, -⟩
  · cases hk.symm.trans h
  · cases hk.symm.trans h
  · exact hd
  · exact absurd (hk.symm.trans h) (single_ne c).2.2

/-- A token of a class with a single member is that member. -/
theorem chars_eq {c x : Char} (rest : List Char) (h : kindOf c = single x)
    (hx : single x ≠ .symbol) : c :: continuation c rest = [x] := by
  obtain ⟨hb, hn, hm⟩ := single_ne x
  rcases kindOf_cases c with ⟨-, hk⟩ | ⟨-, hk⟩ | ⟨-, hk⟩ | ⟨hk, hmore⟩
  · exact absurd (h.symm.trans hk) hb
  · exact absurd (h.symm.trans hk) hn
  · exact absurd (h.symm.trans hk) hm
  · rw [hmore, eq_of_single (hk.symm.trans h) hx]

end Lexeme

/-! ## Tokens -/

/-- What the tokens of a text have in common. -/
structure Token.IsProper (t : Token) : Prop where
  start_lt_stop : t.span.start < t.span.stop
  text_prefix : ∀ op, Cursor.prefixOp? t = some op → t.lexeme = op.text
  text_infix : ∀ op, Cursor.infixOp? t = some op → t.lexeme = op.text
  numeral : t.kind = .number → (Decimal.ofChars? t.lexeme.toList).isSome

namespace Token

variable {t : Token} {start : Nat} {ls : List Lexeme} {text : String}

theorem exists_of_mem_place (h : t ∈ place start ls) :
    ∃ l ∈ ls, t.kind = l.kind ∧ t.lexeme = String.ofList l.chars ∧
      start ≤ t.span.start ∧ t.span.stop = t.span.start + byteLength l.chars := by
  induction ls generalizing start with
  | nil => cases h
  | cons l ls ih =>
    rcases List.mem_cons.1 h with rfl | h
    · exact ⟨l, List.mem_cons_self, rfl, rfl, Nat.le_refl _, rfl⟩
    · obtain ⟨l', hl, hk, hx, hs, he⟩ := ih h
      exact ⟨l', List.mem_cons_of_mem _ hl, hk, hx, Nat.le_trans (Nat.le_add_right ..) hs, he⟩

theorem pairwise_place :
    (place start ls).Pairwise fun a b => a.span.stop ≤ b.span.start := by
  induction ls generalizing start with
  | nil => exact .nil
  | cons l ls ih =>
    refine .cons ?_ ih
    intro t ht
    obtain ⟨-, -, -, -, hs, -⟩ := exists_of_mem_place ht
    exact hs

/-- The tokens of a text follow one another. -/
theorem pairwise_ofText : (ofText text).Pairwise fun a b => a.span.stop ≤ b.span.start :=
  pairwise_place

theorem isDigits_takeWhile {cs : List Char} (h : cs.takeWhile Char.isDigit ≠ []) :
    Decimal.isDigits (cs.takeWhile Char.isDigit) :=
  Decimal.isDigits_iff.2 ⟨h, fun _ => List.mem_takeWhile_imp⟩

theorem isSome_ofChars?_of_number {c : Char} (rest : List Char)
    (h : Lexeme.kindOf c = .number) :
    (Decimal.ofChars? (c :: Lexeme.continuation c rest)).isSome := by
  have hd := Lexeme.isDigit_of_kindOf h
  have hw : Decimal.isDigits (c :: rest.takeWhile Char.isDigit) := by
    have hne : (c :: rest).takeWhile Char.isDigit ≠ [] := by simp [hd]
    have := isDigits_takeWhile hne
    rwa [List.takeWhile_cons_of_pos hd] at this
  rw [Lexeme.continuation_of_isDigit hd]
  unfold Lexeme.fraction
  split
  · next fs _ =>
    simp only
    split
    · simp [Decimal.ofChars?_digits hw]
    · next hf =>
      rw [← List.cons_append, Decimal.ofChars?_point hw (isDigits_takeWhile (by simpa using hf))]
      rfl
  · simp [Decimal.ofChars?_digits hw]

theorem isProper_of_mem_ofText (h : t ∈ ofText text) : t.IsProper := by
  obtain ⟨l, hl, hk, hx, -, he⟩ := exists_of_mem_place h
  obtain ⟨c, rest, rfl⟩ := Lexeme.exists_of_mem_all hl
  simp only at hk hx he
  have hc (x : Char) (h : t.kind = Lexeme.single x) (hs : Lexeme.single x ≠ .symbol) :
      t.lexeme = String.ofList [x] := by
    rw [hx, Lexeme.chars_eq rest (hk.symm.trans h) hs]
  refine ⟨?_, ?_, ?_, ?_⟩
  · have := c.utf8Size_pos
    simp only [byteLength_cons] at he
    omega
  · intro op hop
    unfold Cursor.prefixOp? at hop
    split at hop
    · next h => cases hop; exact hc '-' h (by decide)
    · next h => cases hop; exact hc '%' h (by decide)
    · exact (UnaryOp.ofWord?_eq_some hop).symm
    · cases hop
  · intro op hop
    unfold Cursor.infixOp? at hop
    split at hop
    · next h => cases hop; exact hc '^' h (by decide)
    · next h => cases hop; exact hc '*' h (by decide)
    · next h => cases hop; exact hc '/' h (by decide)
    · next h => cases hop; exact hc '+' h (by decide)
    · next h => cases hop; exact hc '-' h (by decide)
    · cases hop
  · intro hn
    rw [hx, String.toList_ofList]
    exact isSome_ofChars?_of_number rest (hk.symm.trans hn)

end Token
end SymCalc
