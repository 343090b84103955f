import SymCalc.Proofs.Token.Lexeme

/-!
# Where tokens end

Single characters, words and numerals are one token each if what follows them cannot continue a word
or a numeral (`Lexeme.all_single`, `Lexeme.all_word`, `Lexeme.all_numeral`).
-/

namespace SymCalc

theorem Decimal.exists_of_isDigits {ds : List Char} (h : isDigits ds) :
    ∃ d fs, ds = d :: fs ∧ d.isDigit ∧ ∀ x ∈ fs, x.isDigit := by
  obtain ⟨hne, hall⟩ := isDigits_iff.1 h
  obtain ⟨d, fs, rfl⟩ := List.exists_cons_of_ne_nil hne
  exact ⟨d, fs, rfl, List.forall_mem_cons.1 hall⟩

theorem Decimal.exists_of_ofChars? {cs : List Char} {d : Decimal} (h : ofChars? cs = some d) :
    isDigits cs ∨ ∃ ds fs, cs = ds ++ '.' :: fs ∧ isDigits ds ∧ isDigits fs := by
  have hcs := List.takeWhile_append_dropWhile (p := (· != '.')) (l := cs)
  unfold ofChars? at h
  split at h
  · next hd =>
    rw [hd, List.append_nil] at hcs
    rw [hcs] at h
    exact .inl (Option.ite_none_right_eq_some.1 h).1
  · next x part hd =>
    have hx : x = '.' := by
      have := List.head?_dropWhile_not (· != '.') cs
      simpa [hd] using this
    rw [hd, hx] at hcs
    obtain ⟨h, -⟩ := Option.ite_none_right_eq_some.1 h
    exact .inr ⟨_, _, hcs.symm, by simpa using h⟩

namespace Lexeme

/-- Whether the characters after a word or a numeral do not continue it. -/
def Separates (rest : List Char) : Prop :=
  ∀ c ∈ rest.head?, isNameChar c = false ∧ c ≠ '.'

variable {c : Char} {cs rest : List Char}

theorem separates_nil : Separates [] := nofun

theorem separates_cons (hn : isNameChar c = false) (hp : c ≠ '.') : Separates (c :: rest) := by
  rintro _ ⟨⟩
  exact ⟨hn, hp⟩

theorem takeWhile_append_of_head? {p : Char → Bool} (h : ∀ x ∈ cs, p x)
    (hr : ∀ c ∈ rest.head?, p c = false) : (cs ++ rest).takeWhile p = cs := by
  rw [List.takeWhile_append_of_pos h]
  cases rest with
  | nil => simp
  | cons c rest => simp [hr c rfl]

theorem dropWhile_append_of_head? {p : Char → Bool} (h : ∀ x ∈ cs, p x)
    (hr : ∀ c ∈ rest.head?, p c = false) : (cs ++ rest).dropWhile p = rest := by
  rw [List.dropWhile_append_of_pos h]
  cases rest with
  | nil => simp
  | cons c rest => simp [hr c rfl]

theorem all_of_continuation {more : List Char} (h : continuation c (more ++ rest) = more) :
    all (c :: (more ++ rest)) = ⟨kindOf c, c :: more⟩ :: all rest := by
  rw [all, h]
  simp

/-- A character of no class with longer tokens is a token. -/
theorem all_single (hs : isSpace c = false) (hn : isNameChar c = false) :
    all (c :: rest) = ⟨single c, [c]⟩ :: all rest := by
  have hs : ¬ isSpace c := ne_true_of_eq_false hs
  have ha : ¬ c.isAlpha := by simp_all [isNameChar, Char.isAlphanum]
  have hd : ¬ c.isDigit := by simp_all [isNameChar, Char.isAlphanum]
  have hall := all_of_continuation (continuation_eq_nil hs ha hd ([] ++ rest))
  rwa [kindOf_eq_single hs ha hd] at hall

/-- A letter with the letters, digits and underscores after it is a token. -/
theorem all_word (hc : c.isAlpha) (hcs : ∀ x ∈ cs, isNameChar x) (hr : Separates rest) :
    all (c :: cs ++ rest) = ⟨.name, c :: cs⟩ :: all rest := by
  have ht := takeWhile_append_of_head? hcs fun c hc => (hr c hc).1
  have hall := all_of_continuation ((continuation_of_isAlpha hc _).trans ht)
  rwa [kindOf_of_isAlpha hc] at hall

theorem fraction_of_ne (h : c ≠ '.') (cs : List Char) : fraction (c :: cs) = [] := by
  unfold fraction
  split
  · next heq => exact absurd (List.cons.inj heq).1 h
  · rfl

/-- A numeral is a token. -/
theorem all_numeral {d : Decimal} (h : Decimal.ofChars? cs = some d) (hr : Separates rest) :
    all (cs ++ rest) = ⟨.number, cs⟩ :: all rest := by
  have hstart {c : Char} {more : List Char} (hc : c.isDigit)
      (h : continuation c (more ++ rest) = more) :
      all (c :: more ++ rest) = ⟨.number, c :: more⟩ :: all rest := by
    have hall := all_of_continuation h
    rwa [kindOf_of_isDigit hc] at hall
  have hrest : ∀ c ∈ rest.head?, c.isDigit = false := by
    intro c hc
    have := (hr c hc).1
    simp_all [isNameChar, Char.isAlphanum]
  rcases Decimal.exists_of_ofChars? h with h | ⟨ds, fs, rfl, hds, hfs⟩
  · obtain ⟨c, ds, rfl, hc, hds⟩ := Decimal.exists_of_isDigits h
    apply hstart hc
    have hf : fraction rest = [] := by
      cases rest with
      | nil => rfl
      | cons c rest => exact fraction_of_ne (hr c rfl).2 rest
    rw [continuation_of_isDigit hc, takeWhile_append_of_head? hds hrest,
      dropWhile_append_of_head? hds hrest, hf, List.append_nil]
  · obtain ⟨c, ds, rfl, hc, hds⟩ := Decimal.exists_of_isDigits hds
    have hp : ∀ c ∈ ('.' :: (fs ++ rest)).head?, c.isDigit = false := by simp
    obtain ⟨hne, hfs⟩ := Decimal.isDigits_iff.1 hfs
    apply hstart hc
    simp [continuation_of_isDigit hc, takeWhile_append_of_head? hds hp,
      dropWhile_append_of_head? hds hp, fraction, takeWhile_append_of_head? hfs hrest, hne]

end Lexeme
end SymCalc
