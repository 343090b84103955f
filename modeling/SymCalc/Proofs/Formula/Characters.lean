import SymCalc.Proofs.Formula.RoundTrip

/-!
# The characters of a formula

* `IsFormulaChar`: the characters that the texts of formulas are made of;
* `Written`: some of these characters, one after another.

The text of a formula is written with these characters alone (`Formula.written_toChars`), so it has no
blanks and none of the characters that make a line something else than a formula.
-/

namespace SymCalc

theorem isBlank_eq_false {c : Char} (h : 32 < c.toNat) (h' : c.toNat < 127) : isBlank c = false := by
  simp only [isBlank, Bool.or_eq_false_iff, Bool.and_eq_false_iff, decide_eq_false_iff_not,
    beq_eq_false_iff_ne]
  omega

theorem isBlank_of_isWordChar {c : Char} (h : Command.isWordChar c) : isBlank c = false := by
  have hc : c.isAlpha ∨ c.isDigit ∨ c = '_' := by
    simpa [Command.isWordChar, Char.isAlphanum, or_assoc] using h
  rcases hc with h | h | rfl
  · have := Lexeme.isAlpha_iff.1 h
    exact isBlank_eq_false (by omega) (by omega)
  · have := Lexeme.isDigit_iff.1 h
    exact isBlank_eq_false (by omega) (by omega)
  · rfl

/-- The characters in texts of formulas that are no characters of words. -/
def formulaSymbols : List Char := ['.', '+', '-', '*', '/', '%', '(', ')']

/-- Whether the character occurs in texts of formulas. -/
def IsFormulaChar (c : Char) : Prop := Command.isWordChar c ∨ c ∈ formulaSymbols

namespace IsFormulaChar

variable {c : Char}

theorem isBlank (h : IsFormulaChar c) : isBlank c = false := by
  rcases h with h | h
  · exact isBlank_of_isWordChar h
  · have hsymbols : formulaSymbols.all (!SymCalc.isBlank ·) := by decide
    simpa using List.all_eq_true.1 hsymbols c h

/-- No formula contains the characters that mark an assignment or a derivative. -/
theorem ne_mark (h : IsFormulaChar c) : c ≠ '=' ∧ c ≠ '@' := by
  constructor <;>
  · rintro rfl
    exact absurd h (by simp [IsFormulaChar, formulaSymbols, Command.isWordChar])

end IsFormulaChar

/-- Whether the characters are some, and all of them occur in texts of formulas. -/
structure Written (cs : List Char) : Prop where
  ne_nil : cs ≠ []
  isFormulaChar : ∀ c ∈ cs, IsFormulaChar c

namespace Written

variable {cs ds : List Char} {d : Decimal}

theorem of_word (hne : cs ≠ []) (h : cs.all Command.isWordChar) : Written cs :=
  ⟨hne, fun c hc => .inl (List.all_eq_true.1 h c hc)⟩

theorem of_isDigits (h : Decimal.isDigits cs) : Written cs := by
  simp only [Decimal.isDigits, Bool.and_eq_true, Bool.not_eq_true', List.isEmpty_eq_false_iff,
    List.all_eq_true] at h
  refine of_word h.1 (List.all_eq_true.2 fun c hc => ?_)
  simp [Command.isWordChar, Char.isAlphanum, h.2 c hc]

theorem append (h : Written cs) (h' : Written ds) : Written (cs ++ ds) :=
  ⟨List.append_ne_nil_of_left_ne_nil h.ne_nil ds,
    List.forall_mem_append.2 ⟨h.isFormulaChar, h'.isFormulaChar⟩⟩

theorem symbol {c : Char} (h : c ∈ formulaSymbols) : Written [c] :=
  ⟨List.cons_ne_nil _ _, List.forall_mem_singleton.2 (.inr h)⟩

theorem of_ofChars? (h : Decimal.ofChars? cs = some d) : Written cs := by
  rcases Decimal.exists_of_ofChars? h with h | ⟨ds, fs, rfl, hds, hfs⟩
  · exact .of_isDigits h
  · exact (of_isDigits hds).append ((symbol (by decide)).append (.of_isDigits hfs))

theorem enclose (h : Written cs) : Written (Formula.enclose cs) :=
  ((symbol (c := '(') (by decide)).append h).append (symbol (by decide))

theorem unary (op : UnaryOp) : Written op.text.toList := by
  cases op <;> first | exact of_word (by decide) (by decide) | exact symbol (by decide)

theorem arith (op : ArithOp) : Written op.text.toList := by
  cases op <;> exact symbol (by decide)

end Written

/-- The names of variables are words that start with a letter. -/
theorem Command.exists_of_isVariableName {cs : List Char} (h : isVariableName cs) :
    ∃ c more, cs = c :: more ∧ c.isAlpha ∧ ∀ x ∈ c :: more, isWordChar x := by
  cases cs with
  | nil => cases h
  | cons c cs =>
    simp only [isVariableName, Bool.and_eq_true, List.all_eq_true] at h
    obtain ⟨⟨hc, hword⟩, -⟩ := h
    exact ⟨c, cs, rfl, hc, List.forall_mem_cons.2 ⟨by simp [isWordChar, Char.isAlphanum, hc], hword⟩⟩

theorem Written.of_isVariableName {cs : List Char} (h : Command.isVariableName cs) : Written cs := by
  obtain ⟨c, more, rfl, -, hall⟩ := Command.exists_of_isVariableName h
  exact of_word (List.cons_ne_nil _ _) (List.all_eq_true.2 hall)

namespace Formula

open Double

variable {f : Formula Float} {v : Float}

theorem written_constChars (h : IsConstant v) : Written (constChars v) := by
  have hpositive {v : Float} (h : IsConstant v) (hfin : v.isFinite) (hv : ¬ v < 0) :
      Written (doubleChars v) := by
    obtain ⟨d, hd, -⟩ := reads_doubleChars h hfin hv
    exact .of_ofChars? hd
  unfold constChars
  split
  · exact .of_word (by decide) (by decide)
  split
  · exact .of_word (by decide) (by decide)
  split
  · exact .of_word (by decide) (by decide)
  · next hnan _ _ =>
    by_cases hv : v < 0
    · obtain ⟨m, q, hm, hneg⟩ := unpacked_neg_of_lt_zero h hv
      rw [chars_of_lt_zero h hv]
      exact (Written.symbol (c := '-') (by decide)).append (hpositive (isConstant_neg h hv)
        (isFinite_of_unpacked hneg) (by simp [lt_zero_iff hneg]))
    · exact hpositive h (h.resolve_left hnan).1 hv

theorem written_toChars (h : f.Forall IsConstant fun x => Command.isVariableName x.toList) :
    Written f.toChars := by
  have hside {g : Formula Float} (h : Written g.toChars) :
      Written (if g.needsParens then Formula.enclose g.toChars else g.toChars) := by
    split
    · exact h.enclose
    · exact h
  induction f with
  | const v => exact written_constChars h
  | var x => exact .of_isVariableName h
  | unary op a ih =>
    have ha := (ih h).enclose
    cases op with
    | percent => exact ha.append (.symbol (by decide))
    | _ => exact (Written.unary _).append ha
  | binary op a b iha ihb =>
    exact ((hside (iha h.1)).append (.arith op)).append (hside (ihb h.2))

end Formula
end SymCalc
