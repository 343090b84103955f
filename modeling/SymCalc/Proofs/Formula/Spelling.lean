import SymCalc.Formula.Text
import SymCalc.Proofs.Syntax.Acceptance
import SymCalc.Proofs.Token.Boundary

/-!
# Characters that spell a formula

* `Spells`: characters are read as a phrase with a given formula, whatever comes after them;
* `Spells.ofText_eq`: what is spelled by a text as an expression is the formula of the text.

There is one lemma for every way to write a formula.
-/

namespace SymCalc

/-- The token of a lexeme, without a place. -/
def Lexeme.token (l : Lexeme) : Token := ⟨l.kind, String.ofList l.chars, .at 0⟩

/-- Whether the characters `cs` are a phrase of kind `p` with the formula `f` before everything that
does not continue a word or a numeral. -/
def Spells {α : Type} [Scalar α] (p : Phrase) (cs : List Char) (f : Formula α) : Prop :=
  ∃ ls e, (∀ rest, Lexeme.Separates rest → Lexeme.all (cs ++ rest) = ls ++ Lexeme.all rest) ∧
    Reads p (ls.map Lexeme.token) e ∧ Formula.ofExpr e = f

namespace Spells

open Lexeme Formula

variable {α : Type} [Scalar α] {p : Phrase} {cs ds : List Char} {f g : Formula α}

theorem toPostfixed (h : Spells .primary cs f) : Spells .postfixed cs f := by
  obtain ⟨ls, e, hl, hr, he⟩ := h
  exact ⟨ls, e, hl, .primary hr, he⟩

theorem toOperand (h : Spells .postfixed cs f) : Spells .operand cs f := by
  obtain ⟨ls, e, hl, hr, he⟩ := h
  exact ⟨ls, e, hl, .postfixed hr, he⟩

theorem toExpression (h : Spells .operand cs f) : Spells .expression cs f := by
  obtain ⟨ls, e, hl, hr, he⟩ := h
  exact ⟨ls, e, hl, .operand hr, he⟩

theorem numeral {d : Decimal} (h : Decimal.ofChars? cs = some d) :
    Spells .primary cs (ofValue (Scalar.ofDecimal d) : Formula α) :=
  ⟨[⟨.number, cs⟩], .number d (.at 0), fun _ hr => all_numeral h hr,
    .number rfl (by simpa [token] using h), rfl⟩

theorem name {c : Char} (hc : c.isAlpha) (hcs : ∀ x ∈ cs, isNameChar x)
    (hw : UnaryOp.ofWord? (String.ofList (c :: cs)) = none) :
    Spells .primary (c :: cs) ((constantNamed? (String.ofList (c :: cs))).getD
      (.var (String.ofList (c :: cs))) : Formula α) :=
  ⟨[⟨.name, c :: cs⟩], .symbol (String.ofList (c :: cs)) (.at 0), fun _ hr => all_word hc hcs hr,
    .name rfl hw, rfl⟩

theorem enclose (h : Spells .expression cs f) : Spells .primary (Formula.enclose cs) f := by
  obtain ⟨ls, e, hl, hr, he⟩ := h
  refine ⟨⟨.openParen, ['(']⟩ :: ls ++ [⟨.closeParen, [')']⟩], .paren e (.at 0), ?_, ?_, he⟩
  · intro rest _
    have hclose : Separates (')' :: rest) := separates_cons (by decide) (by decide)
    simp only [Formula.enclose, List.cons_append, List.append_assoc, List.nil_append]
    rw [all_single (by decide) (by decide), hl _ hclose, all_single (by decide) (by decide)]
    rfl
  · rw [List.map_append, List.map_cons]
    exact .paren rfl hr rfl

theorem percent (h : Spells .postfixed cs f) :
    Spells .postfixed (cs ++ ['%']) (.unary .percent f) := by
  obtain ⟨ls, e, hl, hr, rfl⟩ := h
  refine ⟨ls ++ [⟨.percent, ['%']⟩], .unary .percent (.at 0) e (e.span.through (.at 0)), ?_, ?_,
    rfl⟩
  · intro rest _
    have hpercent : Separates ('%' :: rest) := separates_cons (by decide) (by decide)
    simp only [List.append_assoc, List.cons_append, List.nil_append]
    rw [hl _ hpercent, all_single (by decide) (by decide)]
    rfl
  · rw [List.map_append]
    exact .percent hr rfl

theorem negate (h : Spells .operand cs f) : Spells .operand ('-' :: cs) (.unary .negate f) := by
  obtain ⟨ls, e, hl, hr, rfl⟩ := h
  refine ⟨⟨.minus, ['-']⟩ :: ls, _, ?_, .prefixed rfl hr, rfl⟩
  intro rest hrest
  rw [List.cons_append, all_single (by decide) (by decide), hl _ hrest]
  rfl

/-- The functions are written as words. -/
theorem exists_text_toList {op : UnaryOp} (hop : op ∈ UnaryOp.functions) : ∃ c w,
    op.text.toList = c :: w ∧ c.isAlpha ∧ w.all isNameChar ∧
      UnaryOp.ofWord? op.text = some op := by
  simp only [UnaryOp.functions, List.mem_cons, List.not_mem_nil, or_false] at hop
  rcases hop with rfl | rfl | rfl | rfl | rfl <;>
    exact ⟨_, _, rfl, by decide, by decide, by decide⟩

theorem function {op : UnaryOp} (hop : op ∈ UnaryOp.functions)
    (h : Spells .operand (Formula.enclose cs) f) :
    Spells .operand (op.text.toList ++ Formula.enclose cs) (.unary op f) := by
  obtain ⟨ls, e, hl, hr, rfl⟩ := h
  obtain ⟨c, w, hw, hc, hword, hop⟩ := exists_text_toList hop
  have hprefix : Cursor.prefixOp? (token ⟨.name, op.text.toList⟩) = some op := by
    simpa [Cursor.prefixOp?, token] using hop
  refine ⟨⟨.name, op.text.toList⟩ :: ls, .unary op (.at 0) e ((Span.at 0).through e.span), ?_,
    .prefixed hprefix hr, rfl⟩
  intro rest hrest
  have hparen : Separates (Formula.enclose cs ++ rest) := separates_cons (by decide) (by decide)
  rw [List.append_assoc, hw, all_word hc (List.all_eq_true.1 hword) hparen, hl _ hrest]
  rfl

/-- The operators of formulas are written as one character each. -/
theorem exists_infix_text (op : ArithOp) : ∃ c, op.text.toList = [c] ∧ isSpace c = false ∧
    isNameChar c = false ∧ c ≠ '.' ∧ Cursor.infixOp? (token ⟨single c, [c]⟩) = some (.arith op) := by
  cases op <;> exact ⟨_, rfl, by decide, by decide, by decide, by decide⟩

theorem infixed (op : ArithOp) (hf : Spells .operand cs f) (hg : Spells .operand ds g) :
    Spells .expression (cs ++ op.text.toList ++ ds) (.binary op f g) := by
  obtain ⟨ls, e, hl, hr, rfl⟩ := hf
  obtain ⟨ks, x, hk, hx, rfl⟩ := hg
  obtain ⟨c, hc, hs, hn, hp, hop⟩ := exists_infix_text op
  refine ⟨ls ++ ⟨single c, [c]⟩ :: ks, e.extend (.arith op) (.at 0) x, ?_, ?_, ?_⟩
  · intro rest hrest
    rw [hc, List.append_assoc, List.append_assoc, List.singleton_append,
      hl _ (separates_cons hn hp), all_single hs hn, hk _ hrest, List.append_assoc]
    rfl
  · rw [List.map_append]
    exact .infixed (.operand hr) hop hx
  · rw [Expr.extend_of_rootOp? (hr.rootOp?_eq_none (by simp))]
    rfl

/-! ## Whole texts -/

theorem isBlank_of_reads {ts : List Token} {e : Expr} (h : Reads p ts e) :
    ∀ t ∈ ts, t.isBlank = false := by
  induction h with
  | number hk _ | name hk _ => simp [Token.isBlank, hk]
  | paren ho _ hc ih => simpa [Token.isBlank, ho, hc, or_imp, forall_and] using ih
  | primary _ ih | postfixed _ ih | operand _ ih => exact ih
  | percent _ hk ih => simpa [Token.isBlank, hk, or_imp, forall_and] using ih
  | @prefixed t op _ _ hop _ ih =>
    have ht : t.kind ≠ .blank := by
      intro hk
      simp [Cursor.prefixOp?, hk] at hop
    simpa [Token.isBlank, ht] using ih
  | @infixed _ _ t _ _ _ _ hop _ ihe ihx =>
    have ht : t.kind ≠ .blank := by
      intro hk
      simp [Cursor.infixOp?, hk] at hop
    simp only [List.forall_mem_append, List.forall_mem_cons]
    exact ⟨ihe, by simp [Token.isBlank, ht], ihx⟩

theorem map_entry_place (start : Nat) (ls : List Lexeme) :
    (Token.place start ls).map Token.entry = (ls.map token).map Token.entry := by
  induction ls generalizing start with
  | nil => rfl
  | cons l ls ih => simp [Token.place, ih, Token.entry, token]

/-- What a text spells as an expression is its formula. -/
theorem ofText_eq (h : Spells .expression cs f) : Formula.ofText (String.ofList cs) = .ok f := by
  obtain ⟨ls, e, hl, hr, rfl⟩ := h
  have hall : all cs = ls := by simpa [all] using hl [] separates_nil
  have hentries := map_entry_place 0 ls
  obtain ⟨x, hx, hxe⟩ := hr.exists_of_entries hentries
  have htokens : Token.significant (String.ofList cs) = Token.place 0 ls := by
    rw [Token.significant, Token.ofText, String.toList_ofList, hall]
    apply List.filter_eq_self.2
    intro t ht
    simp [isBlank_of_reads hx t ht]
  exact ofText_eq_of_reads (htokens ▸ hx) hxe

end Spells
end SymCalc
