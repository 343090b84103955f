import SymCalc.Proofs.Syntax.Fails

/-!
# Prefix operators without an operand

`Cursor.operand` looks at the token after a prefix operator and blames the operator if no operand can
start there; `Cursor.unary` does not look and passes on what reading an operand there reports
(`Cursor.noOperand`). This is the only difference between the two (`Cursor.unary_operand`).
-/

namespace SymCalc
namespace Cursor

variable {c d : Cursor} {t : Token} {op : UnaryOp}

/-- The report of an operand that is certainly missing where the cursor is. -/
def noOperand (c : Cursor) : Report :=
  match c.peek? with
  | none => Problem.unexpectedEnd.atSpan c.endSpan
  | some t => (Problem.unexpectedToken [.number, .name, .openParen] t.kind).atSpan t.span

theorem noOperand_ne_missingArgument (c : Cursor) (op : UnaryOp) (s : Span) :
    c.noOperand ≠ (Problem.missingArgument op).atSpan s := by
  unfold noOperand
  split <;> simp [Problem.atSpan]

theorem primary_of_lacksOperand (h : c.lacksOperand = true) :
    c.primary = .failed c.noOperand c := by
  rw [primary, noOperand]
  cases hc : c.peek? with
  | none => rfl
  | some t =>
    obtain ⟨-, h₁, h₂, h₃, h₄⟩ := kind_of_lacksOperand h hc
    -- No branch for a token that starts a primary is left.
    simp only
    rw [noPrimary, if_neg h₄]

theorem operand_of_lacksOperand (h : c.lacksOperand = true) :
    c.operand = .failed c.noOperand c := by
  have hprefix : ∀ v d, ¬ c.prefixOp.Gives v d := by
    rw [prefixOp, not_gives_tokenOf, ← peek?_eq]
    intro t ht
    rw [(kind_of_lacksOperand h ht).1, Option.map_none]
  obtain ⟨_, _, hprefix⟩ := Reading.eq_failed_of_not_gives hprefix
  rw [operand, hprefix]
  simp only [primary_of_lacksOperand h]

/-- `Cursor.operand` blames a prefix operator whose operand is certainly missing. -/
theorem operand_of_prefixOp (ht : c.next.Gives t d) (hop : prefixOp? t = some op)
    (hl : d.lacksOperand = true) :
    c.operand = .failed ((Problem.missingArgument op).atSpan t.span) d := by
  obtain ⟨_, hprefix⟩ := (gives_prefixOp.2 ⟨t, ht, hop, rfl⟩).eq_done
  rw [operand, hprefix]
  simp only [hl, if_true]

/-- `Cursor.unary` reports what reading the missing operand does. -/
theorem unary_of_prefixOp (ht : c.next.Gives t d) (hop : prefixOp? t = some op)
    (hl : d.lacksOperand = true) : c.unary = .failed d.noOperand d := by
  obtain ⟨_, hprefix⟩ := (gives_prefixOp.2 ⟨t, ht, hop, rfl⟩).eq_done
  rw [unary, hprefix]
  simp only [operand_of_lacksOperand hl]

/-- After a prefix operator the two readers of an operand have the same outcome, unless the operand is
certainly missing. Then one blames the operator, and the other the place after it. -/
theorem unary_operand (ht : c.next.Gives t d) (hop : prefixOp? t = some op) :
    (d.lacksOperand = false → c.unary = c.operand) ∧
      (d.lacksOperand = true →
        c.operand = .failed ((Problem.missingArgument op).atSpan t.span) d ∧
          c.unary = .failed d.noOperand d ∧ c.unary.result ≠ c.operand.result) := by
  constructor
  · intro hl
    obtain ⟨_, hprefix⟩ := (gives_prefixOp.2 ⟨t, ht, hop, rfl⟩).eq_done
    rw [unary, operand, hprefix]
    simp only [hl, Bool.false_eq_true, if_false]
  · intro hl
    have hoperand := operand_of_prefixOp ht hop hl
    have hunary := unary_of_prefixOp ht hop hl
    refine ⟨hoperand, hunary, ?_⟩
    rw [hoperand, hunary]
    exact fun h => noOperand_ne_missingArgument d op t.span (Except.error.inj h)

theorem next_minus :
    (ofText "-").next.Gives ⟨.minus, "-", ⟨0, 1⟩⟩ ⟨[⟨.minus, "-", ⟨0, 1⟩⟩], [], 1⟩ :=
  ⟨by decide +kernel, by decide +kernel⟩

/-- Before a variable the outcome is the same, and at the end of the text it is not. -/
theorem unary_operand_minus :
    (ofText "-x").unary = (ofText "-x").operand ∧
      (ofText "-").unary.result ≠ (ofText "-").operand.result := by
  have hx : (ofText "-x").next.Gives ⟨.minus, "-", ⟨0, 1⟩⟩
      ⟨[⟨.minus, "-", ⟨0, 1⟩⟩], [⟨.name, "x", ⟨1, 2⟩⟩], 2⟩ :=
    ⟨by decide +kernel, by decide +kernel⟩
  exact ⟨(unary_operand hx rfl).1 rfl, ((unary_operand next_minus rfl).2 rfl).2.2⟩

/-- After a minus sign at the end of the text one reader misses the argument of the operator, and the
other reports the end. -/
theorem unary_ne_operand :
    (ofText "-").operand.result = .error ((Problem.missingArgument .negate).atSpan ⟨0, 1⟩) ∧
      (ofText "-").unary.result = .error (Problem.unexpectedEnd.atSpan ⟨1, 1⟩) ∧
      ¬ ∀ (c : Cursor) (t : Token) (d : Cursor) (op : UnaryOp), c.next.Gives t d →
        prefixOp? t = some op → c.unary.result = c.operand.result := by
  have hoperand : (ofText "-").operand.result =
      .error ((Problem.missingArgument .negate).atSpan ⟨0, 1⟩) := by
    rw [operand_of_prefixOp next_minus rfl rfl]
    rfl
  have hunary : (ofText "-").unary.result = .error (Problem.unexpectedEnd.atSpan ⟨1, 1⟩) := by
    rw [unary_of_prefixOp next_minus rfl rfl]
    rfl
  refine ⟨hoperand, hunary, fun h => ?_⟩
  have heq := h _ _ _ .negate next_minus rfl
  rw [hoperand, hunary] at heq
  cases heq

end Cursor
end SymCalc
