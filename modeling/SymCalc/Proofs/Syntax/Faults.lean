import SymCalc.Proofs.Syntax.Advance

/-!
# Where readers fail

* `Cursor.Faults`: the reasons why no operand can be read at a cursor;
* `Leads`: tokens between a place where an operand has to come and the next such place;
* `Cursor.Blocked`: a fault at the cursor or at a later place where an operand has to come.

A reader that calls others fails because one of them does, at a place to which the tokens lead that have
been read. So every failure goes back to one fault (`Cursor.blocked_of_fails_expression`), and what
holds of reports is proved for the faults and kept by the tokens that lead to them.
-/

namespace SymCalc

/-- The tokens lead from a place where an operand has to come to the next such place. -/
inductive Leads : List Token → Prop
  | prefixOp {t : Token} : Cursor.prefixOp? t ≠ none → Leads [t]
  | openParen {t : Token} : t.kind = .openParen → Leads [t]
  | infixOp {ts : List Token} {t : Token} {e : Expr} : Reads .operand ts e →
      Cursor.infixOp? t ≠ none → Leads (ts ++ [t])

namespace Cursor

/-- There is no operand at the cursor, for the reason that the report gives. Errors in the operand of a
prefix operator and in the expression in parentheses are left out. -/
inductive Faults (c : Cursor) : Report → Prop
  | atEnd : c.clean = [] → c.Faults (Problem.unexpectedEnd.atSpan c.endSpan)
  | missingArgument {t : Token} {op : UnaryOp} {d : Cursor} : c.clean = t :: d.clean →
      prefixOp? t = some op → d.lacksOperand = true →
      c.Faults ((Problem.missingArgument op).atSpan t.span)
  | invalidNumber {t : Token} {ts : List Token} : c.clean = t :: ts → t.kind = .number →
      Decimal.ofChars? t.lexeme.toList = none →
      c.Faults ((Problem.invalidNumber t.lexeme).atSpan t.span)
  | unknownFunction {t o : Token} {ts : List Token} : c.clean = t :: o :: ts → t.kind = .name →
      prefixOp? t = none → o.kind = .openParen →
      c.Faults ((Problem.unknownFunction t.lexeme (similarFunction? t.lexeme)).atSpan t.span)
  | noPrimary {t : Token} {ts : List Token} : c.clean = t :: ts → prefixOp? t = none →
      t.kind ≠ .number → t.kind ≠ .name → t.kind ≠ .openParen → c.Faults (noPrimary t)
  | emptyParenthesis {o t : Token} {ts : List Token} : c.clean = o :: t :: ts →
      o.kind = .openParen → t.kind = .closeParen →
      c.Faults (Problem.emptyParenthesis.atSpan t.span)
  | unclosed {o : Token} {x : Expr} {d d' : Cursor} : c.clean = o :: d.clean →
      o.kind = .openParen → d.expression.Gives x d' → d'.Avoids .closeParen →
      c.Faults (unclosed o.span d')

/-- There is a fault at the cursor or at a place to which the tokens ahead lead. -/
inductive Blocked : Cursor → Report → Prop
  | fault {c : Cursor} {r : Report} : c.Faults r → c.Blocked r
  | leads {c d : Cursor} {r : Report} {us : List Token} : Leads us → c.clean = us ++ d.clean →
      d.stop = c.stop → d.Blocked r → c.Blocked r

variable {c d : Cursor} {e x : Expr} {r : Report} {t : Token} {ts : List Token}

/-! ## The end of the text -/

theorem stop_of_gives_next (h : c.next.Gives t d) : d.stop = c.stop :=
  (covers_of_gives_next h).precedes.stop_eq

theorem stop_of_gives_operand (h : c.operand.Gives e d) : d.stop = c.stop :=
  have hadvances : c.operand.Advances c Expr.span := advances_operand fun _ => advances_expression _
  (hadvances.covers h).precedes.stop_eq

theorem stop_of_gives_expression (h : c.expression.Gives e d) : d.stop = c.stop :=
  ((advances_expression c).covers h).precedes.stop_eq

/-! ## Failures -/

theorem blocked_of_fails_parenthesized (h : c.parenthesized.Fails r) (hc : c.clean = t :: ts)
    (hk : t.kind = .openParen)
    (ih : ∀ {d : Cursor}, d.remaining < c.remaining → d.Avoids .closeParen → d.expression.Fails r →
      d.Blocked r) : c.Blocked r := by
  obtain ⟨d, hd, h⟩ := of_fails_parenthesized h hc hk
  have hcd := clean_of_gives_next hd
  rcases h with ⟨u, us, hu, huk, rfl⟩ | ⟨ha, h⟩ | ⟨x, d', hx, ha, rfl⟩
  · exact .fault (.emptyParenthesis (hu ▸ hcd) hk huk)
  · exact .leads (.openParen hk) hcd (stop_of_gives_next hd) (ih hd.remaining_lt ha h)
  · exact .fault (.unclosed hcd hk hx ha)

theorem blocked_of_fails_primary (h : c.primary.Fails r)
    (ho : ∀ t ∈ c.clean.head?, prefixOp? t = none)
    (ih : ∀ {d : Cursor}, d.remaining < c.remaining → d.Avoids .closeParen → d.expression.Fails r →
      d.Blocked r) : c.Blocked r := by
  rcases of_fails_primary h with ⟨hc, rfl⟩ | ⟨t, ts, hc, h⟩
  · exact .fault (.atEnd hc)
  have ho : prefixOp? t = none := ho t (by simp [hc])
  rcases h with ⟨hk, h⟩ | ⟨hk, h⟩ | ⟨hk, h⟩ | ⟨⟨h₁, h₂, h₃⟩, rfl⟩
  · obtain ⟨hv, rfl⟩ := of_fails_number h hc hk
    exact .fault (.invalidNumber hc hk hv)
  · obtain ⟨⟨o, us, rfl, hok⟩, rfl⟩ := of_fails_symbol h hc hk
    exact .fault (.unknownFunction hc hk ho hok)
  · exact blocked_of_fails_parenthesized h hc hk ih
  · exact .fault (.noPrimary hc ho h₁ h₂ h₃)

theorem blocked_of_fails_operand (h : c.operand.Fails r)
    (ih : ∀ {d : Cursor}, d.remaining < c.remaining → d.Avoids .closeParen → d.expression.Fails r →
      d.Blocked r) : c.Blocked r := by
  induction hn : c.remaining using Nat.strongRecOn generalizing c with
  | ind n ihn =>
    rcases of_fails_operand h with ⟨t, op, d, ht, hop, h⟩ | ⟨ho, h⟩
    · have hc := clean_of_gives_next ht
      rcases h with ⟨hl, rfl⟩ | ⟨-, h⟩
      · exact .fault (.missingArgument hc hop hl)
      · refine .leads (.prefixOp (hop ▸ Option.some_ne_none op)) hc (stop_of_gives_next ht) ?_
        exact ihn _ (hn ▸ ht.remaining_lt) h
          (fun hlt => ih (Nat.lt_trans hlt ht.remaining_lt)) rfl
    · exact blocked_of_fails_primary h ho ih

/-- What follows an operand fails behind an infix operator. -/
theorem blocked_of_fails_continuation (h : (continuation x c).Fails r)
    (ih : ∀ {d : Cursor}, d.remaining < c.remaining → d.operand.Fails r → d.Blocked r) :
    ∃ (t : Token) (d : Cursor), c.clean = t :: d.clean ∧ infixOp? t ≠ none ∧ d.stop = c.stop ∧
      d.Blocked r := by
  induction hn : c.remaining using Nat.strongRecOn generalizing c x with
  | ind n ihn =>
    obtain ⟨t, op, d, ht, hop, h⟩ := of_fails_continuation h
    refine ⟨t, d, clean_of_gives_next ht, hop ▸ Option.some_ne_none op, stop_of_gives_next ht, ?_⟩
    rcases h with h | ⟨y, d₁, hy, h⟩
    · exact ih ht.remaining_lt h
    · obtain ⟨us, hus, hr⟩ := reads_of_gives_operand (fun _ h => reads_of_gives_expression h) hy
      have hlt := Nat.lt_trans hy.remaining_lt ht.remaining_lt
      obtain ⟨u, d₂, hd₁, hu, hstop, hd₂⟩ :=
        ihn _ (hn ▸ hlt) h (fun hlt' => ih (Nat.lt_trans hlt' hlt)) rfl
      refine .leads (.infixOp hr hu) ?_ (hstop.trans (stop_of_gives_operand hy)) hd₂
      rw [hus, hd₁, List.append_assoc, List.singleton_append]

/-- An expression fails at a closing parenthesis where it should start, or at a fault. -/
theorem blocked_of_fails_expression (h : c.expression.Fails r) :
    (∃ t ts, c.clean = t :: ts ∧ t.kind = .closeParen ∧
      r = (Problem.unclosedParenthesis false).atSpan t.span) ∨ c.Blocked r := by
  induction hn : c.remaining using Nat.strongRecOn generalizing c with
  | ind n ihn =>
    have ih {d : Cursor} (hlt : d.remaining < c.remaining) (ha : d.Avoids .closeParen)
        (h : d.expression.Fails r) : d.Blocked r := by
      refine (ihn _ (hn ▸ hlt) h rfl).resolve_left ?_
      rintro ⟨t, ts, hd, hk, -⟩
      exact ha t (by simp [hd]) hk
    rcases of_fails_expression h with h | h | ⟨x, d, hx, h⟩
    · exact .inl h
    · exact .inr (blocked_of_fails_operand h ih)
    · obtain ⟨us, hus, hr⟩ := reads_of_gives_operand (fun _ h => reads_of_gives_expression h) hx
      obtain ⟨t, d', hd, ht, hstop, hd'⟩ := blocked_of_fails_continuation h fun hlt h =>
        blocked_of_fails_operand h fun hlt' =>
          ih (Nat.lt_trans hlt' (Nat.lt_trans hlt hx.remaining_lt))
      refine .inr (.leads (.infixOp hr ht) ?_ (hstop.trans (stop_of_gives_operand hx)) hd')
      rw [hus, hd, List.append_assoc, List.singleton_append]

end Cursor
end SymCalc
