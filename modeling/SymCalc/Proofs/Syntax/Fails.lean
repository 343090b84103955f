import SymCalc.Proofs.Syntax.Phrase

/-!
# Why readers fail

`Reading.Fails` says that a reading failed, and with which report. Every function that reads a part of
the language has one lemma `…_of_fails_…` that lists the ways in which it can fail, in terms of the
tokens ahead that are not blank and of what its parts return; later proofs do not open these
functions.
-/

namespace SymCalc

namespace Reading

variable {n m : Nat} {β : Type} {r r' : Report} {c d : Cursor}

/-- The reading failed with the report `r`. -/
def Fails (reading : Reading n β) (r : Report) : Prop := reading.result = .error r

@[simp] theorem fails_done {v : β} {h : c.remaining < n} : (done v c h).Fails r ↔ False := by
  simp [Fails, result]

@[simp] theorem fails_failed : (failed r' c : Reading n β).Fails r ↔ r' = r := by
  simp [Fails, result]

@[simp] theorem fails_weaken {reading : Reading m β} {h : m ≤ n} :
    (reading.weaken h).Fails r ↔ reading.Fails r := by
  cases reading <;> simp [weaken]

@[simp] theorem fails_attempt {reading : Reading n β} :
    (Cursor.attempt d reading).Fails r ↔ reading.Fails r := by
  cases reading <;> simp [Cursor.attempt]

end Reading

namespace Cursor

variable {c : Cursor} {r : Report} {t : Token} {ts : List Token} {x : Expr}

/-! ## Literals -/

/-- A token of the class number can only fail to have a value. -/
theorem of_fails_number (h : c.number.Fails r) (hc : c.clean = t :: ts) (hk : t.kind = .number) :
    Decimal.ofChars? t.lexeme.toList = none ∧ r = (Problem.invalidNumber t.lexeme).atSpan t.span := by
  obtain ⟨d, hd, -⟩ := gives_next_of_clean hc
  obtain ⟨lt, ht⟩ := (gives_token.2 ⟨hd, hk⟩).eq_done
  rw [number, ht] at h
  simp only at h
  split at h
  · exact (Reading.fails_done.1 h).elim
  · next hv => exact ⟨hv, (Reading.fails_failed.1 h).symm⟩

/-- A name is no variable if it touches an opening parenthesis. -/
theorem of_fails_symbol (h : c.symbol.Fails r) (hc : c.clean = t :: ts) (hk : t.kind = .name) :
    (∃ o us, ts = o :: us ∧ o.kind = .openParen) ∧
      r = (Problem.unknownFunction t.lexeme (similarFunction? t.lexeme)).atSpan t.span := by
  obtain ⟨d, hd, rfl⟩ := gives_next_of_clean hc
  obtain ⟨lt, ht⟩ := (gives_token.2 ⟨hd, hk⟩).eq_done
  rw [symbol, ht] at h
  simp only at h
  split at h
  · next ho =>
    refine ⟨?_, (Reading.fails_failed.1 h).symm⟩
    by_contra hne
    refine not_touches_paren (c := d) ?_ ho
    intro o ho hk
    obtain ⟨us, hus⟩ := List.head?_eq_some_iff.1 ho
    exact hne ⟨o, us, hus, hk⟩
  · exact (Reading.fails_done.1 h).elim

/-! ## Expressions -/

theorem of_fails_parenthesized (h : c.parenthesized.Fails r) (hc : c.clean = t :: ts)
    (hk : t.kind = .openParen) : ∃ d, c.next.Gives t d ∧
      ((∃ u us, d.clean = u :: us ∧ u.kind = .closeParen ∧
          r = Problem.emptyParenthesis.atSpan u.span) ∨
        d.Avoids .closeParen ∧ d.expression.Fails r ∨
        ∃ x d', d.expression.Gives x d' ∧ d'.Avoids .closeParen ∧ r = unclosed t.span d') := by
  obtain ⟨d, hd, -⟩ := gives_next_of_clean hc
  obtain ⟨lt, ht⟩ := (gives_token.2 ⟨hd, hk⟩).eq_done
  refine ⟨d, hd, ?_⟩
  rw [parenthesized, ht] at h
  simp only at h
  split at h
  · next u hu =>
    rw [peek?_eq, Option.filter_eq_some_iff] at hu
    obtain ⟨us, hus⟩ := List.head?_eq_some_iff.1 hu.1
    exact .inl ⟨u, us, hus, by simpa using hu.2, (Reading.fails_failed.1 h).symm⟩
  · next hu =>
    split at h
    · next hx =>
      exact .inr (.inl ⟨filter_peek?_eq_none.1 hu,
        hx ▸ Reading.fails_failed.2 (Reading.fails_failed.1 h)⟩)
    · next x d' _ hx =>
      split at h
      · next hu =>
        refine .inr (.inr ⟨x, d', hx ▸ Reading.gives_done.2 ⟨rfl, rfl⟩, ?_,
          (Reading.fails_failed.1 h).symm⟩)
        intro u hu' hk'
        obtain ⟨us, hus⟩ := List.head?_eq_some_iff.1 hu'
        obtain ⟨d₁, hd₁, -⟩ := gives_next_of_clean hus
        obtain ⟨_, hdone⟩ := (gives_token.2 ⟨hd₁, hk'⟩).eq_done
        cases hu.symm.trans hdone
      · exact (Reading.fails_done.1 h).elim

theorem of_fails_primary (h : c.primary.Fails r) :
    (c.clean = [] ∧ r = Problem.unexpectedEnd.atSpan c.endSpan) ∨
      ∃ t ts, c.clean = t :: ts ∧
        (t.kind = .number ∧ c.number.Fails r ∨ t.kind = .name ∧ c.symbol.Fails r ∨
          t.kind = .openParen ∧ c.parenthesized.Fails r ∨
          (t.kind ≠ .number ∧ t.kind ≠ .name ∧ t.kind ≠ .openParen) ∧ r = noPrimary t) := by
  rw [primary, peek?_eq] at h
  split at h
  · next hc =>
    exact .inl ⟨List.head?_eq_none_iff.1 hc, (Reading.fails_failed.1 h).symm⟩
  · next t hc =>
    obtain ⟨ts, hc⟩ := List.head?_eq_some_iff.1 hc
    refine .inr ⟨t, ts, hc, ?_⟩
    split at h
    · next hk =>
      have hname : ¬ c.peek?.any (·.kind = .name) := by simp [peek?_eq, hc, hk]
      rw [literal, if_neg hname, Reading.fails_attempt, Reading.fails_attempt] at h
      exact .inl ⟨hk, h⟩
    · next hk =>
      have hname : c.peek?.any (·.kind = .name) := by simp [peek?_eq, hc, hk]
      rw [literal, if_pos hname, Reading.fails_attempt, Reading.fails_attempt] at h
      exact .inr (.inl ⟨hk, h⟩)
    · next hk => exact .inr (.inr (.inl ⟨hk, Reading.fails_attempt.1 h⟩))
    · next h₁ h₂ h₃ =>
      exact .inr (.inr (.inr ⟨⟨h₁, h₂, h₃⟩, (Reading.fails_failed.1 h).symm⟩))

theorem not_fails_postfixes (x : Expr) (c : Cursor) (r : Report) : ¬ (postfixes x c).Fails r := by
  intro h
  induction hn : c.remaining using Nat.strongRecOn generalizing c x with
  | ind n ih =>
    rw [postfixes] at h
    split at h
    · exact (Reading.fails_done.1 h).elim
    · next lt hop => exact ih _ (hn ▸ lt) _ _ (Reading.fails_weaken.1 h) rfl

/-- A token where an operand is certainly missing starts no operand. -/
theorem kind_of_lacksOperand (h : c.lacksOperand = true) (ht : c.peek? = some t) :
    prefixOp? t = none ∧ t.kind ≠ .number ∧ t.kind ≠ .name ∧ t.kind ≠ .openParen ∧
      t.kind ≠ .symbol := by
  simp only [lacksOperand, ht, Option.all_some, Bool.or_eq_true, decide_eq_true_eq] at h
  cases hk : t.kind <;> simp_all [Token.Kind.isBetweenOperands, prefixOp?]

theorem of_fails_operand (h : c.operand.Fails r) :
    (∃ t op d, c.next.Gives t d ∧ prefixOp? t = some op ∧
      (d.lacksOperand = true ∧ r = (Problem.missingArgument op).atSpan t.span ∨
        d.lacksOperand = false ∧ d.operand.Fails r)) ∨
      (∀ t ∈ c.clean.head?, prefixOp? t = none) ∧ c.primary.Fails r := by
  rw [operand] at h
  split at h
  · next op s d lt hop =>
    obtain ⟨t, ht, hto, rfl⟩ := gives_prefixOp.1 (hop ▸ Reading.gives_done.2 ⟨rfl, rfl⟩)
    refine .inl ⟨t, op, d, ht, hto, ?_⟩
    split at h
    · next hl => exact .inl ⟨hl, (Reading.fails_failed.1 h).symm⟩
    · next hl =>
      refine .inr ⟨by simpa using hl, ?_⟩
      split at h
      · next hx => exact hx ▸ Reading.fails_failed.2 (Reading.fails_failed.1 h)
      · exact (Reading.fails_done.1 h).elim
  · next hop =>
    have hnone : ∀ v d, ¬ c.prefixOp.Gives v d := by simp [hop]
    have hprefix : ∀ t ∈ c.clean.head?, (prefixOp? t).map (·, t.span) = none :=
      not_gives_tokenOf.1 hnone
    refine .inr ⟨by simpa using hprefix, ?_⟩
    split at h
    · next hx => exact hx ▸ Reading.fails_failed.2 (Reading.fails_failed.1 h)
    · exact (not_fails_postfixes _ _ _ (Reading.fails_weaken.1 h)).elim

theorem of_fails_continuation (h : (continuation x c).Fails r) :
    ∃ t op d, c.next.Gives t d ∧ infixOp? t = some op ∧
      (d.operand.Fails r ∨ ∃ y d', d.operand.Gives y d' ∧
        (continuation (x.extend op t.span y) d').Fails r) := by
  rw [continuation] at h
  split at h
  · exact (Reading.fails_done.1 h).elim
  · next op s d lt hop =>
    obtain ⟨t, ht, hto, rfl⟩ := gives_infixOp.1 (hop ▸ Reading.gives_done.2 ⟨rfl, rfl⟩)
    refine ⟨t, op, d, ht, hto, ?_⟩
    split at h
    · next hy => exact .inl (hy ▸ Reading.fails_failed.2 (Reading.fails_failed.1 h))
    · next y d' _ hy =>
      exact .inr ⟨y, d', hy ▸ Reading.gives_done.2 ⟨rfl, rfl⟩, Reading.fails_weaken.1 h⟩

theorem of_fails_expression (h : c.expression.Fails r) :
    (∃ t ts, c.clean = t :: ts ∧ t.kind = .closeParen ∧
      r = (Problem.unclosedParenthesis false).atSpan t.span) ∨
      c.operand.Fails r ∨ ∃ x d, c.operand.Gives x d ∧ (continuation x d).Fails r := by
  rw [expression] at h
  split at h
  · next t ht =>
    rw [peek?_eq, Option.filter_eq_some_iff] at ht
    obtain ⟨ts, hts⟩ := List.head?_eq_some_iff.1 ht.1
    exact .inl ⟨t, ts, hts, by simpa using ht.2, (Reading.fails_failed.1 h).symm⟩
  · split at h
    · next hx => exact .inr (.inl (hx ▸ Reading.fails_failed.2 (Reading.fails_failed.1 h)))
    · next x d _ hx =>
      exact .inr (.inr ⟨x, d, hx ▸ Reading.gives_done.2 ⟨rfl, rfl⟩, Reading.fails_weaken.1 h⟩)

/-! ## Whole texts -/

/-- The report for a text in which the token `t` follows a complete formula. -/
def trailing (t : Token) (stop : Nat) : Report :=
  match t.kind with
  | .closeParen => (Problem.unclosedParenthesis false).atSpan t.span
  | .symbol => (Problem.unknownOperator t.lexeme).atSpan t.span
  | _ => Problem.expectedEnd.atSpan (t.span.through (.at stop))

theorem stop_skipFrom (stop : Nat) (passed ahead : List Token) :
    (skipFrom stop passed ahead).stop = stop := by
  induction ahead generalizing passed with
  | nil => rfl
  | cons t ts ih =>
    rw [skipFrom]
    split
    · exact ih _
    · rfl

theorem stop_skipBlanks (c : Cursor) : c.skipBlanks.stop = c.stop := stop_skipFrom ..

theorem of_fails_full {β : Type} {n : Nat} {reading : Reading n β} (h : (full reading).Fails r) :
    reading.Fails r ∨
      ∃ v d t ts, reading.Gives v d ∧ d.clean = t :: ts ∧ r = trailing t d.stop := by
  cases reading with
  | failed r' c => exact .inl (Reading.fails_failed.2 (Reading.fails_failed.1 h))
  | done v d lt =>
    refine .inr ⟨v, d, ?_⟩
    have hc := current?_skipBlanks d
    simp only [full] at h
    split at h
    · exact (Reading.fails_done.1 h).elim
    · next t ht =>
      obtain ⟨ts, hts⟩ := List.head?_eq_some_iff.1 (hc.symm.trans ht)
      refine ⟨t, ts, Reading.gives_done.2 ⟨rfl, rfl⟩, hts, ?_⟩
      unfold trailing
      cases hk : t.kind <;> simp_all [endSpan, stop_skipBlanks]

end Cursor
end SymCalc
