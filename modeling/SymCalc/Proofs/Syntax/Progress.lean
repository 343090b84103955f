import SymCalc.Proofs.Syntax.Fails

/-!
# How far tokens can be read

* `Progress`: what the tokens read so far ask for;
* `Progress.next?`, `Progress.run?`: the progress after one more token, if it fits, and after a list;
* `Progress.StopsAt`: the place up to which tokens fit;
* `Report.Blames`: the place that a report is about.

A phrase of the grammar brings an operand (`Reads.run?_eq`), and a reader that fails blames the place
where the tokens ahead of it stop to fit (`Cursor.stuck_of_fails_expression`).
-/

namespace SymCalc

/-! ## Progress -/

/-- What is known after the first tokens of a formula: how many parentheses are open, and whether an
operand has to come next. -/
structure Progress where
  depth : Nat
  wants : Bool

namespace Progress

/-- The progress after one more token, if the token fits. -/
def next? (s : Progress) (t : Token) : Option Progress :=
  if s.wants then
    if (Cursor.prefixOp? t).isSome then some s
    else match t.kind with
      | .number | .name => some ⟨s.depth, false⟩
      | .openParen => some ⟨s.depth + 1, true⟩
      | _ => none
  else
    if (Cursor.infixOp? t).isSome then some ⟨s.depth, true⟩
    else match t.kind, s.depth with
      | .percent, _ => some s
      | .closeParen, n + 1 => some ⟨n, false⟩
      | _, _ => none

/-- The progress after more tokens, if they fit. -/
def run? (s : Progress) : List Token → Option Progress
  | [] => some s
  | t :: ts => (s.next? t).bind (·.run? ts)

/-- The progress after a complete formula. -/
def complete : Progress := ⟨0, false⟩

/-- The tokens fit up to the place `i` and not further: the token there does not fit, or the tokens
end there and are not complete. -/
def StopsAt (s : Progress) (ts : List Token) (i : Nat) : Prop :=
  i ≤ ts.length ∧ ∃ s', s.run? (ts.take i) = some s' ∧ (∀ t ∈ ts[i]?, s'.next? t = none) ∧
    (i = ts.length → s' ≠ complete)

variable {s s' : Progress} {ts us : List Token} {t : Token} {n i : Nat}

theorem run?_append : s.run? (ts ++ us) = (s.run? ts).bind (·.run? us) := by
  induction ts generalizing s with
  | nil => rfl
  | cons t ts ih =>
    simp only [List.cons_append, run?]
    cases s.next? t <;> simp [ih]

theorem run?_singleton : s.run? [t] = s.next? t := by
  cases h : s.next? t <;> simp [run?, h]

theorem run?_cons_of_next? (h : s.next? t = some s') : s.run? (t :: ts) = s'.run? ts := by
  rw [run?, h, Option.bind_some]

theorem StopsAt.append (hus : s.run? us = some s') (h : s'.StopsAt ts i) :
    s.StopsAt (us ++ ts) (us.length + i) := by
  obtain ⟨hi, s₁, hrun, hnext, hend⟩ := h
  refine ⟨by simpa using hi, s₁, ?_, ?_, ?_⟩
  · rw [List.take_length_add_append, run?_append, hus, Option.bind_some, hrun]
  · rwa [List.getElem?_append_right (Nat.le_add_right ..), Nat.add_sub_cancel_left]
  · simpa using hend

theorem StopsAt.of_run? (hus : s.run? us = some s') (hnext : ∀ t ∈ ts.head?, s'.next? t = none)
    (hend : ts = [] → s' ≠ complete) : s.StopsAt (us ++ ts) us.length := by
  refine ⟨by simp, s', by simpa using hus, ?_, ?_⟩
  · rwa [List.getElem?_append_right (Nat.le_refl _), Nat.sub_self, ← List.head?_eq_getElem?]
  · simpa using hend

/-- Tokens that stop to fit are no complete formula. -/
theorem StopsAt.run?_ne (h : s.StopsAt ts i) : s.run? ts ≠ some complete := by
  obtain ⟨hi, s', hrun, hnext, hend⟩ := h
  intro hts
  rw [← List.take_append_drop i ts, run?_append, hrun, Option.bind_some] at hts
  rcases Nat.lt_or_eq_of_le hi with hlt | heq
  · rw [List.drop_eq_getElem_cons hlt, run?, hnext _ (List.getElem?_eq_getElem hlt)] at hts
    cases hts
  · rw [heq, List.drop_length] at hts
    exact hend heq (Option.some.inj hts)

/-! ## Tokens that fit -/

theorem next?_of_prefixOp? (h : Cursor.prefixOp? t ≠ none) (n : Nat) :
    (⟨n, true⟩ : Progress).next? t = some ⟨n, true⟩ := by
  rw [next?, if_pos rfl, if_pos (Option.isSome_iff_ne_none.2 h)]

theorem next?_of_infixOp? (h : Cursor.infixOp? t ≠ none) (n : Nat) :
    (⟨n, false⟩ : Progress).next? t = some ⟨n, true⟩ := by
  rw [next?, if_neg Bool.false_ne_true, if_pos (Option.isSome_iff_ne_none.2 h)]

theorem next?_openParen (h : t.kind = .openParen) (n : Nat) :
    (⟨n, true⟩ : Progress).next? t = some ⟨n + 1, true⟩ := by
  simp [next?, Cursor.prefixOp?, h]

theorem next?_closeParen (h : t.kind = .closeParen) (n : Nat) :
    (⟨n + 1, false⟩ : Progress).next? t = some ⟨n, false⟩ := by
  simp [next?, Cursor.infixOp?, h]

theorem next?_percent (h : t.kind = .percent) (n : Nat) :
    (⟨n, false⟩ : Progress).next? t = some ⟨n, false⟩ := by
  simp [next?, Cursor.infixOp?, h]

theorem next?_number (h : t.kind = .number) (n : Nat) :
    (⟨n, true⟩ : Progress).next? t = some ⟨n, false⟩ := by
  simp [next?, Cursor.prefixOp?, h]

theorem next?_name (h : t.kind = .name) (hp : Cursor.prefixOp? t = none) (n : Nat) :
    (⟨n, true⟩ : Progress).next? t = some ⟨n, false⟩ := by
  simp [next?, hp, h]

/-! ## Tokens that do not fit -/

/-- No operand starts with a token that is no prefix operator, literal or opening parenthesis. -/
theorem next?_of_no_operand (hp : Cursor.prefixOp? t = none) (h₁ : t.kind ≠ .number)
    (h₂ : t.kind ≠ .name) (h₃ : t.kind ≠ .openParen) (n : Nat) :
    (⟨n, true⟩ : Progress).next? t = none := by
  rw [next?, if_pos rfl, hp, Option.isSome_none, if_neg Bool.false_ne_true]
  split <;> simp_all

/-- After an operand, a token that is no infix operator and no percent sign can only close a
parenthesis. -/
theorem next?_of_no_infix (hi : Cursor.infixOp? t = none) (hp : t.kind ≠ .percent)
    (hc : t.kind = .closeParen → n = 0) : (⟨n, false⟩ : Progress).next? t = none := by
  rw [next?, if_neg Bool.false_ne_true, hi, Option.isSome_none, if_neg Bool.false_ne_true]
  split <;> simp_all

end Progress

/-! ## Phrases -/

open Progress in
/-- A phrase is an operand. -/
theorem Reads.run?_eq {p : Phrase} {ts : List Token} {e : Expr} (h : Reads p ts e) (n : Nat) :
    (⟨n, true⟩ : Progress).run? ts = some ⟨n, false⟩ := by
  induction h generalizing n with
  | number hk _ => exact run?_singleton.trans (next?_number hk n)
  | name hk hp => exact run?_singleton.trans (next?_name hk hp n)
  | paren ho _ hc ih =>
    rw [run?_append, run?_cons_of_next? (next?_openParen ho n), ih, Option.bind_some, run?_singleton]
    exact next?_closeParen hc n
  | primary _ ih | postfixed _ ih | operand _ ih => exact ih n
  | percent _ hk ih =>
    rw [run?_append, ih, Option.bind_some, run?_singleton]
    exact next?_percent hk n
  | prefixed hop _ ih =>
    rw [run?_cons_of_next? (next?_of_prefixOp? (hop ▸ Option.some_ne_none _) n), ih]
  | infixed _ hop _ ihe ihx =>
    rw [run?_append, ihe, Option.bind_some,
      run?_cons_of_next? (next?_of_infixOp? (hop ▸ Option.some_ne_none _) n), ihx]

/-! ## The place of a report -/

/-- The report is about the place `i` of the tokens `ts`, which end at byte `stop`. A missing
operand is missed after its operator, and a function is unknown because of the parenthesis after
its name. -/
def Report.Blames (r : Report) (ts : List Token) (stop i : Nat) : Prop :=
  match r.problem with
  | .unexpectedToken _ _ | .unknownOperator _ | .emptyParenthesis | .unclosedParenthesis false =>
    ∃ t, ts[i]? = some t ∧ r.spans = [t.span]
  | .expectedEnd => ∃ t, ts[i]? = some t ∧ r.spans = [t.span.through (.at stop)]
  | .missingArgument _ | .unknownFunction _ _ =>
    ∃ j t, i = j + 1 ∧ ts[j]? = some t ∧ r.spans = [t.span]
  | .unexpectedEnd => i = ts.length ∧ r.spans = [.at stop]
  | .unclosedParenthesis true => i = ts.length ∧ ∃ t ∈ ts, r.spans = [t.span]
  | .invalidNumber _ | .undefinedVariable _ _ => False

theorem Report.Blames.append {r : Report} {ts : List Token} {stop i : Nat} (us : List Token)
    (h : r.Blames ts stop i) : r.Blames (us ++ ts) stop (us.length + i) := by
  have hget (i : Nat) : (us ++ ts)[us.length + i]? = ts[i]? := by
    rw [List.getElem?_append_right (Nat.le_add_right ..), Nat.add_sub_cancel_left]
  obtain ⟨problem, spans⟩ := r
  cases problem with
  | unexpectedEnd => exact ⟨by rw [h.1, List.length_append], h.2⟩
  | missingArgument _ | unknownFunction _ _ =>
    obtain ⟨j, t, rfl, ht, hs⟩ := h
    exact ⟨us.length + j, t, (Nat.add_assoc ..).symm, (hget j).trans ht, hs⟩
  | unclosedParenthesis opening =>
    cases opening with
    | false =>
      obtain ⟨t, ht, hs⟩ := h
      exact ⟨t, (hget i).trans ht, hs⟩
    | true =>
      obtain ⟨hi, t, ht, hs⟩ := h
      exact ⟨by rw [hi, List.length_append], t, List.mem_append_right us ht, hs⟩
  | invalidNumber _ | undefinedVariable _ _ => exact h
  | _ =>
    obtain ⟨t, ht, hs⟩ := h
    exact ⟨t, (hget i).trans ht, hs⟩

/-! ## Failures -/

namespace Cursor

open Progress

variable {c d : Cursor} {e x : Expr} {r : Report} {t : Token} {ts us : List Token} {b w : Bool}

/-- The report `r` blames the place where the tokens ahead stop to fit, after an operand or before
one, however many parentheses are open. -/
def Stuck (c : Cursor) (wants : Bool) (r : Report) : Prop :=
  ∃ i, (∀ n, (⟨n, wants⟩ : Progress).StopsAt c.clean i) ∧ r.Blames c.clean c.stop i

/-- A cursor is stuck where one further on is. -/
theorem Stuck.of_clean {k : Nat} (hc : c.clean = us ++ d.clean) (hs : d.stop = c.stop)
    (hrun : ∀ n, (⟨n, b⟩ : Progress).run? us = some ⟨n + k, w⟩) (h : d.Stuck w r) :
    c.Stuck b r := by
  obtain ⟨i, hi, hr⟩ := h
  refine ⟨us.length + i, fun n => ?_, ?_⟩
  · rw [hc]
    exact (hi (n + k)).append (hrun n)
  · rw [hc, ← hs]
    exact hr.append us

/-- A cursor is stuck where tokens that fit end or are followed by one that does not. -/
theorem stuck_of_run? {k : Nat} (hc : c.clean = us ++ ts)
    (hrun : ∀ n, (⟨n, b⟩ : Progress).run? us = some ⟨n + k, w⟩)
    (hnext : ∀ t ∈ ts.head?, ∀ n, (⟨n, w⟩ : Progress).next? t = none)
    (hend : ts = [] → ∀ n, (⟨n + k, w⟩ : Progress) ≠ complete)
    (hr : r.Blames (us ++ ts) c.stop us.length) : c.Stuck b r := by
  refine ⟨us.length, fun n => ?_, hc ▸ hr⟩
  rw [hc]
  exact .of_run? (hrun n) (fun t ht => hnext t ht _) fun h => hend h n

end Cursor
end SymCalc
