import SymCalc.Proofs.Syntax.Faults
import SymCalc.Proofs.Syntax.Progress

/-!
# Failed readings blame the first token that does not fit

A reader that fails reports the place where the tokens ahead of it stop to fit
(`Cursor.stuck_of_fails_expression`): this holds of every fault (`Cursor.Faults.stuck`), and the tokens
that lead to it fit. For whole texts this is `Expr.stopsAt_of_ofText`.
-/

namespace SymCalc
namespace Cursor

variable {c d : Cursor} {e x : Expr} {r : Report} {t : Token} {ts us : List Token}

/-! ## What follows a phrase -/

theorem avoids_percent_of_gives_postfixes (h : (postfixes x c).Gives e d) : d.Avoids .percent := by
  induction hn : c.remaining using Nat.strongRecOn generalizing c x with
  | ind n ih =>
    rcases gives_postfixes.1 h with ⟨t, c₁, ht, -, h⟩ | ⟨ha, -, rfl⟩
    · exact ih _ (hn ▸ ht.remaining_lt) h rfl
    · exact ha

theorem avoids_percent_of_gives_operand (h : c.operand.Gives e d) : d.Avoids .percent := by
  induction hn : c.remaining using Nat.strongRecOn generalizing c e with
  | ind n ih =>
    rcases gives_operand.1 h with ⟨t, op, c₁, x, ht, -, -, hx, -⟩ | ⟨-, x, c₁, -, he⟩
    · exact ih _ (hn ▸ ht.remaining_lt) hx rfl
    · exact avoids_percent_of_gives_postfixes he

theorem ends_of_gives_continuation (h : (continuation x c).Gives e d) (hc : c.Avoids .percent) :
    d.Avoids .percent ∧ ∀ t ∈ d.clean.head?, infixOp? t = none := by
  induction hn : c.remaining using Nat.strongRecOn generalizing c x with
  | ind n ih =>
    rcases gives_continuation.1 h with ⟨t, op, c₁, y, c₂, ht, -, hy, he⟩ | ⟨hi, -, rfl⟩
    · have hlt := Nat.lt_trans hy.remaining_lt ht.remaining_lt
      exact ih _ (hn ▸ hlt) he (avoids_percent_of_gives_operand hy) rfl
    · exact ⟨hc, hi⟩

/-- What follows an expression does not continue it. -/
theorem next?_of_gives_expression (h : c.expression.Gives e d) (ht : t ∈ d.clean.head?) {n : Nat}
    (hk : t.kind = .closeParen → n = 0) : (⟨n, false⟩ : Progress).next? t = none := by
  obtain ⟨-, x, c₁, hx, he⟩ := gives_expression.1 h
  obtain ⟨hp, hi⟩ := ends_of_gives_continuation he (avoids_percent_of_gives_operand hx)
  exact Progress.next?_of_no_infix (hi t ht) (hp t ht) hk

/-! ## Failures -/

open Progress

/-- Whether all tokens ahead that are not blank can come from a text. -/
def IsProper (c : Cursor) : Prop := ∀ t ∈ c.clean, t.IsProper

theorem IsProper.of_clean (h : c.IsProper) (hc : c.clean = us ++ d.clean) : d.IsProper :=
  fun t ht => h t (hc ▸ List.mem_append_right us ht)

theorem next?_of_lacksOperand (h : c.lacksOperand = true) (ht : t ∈ c.clean.head?) (n : Nat) :
    (⟨n, true⟩ : Progress).next? t = none := by
  obtain ⟨hp, h₁, h₂, h₃, -⟩ := kind_of_lacksOperand h ((peek?_eq c).trans ht)
  exact next?_of_no_operand hp h₁ h₂ h₃ n

/-- A token that starts no operand is blamed. -/
theorem stuck_of_no_operand (hc : c.clean = t :: ts) (hp : prefixOp? t = none)
    (h₁ : t.kind ≠ .number) (h₂ : t.kind ≠ .name) (h₃ : t.kind ≠ .openParen)
    (hr : r.Blames (t :: ts) c.stop 0) : c.Stuck true r := by
  have hc : c.clean = [] ++ t :: ts := hc
  refine stuck_of_run? (k := 0) hc (fun _ => rfl) ?_ (fun h => absurd h (List.cons_ne_nil _ _)) hr
  rintro _ ⟨⟩ n
  exact next?_of_no_operand hp h₁ h₂ h₃ n

theorem stuck_of_missing (hc : c.clean = t :: d.clean) {op : UnaryOp} (hop : prefixOp? t = some op)
    (hl : d.lacksOperand = true) : c.Stuck true ((Problem.missingArgument op).atSpan t.span) := by
  have hc : c.clean = [t] ++ d.clean := hc
  refine stuck_of_run? (k := 0) hc (fun n => ?_) (fun u hu => next?_of_lacksOperand hl hu)
    (fun _ n => by simp [complete]) ⟨0, t, rfl, rfl, rfl⟩
  exact run?_singleton.trans (next?_of_prefixOp? (hop ▸ Option.some_ne_none op) n)

theorem stuck_of_function {o : Token} (hc : c.clean = t :: o :: ts) (hk : t.kind = .name)
    (hp : prefixOp? t = none) (ho : o.kind = .openParen) : c.Stuck true
      ((Problem.unknownFunction t.lexeme (similarFunction? t.lexeme)).atSpan t.span) := by
  have hc : c.clean = [t] ++ o :: ts := hc
  refine stuck_of_run? (k := 0) hc (fun n => run?_singleton.trans (next?_name hk hp n)) ?_
    (fun h => absurd h (List.cons_ne_nil _ _)) ⟨0, t, rfl, rfl, rfl⟩
  rintro _ ⟨⟩ n
  exact next?_of_no_infix (by simp [infixOp?, ho]) (by simp [ho]) (by simp [ho])

theorem stuck_of_empty {o : Token} (hc : c.clean = o :: t :: ts) (ho : o.kind = .openParen)
    (hk : t.kind = .closeParen) : c.Stuck true (Problem.emptyParenthesis.atSpan t.span) := by
  have hc : c.clean = [o] ++ t :: ts := hc
  refine stuck_of_run? (w := true) (k := 1) hc
    (fun n => run?_singleton.trans (next?_openParen ho n)) ?_ nofun ⟨t, rfl, rfl⟩
  rintro _ ⟨⟩ n
  exact next?_of_no_operand (by simp [prefixOp?, hk]) (by simp [hk]) (by simp [hk]) (by simp [hk]) n

theorem stuck_of_unclosed {o : Token} {d' : Cursor} (hc : c.clean = o :: d.clean)
    (ho : o.kind = .openParen) (hx : d.expression.Gives x d') (ha : d'.Avoids .closeParen) :
    c.Stuck true (unclosed o.span d') := by
  obtain ⟨us, hus, hr⟩ := reads_of_gives_expression hx
  have hc : c.clean = (o :: us) ++ d'.clean := by rw [hc, hus]; rfl
  refine stuck_of_run? (w := false) (k := 1) hc (fun n => ?_) ?_ (fun _ n => by simp [complete]) ?_
  · rw [run?_cons_of_next? (next?_openParen ho n), hr.run?_eq]
  · exact fun u hu n => next?_of_gives_expression hx hu fun hk => (ha u hu hk).elim
  · rw [unclosed, peek?_eq]
    cases hd' : d'.clean with
    | nil => exact ⟨by simp, o, by simp, rfl⟩
    | cons u vs =>
      simp only [List.head?_cons]
      split <;> exact ⟨u, by simp, rfl⟩

/-- Every fault blames the place where the tokens stop to fit. -/
theorem Faults.stuck (h : c.Faults r) (hp : c.IsProper) : c.Stuck true r := by
  cases h with
  | atEnd hc =>
    have hc : c.clean = [] ++ [] := hc
    exact stuck_of_run? (k := 0) hc (fun _ => rfl) (fun _ ht => absurd ht (Option.not_mem_none _))
      (fun _ n => by simp [complete]) ⟨rfl, rfl⟩
  | missingArgument hc hop hl => exact stuck_of_missing hc hop hl
  | @invalidNumber t _ hc hk hv =>
    -- Numerals of a text have values.
    have hnumeral := (hp t (by simp [hc])).numeral hk
    rw [hv] at hnumeral
    cases hnumeral
  | unknownFunction hc hk hp ho => exact stuck_of_function hc hk hp ho
  | @noPrimary t _ hc hp h₁ h₂ h₃ =>
    refine stuck_of_no_operand hc hp h₁ h₂ h₃ ?_
    unfold Cursor.noPrimary
    split <;> exact ⟨t, rfl, rfl⟩
  | emptyParenthesis hc ho hk => exact stuck_of_empty hc ho hk
  | unclosed hc ho hx ha => exact stuck_of_unclosed hc ho hx ha

/-- Tokens that lead to the place of an operand fit. -/
theorem exists_run?_of_leads (h : Leads us) :
    ∃ k, ∀ n, (⟨n, true⟩ : Progress).run? us = some ⟨n + k, true⟩ := by
  cases h with
  | prefixOp hp => exact ⟨0, fun n => run?_singleton.trans (next?_of_prefixOp? hp n)⟩
  | openParen ho => exact ⟨1, fun n => run?_singleton.trans (next?_openParen ho n)⟩
  | infixOp hr hi =>
    refine ⟨0, fun n => ?_⟩
    rw [run?_append, hr.run?_eq, Option.bind_some, run?_singleton]
    exact next?_of_infixOp? hi n

theorem Blocked.stuck (h : c.Blocked r) (hp : c.IsProper) : c.Stuck true r := by
  induction h with
  | fault h => exact h.stuck hp
  | leads hus hc hs _ ih =>
    obtain ⟨k, hk⟩ := exists_run?_of_leads hus
    exact .of_clean hc hs hk (ih (hp.of_clean hc))

/-- Where no expression can be read, the report blames the place where the tokens stop to fit. -/
theorem stuck_of_fails_expression (h : c.expression.Fails r) (hp : c.IsProper) :
    c.Stuck true r := by
  rcases blocked_of_fails_expression h with ⟨t, ts, hc, hk, rfl⟩ | h
  · exact stuck_of_no_operand hc (by simp [prefixOp?, hk]) (by simp [hk]) (by simp [hk])
      (by simp [hk]) ⟨t, rfl, rfl⟩
  · exact h.stuck hp

/-! ## Whole texts -/

theorem blames_trailing (t : Token) (ts us : List Token) (stop : Nat) :
    (trailing t stop).Blames (us ++ t :: ts) stop us.length := by
  unfold trailing
  split <;> exact ⟨t, by simp, rfl⟩

/-- Where no text can be read, the report blames the place where its tokens stop to fit. -/
theorem stopsAt_of_fails_full (h : (full c.expression).Fails r) (hp : c.IsProper) :
    ∃ i, (⟨0, true⟩ : Progress).StopsAt c.clean i ∧ r.Blames c.clean c.stop i := by
  rcases of_fails_full h with h | ⟨x, d, t, ts, hx, hd, rfl⟩
  · obtain ⟨i, hi, hr⟩ := stuck_of_fails_expression h hp
    exact ⟨i, hi 0, hr⟩
  · obtain ⟨us, hc, hr⟩ := reads_of_gives_expression hx
    rw [hc, hd, stop_of_gives_expression hx]
    refine ⟨us.length, .of_run? (hr.run?_eq 0) ?_ nofun, blames_trailing t ts us c.stop⟩
    exact fun u hu => next?_of_gives_expression hx (hd ▸ hu) fun _ => rfl

end Cursor

open Cursor

/-- A text that is not accepted is reported at the place where its tokens stop to fit. -/
theorem Expr.stopsAt_of_ofText {text : String} {r : Report} (h : Expr.ofText text = .error r) :
    ∃ i, (⟨0, true⟩ : Progress).StopsAt (Token.significant text) i ∧
      r.Blames (Token.significant text) text.utf8ByteSize i :=
  stopsAt_of_fails_full (c := Cursor.ofText text) h fun _ => Token.isProper_of_mem_ofText ∘
    fun h => (List.mem_filter.1 h).1

/-- No text is refused because of the value of a variable. -/
theorem Expr.problem_ne_undefinedVariable {text : String} {r : Report}
    (h : Expr.ofText text = .error r) (name : String) (suggestions : List String) :
    r.problem ≠ .undefinedVariable name suggestions := by
  intro hp
  obtain ⟨i, -, hr⟩ := Expr.stopsAt_of_ofText h
  rw [Report.Blames, hp] at hr
  exact hr

/-- A text is accepted exactly if its tokens fit one after another and are complete. -/
theorem Expr.exists_ofText_iff_run? {text : String} :
    (∃ e, Expr.ofText text = .ok e) ↔
      (⟨0, true⟩ : Progress).run? (Token.significant text) = some Progress.complete := by
  constructor
  · rintro ⟨e, he⟩
    exact (Expr.ofText_eq_ok_iff.1 he).run?_eq 0
  · intro h
    cases ht : Expr.ofText text with
    | ok e => exact ⟨e, rfl⟩
    | error r =>
      obtain ⟨i, hi, -⟩ := Expr.stopsAt_of_ofText ht
      exact (hi.run?_ne h).elim

end SymCalc
