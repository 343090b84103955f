import SymCalc.Proofs.Syntax.Acceptance
import SymCalc.Proofs.Syntax.Failure
import SymCalc.Proofs.Token.Spacing

/-!
# Errors point at the first bad token

* `Token.Begin`: tokens that an accepted text can begin with;
* `Report.blamed?`: the number of tokens before the place of a report.

Tokens begin an accepted text exactly if they fit one after another (`Token.begin_iff_run?`). So the
place that a report blames is the first one where nothing can be accepted any more
(`Expr.ofText_error`).
-/

namespace SymCalc

/-! ## Progress without regions -/

namespace Progress

variable {s : Progress} {t u : Token} {ts us : List Token}

theorem next?_eq_of_entry (h : u.entry = t.entry) : s.next? u = s.next? t := by
  simp only [next?, Token.prefixOp?_eq_of_entry h, Token.infixOp?_eq_of_entry h,
    Token.kind_eq_of_entry h]

theorem run?_eq_of_entries (h : us.map Token.entry = ts.map Token.entry) :
    s.run? us = s.run? ts := by
  induction ts generalizing us s with
  | nil => rw [List.map_eq_nil_iff.1 h]
  | cons t ts ih =>
    obtain ⟨u, us, rfl, hu, hus⟩ := List.map_eq_cons_iff.1 h
    rw [run?, run?, next?_eq_of_entry hu]
    cases s.next? t with
    | none => rfl
    | some s' => exact ih hus

/-- Whatever is open can be closed. -/
theorem exists_completion_of_not_wants (n : Nat) :
    ∃ ls : List Lexeme, (∀ l ∈ ls, l.IsWhole) ∧
      ∀ ts : List Token, ts.map Token.entry = ls.map Lexeme.entry →
        (⟨n, false⟩ : Progress).run? ts = some complete := by
  induction n with
  | zero =>
    refine ⟨[], nofun, fun ts hts => ?_⟩
    rw [List.map_eq_nil_iff.1 hts]
    rfl
  | succ n ih =>
    obtain ⟨ls, hls, hrun⟩ := ih
    refine ⟨⟨.closeParen, [')']⟩ :: ls, ?_, fun ts hts => ?_⟩
    · exact List.forall_mem_cons.2 ⟨⟨by decide, fun rest _ => Lexeme.all_single rfl rfl⟩, hls⟩
    · obtain ⟨t, us, rfl, ht, hus⟩ := List.map_eq_cons_iff.1 hts
      rw [run?_cons_of_next? (next?_closeParen (congrArg Prod.fst ht) n), hrun us hus]

/-- Tokens that fit can be completed. -/
theorem exists_completion (s : Progress) :
    ∃ ls : List Lexeme, (∀ l ∈ ls, l.IsWhole) ∧
      ∀ ts : List Token, ts.map Token.entry = ls.map Lexeme.entry →
        s.run? ts = some complete := by
  obtain ⟨n, wants⟩ := s
  obtain ⟨ls, hls, hrun⟩ := exists_completion_of_not_wants n
  cases wants with
  | false => exact ⟨ls, hls, hrun⟩
  | true =>
    refine ⟨⟨.name, ['x']⟩ :: ls, ?_, fun ts hts => ?_⟩
    · exact List.forall_mem_cons.2 ⟨⟨by decide, fun rest h => Lexeme.all_word rfl nofun h⟩, hls⟩
    · obtain ⟨t, us, rfl, ht, hus⟩ := List.map_eq_cons_iff.1 hts
      have hk : t.kind = .name := congrArg Prod.fst ht
      have hx : t.lexeme = "x" := congrArg Prod.snd ht
      have hp : Cursor.prefixOp? t = none := by
        simp only [Cursor.prefixOp?, hk, hx]
        decide
      rw [run?_cons_of_next? (next?_name hk hp n), hrun us hus]

end Progress

/-! ## Tokens that an accepted text can begin with -/

namespace Token

variable {t : Token} {ts : List Token} {text : String} {i : Nat}

theorem exists_isWhole_of_entries (text : String) :
    ∃ ls : List Lexeme, (∀ l ∈ ls, l.IsWhole) ∧
      (significant text).map entry = ls.map Lexeme.entry := by
  refine ⟨_, fun l hl => ?_, entries_significant text⟩
  obtain ⟨hl, hk⟩ := List.mem_filter.1 hl
  exact Lexeme.isWhole_of_mem_all hl (by simpa using hk)

/-- Any whole lexemes are the entries of the tokens of some text. -/
theorem exists_text_of_isWhole {ls : List Lexeme} (h : ∀ l ∈ ls, l.IsWhole) :
    ∃ text, (significant text).map entry = ls.map Lexeme.entry :=
  ⟨String.ofList (Lexeme.spaced ls), by
    rw [entries_significant, String.toList_ofList, Lexeme.filter_all_spaced h]⟩

/-- Whether an accepted text can begin with these tokens, wherever they stand in it. -/
def Begin (ts : List Token) : Prop :=
  ∃ text e, Expr.ofText text = .ok e ∧ ts.map entry <+: (significant text).map entry

/-- Tokens of a text begin an accepted text exactly if they fit one after another. -/
theorem begin_take_iff_run? :
    Begin ((significant text).take i) ↔
      ∃ s, (⟨0, true⟩ : Progress).run? ((significant text).take i) = some s := by
  constructor
  · rintro ⟨other, e, he, hprefix⟩
    have hrun := Expr.exists_ofText_iff_run?.1 ⟨e, he⟩
    obtain ⟨es, hes⟩ := hprefix
    obtain ⟨us, vs, hother, hus, -⟩ := List.map_eq_append_iff.1 hes.symm
    rw [hother, Progress.run?_append, Progress.run?_eq_of_entries hus] at hrun
    obtain ⟨s, hs, -⟩ := Option.bind_eq_some_iff.1 hrun
    exact ⟨s, hs⟩
  · rintro ⟨s, hs⟩
    obtain ⟨ls, hls, hentries⟩ := exists_isWhole_of_entries text
    obtain ⟨more, hmore, hcomplete⟩ := s.exists_completion
    have hwhole : ∀ l ∈ ls.take i ++ more, l.IsWhole := by
      intro l hl
      exact (List.mem_append.1 hl).elim (fun h => hls l (List.mem_of_mem_take h)) (hmore l)
    obtain ⟨other, hother⟩ := exists_text_of_isWhole hwhole
    obtain ⟨us, vs, hsplit, hus, hvs⟩ := List.map_eq_append_iff.1 (hother.trans List.map_append)
    have hts : ((significant text).take i).map entry = us.map entry := by
      rw [hus, List.map_take, hentries, List.map_take]
    have hrun : (⟨0, true⟩ : Progress).run? (significant other) = some Progress.complete := by
      rw [hsplit, Progress.run?_append, ← Progress.run?_eq_of_entries hts, hs, Option.bind_some,
        hcomplete vs hvs]
    obtain ⟨e, he⟩ := Expr.exists_ofText_iff_run?.2 hrun
    exact ⟨other, e, he, by rw [hsplit, hts, List.map_append]; exact List.prefix_append ..⟩

/-- Each token of a text starts at its own place. -/
theorem findIdx?_significant {p : Token → Bool} (hi : (significant text)[i]? = some t) (hp : p t)
    (hstart : ∀ u, p u → u.span.start = t.span.start) :
    (significant text).findIdx? p = some i := by
  obtain ⟨hlt, rfl⟩ := List.getElem?_eq_some_iff.1 hi
  refine List.findIdx?_eq_some_iff_getElem.2 ⟨hlt, hp, fun j hj hpj => ?_⟩
  have hpairwise : (significant text).Pairwise fun a b => a.span.stop ≤ b.span.start :=
    pairwise_significant
  have hle := List.pairwise_iff_getElem.1 hpairwise j i (Nat.lt_trans hj hlt) hlt hj
  have hpos := (isProper_of_mem_significant (List.getElem_mem (Nat.lt_trans hj hlt))).start_lt_stop
  have := hstart _ hpj
  omega

end Token

/-! ## The place of a report -/

namespace Report

/-- How many of the tokens stand before the place that the report is about: the token where its
region starts, the token after its region, or the end. -/
def blamed? (r : Report) (ts : List Token) : Option Nat :=
  match r.problem, r.spans with
  | .unexpectedToken _ _, [s] | .unknownOperator _, [s] | .expectedEnd, [s]
  | .emptyParenthesis, [s] | .unclosedParenthesis false, [s] =>
    ts.findIdx? (·.span.start = s.start)
  | .missingArgument _, [s] | .unknownFunction _ _, [s] =>
    (ts.findIdx? (·.span = s)).map (· + 1)
  | .unexpectedEnd, _ | .unclosedParenthesis true, _ => some ts.length
  | _, _ => none

variable {r : Report} {text : String} {i : Nat}

theorem Blames.blamed?_eq {stop : Nat} (h : r.Blames (Token.significant text) stop i) :
    r.blamed? (Token.significant text) = some i := by
  obtain ⟨problem, spans⟩ := r
  cases problem with
  | unexpectedEnd => exact congrArg some h.1.symm
  | missingArgument _ | unknownFunction _ _ =>
    obtain ⟨j, t, rfl, ht, rfl⟩ := h
    have := Token.findIdx?_significant (p := fun u => u.span = t.span) ht (by simp) (by simp_all)
    simp [blamed?, this]
  | unclosedParenthesis opening =>
    cases opening with
    | false =>
      obtain ⟨t, ht, rfl⟩ := h
      exact Token.findIdx?_significant ht (by simp) fun _ => of_decide_eq_true
    | true => exact congrArg some h.1.symm
  | invalidNumber _ | undefinedVariable _ _ => exact h.elim
  | _ =>
    obtain ⟨t, ht, rfl⟩ := h
    exact Token.findIdx?_significant ht (by simp [Span.through]) fun _ => of_decide_eq_true

theorem Blames.exists_span (h : r.Blames (Token.significant text) text.utf8ByteSize i) :
    ∃ s, r.spans = [s] ∧ s.IsPart text := by
  have hmem {j : Nat} {t : Token} (ht : (Token.significant text)[j]? = some t) :
      t ∈ Token.ofText text := (List.mem_filter.1 (List.mem_of_getElem? ht)).1
  obtain ⟨problem, spans⟩ := r
  cases problem with
  | unexpectedEnd => exact ⟨_, h.2, Span.isPart_at_end text⟩
  | missingArgument _ | unknownFunction _ _ =>
    obtain ⟨j, t, rfl, ht, hs⟩ := h
    exact ⟨_, hs, Token.isPart_span (hmem ht)⟩
  | unclosedParenthesis opening =>
    cases opening with
    | false =>
      obtain ⟨t, ht, hs⟩ := h
      exact ⟨_, hs, Token.isPart_span (hmem ht)⟩
    | true =>
      obtain ⟨-, t, ht, hs⟩ := h
      exact ⟨_, hs, Token.isPart_span (List.mem_filter.1 ht).1⟩
  | invalidNumber _ | undefinedVariable _ _ => exact h.elim
  | expectedEnd =>
    obtain ⟨t, ht, hs⟩ := h
    exact ⟨_, hs, Token.isPart_span_through_end (hmem ht)⟩
  | _ =>
    obtain ⟨t, ht, hs⟩ := h
    exact ⟨_, hs, Token.isPart_span (hmem ht)⟩

end Report

namespace Expr

variable {text : String} {r : Report}

/-- The report for a text that is not accepted has one region, which is a part of the text. The
tokens before the place that it is about begin an accepted text, and with the token there they do
not. No report is about a numeral. -/
theorem ofText_error (h : Expr.ofText text = .error r) :
    (∃ s, r.spans = [s] ∧ s.IsPart text) ∧ (∀ lexeme, r.problem ≠ .invalidNumber lexeme) ∧
      ∃ i, r.blamed? (Token.significant text) = some i ∧ i ≤ (Token.significant text).length ∧
        Token.Begin ((Token.significant text).take i) ∧
        (i < (Token.significant text).length →
          ¬ Token.Begin ((Token.significant text).take (i + 1))) := by
  obtain ⟨i, ⟨hi, s, hrun, hnext, -⟩, hr⟩ := stopsAt_of_ofText h
  refine ⟨hr.exists_span, ?_, i, hr.blamed?_eq, hi, Token.begin_take_iff_run?.2 ⟨s, hrun⟩, ?_⟩
  · rintro lexeme hp
    rw [Report.Blames, hp] at hr
    exact hr
  · intro hlt hbegin
    obtain ⟨s', hs'⟩ := Token.begin_take_iff_run?.1 hbegin
    rw [List.take_add_one, List.getElem?_eq_getElem hlt, Option.toList_some, Progress.run?_append,
      hrun, Option.bind_some, Progress.run?_singleton,
      hnext _ (List.getElem?_eq_getElem hlt)] at hs'
    cases hs'

/-- The operand after the star is missing. What stands before the closing parenthesis could go on,
and the parenthesis itself cannot be where it is. -/
theorem ofText_error_star :
    Expr.ofText "ln (2 * ) + 3" =
        .error ((Problem.unexpectedToken [.number, .name, .openParen] .closeParen).atSpan ⟨8, 9⟩) ∧
      Token.Begin ((Token.significant "ln (2 * ) + 3").take 4) ∧
      ¬ Token.Begin ((Token.significant "ln (2 * ) + 3").take 5) := by
  have h : Expr.ofText "ln (2 * ) + 3" =
      .error ((Problem.unexpectedToken [.number, .name, .openParen] .closeParen).atSpan ⟨8, 9⟩) := by
    decide +kernel
  obtain ⟨-, -, i, hi, -, hbegin, hnot⟩ := ofText_error h
  have hfour : ((Problem.unexpectedToken [.number, .name, .openParen] .closeParen).atSpan
      ⟨8, 9⟩).blamed? (Token.significant "ln (2 * ) + 3") = some 4 := by
    decide +kernel
  obtain rfl := Option.some.inj (hi.symm.trans hfour)
  exact ⟨h, hbegin, hnot (by decide +kernel)⟩

end Expr
end SymCalc
