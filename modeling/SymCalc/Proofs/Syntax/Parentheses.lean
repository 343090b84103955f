import SymCalc.Proofs.Syntax.Faults

/-!
# Parentheses without a partner

* `Unpaired`, `Token.unpaired`: the parentheses of a text that bracket matching leaves alone;
* `Token.IsNeutral`: tokens that bracket matching does not see from outside.

The readers keep no stack. But a phrase is neutral (`Reads.isNeutral`), and what stands between the place
where reading stopped and the parenthesis that is reported is a phrase. So the report is about the
parenthesis that a stack would have left (`Expr.ofText_unclosedParenthesis`).
-/

namespace SymCalc

/-! ## Bracket matching -/

/-- Parentheses that have no partner so far: the closing ones from left to right, and the opening ones
with the last one first. -/
structure Unpaired where
  closing : List Token
  opening : List Token
deriving DecidableEq, Repr

namespace Unpaired

/-- The parentheses without a partner after one more token. A closing parenthesis is the partner of the
last opening one that has none. -/
def push (u : Unpaired) (t : Token) : Unpaired :=
  match t.kind, u.opening with
  | .openParen, os => { u with opening := t :: os }
  | .closeParen, [] => { u with closing := u.closing ++ [t] }
  | .closeParen, _ :: os => { u with opening := os }
  | _, _ => u

variable {u : Unpaired} {t : Token} {ts : List Token}

theorem push_of_openParen (h : t.kind = .openParen) :
    u.push t = { u with opening := t :: u.opening } := by
  simp [push, h]

theorem push_of_closeParen (h : t.kind = .closeParen) (hu : u.opening = []) :
    u.push t = { u with closing := u.closing ++ [t] } := by
  simp [push, h, hu]

theorem push_push (ho : t.kind = .openParen) {c : Token} (hc : c.kind = .closeParen) :
    (u.push t).push c = u := by
  simp [push, ho, hc]

theorem push_of_ne (ho : t.kind ≠ .openParen) (hc : t.kind ≠ .closeParen) : u.push t = u := by
  cases hk : t.kind <;> simp_all [push]

/-- A closing parenthesis that has no partner does not get one later. -/
theorem closing_isPrefix_foldl (u : Unpaired) (ts : List Token) :
    u.closing <+: (ts.foldl push u).closing := by
  induction ts generalizing u with
  | nil => exact List.prefix_rfl
  | cons t ts ih =>
    refine List.IsPrefix.trans ?_ (ih _)
    unfold push
    split <;> simp

end Unpaired

namespace Token

open Unpaired

/-- The parentheses among the tokens that have no partner. -/
def unpaired (ts : List Token) : Unpaired := ts.foldl push ⟨[], []⟩

/-- Whether every parenthesis among the tokens has a partner. -/
def IsBalanced (ts : List Token) : Prop := unpaired ts = ⟨[], []⟩

/-- The tokens have no effect on the parentheses around them. -/
def IsNeutral (ts : List Token) : Prop := ∀ u : Unpaired, ts.foldl push u = u

variable {ts us : List Token} {t o c : Token}

theorem unpaired_filter (ts : List Token) : unpaired (ts.filter (!·.isBlank)) = unpaired ts := by
  have hpush (u : Unpaired) (t : Token) : (if !t.isBlank then u.push t else u) = u.push t := by
    by_cases hk : t.kind = .blank <;> simp [isBlank, push, hk]
  simp only [unpaired, List.foldl_filter, hpush]

theorem isNeutral_nil : IsNeutral [] := fun _ => rfl

theorem IsNeutral.append (h : IsNeutral ts) (h' : IsNeutral us) : IsNeutral (ts ++ us) := by
  intro u
  rw [List.foldl_append, h, h']

theorem isNeutral_singleton (ho : t.kind ≠ .openParen) (hc : t.kind ≠ .closeParen) :
    IsNeutral [t] := fun _ => push_of_ne ho hc

theorem IsNeutral.cons (h : IsNeutral ts) (ho : t.kind ≠ .openParen) (hc : t.kind ≠ .closeParen) :
    IsNeutral (t :: ts) := (isNeutral_singleton ho hc).append h

theorem IsNeutral.enclose (h : IsNeutral ts) (ho : o.kind = .openParen) (hc : c.kind = .closeParen) :
    IsNeutral (o :: ts ++ [c]) := by
  intro u
  rw [List.cons_append, List.foldl_cons, List.foldl_append, h]
  exact push_push ho hc

/-- An opening parenthesis with neutral tokens behind it is the last one without a partner. -/
theorem opening_unpaired (ho : o.kind = .openParen) (h : IsNeutral us) :
    (unpaired (ts ++ o :: us)).opening.head? = some o := by
  rw [unpaired, List.foldl_append, List.foldl_cons, h, push_of_openParen ho, List.head?_cons]

/-- A closing parenthesis with neutral tokens before it is the first one without a partner. -/
theorem closing_unpaired (hc : c.kind = .closeParen) (h : IsNeutral ts) :
    (unpaired (ts ++ c :: us)).closing.head? = some c := by
  rw [unpaired, List.foldl_append, h, List.foldl_cons, push_of_closeParen hc rfl]
  obtain ⟨cs, hcs⟩ := closing_isPrefix_foldl ⟨[c], []⟩ us
  rw [List.nil_append, ← hcs]
  rfl

theorem kind_of_prefixOp? {op : UnaryOp} (h : Cursor.prefixOp? t = some op) :
    t.kind ≠ .openParen ∧ t.kind ≠ .closeParen := by
  cases hk : t.kind <;> simp_all [Cursor.prefixOp?]

theorem kind_of_infixOp? {op : InfixOp} (h : Cursor.infixOp? t = some op) :
    t.kind ≠ .openParen ∧ t.kind ≠ .closeParen := by
  cases hk : t.kind <;> simp_all [Cursor.infixOp?]

end Token

open Token

/-- The parentheses of a phrase are partners of each other. -/
theorem Reads.isNeutral {p : Phrase} {ts : List Token} {e : Expr} (h : Reads p ts e) :
    IsNeutral ts := by
  induction h with
  | number hk _ | name hk _ => exact isNeutral_singleton (by simp [hk]) (by simp [hk])
  | paren ho _ hc ih => exact ih.enclose ho hc
  | primary _ ih | postfixed _ ih | operand _ ih => exact ih
  | percent _ hk ih => exact ih.append (isNeutral_singleton (by simp [hk]) (by simp [hk]))
  | prefixed hop _ ih =>
    obtain ⟨ho, hc⟩ := kind_of_prefixOp? hop
    exact ih.cons ho hc
  | infixed _ hop _ ihe ihx =>
    obtain ⟨ho, hc⟩ := kind_of_infixOp? hop
    exact ihe.append (ihx.cons ho hc)

/-! ## Reports of parentheses -/

namespace Cursor

variable {c : Cursor} {r : Report} {opening : Bool}

theorem noPrimary_ne (t : Token) : (noPrimary t).problem ≠ .unclosedParenthesis opening := by
  unfold noPrimary
  split <;> simp [Problem.atSpan]

/-- A fault about a parenthesis is about an opening one before a complete expression. -/
theorem Faults.exists_opening (h : c.Faults r) (hr : r.problem = .unclosedParenthesis opening) :
    opening = true ∧ ∃ o us, c.clean = o :: us ∧ o.kind = .openParen ∧ IsNeutral us ∧
      r.spans = [o.span] := by
  cases h with
  | @unclosed o x d d' hc ho hx ha =>
    obtain ⟨us, hus, hreads⟩ := reads_of_gives_expression hx
    rw [Cursor.unclosed, peek?_eq] at hr ⊢
    cases hd' : d'.clean with
    | nil =>
      rw [hd'] at hr
      cases hr
      refine ⟨rfl, o, us, ?_, ho, hreads.isNeutral, rfl⟩
      rw [hc, hus, hd', List.append_nil]
    | cons u vs =>
      rw [hd', List.head?_cons] at hr
      simp only at hr
      split at hr <;> cases hr
  | noPrimary => exact (noPrimary_ne _ hr).elim
  | atEnd | missingArgument | invalidNumber | unknownFunction | emptyParenthesis => cases hr

theorem Blocked.exists_opening (h : c.Blocked r) (hr : r.problem = .unclosedParenthesis opening) :
    opening = true ∧ ∃ ts o us, c.clean = ts ++ o :: us ∧ o.kind = .openParen ∧ IsNeutral us ∧
      r.spans = [o.span] := by
  induction h with
  | fault h =>
    obtain ⟨hopening, o, us, hc, ho, hus, hs⟩ := h.exists_opening hr
    exact ⟨hopening, [], o, us, hc, ho, hus, hs⟩
  | @leads _ _ _ vs _ hc _ _ ih =>
    obtain ⟨hopening, ts, o, us, hd, ho, hus, hs⟩ := ih hr
    exact ⟨hopening, vs ++ ts, o, us, by rw [hc, hd, List.append_assoc], ho, hus, hs⟩

/-- In a whole text a closing parenthesis is only reported behind a complete formula or at the start. -/
theorem exists_of_fails_full (h : (full c.expression).Fails r)
    (hr : r.problem = .unclosedParenthesis opening) :
    (∃ ts t us, c.clean = ts ++ t :: us ∧ t.kind = .closeParen ∧ IsNeutral ts ∧
      r = (Problem.unclosedParenthesis false).atSpan t.span) ∨ c.Blocked r := by
  rcases of_fails_full h with h | ⟨x, d, t, us, hx, hd, rfl⟩
  · rcases blocked_of_fails_expression h with ⟨t, us, hc, hk, rfl⟩ | h
    · exact .inl ⟨[], t, us, hc, hk, isNeutral_nil, rfl⟩
    · exact .inr h
  · obtain ⟨ts, hc, hreads⟩ := reads_of_gives_expression hx
    rw [hd] at hc
    have hk : t.kind = .closeParen := by
      unfold trailing at hr
      split at hr <;> first | assumption | cases hr
    exact .inl ⟨ts, t, us, hc, hk, hreads.isNeutral, by simp [trailing, hk]⟩

end Cursor

namespace Expr

variable {text : String} {opening : Bool} {spans : List Span}

/-- A parenthesis that is reported is the last opening one without a partner, or the first closing one.
In particular nothing is reported if every parenthesis has a partner. -/
theorem ofText_unclosedParenthesis
    (h : ofText text = .error ⟨.unclosedParenthesis opening, spans⟩) :
    (∃ t, spans = [t.span] ∧
      (bif opening then (unpaired (Token.ofText text)).opening
        else (unpaired (Token.ofText text)).closing).head? = some t) ∧
      ¬ IsBalanced (Token.ofText text) := by
  rw [IsBalanced, ← unpaired_filter]
  have hnamed : ∃ t, spans = [t.span] ∧
      (bif opening then (unpaired (Token.significant text)).opening
        else (unpaired (Token.significant text)).closing).head? = some t := by
    rcases Cursor.exists_of_fails_full (c := .ofText text) h rfl with
      ⟨ts, t, us, hc, hk, hts, hr⟩ | h
    · obtain ⟨⟨⟩, rfl⟩ := Report.mk.inj hr
      exact ⟨t, rfl, (congrArg (fun vs => (unpaired vs).closing.head?) hc).trans
        (closing_unpaired hk hts)⟩
    · obtain ⟨rfl, ts, o, us, hc, hk, hus, hs⟩ := h.exists_opening rfl
      exact ⟨o, hs, (congrArg (fun vs => (unpaired vs).opening.head?) hc).trans
        (opening_unpaired hk hus)⟩
  refine ⟨hnamed, fun hbalanced => ?_⟩
  obtain ⟨t, -, ht⟩ := hnamed
  rw [Token.significant, hbalanced] at ht
  cases opening <;> cases ht

/-- Two of three opening parentheses have a partner, and the first of two closing ones. -/
theorem ofText_unclosedParenthesis_nested :
    (∃ t, [⟨0, 1⟩] = [t.span] ∧
      (unpaired (Token.ofText "(1 + ln (x) * (y)")).opening.head? = some t) ∧
    ∃ t, [⟨4, 5⟩] = [t.span] ∧ (unpaired (Token.ofText "(x)%)(y")).closing.head? = some t := by
  have hopening : ofText "(1 + ln (x) * (y)" =
      .error ⟨.unclosedParenthesis true, [⟨0, 1⟩]⟩ := by decide +kernel
  have hclosing : ofText "(x)%)(y" = .error ⟨.unclosedParenthesis false, [⟨4, 5⟩]⟩ := by
    decide +kernel
  exact ⟨(ofText_unclosedParenthesis hopening).1, (ofText_unclosedParenthesis hclosing).1⟩

end Expr
end SymCalc
