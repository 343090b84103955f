import SymCalc.Proofs.Syntax.Acceptance
import SymCalc.Proofs.Syntax.Nesting

/-!
# The parts of a phrase

* `Expr.IsLaidOut`: the operator and the operands of an expression fill its region one after another;
* `Holds`: a tree is that of a phrase among the tokens of another one, and may be put in parentheses
  there.

The operands of an operation are the trees of the tokens before and behind its operator
(`Reads.exists_of_binary`), and conversely operands that may stand there make the operation
(`Reads.binary`). So all parts of the tree of a phrase are trees of phrases in it
(`Reads.holds_of_mem_parts`), and all of them are laid out in order (`Reads.isLaidOut`).
-/

namespace SymCalc

open Formula

/-- Whether all phrases of kind `q` are phrases of kind `p`. -/
def Phrase.IsWithin (q p : Phrase) : Prop := ∀ ts e, Reads q ts e → Reads p ts e

theorem Phrase.isWithin_primary (p : Phrase) : Phrase.primary.IsWithin p := by
  intro ts e h
  cases p with
  | primary => exact h
  | postfixed => exact .primary h
  | operand => exact .postfixed (.primary h)
  | expression => exact .operand (.postfixed (.primary h))

theorem Phrase.isWithin_expression (p : Phrase) : p.IsWithin .expression := by
  intro ts e h
  cases p with
  | primary => exact .operand (.postfixed (.primary h))
  | postfixed => exact .operand (.postfixed h)
  | operand => exact .operand h
  | expression => exact h

/-- Whether the operator and the operands of an expression stand in its region one after another, and
reach from its start to its end. -/
def Expr.IsLaidOut : Expr → Prop
  | number _ _ | symbol _ _ => True
  | paren inner span => span.start < inner.span.start ∧ inner.span.stop < span.stop
  | unary op opSpan operand span => opSpan.start < opSpan.stop ∧
    (opSpan.stop ≤ operand.span.start ∧ span = opSpan.through operand.span ∨
      op = .percent ∧ operand.span.stop ≤ opSpan.start ∧ span = operand.span.through opSpan)
  | binary _ opSpan lhs rhs span => opSpan.start < opSpan.stop ∧
    lhs.span.stop ≤ opSpan.start ∧ opSpan.stop ≤ rhs.span.start ∧ span = lhs.span.through rhs.span

namespace Reads

variable {p : Phrase} {ts us : List Token} {t : Token} {e x a l r : Expr} {op : InfixOp}
  {s s' : Span}

/-! ## The phrases of the operands -/

theorem exists_of_paren (h : Reads p ts (.paren a s)) : ∃ o us c, ts = o :: us ++ [c] ∧
    o.kind = .openParen ∧ c.kind = .closeParen ∧ Reads .expression us a ∧
      s = o.span.through c.span := by
  generalize he : Expr.paren a s = e at h
  induction h with
  | paren ho hr hc =>
    cases he
    exact ⟨_, _, _, rfl, ho, hc, hr, rfl⟩
  | primary _ ih | postfixed _ ih | operand _ ih => exact ih he
  | infixed => cases (congrArg Expr.rootOp? he).trans Expr.rootOp?_extend
  | _ => cases he

theorem exists_of_unary {op : UnaryOp} (h : Reads p ts (.unary op s' a s)) :
    (∃ t us, ts = t :: us ∧ Cursor.prefixOp? t = some op ∧ Reads .operand us a ∧ s' = t.span ∧
        s = t.span.through a.span ∧ Phrase.operand.IsWithin p) ∨
      ∃ us t, ts = us ++ [t] ∧ t.kind = .percent ∧ op = .percent ∧ Reads .postfixed us a ∧
        s' = t.span ∧ s = a.span.through t.span ∧ Phrase.postfixed.IsWithin p := by
  generalize he : Expr.unary op s' a s = e at h
  induction h with
  | percent hr hk =>
    cases he
    exact .inr ⟨_, _, rfl, hk, rfl, hr, rfl, rfl, fun _ _ => id⟩
  | prefixed hop hr =>
    cases he
    exact .inl ⟨_, _, rfl, hop, hr, rfl, rfl, fun _ _ => id⟩
  | primary hr => cases he; cases hr
  | postfixed hr ih =>
    refine (ih he).imp ?_ ?_
    · rintro ⟨t, us, rfl, hop, hr, hs', hs, hp⟩
      exact ⟨t, us, rfl, hop, hr, hs', hs, fun ts e h => .postfixed (hp ts e h)⟩
    · rintro ⟨us, t, rfl, hk, hop, hr, hs', hs, hp⟩
      exact ⟨us, t, rfl, hk, hop, hr, hs', hs, fun ts e h => .postfixed (hp ts e h)⟩
  | operand _ ih =>
    refine (ih he).imp ?_ ?_
    · rintro ⟨t, us, rfl, hop, hr, hs', hs, -⟩
      exact ⟨t, us, rfl, hop, hr, hs', hs, Phrase.isWithin_expression _⟩
    · rintro ⟨us, t, rfl, hk, hop, hr, hs', hs, -⟩
      exact ⟨us, t, rfl, hk, hop, hr, hs', hs, Phrase.isWithin_expression _⟩
  | infixed => cases (congrArg Expr.rootOp? he).trans Expr.rootOp?_extend
  | _ => cases he

theorem eq_expression_of_binary (h : Reads p ts (.binary op s' l r s)) : p = .expression := by
  by_contra hp
  cases h.rootOp?_eq_none hp

theorem exists_of_binary (h : Reads .expression ts (.binary op s' l r s)) : ∃ us t vs,
    ts = us ++ t :: vs ∧ Cursor.infixOp? t = some op ∧ Reads .expression us l ∧
      Reads .expression vs r ∧ s' = t.span := by
  generalize hp : Phrase.expression = p, he : Expr.binary op s' l r s = e at h
  induction h generalizing op s' l r s with
  | operand hr => cases (congrArg Expr.rootOp? he).trans (hr.rootOp?_eq_none nofun)
  | @infixed ts us t op₁ e x hr hop hx ih =>
    -- The last operand is the right operand of the operation, or stands in it.
    have hright (he : Expr.binary op s' l r s = .binary op₁ t.span e x (e.span.through x.span)) :
        ∃ us' t' vs, ts ++ t :: us = us' ++ t' :: vs ∧ Cursor.infixOp? t' = some op ∧
          Reads .expression us' l ∧ Reads .expression vs r ∧ s' = t'.span := by
      cases he
      exact ⟨ts, t, us, rfl, hop, hr, .operand hx, rfl⟩
    cases e with
    | binary op₂ s₂ l₂ r₂ span =>
      rw [Expr.extend] at he
      split at he
      · cases he
        obtain ⟨us', t', vs, rfl, hop', hl, hr', hs⟩ := ih rfl rfl
        exact ⟨us', t', vs ++ t :: us, by simp, hop', hl, .infixed hr' hop hx, hs⟩
      · exact hright he
    | _ => exact hright he
  | _ => cases hp

/-- The phrases of two operands make a phrase of the operation, if the operands may stand in it
without parentheses. -/
theorem binary (hl : Reads .expression ts l) (hop : Cursor.infixOp? t = some op)
    (hr : Reads .expression us r) (hnl : ∀ q ∈ l.rootOp?, op.MayNest .left q)
    (hnr : ∀ q ∈ r.rootOp?, op.MayNest .right q) :
    Reads .expression (ts ++ t :: us) (.binary op t.span l r (l.span.through r.span)) := by
  generalize hp : Phrase.expression = p at hr
  induction hr with
  | @operand us r hx =>
    have hextend : l.extend op t.span r = .binary op t.span l r (l.span.through r.span) := by
      cases l with
      | binary => exact if_neg (InfixOp.not_bindsOver_iff.2 (hnl _ rfl))
      | _ => rfl
    exact hextend ▸ .infixed hl hop hx
  | @infixed us vs t' op' r x hr hop' hx ih =>
    have hover := Expr.bindsOver_of_mayNest hnr
    have hread := (ih ((Expr.mayNest_rootOp?_extend hover).1 hnr) rfl).infixed hop' hx
    rw [Expr.extend, if_pos hover] at hread
    simpa using hread
  | _ => cases hp

/-! ## Regions -/

theorem exists_start (h : Reads p ts e) : ∃ t ∈ ts, t.span.start = e.span.start :=
  ⟨_, List.head_mem h.ne_nil, by simp [h.span_eq, Span.through]⟩

theorem exists_stop (h : Reads p ts e) : ∃ t ∈ ts, t.span.stop = e.span.stop :=
  ⟨_, List.getLast_mem h.ne_nil, by simp [h.span_eq, Span.through]⟩

/-- The operator and the operands of a phrase are in the order of its tokens. -/
theorem isLaidOut (h : Reads p ts e) (hts : ∀ t ∈ ts, t.span.start < t.span.stop)
    (hs : ts.Pairwise fun a b => a.span.stop ≤ b.span.start) : e.IsLaidOut := by
  cases e with
  | number | symbol => trivial
  | paren a s =>
    obtain ⟨o, us, c, rfl, -, -, ha, rfl⟩ := h.exists_of_paren
    obtain ⟨hopen, hclose⟩ := List.pairwise_cons.1 hs
    obtain ⟨t, ht, hstart⟩ := ha.exists_start
    obtain ⟨u, hu, hstop⟩ := ha.exists_stop
    constructor
    · exact hstart ▸ (hts o (by simp)).trans_le (hopen t (by simp [ht]))
    · exact hstop ▸ ((List.pairwise_append.1 hclose).2.2 u hu c (by simp)).trans_lt (hts c (by simp))
  | unary op s' a s =>
    obtain ⟨t, us, rfl, -, ha, rfl, rfl, -⟩ | ⟨us, t, rfl, -, rfl, ha, rfl, rfl, -⟩ :=
      h.exists_of_unary
    · obtain ⟨u, hu, hstart⟩ := ha.exists_start
      exact ⟨hts t (by simp), .inl ⟨hstart ▸ (List.pairwise_cons.1 hs).1 u hu, rfl⟩⟩
    · obtain ⟨u, hu, hstop⟩ := ha.exists_stop
      refine ⟨hts t (by simp), .inr ⟨rfl, ?_, rfl⟩⟩
      exact hstop ▸ (List.pairwise_append.1 hs).2.2 u hu t (by simp)
  | binary op s' l r s =>
    cases h.eq_expression_of_binary
    obtain ⟨us, t, vs, rfl, -, hl, hr, rfl⟩ := h.exists_of_binary
    obtain ⟨-, hbehind, hbefore⟩ := List.pairwise_append.1 hs
    obtain ⟨u, hu, hstop⟩ := hl.exists_stop
    obtain ⟨v, hv, hstart⟩ := hr.exists_start
    refine ⟨hts t (by simp), ?_, ?_, h.isSpanned.1⟩
    · exact hstop ▸ hbefore u hu t (by simp)
    · exact hstart ▸ (List.pairwise_cons.1 hbehind).1 v hv

end Reads

/-! ## All parts -/

section
variable {α : Type} [Scalar α] {p q : Phrase} {ts us : List Token} {e x a : Expr}

variable (α) in
/-- Whether `e'` can stand wherever `e` can, with the same formula. -/
structure Expr.Replaces (e' e : Expr) : Prop where
  ofExpr_eq : (ofExpr e' : Formula α) = ofExpr e
  rootOp? : ∀ op ∈ e'.rootOp?, op ∈ e.rootOp?

variable (α) in
/-- Whether `x` is the tree of a phrase among the tokens `ts` of a phrase of kind `p` with the tree `e`,
which may be put in parentheses without changing the formula. -/
def Holds (p : Phrase) (ts : List Token) (e x : Expr) : Prop :=
  ∃ pre us post, ts = pre ++ us ++ post ∧ Reads .expression us x ∧
    ∀ o c : Token, o.kind = .openParen → c.kind = .closeParen →
      ∃ e', Reads p (pre ++ o :: us ++ c :: post) e' ∧ e'.Replaces α e

theorem Reads.holds_self (h : Reads p ts e) : Holds α p ts e e := by
  have hexpression := p.isWithin_expression ts e h
  refine ⟨[], ts, [], by simp, hexpression, fun o c ho hc => ?_⟩
  exact ⟨_, p.isWithin_primary _ _ (.paren ho hexpression hc), rfl, nofun⟩

/-- What an operand holds is held by the operation, if there is such an operation with all operands of
this kind. -/
theorem Holds.of_operand (h : Holds α q us a x) (before after : List Token)
    (hp : ∀ us a', Reads q us a' → a'.Replaces α a →
      ∃ e', Reads p (before ++ us ++ after) e' ∧ e'.Replaces α e) :
    Holds α p (before ++ us ++ after) e x := by
  obtain ⟨pre, us, post, rfl, hx, hwrap⟩ := h
  refine ⟨before ++ pre, us, post ++ after, by simp, hx, fun o c ho hc => ?_⟩
  obtain ⟨a', ha', hreplaces⟩ := hwrap o c ho hc
  simpa using hp _ a' ha' hreplaces

/-- Every part of the tree of a phrase is the tree of a phrase among its tokens. -/
theorem Reads.holds_of_mem_parts (h : Reads p ts e) (hx : x ∈ e.parts) : Holds α p ts e x := by
  induction e generalizing p ts with
  | number | symbol =>
    cases List.mem_singleton.1 hx
    exact h.holds_self
  | paren a s ih =>
    obtain rfl | hpart := List.mem_cons.1 hx
    · exact h.holds_self
    obtain ⟨o, us, c, rfl, ho, hc, ha, -⟩ := h.exists_of_paren
    refine (ih ha hpart).of_operand [o] [c] fun us a' ha' hreplaces => ?_
    exact ⟨_, p.isWithin_primary _ _ (.paren ho ha' hc), hreplaces.ofExpr_eq, nofun⟩
  | unary op s' a s ih =>
    obtain rfl | hpart := List.mem_cons.1 hx
    · exact h.holds_self
    obtain ⟨t, us, rfl, hop, ha, -, -, hp⟩ | ⟨us, t, rfl, hk, rfl, ha, -, -, hp⟩ :=
      h.exists_of_unary
    · rw [← List.append_nil (t :: us)]
      refine (ih ha hpart).of_operand [t] [] fun us a' ha' hreplaces => ?_
      rw [List.append_nil]
      exact ⟨_, hp _ _ (.prefixed hop ha'), congrArg (Formula.unary op) hreplaces.ofExpr_eq, nofun⟩
    · refine (ih ha hpart).of_operand [] [t] fun us a' ha' hreplaces => ?_
      exact ⟨_, hp _ _ (.percent ha' hk), congrArg (Formula.unary .percent) hreplaces.ofExpr_eq,
        nofun⟩
  | binary op s' l r s ihl ihr =>
    obtain rfl | hpart := List.mem_cons.1 hx
    · exact h.holds_self
    cases h.eq_expression_of_binary
    obtain ⟨hnl, hnr⟩ := h.isOrdered.isNested
    obtain ⟨us, t, vs, rfl, hop, hl, hr, rfl⟩ := h.exists_of_binary
    have hformula {l' r' : Expr} (s' : Span) (hl : (ofExpr l' : Formula α) = ofExpr l)
        (hr : (ofExpr r' : Formula α) = ofExpr r) :
        (ofExpr (.binary op t.span l' r' s') : Formula α) = ofExpr (.binary op t.span l r s) := by
      cases op <;> simp only [ofExpr, hl, hr]
    rcases List.mem_append.1 hpart with hpart | hpart
    · refine (ihl hl hpart).of_operand [] (t :: vs) fun us l' hl' hreplaces => ?_
      exact ⟨_, hl'.binary hop hr (fun q hq => hnl q (hreplaces.rootOp? q hq)) hnr,
        hformula _ hreplaces.ofExpr_eq rfl, fun _ => id⟩
    · rw [← List.append_nil vs, List.append_cons, ← List.append_assoc]
      refine (ihr hr hpart).of_operand (us ++ [t]) [] fun vs r' hr' hreplaces => ?_
      rw [List.append_nil, ← List.append_cons]
      exact ⟨_, hl.binary hop hr' hnl fun q hq => hnr q (hreplaces.rootOp? q hq),
        hformula _ rfl hreplaces.ofExpr_eq, fun _ => id⟩

end
end SymCalc
