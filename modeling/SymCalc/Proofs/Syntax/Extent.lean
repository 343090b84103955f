import SymCalc.Proofs.Syntax.Phrase

/-!
# Where the parts of a syntax tree stand

* `Expr.rootOp?`: the operator of a binary operation that is not in parentheses;
* `Expr.IsSpanned`: the binary operations at the top reach from their first to their last operand;
* `Reads.span_eq`: a phrase reaches from its first to its last token.
-/

namespace SymCalc

namespace Expr

/-- The operator of a binary operation. -/
def rootOp? : Expr → Option InfixOp
  | binary op _ _ _ _ => some op
  | _ => none

/-- The binary operations at the top of the expression, down to their operands, reach from their
left to their right side. -/
def IsSpanned : Expr → Prop
  | binary _ _ lhs rhs span => span = lhs.span.through rhs.span ∧ lhs.IsSpanned ∧ rhs.IsSpanned
  | _ => True

variable {e x : Expr} {op : InfixOp} {s : Span}

@[simp] theorem span_paren : (paren e s).span = s := rfl
@[simp] theorem span_unary {op : UnaryOp} {s' : Span} : (unary op s' e s).span = s := rfl
@[simp] theorem span_binary {s' : Span} : (binary op s' e x s).span = s := rfl

theorem isSpanned_of_rootOp? (h : e.rootOp? = none) : e.IsSpanned := by
  cases e with
  | binary => cases h
  | _ => trivial

theorem extend_of_rootOp? (h : e.rootOp? = none) :
    e.extend op s x = binary op s e x (e.span.through x.span) := by
  cases e with
  | binary => cases h
  | _ => rfl

theorem stop_span_extend : (e.extend op s x).span.stop = x.span.stop := by
  induction e with
  | binary op₁ s₁ lhs rhs span _ ih =>
    rw [extend]
    split
    · exact ih
    · rfl
  | _ => rfl

theorem start_span_extend (h : e.IsSpanned) : (e.extend op s x).span.start = e.span.start := by
  cases e with
  | binary op₁ s₁ lhs rhs span =>
    rw [extend]
    split
    · rw [h.1]
      rfl
    · rfl
  | _ => rfl

theorem IsSpanned.extend (h : e.IsSpanned) (hx : x.rootOp? = none) :
    (e.extend op s x).IsSpanned := by
  have hx := isSpanned_of_rootOp? hx
  induction e with
  | binary op₁ s₁ lhs rhs span _ ih =>
    obtain ⟨hs, hl, hr⟩ := h
    rw [Expr.extend]
    split
    · exact ⟨rfl, hl, ih hr⟩
    · exact ⟨rfl, ⟨hs, hl, hr⟩, hx⟩
  | _ => exact ⟨rfl, trivial, hx⟩

end Expr

variable {p : Phrase} {ts : List Token} {e : Expr}

theorem Reads.ne_nil (h : Reads p ts e) : ts ≠ [] := by
  obtain ⟨t, us, rfl, -⟩ := h.exists_head
  exact List.cons_ne_nil _ _

/-- Only an expression can have a binary operation at its top. -/
theorem Reads.rootOp?_eq_none (h : Reads p ts e) (hp : p ≠ .expression) : e.rootOp? = none := by
  induction h with
  | number | name | paren | percent | prefixed => rfl
  | primary _ ih | postfixed _ ih => exact ih (by simp)
  | operand | infixed => exact absurd rfl hp

theorem Reads.isSpanned (h : Reads p ts e) : e.IsSpanned := by
  induction h with
  | number | name | paren | percent | prefixed => trivial
  | primary _ ih | postfixed _ ih | operand _ ih => exact ih
  | infixed _ _ hx ih _ => exact ih.extend (hx.rootOp?_eq_none (by simp))

/-- A phrase reaches from its first to its last token. -/
theorem Reads.span_eq (h : Reads p ts e) :
    e.span = (ts.head h.ne_nil).span.through (ts.getLast h.ne_nil).span := by
  induction h with
  | number | name => rfl
  | primary _ ih | postfixed _ ih | operand _ ih => exact ih
  | paren _ hr _ _ => simp [List.getLast_cons]
  | percent hr _ ih => simp [ih, Span.through, List.head_append_of_ne_nil hr.ne_nil]
  | prefixed _ hr ih => simp [ih, Span.through, List.getLast_cons hr.ne_nil]
  | @infixed us vs t op e x he _ hx ihe ihx =>
    have hstart : (e.extend op t.span x).span.start = e.span.start :=
      Expr.start_span_extend he.isSpanned
    have hstop : (e.extend op t.span x).span.stop = x.span.stop := Expr.stop_span_extend
    rw [ihe] at hstart
    rw [ihx] at hstop
    have hspan (s s' : Span) (h : s.start = s'.start) (h' : s.stop = s'.stop) : s = s' := by
      cases s; cases s'; simp_all
    apply hspan <;>
      simp [hstart, hstop, Span.through, List.head_append_of_ne_nil he.ne_nil,
        List.getLast_append_of_ne_nil, List.getLast_cons hx.ne_nil]

end SymCalc
