import SymCalc.Decimal
import SymCalc.Operator
import SymCalc.Text.Span

/-! # Syntax trees

* `Expr`: the tree of a formula as it is written, with the region of every part;
* `Expr.extend`: the tree for an expression that goes on with one more operator and operand;
* `Expr.innermost`: what stands inside all the parentheses around an expression. -/

namespace SymCalc

/-- An expression with the regions of its parts. -/
inductive Expr where
  | number (value : Decimal) (span : Span)
  | symbol (name : String) (span : Span)
  | paren (inner : Expr) (span : Span)
  | unary (op : UnaryOp) (opSpan : Span) (operand : Expr) (span : Span)
  | binary (op : InfixOp) (opSpan : Span) (lhs rhs : Expr) (span : Span)
deriving DecidableEq, Repr

namespace Expr

/-- The region of the whole expression. -/
def span : Expr → Span
  | number _ span | symbol _ span | paren _ span | unary _ _ _ span | binary _ _ _ _ span => span

/-- The tree for `e` followed by an operator and an operand. The new operator takes the operand
before it from every operator at the right end of `e` that it binds over. -/
def extend (e : Expr) (op : InfixOp) (opSpan : Span) (operand : Expr) : Expr :=
  match e with
  | binary op₁ opSpan₁ lhs rhs span =>
    if op.bindsOver op₁ then
      let rhs := rhs.extend op opSpan operand
      binary op₁ opSpan₁ lhs rhs (lhs.span.through rhs.span)
    else
      binary op opSpan (binary op₁ opSpan₁ lhs rhs span) operand (span.through operand.span)
  | e => binary op opSpan e operand (e.span.through operand.span)

/-- What stands inside all the parentheses around the expression. -/
def innermost : Expr → Expr
  | paren inner _ => inner.innermost
  | e => e

end Expr
end SymCalc
