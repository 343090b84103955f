import SymCalc.Syntax.Grammar

/-! # The parts of the language that can be read by themselves

* `Category`: the parts, with the type `Category.Value` of what reading one gives;
* `Cursor.read`, `Cursor.tryRead`, `Cursor.readFull`: reading one, going back on failure, and
  accepting nothing after it. -/

namespace SymCalc

/-- A part of the language. -/
inductive Category where
  | expression
  | primary
  | unary
  | literal
  | number
  | symbol
  | parenthesized
  | openParen
  | closeParen
  | name
  | numeral
  | prefixOp
  | postfixOp
  | infixOp
deriving DecidableEq, Repr

namespace Category

/-- What reading a part of the language gives. -/
@[reducible] def Value : Category → Type
  | openParen | closeParen | name | numeral => Token
  | prefixOp | postfixOp => UnaryOp × Span
  | infixOp => InfixOp × Span
  | expression | primary | unary | literal | number | symbol | parenthesized => Expr

/-- The region of a value. -/
def span : (k : Category) → k.Value → Span
  | openParen, t | closeParen, t | name, t | numeral, t => t.span
  | prefixOp, o | postfixOp, o => o.2
  | infixOp, o => o.2
  | expression, e | primary, e | unary, e | literal, e | number, e | symbol, e
  | parenthesized, e => e.span

end Category

namespace Cursor

/-- Reads a part of the language. After a failure the cursor is where reading stopped. -/
def read (c : Cursor) : (k : Category) → Reading c.remaining k.Value
  | .expression => c.expression
  | .primary => c.primary
  | .unary => c.unary
  | .literal => c.literal
  | .number => c.number
  | .symbol => c.symbol
  | .parenthesized => c.parenthesized
  | .openParen => c.token .openParen
  | .closeParen => c.token .closeParen
  | .name => c.token .name
  | .numeral => c.token .number
  | .prefixOp => c.prefixOp
  | .postfixOp => c.postfixOp
  | .infixOp => c.infixOp

/-- Reads a part of the language. After a failure the cursor is where it was. -/
def tryRead (c : Cursor) (k : Category) : Reading c.remaining k.Value := c.attempt (c.read k)

/-- Reads a part of the language that nothing but blanks may follow. -/
def readFull (c : Cursor) (k : Category) : Reading c.remaining k.Value := full (c.read k)

end Cursor
end SymCalc
