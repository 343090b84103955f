import SymCalc.Text.Span

/-! # Tokens

* `Token.Kind`: the classes of tokens;
* `Token`: a piece of a text with its class and its region. -/

namespace SymCalc

/-- The class of a token. -/
inductive Token.Kind where
  | blank
  | plus
  | minus
  | star
  | slash
  | caret
  | percent
  | openParen
  | closeParen
  | name
  | number
  | symbol
deriving DecidableEq, Repr, Inhabited

/-- The name of the class in messages. -/
def Token.Kind.text : Token.Kind → String
  | blank => "Whitespace"
  | plus => "Add"
  | minus => "Sub"
  | star => "Mul"
  | slash => "Div"
  | caret => "Exp"
  | percent => "Percent"
  | openParen => "OpenParen"
  | closeParen => "CloseParen"
  | name => "Name"
  | number => "Num"
  | symbol => "Symbol"

/-- A piece of a text. -/
structure Token where
  kind : Token.Kind
  lexeme : String
  span : Span
deriving DecidableEq, Repr, Inhabited

/-- Whether the token only separates others. -/
def Token.isBlank (t : Token) : Bool := t.kind = .blank

/-- Whether a token of this class can only stand between two operands. -/
def Token.Kind.isBetweenOperands : Token.Kind → Bool
  | plus | star | slash | caret => true
  | _ => false

end SymCalc
