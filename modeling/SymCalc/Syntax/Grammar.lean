import SymCalc.Syntax.Cursor
import SymCalc.Syntax.Expr
import SymCalc.Text.Distance

/-! # Reading expressions

The language is

    expression ::= operand (infix operand)*
    operand    ::= prefix operand | primary '%'*
    primary    ::= number | name | '(' expression ')'
    infix      ::= '+' | '-' | '*' | '/' | '^'
    prefix     ::= '-' | '%' | 'exp' | 'ln' | 'cos' | 'sin' | 'tan'

Each part has a function on cursors that reads it:

* `Cursor.prefixOp`, `Cursor.postfixOp`, `Cursor.infixOp`: operators;
* `Cursor.number`, `Cursor.symbol`, `Cursor.literal`: numbers and names;
* `Cursor.parenthesized`, `Cursor.primary`, `Cursor.operand`, `Cursor.expression`: the rest;
* `Cursor.unary`: a prefix operator and its operand;
* `Cursor.full`: anything of these, up to the end of the text.

Reading consumes at least one token if it succeeds. -/

namespace SymCalc
namespace Cursor

/-! ## Operators -/

/-- The operator that a token in front of an operand stands for. -/
def prefixOp? (t : Token) : Option UnaryOp :=
  match t.kind with
  | .minus => some .negate
  | .percent => some .percent
  | .name => UnaryOp.ofWord? t.lexeme
  | _ => none

/-- The operator that a token between two operands stands for. -/
def infixOp? (t : Token) : Option InfixOp :=
  match t.kind with
  | .caret => some .power
  | .star => some (.arith .mul)
  | .slash => some (.arith .div)
  | .plus => some (.arith .add)
  | .minus => some (.arith .sub)
  | _ => none

/-- Reads an operator that stands before its operand. -/
def prefixOp (c : Cursor) : Reading c.remaining (UnaryOp × Span) :=
  c.tokenOf [.minus, .percent, .name] fun t => (prefixOp? t).map (·, t.span)

/-- Reads the operator that stands after its operand, a percent sign. -/
def postfixOp (c : Cursor) : Reading c.remaining (UnaryOp × Span) :=
  c.tokenOf [.percent] fun t => if t.kind = .percent then some (.percent, t.span) else none

/-- Reads an operator that stands between two operands. -/
def infixOp (c : Cursor) : Reading c.remaining (InfixOp × Span) :=
  c.tokenOf [.caret, .star, .slash, .plus, .minus] fun t => (infixOp? t).map (·, t.span)

/-! ## Literals -/

/-- The function whose name is nearest to the given one, if they are similar. -/
def similarFunction? (name : String) : Option String :=
  let words := UnaryOp.functions.map UnaryOp.text
  if words.contains name then some name else words.find? (isSimilar name)

/-- Reads a number. -/
def number (c : Cursor) : Reading c.remaining Expr :=
  match c.token .number with
  | .failed report _ => .failed report c
  | .done t after lt =>
    match Decimal.ofChars? t.lexeme.toList with
    | some value => .done (.number value t.span) after lt
    | none => .failed ((Problem.invalidNumber t.lexeme).atSpan t.span) after

/-- Reads a name. A name that touches an opening parenthesis is an attempt to call a function that
does not exist. -/
def symbol (c : Cursor) : Reading c.remaining Expr :=
  match c.token .name with
  | .failed report _ => .failed report c
  | .done t after lt =>
    if after.current?.any (·.kind = .openParen) then
      .failed ((Problem.unknownFunction t.lexeme (similarFunction? t.lexeme)).atSpan t.span) after
    else .done (.symbol t.lexeme t.span) after lt

/-- Reads a name or a number. -/
def literal (c : Cursor) : Reading c.remaining Expr :=
  if c.peek?.any (·.kind = .name) then c.attempt c.symbol else c.attempt c.number

/-! ## Expressions -/

/-- Reads the percent signs after `operand`. -/
def postfixes (operand : Expr) (c : Cursor) : Reading (c.remaining + 1) Expr :=
  match c.postfixOp with
  | .failed _ _ => .done operand c (Nat.lt_succ_self _)
  | .done (op, opSpan) after lt =>
    (postfixes (.unary op opSpan operand (operand.span.through opSpan)) after).weaken (by omega)
termination_by c.remaining

/-- The report for an opening parenthesis at `opening` that is not followed by a closing one where
the cursor is. -/
def unclosed (opening : Span) (c : Cursor) : Report :=
  match c.peek? with
  | none => (Problem.unclosedParenthesis true).atSpan opening
  | some t =>
    if t.kind = .symbol then (Problem.unknownOperator t.lexeme).atSpan t.span
    else (Problem.unexpectedToken [.closeParen] t.kind).atSpan t.span

/-- The report for a place that should hold a primary and starts with the token `t`. -/
def noPrimary (t : Token) : Report :=
  if t.kind = .symbol then (Problem.unknownOperator t.lexeme).atSpan t.span
  else (Problem.unexpectedToken [.number, .name, .openParen] t.kind).atSpan t.span

/-- Whether the operand of a prefix operator is certainly missing where the cursor is. -/
def lacksOperand (c : Cursor) : Bool :=
  c.peek?.all fun t => t.kind.isBetweenOperands || t.kind = .closeParen

mutual

/-- Reads a parenthesized expression. -/
def parenthesized (c : Cursor) : Reading c.remaining Expr :=
  match c.token .openParen with
  | .failed report _ => .failed report c
  | .done opening c₁ lt₁ =>
    match c₁.peek?.filter (·.kind = .closeParen) with
    | some t => .failed (Problem.emptyParenthesis.atSpan t.span) c₁
    | none =>
      match c₁.expression with
      | .failed report _ => .failed report c₁
      | .done inner c₂ lt₂ =>
        match c₂.token .closeParen with
        | .failed _ _ => .failed (unclosed opening.span c₂) c₂
        | .done closing c₃ lt₃ =>
          .done (.paren inner (opening.span.through closing.span)) c₃ (by omega)
termination_by 4 * c.remaining

/-- Reads a number, a name or a parenthesized expression. -/
def primary (c : Cursor) : Reading c.remaining Expr :=
  match c.peek? with
  | none => .failed (Problem.unexpectedEnd.atSpan c.endSpan) c
  | some t =>
    match t.kind with
    | .number | .name => c.attempt c.literal
    | .openParen => c.attempt c.parenthesized
    | _ => .failed (noPrimary t) c
termination_by 4 * c.remaining + 1

/-- Reads an operand: prefix operators, a primary and percent signs. -/
def operand (c : Cursor) : Reading c.remaining Expr :=
  match c.prefixOp with
  | .done (op, opSpan) c₁ lt₁ =>
    if c₁.lacksOperand then .failed ((Problem.missingArgument op).atSpan opSpan) c₁
    else
      match c₁.operand with
      | .failed report c₂ => .failed report c₂
      | .done e c₂ lt₂ => .done (.unary op opSpan e (opSpan.through e.span)) c₂ (by omega)
  | .failed _ _ =>
    match c.primary with
    | .failed report _ => .failed report c
    | .done e c₁ lt₁ => (postfixes e c₁).weaken (by omega)
termination_by 4 * c.remaining + 2

/-- Reads the operators and operands that follow the expression `lhs`. -/
def continuation (lhs : Expr) (c : Cursor) : Reading (c.remaining + 1) Expr :=
  match c.infixOp with
  | .failed _ _ => .done lhs c (Nat.lt_succ_self _)
  | .done (op, opSpan) c₁ lt₁ =>
    match c₁.operand with
    | .failed report c₂ => .failed report c₂
    | .done rhs c₂ lt₂ => (continuation (lhs.extend op opSpan rhs) c₂).weaken (by omega)
termination_by 4 * c.remaining

/-- Reads an expression. -/
def expression (c : Cursor) : Reading c.remaining Expr :=
  match c.peek?.filter (·.kind = .closeParen) with
  | some t => .failed ((Problem.unclosedParenthesis false).atSpan t.span) c
  | none =>
    match c.operand with
    | .failed report c₁ => .failed report c₁
    | .done lhs c₁ lt₁ => (continuation lhs c₁).weaken (by omega)
termination_by 4 * c.remaining + 3

end

/-- Reads a prefix operator and its operand. -/
def unary (c : Cursor) : Reading c.remaining Expr :=
  match c.prefixOp with
  | .failed report _ => .failed report c
  | .done (op, opSpan) c₁ lt₁ =>
    match c₁.operand with
    | .failed report c₂ => .failed report c₂
    | .done e c₂ lt₂ => .done (.unary op opSpan e (opSpan.through e.span)) c₂ (by omega)

/-! ## Whole texts -/

/-- Accepts a reading only if nothing but blanks is left after it. -/
def full {n : Nat} {β : Type} (reading : Reading n β) : Reading n β :=
  match reading with
  | .failed report after => .failed report after
  | .done value after lt =>
    let c := after.skipBlanks
    match c.current? with
    | none => .done value c (Nat.lt_of_le_of_lt (remaining_skipBlanks_le after) lt)
    | some t =>
      match t.kind with
      | .closeParen => .failed ((Problem.unclosedParenthesis false).atSpan t.span) c
      | .symbol => .failed ((Problem.unknownOperator t.lexeme).atSpan t.span) c
      | _ => .failed (Problem.expectedEnd.atSpan (t.span.through c.endSpan)) c

end Cursor

/-- The syntax tree of a text. -/
def Expr.ofText (text : String) : Except Report Expr :=
  (Cursor.full (Cursor.ofText text).expression).result

end SymCalc
