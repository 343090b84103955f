import SymCalc.Token.Scan
import SymCalc.Problem

/-! # A place between two tokens

* `Cursor`: the tokens of a text with the place up to which they have been read;
* `Cursor.peek?`, `Cursor.skipBlanks`, `Cursor.next`: looking at and reading tokens;
* `Reading`: what reading some part of the language at a cursor gives.

Blank tokens stay among the others, because whether two tokens touch can matter. -/

namespace SymCalc

/-- The tokens of a text, cut in two: those already read, the last one first, and those ahead.
`stop` is the length of the text. -/
structure Cursor where
  passed : List Token
  ahead : List Token
  stop : Nat
deriving DecidableEq, Repr

namespace Cursor

/-- The cursor before the first token of a text. -/
def ofText (text : String) : Cursor := ⟨[], Token.ofText text, text.utf8ByteSize⟩

/-- How many tokens are ahead. -/
def remaining (c : Cursor) : Nat := c.ahead.length

/-- The token just read, blanks included. -/
def previous? (c : Cursor) : Option Token := c.passed.head?

/-- The token just ahead, blanks included. -/
def current? (c : Cursor) : Option Token := c.ahead.head?

/-- The empty region at the end of the text. -/
def endSpan (c : Cursor) : Span := .at c.stop

/-- The region of the token just ahead, or the end of the text. -/
def span (c : Cursor) : Span := (c.current?.map Token.span).getD c.endSpan

/-- The cursor after reading `ahead` to its first token that is not blank. -/
def skipFrom (stop : Nat) (passed : List Token) : List Token → Cursor
  | [] => ⟨passed, [], stop⟩
  | t :: ts => if t.isBlank then skipFrom stop (t :: passed) ts else ⟨passed, t :: ts, stop⟩

/-- The cursor after the blanks ahead. -/
def skipBlanks (c : Cursor) : Cursor := skipFrom c.stop c.passed c.ahead

/-- The next token that is not blank. -/
def peek? (c : Cursor) : Option Token := c.ahead.find? (!·.isBlank)

theorem remaining_skipFrom_le (stop : Nat) (passed ahead : List Token) :
    (skipFrom stop passed ahead).remaining ≤ ahead.length := by
  induction ahead generalizing passed with
  | nil => exact Nat.le_refl _
  | cons t ts ih =>
    rw [skipFrom]
    split
    · exact Nat.le_succ_of_le (ih _)
    · exact Nat.le_refl _

theorem remaining_skipBlanks_le (c : Cursor) : c.skipBlanks.remaining ≤ c.remaining :=
  remaining_skipFrom_le ..

end Cursor

/-- The outcome of reading: a value and the cursor after it, with fewer than `bound` tokens ahead,
or a report and the cursor where reading stopped. -/
inductive Reading (bound : Nat) (β : Type) where
  | done (value : β) (after : Cursor) (lt : after.remaining < bound)
  | failed (report : Report) (after : Cursor)

namespace Reading

/-- The value or the report. -/
def result {bound : Nat} {β : Type} : Reading bound β → Except Report β
  | done value _ _ => .ok value
  | failed report _ => .error report

/-- The cursor after reading. -/
def after {bound : Nat} {β : Type} : Reading bound β → Cursor
  | done _ after _ => after
  | failed _ after => after

/-- The same outcome under a larger bound. -/
def weaken {m n : Nat} {β : Type} (h : m ≤ n) : Reading m β → Reading n β
  | done value after lt => done value after (Nat.lt_of_lt_of_le lt h)
  | failed report after => failed report after

/-- The same outcome with another value. -/
def map {n : Nat} {β γ : Type} (f : β → γ) : Reading n β → Reading n γ
  | done value after lt => done (f value) after lt
  | failed report after => failed report after

end Reading

namespace Cursor

/-- Reads the next token that is not blank. Blanks before it are passed over even if there is
none. -/
def next (c : Cursor) : Reading c.remaining Token :=
  match h : c.skipBlanks with
  | ⟨passed, [], stop⟩ =>
    .failed (Problem.unexpectedEnd.atSpan c.endSpan) ⟨passed, [], stop⟩
  | ⟨passed, t :: ts, stop⟩ =>
    .done t ⟨t :: passed, ts, stop⟩ (by
      have := remaining_skipBlanks_le c
      rw [h] at this
      exact this)

/-- Reads with `read`, and goes back to where it started if that fails. -/
def attempt {n : Nat} {β : Type} (c : Cursor) (reading : Reading n β) : Reading n β :=
  match reading with
  | .done value after lt => .done value after lt
  | .failed report _ => .failed report c

/-- Reads a token for which `choose` gives a value. Any other token is reported as not being one of
`expected`. -/
def tokenOf {β : Type} (c : Cursor) (expected : List Token.Kind) (choose : Token → Option β) :
    Reading c.remaining β :=
  match c.next with
  | .failed report after => .failed report after
  | .done t after lt =>
    match choose t with
    | some value => .done value after lt
    | none => .failed ((Problem.unexpectedToken expected t.kind).atSpan t.span) after

/-- Reads a token of the given class. -/
def token (c : Cursor) (kind : Token.Kind) : Reading c.remaining Token :=
  c.tokenOf [kind] fun t => if t.kind = kind then some t else none

end Cursor
end SymCalc
