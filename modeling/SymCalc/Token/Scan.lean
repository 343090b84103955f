import SymCalc.Token

/-! # Splitting a text into tokens

* `Lexeme.split`: the first token of a text, the longest one of its class, and the rest;
* `Lexeme.all`: the classes and characters of all tokens of a text;
* `Token.ofText`: the tokens of a text with their regions.

A run of blanks is one token, and a character that fits no other class is a token of its own, so
the tokens cover the whole text. -/

namespace SymCalc

/-- The characters of one token with its class. -/
structure Lexeme where
  kind : Token.Kind
  chars : List Char
deriving DecidableEq, Repr

namespace Lexeme

/-- The blanks between tokens: space, tab, line feed and carriage return. -/
def isSpace (c : Char) : Bool := c = ' ' || c = '\t' || c = '\n' || c = '\r'

/-- The characters of a name after its first one, which is a letter. Only ASCII letters and
digits count. -/
def isNameChar (c : Char) : Bool := c.isAlphanum || c = '_'

/-- The class of a character that is a token by itself. -/
def single : Char → Token.Kind
  | '+' => .plus
  | '-' => .minus
  | '*' => .star
  | '/' => .slash
  | '^' => .caret
  | '%' => .percent
  | '(' => .openParen
  | ')' => .closeParen
  | _ => .symbol

/-- The fraction that continues a number: a point and at least one digit. -/
def fraction : List Char → List Char
  | '.' :: rest =>
    let ds := rest.takeWhile Char.isDigit
    if ds.isEmpty then [] else '.' :: ds
  | _ => []

/-- The characters that continue a token after its first character `c`, given what follows. -/
def continuation (c : Char) (rest : List Char) : List Char :=
  if isSpace c then rest.takeWhile isSpace
  else if c.isAlpha then rest.takeWhile isNameChar
  else if c.isDigit then
    rest.takeWhile Char.isDigit ++ fraction (rest.dropWhile Char.isDigit)
  else []

/-- The class of a token that starts with `c`. -/
def kindOf (c : Char) : Token.Kind :=
  if isSpace c then .blank
  else if c.isAlpha then .name
  else if c.isDigit then .number
  else single c

/-- The tokens of a text, each as long as its class allows. -/
def all : List Char → List Lexeme
  | [] => []
  | c :: rest =>
    let more := continuation c rest
    ⟨kindOf c, c :: more⟩ :: all (rest.drop more.length)
termination_by cs => cs.length
decreasing_by simp only [List.length_cons, List.length_drop]; omega

end Lexeme

/-- The tokens made of the given lexemes, the first of which starts at byte `start`. -/
def Token.place (start : Nat) : List Lexeme → List Token
  | [] => []
  | l :: ls =>
    let stop := start + byteLength l.chars
    ⟨l.kind, String.ofList l.chars, ⟨start, stop⟩⟩ :: place stop ls

/-- The tokens of a text, blanks included. -/
def Token.ofText (text : String) : List Token := Token.place 0 (Lexeme.all text.toList)

end SymCalc
