import SymCalc.Token
import SymCalc.Operator

/-! # What can be wrong with a formula

* `Problem`: the causes of a failure to read or to evaluate a formula;
* `Problem.message`, `Problem.label`, `Problem.help?`: their wording;
* `Report`: a problem together with the regions of the formula that it is about. -/

namespace SymCalc

/-- Why a formula cannot be read or evaluated. -/
inductive Problem where
  /-- The text ended where more was needed. -/
  | unexpectedEnd
  /-- A complete formula is followed by something else. -/
  | expectedEnd
  /-- A token of none of the expected classes was found. -/
  | unexpectedToken (expected : List Token.Kind) (found : Token.Kind)
  /-- A character is not part of the language. -/
  | unknownOperator (operator : String)
  /-- A name is called like a function but is none. -/
  | unknownFunction (name : String) (suggestion : Option String)
  /-- An operator is not followed by its operand. -/
  | missingArgument (op : UnaryOp)
  /-- A numeral has no value. -/
  | invalidNumber (lexeme : String)
  /-- A parenthesis, an opening one if `opening`, has no partner. -/
  | unclosedParenthesis (opening : Bool)
  /-- There is nothing between two parentheses. -/
  | emptyParenthesis
  /-- A variable has no value. -/
  | undefinedVariable (name : String) (suggestions : List String)
deriving DecidableEq, Repr

namespace Problem

/-- The problem in one sentence. -/
def message : Problem → String
  | unexpectedEnd => "unexpected end of formula"
  | expectedEnd => "expected end of formula"
  | unexpectedToken _ _ => "unexpected token"
  | unknownOperator operator => "unknown operator `" ++ operator ++ "`"
  | unknownFunction name _ => "unknown function `" ++ name ++ "`"
  | missingArgument op => "missing argument for `" ++ op.text ++ "`"
  | invalidNumber lexeme => "invalid number `" ++ lexeme ++ "`"
  | unclosedParenthesis _ => "unclosed parenthesis"
  | emptyParenthesis => "missing expression inside parenthesis"
  | undefinedVariable name _ => "`" ++ name ++ "` is not defined"

/-- What is written beside the marked region. -/
def label : Problem → String
  | unexpectedEnd => "you might need to add another expression here"
  | expectedEnd => "I could not understand the remaining expression here"
  | unexpectedToken expected _ =>
    "expected one of: " ++ ", ".intercalate (expected.map Token.Kind.text)
  | unknownOperator _ => "this operator"
  | unknownFunction _ _ => "this function"
  | missingArgument _ => "add an argument after this"
  | invalidNumber _ => "here"
  | unclosedParenthesis _ => "this parenthesis is not closed"
  | emptyParenthesis => "add an expression here"
  | undefinedVariable _ _ => "this variable"

/-- How the problem might be mended. -/
def help? : Problem → Option String
  | unexpectedToken _ found => some ("found " ++ found.text)
  | unknownOperator _ => some "the supported operators are + - * / ^ %"
  | unknownFunction _ (some suggestion) => some ("did you mean " ++ suggestion ++ "?")
  | unknownFunction _ none =>
    some ("the available functions are " ++ ", ".intercalate (UnaryOp.functions.map UnaryOp.text))
  | unclosedParenthesis true => some "add a closing parenthesis `)` somewhere after this"
  | unclosedParenthesis false => some "add an opening parenthesis `(` somewhere before this"
  | undefinedVariable name [] => some ("to define it, type: " ++ name ++ " = <formula>")
  | undefinedVariable _ (s :: ss) => some ("did you mean " ++ ", ".intercalate (s :: ss) ++ "?")
  | unexpectedEnd | expectedEnd | missingArgument _ | invalidNumber _ | emptyParenthesis => none

end Problem

/-- A problem and the regions of the formula that show it. -/
structure Report where
  problem : Problem
  spans : List Span
deriving DecidableEq, Repr

/-- A problem at one region. -/
def Problem.atSpan (p : Problem) (span : Span) : Report := ⟨p, [span]⟩

end SymCalc
