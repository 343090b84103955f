import SymCalc.Operator
import SymCalc.Text.Blank

/-! # Lines of input

* `Command`: what a line asks the calculator to do;
* `Command.ofLine`: the command that is written on a line. -/

namespace SymCalc

/-- What a line of input asks for. -/
inductive Command where
  /-- Show the simplified formula. -/
  | simplify (formula : String)
  /-- Show the simplified derivative with respect to `x`. -/
  | differentiate (formula : String)
  /-- Give a variable the value of a formula. -/
  | assign (name formula : String)
  /-- Leave the calculator. -/
  | exit
  /-- Nothing. -/
  | empty
deriving DecidableEq, Repr

namespace Command

/-- Names with a meaning of their own, which cannot be variables. -/
def reservedNames : List String :=
  ["PI", "E", "UNDEFINED"] ++ UnaryOp.functions.map UnaryOp.text

/-- The characters of words. Only ASCII letters and digits count. -/
def isWordChar (c : Char) : Bool := c.isAlphanum || c = '_'

/-- Whether the characters form the name of a variable. -/
def isVariableName : List Char → Bool
  | [] => false
  | c :: cs =>
    c.isAlpha && cs.all isWordChar && !reservedNames.contains (String.ofList (c :: cs))

/-- The command for a line without blanks at its ends. A line that starts with `@` asks for a
derivative, and one that starts with a variable and `=` is an assignment. -/
def ofTrimmed (cs : List Char) : Command :=
  if cs = "exit".toList then exit
  else
    match cs with
    | [] => empty
    | '@' :: rest => differentiate (String.ofList (trim rest))
    | cs =>
      match trim (cs.takeWhile (· != '=')), cs.dropWhile (· != '=') with
      | name, _ :: formula =>
        if isVariableName name then assign (String.ofList name) (String.ofList (trim formula))
        else simplify (String.ofList cs)
      | _, [] => simplify (String.ofList cs)

/-- The command that is written on a line. -/
def ofLine (line : String) : Command := ofTrimmed (trim line.toList)

/-- The formula of a command, which the regions in reports refer to. -/
def formula : Command → String
  | simplify formula | differentiate formula | assign _ formula => formula
  | exit | empty => ""

end Command
end SymCalc
