import SymCalc.Session.Command
import SymCalc.Formula.Derivative
import SymCalc.Formula.OfExpr
import SymCalc.Formula.Text
import SymCalc.Formula.Value
import SymCalc.Simplify

/-! # The calculator

* `Session`: what the calculator remembers from line to line;
* `findWord?`: where a variable is in the text of a formula;
* `Session.execute`: the lines that a command prints, or why it fails, and the session after it;
* `Session.run`: what a whole list of lines prints. -/

namespace SymCalc

/-- The values of the variables assigned so far, and whether to show the steps of every
simplification. -/
structure Session where
  bindings : Bindings Float
  showSteps : Bool
deriving Repr

/-- The region of the first place in a text where `name` stands as a word of its own. The text
starts at byte `start`, and `afterWord` says that a character of a word comes before it. -/
def findWordFrom? (name : List Char) (start : Nat) (afterWord : Bool) :
    List Char → Option Span
  | [] => none
  | c :: cs =>
    if !afterWord && name.isPrefixOf (c :: cs) &&
        !((c :: cs).drop name.length).head?.any Command.isWordChar then
      some ⟨start, start + byteLength name⟩
    else findWordFrom? name (start + c.utf8Size) (Command.isWordChar c) cs

/-- The region of the first place in a text where a name stands as a word of its own. -/
def findWord? (text name : String) : Option Span :=
  findWordFrom? name.toList 0 false text.toList

namespace Session

/-- A session without variables. -/
def new (showSteps : Bool) : Session := ⟨.empty, showSteps⟩

/-- The value of a formula that comes from the text `formula`. If it fails, the report shows the
first variable in alphabetic order that has no value. -/
def evaluate (s : Session) (f : Formula Float) (formula : String) : Except Report Float :=
  match f.eval s.bindings with
  | .ok v => .ok v
  | .error problem =>
    let missing := f.vars.find? fun x => !s.bindings.isBound x
    .error ⟨problem, (missing.bind (findWord? formula)).toList⟩

/-- The lines that show the steps of a simplification, if they are to be shown. -/
def stepLines (s : Session) (steps : List Step) : List String :=
  if s.showSteps then steps.map ("  " ++ ·.text) else []

/-- Simplifies a formula. The lines show the steps, the result and, if all its variables have
values, its value. -/
def show? (s : Session) (f : Formula Float) (formula : String) : Except Report (List String) := do
  let simplified := f.simplifyTraced
  let g := simplified.value
  let lines := s.stepLines simplified.steps ++ [g.toText]
  let xs := g.vars
  if !xs.isEmpty && xs.all s.bindings.isBound then
    let v ← s.evaluate g formula
    return lines ++ ["= " ++ (Formula.ofValue v).toText]
  else return lines

/-- Simplifies a formula and takes its value. The lines show the steps and the new value of the
variable `name`. -/
def assign? (s : Session) (name formula : String) : Except Report (List String × Float) := do
  let simplified := (← Formula.ofText formula).simplifyTraced
  let v ← s.evaluate simplified.value formula
  return (s.stepLines simplified.steps ++ [name ++ " = " ++ (Formula.ofValue v).toText], v)

/-- Runs a command. A failure leaves the session as it is. -/
def execute (s : Session) : Command → Except Report (List String) × Session
  | .simplify formula => (do s.show? (← Formula.ofText formula) formula, s)
  | .differentiate formula => (do s.show? ((← Formula.ofText formula).derivative "x") formula, s)
  | .assign name formula =>
    match s.assign? name formula with
    | .ok (lines, v) => (.ok lines, { s with bindings := s.bindings.set name v })
    | .error report => (.error report, s)
  | .exit | .empty => (.ok [], s)

/-- What running lines puts out: a printed line, or a report about a formula. -/
inductive Output where
  | line (text : String)
  | failure (report : Report) (formula : String)
deriving Repr

/-- What a command puts out. -/
def outputs (command : Command) : Except Report (List String) → List Output
  | .ok lines => lines.map .line
  | .error report => [.failure report command.formula]

/-- What running lines one after another puts out. A line that asks to leave ends it. -/
def run (s : Session) : List String → List Output
  | [] => []
  | line :: lines =>
    match Command.ofLine line with
    | .exit => []
    | command =>
      let (result, s) := s.execute command
      outputs command result ++ s.run lines

end Session
end SymCalc
