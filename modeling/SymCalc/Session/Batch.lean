import SymCalc.Session

/-! # Running a whole file

* `textLines`: the lines of a text;
* `Invocation`: what the arguments of the program ask for;
* `Invocation.run?`: what the program puts out for a file. -/

namespace SymCalc

/-- The pieces of a text between line feeds. -/
def splitLines : List Char → List (List Char)
  | [] => [[]]
  | '\n' :: cs => [] :: splitLines cs
  | c :: cs =>
    match splitLines cs with
    | [] => [[c]]
    | l :: ls => (c :: l) :: ls

/-- A line without the carriage return that belongs to its end. -/
def dropReturn (l : List Char) : List Char := if l.getLast? = some '\r' then l.dropLast else l

/-- The lines of a text. A line ends at a line feed, with a carriage return before it or not; the
last line need not end. -/
def textLines (text : String) : List String :=
  let pieces := splitLines text.toList
  let last := pieces.getLast?.getD []
  (pieces.dropLast.map dropReturn ++ if last.isEmpty then [] else [last]).map String.ofList

/-- What the arguments of the program ask for. -/
structure Invocation where
  showSteps : Bool
  file? : Option String
deriving DecidableEq, Repr

namespace Invocation

/-- The meaning of one more argument: the only option is `--steps`, and of several file names the
last one counts. -/
def addArgument (i : Invocation) (arg : String) : Invocation :=
  if arg = "--steps" then { i with showSteps := true } else { i with file? := some arg }

/-- The meaning of the arguments. -/
def ofArguments (args : List String) : Invocation := args.foldl addArgument ⟨false, none⟩

/-- What the program puts out for the contents of a file, if they are text. -/
def run? (i : Invocation) (contents : ByteArray) : Option (List Session.Output) :=
  (String.fromUTF8? contents).map fun text => (Session.new i.showSteps).run (textLines text)

end Invocation
end SymCalc
