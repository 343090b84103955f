import SymCalc.Session.Batch

/-! # The program

Runs the lines of a file, or of the standard input if no file is named. -/

namespace SymCalc

/-- Prints a line, or reports a failure on the standard error. -/
def Session.Output.print : Session.Output → IO Unit
  | .line text => IO.println text
  | .failure report formula => do
    IO.eprintln ("Error: " ++ report.problem.message)
    for span in report.spans do
      IO.eprintln ("  " ++ formula ++ " [" ++ toString span.start ++ ".." ++ toString span.stop ++
        "]: " ++ report.problem.label)
    match report.problem.help? with
    | some help => IO.eprintln ("  help: " ++ help)
    | none => pure ()

/-- The contents of the file that is to be run. -/
def Invocation.contents (i : Invocation) : IO ByteArray := do
  match i.file? with
  | some file => IO.FS.readBinFile file
  | none => (← IO.getStdin).readBinToEnd

end SymCalc

open SymCalc in
/-- Runs the program with the given arguments. The exit code is 1 if there is no text to run. -/
def main (args : List String) : IO UInt32 := do
  let i := Invocation.ofArguments args
  try
    match i.run? (← i.contents) with
    | some outputs =>
      outputs.forM Session.Output.print
      return 0
    | none =>
      IO.eprintln "the input is not UTF-8"
      return 1
  catch e =>
    IO.eprintln (toString e)
    return 1
