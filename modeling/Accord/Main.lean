import Accord.CommandLine

/-!
# Entry point

Reads the arguments and the file that they name, and prints what the command
leaves behind.
-/

namespace Accord

/-- The wording of a failure to read a file. -/
def readFailure : IO.Error → String
  | .noFileOrDirectory .. => "No such file or directory (os error 2)"
  | .permissionDenied .. => "Permission denied (os error 13)"
  | cause => cause.toString

/-- The text of the file that a command reads. -/
def readSource (command : Command) : IO (Except Diagnostic String) := do
  match command.path? with
  | none => return .ok ""
  | some path =>
    try return .ok (← IO.FS.readFile path)
    catch cause => return .error (.unreadable (readFailure cause))

/-- Prints what a command leaves behind and returns its exit code. -/
def finish (outcome : Outcome) : IO UInt32 := do
  (← IO.getStdout).putStr outcome.output
  (← IO.getStderr).putStr outcome.errors
  return UInt32.ofNat outcome.exitCode

end Accord

/-- Runs the command that the arguments spell. -/
def main (arguments : List String) : IO UInt32 := do
  match Accord.Command.ofArguments? arguments with
  | some command =>
    let source ← Accord.readSource command
    Accord.finish (command.run Accord.defaultFuel source)
  | none =>
    (← IO.getStderr).putStr "usage: meridianc check [--json] FILE | types FILE | version\n"
    return 2
