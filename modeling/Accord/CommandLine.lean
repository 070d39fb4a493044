import Accord.Format.File
import Accord.Json.Printer
import Accord.Program.Check
import Accord.Report

/-!
# The command line

A command reads at most one project description and answers with a text for each
of the two output streams and an exit code.  All of it is a function of the
arguments and of what stands in the file.

* `check` looks for faults.  The findings go to the error stream, or as a JSON
  report to the output.
* `types` lists the keys of the type definitions.
* `version` names the program.
-/

namespace Accord

/-- What the user asks for. -/
inductive Command where
  | check (path : String) (json : Bool)
  | types (path : String)
  | version

/-- What a command leaves behind. -/
structure Outcome where
  exitCode : Nat := 0
  output : String := ""
  errors : String := ""

namespace Command

/-- The command that the arguments spell. -/
def ofArguments? : List String → Option Command
  | ["check", path] => some (.check path false)
  | ["check", "--json", path] => some (.check path true)
  | ["check", path, "--json"] => some (.check path true)
  | ["types", path] => some (.types path)
  | ["version"] => some .version
  | _ => none

/-- The file that a command reads. -/
def path? : Command → Option String
  | .check path _ => some path
  | .types path => some path
  | .version => none

end Command

/-- Lines of text, each with its end. -/
def linesText (lines : List String) : String :=
  String.join (lines.map (· ++ "\n"))

/-! ## Loading -/

/-- Why a project cannot be analysed: its description cannot be read, or it describes no
program. -/
inductive LoadFault where
  | unread (cause : Diagnostic)
  | invalid (cause : Diagnostic)

namespace LoadFault

/-- The diagnostic behind a fault. -/
def cause : LoadFault → Diagnostic
  | .unread cause => cause
  | .invalid cause => cause

/-- The fault with the file it was met in. -/
def message (path : String) : LoadFault → String
  | .unread cause => s!"failed to load project {path}: {cause.message}"
  | .invalid cause => s!"invalid project {path}: {cause.message}"

/-- What a command leaves behind that ends with a fault. -/
def outcome (path : String) (fault : LoadFault) : Outcome where
  exitCode := 1
  errors := linesText ["Error: " ++ fault.message path]

end LoadFault

/-- The program that a description describes. -/
def loadProgram (fuel : Nat) (source : Except Diagnostic String) :
    Except LoadFault Program := do
  let project ← (source.bind Project.read).mapError .unread
  (Program.build fuel project).mapError .invalid

/-! ## Commands -/

/-- The report as text. -/
def Report.outcomeJson (report : Report) : Outcome where
  exitCode := if report.success then 0 else 1
  output := linesText [report.toJson.pretty]

/-- The lines that show a finding. -/
def Finding.lines (finding : Finding) : List String :=
  let position := match finding.location with
    | some span => s!" at {span.start.toNat}..{span.stop.toNat}"
    | none => ""
  s!"error[{finding.code}]{position}: {finding.message}" ::
    finding.hint.toList.map ("  hint: " ++ ·)

/-- The findings on the error stream and the entry points on the output, each followed by
its summary. -/
def Report.outcomeText (report : Report) (entryPoints : List FunctionDef) : Outcome :=
  let findings := report.findings.flatMap Finding.lines
  let entries := entryPoints.map fun entry => s!"entry point: main in {entry.origin}"
  if report.success then
    let count := s!"({report.stats.functions} functions, {report.stats.types} types)"
    { output := linesText (entries ++ ["No errors found " ++ count])
      errors := linesText findings }
  else
    { exitCode := 1
      output := linesText entries
      errors := linesText (findings ++ [s!"{report.findings.length} error(s) found"]) }

/-- Looks for faults in a project. -/
def runCheck (fuel : Nat) (path : String) (json : Bool)
    (source : Except Diagnostic String) : Outcome :=
  match loadProgram fuel source with
  | .error fault =>
    if json then (Report.of path [fault.cause] {}).outcomeJson else fault.outcome path
  | .ok program =>
    let (faults, checked) := match checkProgram fuel program with
      | .ok faults checked => (faults, checked)
      | .error cause checked => ([cause], checked)
    let report := Report.of path faults (Stats.ofProgram checked)
    if json then report.outcomeJson
    else report.outcomeText checked.functions.entryPoints

/-- Lists the keys of the type definitions of a project. -/
def runTypes (fuel : Nat) (path : String) (source : Except Diagnostic String) : Outcome :=
  match loadProgram fuel source with
  | .error fault => fault.outcome path
  | .ok program => { output := linesText program.types.storedKeys }

/-- Runs a command on the text of the file that it reads. -/
def Command.run (fuel : Nat) (source : Except Diagnostic String) : Command → Outcome
  | .check path json => runCheck fuel path json source
  | .types path => runTypes fuel path source
  | .version => { output := linesText ["meridianc 0.1.0", "Meridian semantic checker"] }

end Accord
