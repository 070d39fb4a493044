import Accord.Json.Value
import Accord.Program.Basic

/-!
# Reports

A report lists what is wrong with a project and how large the project is.  It
counts as a success when nothing is wrong.

* `Finding.ofDiagnostic` is a diagnostic as reports show it.
* `Report.toJson` is the report as a JSON value, members in a fixed order.
-/

namespace Accord

/-- A diagnostic as reports show it. -/
structure Finding where
  code : String
  severity : String
  message : String
  /-- Where the fault is, if that is known. -/
  location : Option Span
  /-- What may be done about it. -/
  hint : Option String

/-- How large a project is. -/
structure Stats where
  files : Nat := 0
  packages : Nat := 0
  types : Nat := 0
  functions : Nat := 0
  entryPoints : Nat := 0

/-- The result of checking a project. -/
structure Report where
  success : Bool
  project : String
  findings : List Finding
  stats : Stats

/-- The position of a fault that has one. -/
def Diagnostic.location? (cause : Diagnostic) : Option Span :=
  cause.span?.filter fun span => !span.isUnknown

/-- A diagnostic as reports show it. -/
def Finding.ofDiagnostic (cause : Diagnostic) : Finding where
  code := cause.code
  severity := if cause.isInternal then "Internal" else "Error"
  message := cause.message
  location := cause.location?
  hint := cause.hint?

/-- The size of a program, instances of generic functions not counted. -/
def Stats.ofProgram (program : Program) : Stats where
  files := program.project.files.length
  packages := program.project.packages.length
  types := program.types.storedKeys.length
  functions := program.functions.functions.length
  entryPoints := program.functions.entryPoints.length

/-- The report on a project with the given faults. -/
def Report.of (project : String) (faults : List Diagnostic) (stats : Stats) : Report where
  success := faults.isEmpty
  project := project
  findings := faults.map Finding.ofDiagnostic
  stats := stats

/-! ## JSON -/

open Json

/-- A position as a record. -/
def locationJson (span : Span) : Json :=
  .record [
    ("file_id", ofNat span.file.toNat),
    ("start", ofNat span.start.toNat),
    ("end", ofNat span.stop.toNat)]

/-- The members of a finding. -/
def Finding.members (finding : Finding) : List (String × Json) :=
  [ ("code", .text finding.code),
    ("severity", .text finding.severity),
    ("message", .text finding.message),
    ("location", ofOption locationJson finding.location),
    ("hint", ofOption .text finding.hint)]

/-- The size of a project as a record. -/
def Stats.toJson (stats : Stats) : Json :=
  .record [
    ("file_count", ofNat stats.files),
    ("package_count", ofNat stats.packages),
    ("type_count", ofNat stats.types),
    ("function_count", ofNat stats.functions),
    ("main_function_count", ofNat stats.entryPoints)]

/-- The report as a record. -/
def Report.toJson (report : Report) : Json :=
  .record [
    ("success", .bool report.success),
    ("project", .text report.project),
    ("diagnostics", .list (report.findings.map fun finding => .record finding.members)),
    ("stats", report.stats.toJson)]

end Accord
