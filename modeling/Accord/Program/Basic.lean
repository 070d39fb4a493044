import Accord.Call.OverloadTable
import Accord.Call.Plan

/-!
# Programs

A program is a project with its tables of types and functions, and a memory of
the answers given so far.  Answers are only ever added to the memory, under keys
that are free.
-/

namespace Accord

/-- Answers given so far, the latest first. -/
structure Memo where
  /-- The function found for a call, under the key of the call. -/
  calls : List (String × FunctionDef) := []
  /-- Instances of generic functions, each under its file and name. -/
  instances : List (String × FunctionDef) := []
  /-- The plan made for a call, under the key of the call. -/
  plans : List (String × PlannedCall) := []

/-- A project under analysis. -/
structure Program where
  types : TypeTable
  functions : OverloadTable := .empty
  memo : Memo := {}

/-- A question about a program. -/
abbrev ProgramQuery := Query Program

instance : MonadLift (EStateM Diagnostic TypeTable) (EStateM Diagnostic Program) where
  monadLift query := Query.on (·.types) (fun program types => { program with types }) query

/-- The files of the program. -/
def Program.project (program : Program) : Project :=
  program.types.project

/-- Remembers an answer. -/
def remember (change : Memo → Memo) : ProgramQuery Unit :=
  modify fun program => { program with memo := change program.memo }

/-- Entries of the memory in the order of their keys. -/
def sortedByKey {α : Type} (entries : List (String × α)) : List (String × α) :=
  entries.mergeSort fun left right => decide (left.1 ≤ right.1)

/-- The instances of generic functions made so far, in the order of their keys. -/
def Program.instances (program : Program) : List (String × FunctionDef) :=
  sortedByKey program.memo.instances

end Accord
