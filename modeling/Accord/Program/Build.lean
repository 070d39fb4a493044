import Accord.Package.Conflict
import Accord.Program.Basic
import Accord.Types.Containment

/-!
# Building programs

A program is built from a project in steps, each of which may refuse it: the
packages must not conflict, the types must have distinct keys, no type may
contain itself by value, and functions of one set must differ.
-/

namespace Accord

namespace Program

/-- Enters the functions of a project whose types are entered. -/
def withFunctions (types : TypeTable) : Except Diagnostic Program :=
  match OverloadTable.ofProject types.project types with
  | .ok functions types => .ok { types, functions }
  | .error cause _ => .error cause

/-- The tables of a project, without the checks across packages and definitions. -/
def tabulate (project : Project) : Except Diagnostic Program := do
  withFunctions (← TypeTable.ofProject project)

/-- The program of a project. -/
def build (fuel : Nat) (project : Project) : Except Diagnostic Program := do
  project.checkPackages
  match checkContainment fuel (← TypeTable.ofProject project) with
  | .ok _ types => withFunctions types
  | .error cause _ => throw cause

/-- Enters one more type definition. -/
def storeType (definition : TypeDef) : ProgramQuery Unit := do
  let program ← get
  let types ← Query.ofExcept (program.types.store definition)
  set { program with types }

/-- Enters one more function. -/
def storeFunction (function : FunctionDef) : ProgramQuery Unit := do
  let functions ← (← get).functions.store function
  modify fun program => { program with functions }

end Program

end Accord
