import Accord.Body.Check
import Accord.Program.Build

/-!
# Checking programs

Every function is checked for its structure.  Functions that are not generic
are checked for types as they stand, and generic ones through their instances.
Checking an instance may give rise to further instances, so instances are
checked in rounds until a round finds none that is new.  Each fault found is
kept, one for each function or instance.
-/

namespace Accord

/-- The fault that a check finds, if any. -/
def faultOf (check : ProgramQuery Unit) : ProgramQuery (Option Diagnostic) := do
  match ← check.outcome with
  | .ok _ => return none
  | .error cause => return some cause

/-- Checks a stored function, a generic one for its structure only. -/
def checkStored (fuel : Nat) (function : FunctionDef) : ProgramQuery Unit :=
  if function.isGeneric then Query.ofExcept (checkStructure function)
  else checkFunction fuel function

/-- The instances that have not been checked, in the order of their keys. -/
def Program.pending (program : Program) (checked : List String) :
    List (String × FunctionDef) :=
  program.instances.filter fun entry => !checked.contains entry.1

/-- Checks instances in rounds until none is new. -/
def checkInstances (fuel : Nat) : Nat → List String → ProgramQuery (List Diagnostic)
  | 0, _ => return [.limitReached]
  | rounds + 1, checked => do
    match (← get).pending checked with
    | [] => return []
    | pending =>
      let faults ← pending.mapM fun entry => faultOf (checkTypes fuel entry.2)
      let later ← checkInstances fuel rounds (checked ++ pending.map (·.1))
      return faults.filterMap id ++ later

/-- The faults of every function and of every instance reached from them. -/
def checkProgram (fuel : Nat) : ProgramQuery (List Diagnostic) := do
  let faults ← (← get).functions.functions.mapM fun function =>
    faultOf (checkStored fuel function)
  let later ← checkInstances fuel fuel []
  return faults.filterMap id ++ later

end Accord
