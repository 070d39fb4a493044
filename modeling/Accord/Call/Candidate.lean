import Accord.Assign.Compatible
import Accord.Call.OverloadTable

/-!
# Candidates of a call

A candidate takes a call if every argument may be assigned to its parameter.
Type arguments written at the call are put in place first; otherwise the
arguments have to determine every type parameter of the candidate.
-/

namespace Accord

/-- Checks arguments against parameters from left to right, until one is refused. -/
def acceptsArguments (fuel : Nat) (rules : Substitution) :
    List TypeExpr → List TypeExpr → Check Bool
  | declared :: parameters, actual :: arguments => do
    if ← accepts fuel .lenient actual (declared.substitute rules) then
      acceptsArguments fuel rules parameters arguments
    else return false
  | _, _ => return true

/-- The type arguments under which a candidate takes a call with arguments of the given
types, or nothing if it does not (`check_function_compatibility`). -/
def FunctionDef.takes (fuel : Nat) (candidate : FunctionDef) (call : Call)
    (arguments : List TypeExpr) : TypeQuery (Option Substitution) := do
  if candidate.parameters.length != arguments.length then
    throw (.inconsistent
      (.candidateArity candidate.name candidate.parameters.length arguments.length))
  let explicit := !call.generics.isEmpty
  if explicit && call.generics.length != candidate.generics.length then
    return none
  let fixed : Substitution :=
    if explicit then .ofLists candidate.generics call.generics else []
  let (accepted, inference) ← Check.run { bindings := fixed }
    (acceptsArguments fuel fixed candidate.parameterTypes arguments)
  let rules := inference.bindings
  if !accepted then return none
  if !explicit && rules.countBound candidate.generics != candidate.generics.length then
    return none
  return some rules

end Accord
