import Accord.Call.Candidate
import Accord.Call.Specificity
import Accord.Generic.Instance
import Accord.Program.Basic

/-!
# Resolution of calls

`resolve` finds the function that a call means: the most specific of the
candidates that take it.  Several equally specific ones make the call
ambiguous.  A generic function is instantiated with the type arguments found.

Answers are remembered by the place of the call and the canonical names of its
argument types, instances by the file and the name of the function.
-/

namespace Accord

/-- The key under which the answer to a call is remembered (`call_cache_key`). -/
def callKey (call : Call) (arguments : List TypeExpr) : TypeQuery String := do
  let generics ← canonicalNames call.generics
  let names ← canonicalNames arguments
  return call.qualifier.getD call.origin ++ "::" ++ call.name ++
    "<" ++ joinWith "," generics ++ ">(" ++ String.join (names.map (· ++ ";")) ++ ")"

/-- The candidates kept so far, all of one measure. -/
structure Scan where
  best : Option Specificity := none
  kept : List (FunctionDef × Substitution) := []

/-- How a measure stands to those kept so far: anything is more specific than nothing. -/
def Scan.compare (scan : Scan) (specificity : Specificity) : Ordering :=
  match scan.best with
  | none => .lt
  | some best => specificity.compare best

/-- Considers one more candidate. -/
def Scan.offer (fuel : Nat) (call : Call) (arguments : List TypeExpr) (scan : Scan)
    (candidate : FunctionDef) : TypeQuery Scan := do
  let specificity ← candidate.specificity fuel
  match scan.compare specificity with
  | .gt => return scan
  | order =>
    match ← candidate.takes fuel call arguments with
    | none => return scan
    | some rules =>
      if order = .lt then
        return { best := some specificity, kept := [(candidate, rules)] }
      else
        return { scan with kept := scan.kept ++ [(candidate, rules)] }

/-- Considers every candidate in order. -/
def scanCandidates (fuel : Nat) (call : Call) (arguments : List TypeExpr)
    (candidates : List FunctionDef) : TypeQuery Scan :=
  candidates.foldlM (Scan.offer fuel call arguments) {}

/-- The functions that a call may mean, set by set. -/
def Program.candidates (program : Program) (call : Call) : List FunctionDef :=
  (call.candidateKeys program.project).flatMap program.functions.overloads

/-- The canonical names of the types bound to parameters. -/
def boundNames (function : FunctionDef) (rules : Substitution) :
    List String → TypeQuery (List String)
  | [] => return []
  | generic :: rest => do
    let type ← Query.demand (.inconsistent (.unboundGeneric generic function.name))
      (rules.find? generic)
    let name ← canonicalName type
    let names ← boundNames function rules rest
    return name :: names

/-- The instance of a generic function, made once for each name that it gets. -/
def instantiate (function : FunctionDef) (rules : Substitution) : ProgramQuery FunctionDef := do
  let bound ← boundNames function rules function.generics
  let name := function.name ++ "<" ++ joinWith "," bound ++ ">"
  let key := function.origin ++ "::" ++ name
  match (← get).memo.instances.lookup key with
  | some known => return known
  | none =>
    let made := function.instantiate rules name
    remember fun memo => { memo with instances := (key, made) :: memo.instances }
    return made

/-- The function that a call with arguments of the given types means, if there is one
(`retrieve_function_definition`). -/
def resolve (fuel : Nat) (call : Call) (arguments : List TypeExpr) :
    ProgramQuery (Option FunctionDef) := do
  if arguments.length != call.arguments.length then
    throw (.inconsistent
      (.argumentCount call.render call.arguments.length arguments.length))
  let key ← callKey call arguments
  match (← get).memo.calls.lookup key with
  | some known => return some known
  | none =>
    let scan ← scanCandidates fuel call arguments ((← get).candidates call)
    match scan.kept with
    | [] => return none
    | [(function, rules)] =>
      let found ← if function.isGeneric then instantiate function rules else pure function
      remember fun memo => { memo with calls := (key, found) :: memo.calls }
      return some found
    | kept =>
      throw (.ambiguousCall call.render (TypeExpr.renderList arguments) kept.length call.span)

/-- The function that a call means; it is a fault if there is none. -/
def demandFunction (fuel : Nat) (call : Call) (arguments : List TypeExpr) :
    ProgramQuery FunctionDef := do
  Query.demand (.noMatchingOverload call.render (TypeExpr.renderList arguments) call.span)
    (← resolve fuel call arguments)

end Accord
