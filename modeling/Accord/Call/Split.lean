import Accord.Call.Resolution

/-!
# Splitting calls over unions

`planCall` makes a plan for a call.  Where no function takes the call, the first
argument with a union type is split: the call is planned anew for each of its
alternatives, and arguments further left are not split again.  What the call
returns is put together from what the functions of the plan return.
-/

namespace Accord

/-- Looks for the next argument to split, `passed` being those further left (`split`).
`whole` tells that no argument has been split so far. -/
def splitFrom (fuel : Nat) (call : Call) (whole : Bool) (passed : List TypeExpr) :
    List TypeExpr → ProgramQuery Plan
  | [] =>
    let arguments := TypeExpr.renderList passed
    if whole then throw (.noMatchingOverload call.render arguments call.span)
    else throw (.unsplittableCall call.render arguments call.span)
  | argument :: rest => do
    let covered ← alternatives fuel argument
    if covered.isEmpty then splitFrom fuel call whole (passed ++ [argument]) rest
    else
      let nested ← covered.mapM fun alternative => do
        match ← resolve fuel call (passed ++ alternative :: rest) with
        | some function => return Plan.direct function
        | none => splitFrom fuel call false (passed ++ [alternative]) rest
      return .branch passed.length covered nested

/-- The plan of a call. -/
def planOf (fuel : Nat) (call : Call) (arguments : List TypeExpr) : ProgramQuery Plan := do
  match ← resolve fuel call arguments with
  | some function => return .direct function
  | none => splitFrom fuel call true [] arguments

/-- One type for several, of which those with one canonical name count once. -/
def mergeTypes (types : List TypeExpr) : TypeQuery TypeExpr := do
  let gathered ← types.foldlM (fun (gathered : Gathered) type => do
    return gathered.add (← canonicalName type) type) {}
  match gathered.types with
  | [type] => return type
  | types => return .union types

/-- What a plan returns: nothing if none of its functions returns anything, and one type
if all do (`merge_return_types`). -/
def mergeReturns (call : Call) (plan : Plan) : TypeQuery (Option TypeExpr) := do
  let returned := plan.leaves.map (·.returnType)
  if returned.all (·.isNone) then return none
  else if returned.any (·.isNone) then throw (.mixedVoidness call.render call.span)
  else return some (← mergeTypes (returned.filterMap id))

/-- The plan of a call, and what it returns (`generate_plan_descriptor`). -/
def planCall (fuel : Nat) (call : Call) (arguments : List TypeExpr) :
    ProgramQuery PlannedCall := do
  let key ← callKey call arguments
  match (← get).memo.plans.lookup key with
  | some known => return known
  | none =>
    let plan ← planOf fuel call arguments
    let returnType ← mergeReturns call plan
    let made : PlannedCall := { plan, returnType }
    remember fun memo => { memo with plans := (key, made) :: memo.plans }
    return made

end Accord
