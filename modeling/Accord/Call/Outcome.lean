import Accord.Call.Split

/-!
# What a call yields

A call yields a value, or nothing, or it cannot be decided yet because the types
of its arguments still mention type parameters.
-/

namespace Accord

/-- What a call yields. -/
inductive CallOutcome where
  | value (type : TypeExpr)
  | void
  | unresolved

/-- The outcome of a call with the given return type. -/
def CallOutcome.ofReturn : Option TypeExpr → CallOutcome
  | some type => .value type
  | none => .void

/-- Whether the call yields nothing. -/
def CallOutcome.isVoid : CallOutcome → Bool
  | .void => true
  | _ => false

/-- What a call with arguments of the given types yields: from the one function that takes
it, or else from a plan (`resolve_function_call_return_type`). -/
def callOutcome (fuel : Nat) (call : Call) (arguments : List TypeExpr) :
    ProgramQuery CallOutcome := do
  if TypeExpr.anyGeneric arguments then return .unresolved
  match ← resolve fuel call arguments with
  | some function => return .ofReturn function.returnType
  | none => return .ofReturn (← planCall fuel call arguments).returnType

end Accord
