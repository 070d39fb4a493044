import Accord.Source.FunctionDef

/-!
# Plans for calls on unions

A call whose arguments have union types may have no function of its own and
still make sense for each alternative.  A plan says which function runs when:
it names one, or it tells the alternatives of one argument apart and has a plan
for each of them.
-/

namespace Accord

/-- How a call is carried out. -/
inductive Plan where
  /-- One function takes the call. -/
  | direct (function : FunctionDef)
  /-- The alternatives of the argument at a position are told apart. -/
  | branch (position : Nat) (alternatives : List TypeExpr) (nested : List Plan)

namespace Plan

mutual

/-- The functions that a plan may run, from left to right. -/
def leaves : Plan → List FunctionDef
  | .direct function => [function]
  | .branch _ _ nested => leavesAll nested

/-- The functions that several plans may run. -/
def leavesAll : List Plan → List FunctionDef
  | [] => []
  | plan :: rest => plan.leaves ++ leavesAll rest

end

end Plan

/-- A plan with the type of what it returns, if it returns something. -/
structure PlannedCall where
  plan : Plan
  returnType : Option TypeExpr

end Accord
