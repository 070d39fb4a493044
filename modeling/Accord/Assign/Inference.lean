import Accord.Generic.Substitution

/-!
# Inferred type arguments

While values are checked against types with parameters, the parameters are
bound to the types they receive.  A parameter that was bound where no widening
is allowed is locked: its binding stays as it is.
-/

namespace Accord

/-- What is known about type parameters. -/
structure Inference where
  bindings : Substitution := []
  locked : List String := []

namespace Inference

/-- Locks a parameter. -/
def lock (inference : Inference) (parameter : String) : Inference :=
  if inference.locked.contains parameter then inference
  else { inference with locked := parameter :: inference.locked }

/-- Binds a parameter that has no binding. -/
def bind (inference : Inference) (parameter : String) (type : TypeExpr) : Inference :=
  { inference with bindings := inference.bindings ++ [(parameter, type)] }

/-- Changes the binding of a parameter that has one. -/
def rebind (inference : Inference) (parameter : String) (type : TypeExpr) : Inference :=
  { inference with bindings := inference.bindings.replace parameter type }

end Inference

/-- The sum of a binding and another type (`merge_into_union`).  A binding that is a sum
takes the type as a further alternative. -/
def TypeExpr.merge (bound type : TypeExpr) : TypeExpr :=
  match bound with
  | .union alternatives => .union (alternatives ++ [type])
  | _ => .union [bound, type]

end Accord
