import Accord.Proofs.Assign.Guard

/-!
# What a comparison leaves alone

Comparing types, checking the arguments of a call and measuring a signature ask
questions about types, so they too keep what look-ups keep, the project and the
stored definitions among it (`assignable_keeps`, `takes_keeps`, `specificity_keeps`).
-/

namespace Accord

open Query TypeTable FunctionDef

variable {inv : TypeTable → Prop} [Lasting inv]

theorem TypeTable.Lasting.regime : Regime inv (fun _ => True) (fun _ => True) (fun _ => True) :=
  Lasting.enclosed.regime fun _ _ => trivial

theorem assignable_keeps (fuel : Nat) (mode : Mode) (source dest : TypeExpr) :
    Keeps inv (assignable fuel mode source dest) :=
  (assignable_guards Lasting.regime fuel mode trivial trivial).keeps

theorem specificity_keeps (fuel : Nat) (function : FunctionDef) :
    Keeps inv (function.specificity fuel) :=
  (specificity_guards Lasting.regime fuel fun _ _ => trivial).keeps

/-- The substitution that the type arguments written at a call stand for. -/
def FunctionDef.fixedBy (candidate : FunctionDef) (call : Call) : Substitution :=
  if !call.generics.isEmpty then .ofLists candidate.generics call.generics else []

/-- What is made of a check of all arguments. -/
def FunctionDef.takesUnder (candidate : FunctionDef) (call : Call)
    (result : Bool × Inference) : Option Substitution :=
  if !result.1 then none
  else if !(!call.generics.isEmpty) &&
      result.2.bindings.countBound candidate.generics != candidate.generics.length then none
  else some result.2.bindings

theorem takes_eq (fuel : Nat) (candidate : FunctionDef) (call : Call) (arguments : List TypeExpr) :
    candidate.takes fuel call arguments =
      if candidate.parameters.length != arguments.length then
        throw (.inconsistent
          (.candidateArity candidate.name candidate.parameters.length arguments.length))
      else if !call.generics.isEmpty && call.generics.length != candidate.generics.length then
        pure none
      else
        Check.run { bindings := candidate.fixedBy call }
            (acceptsArguments fuel (candidate.fixedBy call) candidate.parameterTypes arguments) >>=
          fun result => pure (candidate.takesUnder call result) := by
  unfold takes
  split
  · rfl
  · dsimp only
    split
    · rfl
    · refine congrArg (Check.run _ _ >>= ·) (funext fun result => ?_)
      unfold takesUnder
      split
      · rfl
      · split <;> rfl

theorem takes_keeps (fuel : Nat) (candidate : FunctionDef) (call : Call)
    (arguments : List TypeExpr) :
    Keeps inv (candidate.takes fuel call arguments) := by
  rw [takes_eq]
  refine .ite (.throw _) (.ite (.pure _) (.bind ?_ fun _ => .pure _))
  have hempty : Inference.Binds (fun _ => True) [] { bindings := candidate.fixedBy call } :=
    ⟨fun _ _ => trivial, by simp⟩
  exact (run_guards hempty (acceptsArguments_guards Lasting.regime [] fuel
    (fun _ _ => trivial) fun _ _ => trivial)).keeps

end Accord
