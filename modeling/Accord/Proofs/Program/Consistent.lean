import Accord.Proofs.Body.Guard

/-!
# No question contradicts itself

Three refusals speak of input that contradicts itself: a call with another number of argument
types than arguments, a candidate with another number of parameters, and an instance that is
made with a parameter left over.  None of them comes up, whatever a program and its names are
and whatever has been asked before (`no_question_is_inconsistent`).  The first is kept away by
the types of the arguments, found one by one; the second by the key of a set of overloads, from
which the number of parameters can be read back; the third by the bindings, which are never
dropped.

Nothing is asked of types here, so the bounds are those of `Regime` with every type ground.
-/

namespace Accord

open Query

theorem Diagnostic.Unknown.isInternal {cause : Diagnostic} (h : cause.Unknown) :
    cause.isInternal = false := by
  obtain ⟨name, origin, rfl⟩ := h
  rfl

theorem enclosed_all : Enclosed (fun _ => True) (·.isInternal = false) (fun _ => True) where
  ordinary := by
    intro cause hcause
    cases cause with
    | inconsistent => exact hcause.elim
    | _ => rfl
  toInherited := .all
  canonicalName _ := (canonicalName_unknown _).relax fun _ => Diagnostic.Unknown.isInternal
  locate _ := ((locate_unknown _).relax fun _ => Diagnostic.Unknown.isInternal).mono
    fun _ _ _ _ => trivial

/-- Every table, every type and every cause but inconsistent input are within bounds. -/
theorem regime_all :
    Regime (fun _ => True) (·.isInternal = false) (fun _ => True) (fun _ => True) :=
  enclosed_all.regime fun _ _ => rfl

theorem FunctionDef.admissible_all (function : FunctionDef) :
    function.Admissible (fun _ => True) (fun _ => True) :=
  ⟨fun _ _ _ _ => trivial, fun _ _ _ => trivial, fun _ _ _ _ _ => trivial⟩

theorem Program.within_all (program : Program) :
    program.Within (fun _ => True) (fun _ => True) (fun _ => True) where
  types := trivial
  functions function _ := function.admissible_all
  calls _ _ _ _ := trivial
  instances _ _ _ _ := trivial
  plans _ _ _ _ := trivial

/-- A candidate takes a call only with every type parameter bound. -/
theorem boundBy_of_takes {fuel : Nat} {candidate : FunctionDef} {call : Call}
    {arguments : List TypeExpr} {types after : TypeTable} {rules : Substitution}
    (h : candidate.takes fuel call arguments types = .ok (some rules) after) :
    candidate.BoundBy rules := by
  by_cases hlength : candidate.parameters.length = arguments.length
  · have htaken := takes_guards regime_all fuel (FunctionDef.admissible_all candidate)
      (fun _ _ => trivial : ∀ type ∈ call.generics, True) (fun _ _ => trivial) hlength types trivial
    exact ((htaken.of_run h).2 rules rfl).bound
  · rw [takes_eq, if_pos (by simpa using hlength)] at h
    exact absurd h throw_ne_ok

/-- Whatever has been asked before, no question about a program contradicts itself: candidates
have as many parameters as the call has arguments, a candidate takes a call with every type
parameter bound, and no refusal speaks of inconsistent input. -/
theorem no_question_is_inconsistent (program : Program) (fuel : Nat) (scope : Scope)
    (expr : Expr) (call : Call) (function : FunctionDef) :
    Except.Faults (·.isInternal = false) ((typeOf fuel scope expr).answer program) ∧
    Except.Faults (·.isInternal = false) ((callOutcomeIn fuel scope call).answer program) ∧
    Except.Faults (·.isInternal = false)
      ((do return (← callOutcomeIn fuel scope call).isVoid : ProgramQuery Bool).answer program) ∧
    Except.Faults (·.isInternal = false) ((normalize fuel scope expr).answer program) ∧
    Except.Faults (·.isInternal = false) ((checkFunction fuel function).answer program) ∧
    (∃ faults after, checkProgram fuel program = .ok faults after ∧
      ∀ fault ∈ faults, fault.isInternal = false) ∧
    ∀ candidate ∈ program.candidates call,
      candidate.parameters.length = call.arguments.length ∧
      ∀ arguments types rules after,
        candidate.takes fuel call arguments types = .ok (some rules) after →
          candidate.BoundBy rules := by
  have hprogram := program.within_all
  have hscope : scope.All (fun _ => True) := fun _ _ _ _ => trivial
  have houtcome := regime_all.bodies.holds_callOutcomeIn fuel hscope.shows (fun _ _ => trivial)
    (fun _ _ => trivial : ∀ type ∈ Expr.typesAll call.arguments, True)
  refine ⟨?_, houtcome.faults_of_answer hprogram, ?_, ?_, ?_, ?_, ?_⟩
  · exact (regime_all.bodies.holds_typeOf fuel hscope.shows fun _ _ => trivial).faults_of_answer hprogram
  · have hvoid : Guards (Program.Within (fun _ => True) (fun _ => True) fun _ => True)
        (fun _ => True) (·.isInternal = false)
        (do return (← callOutcomeIn fuel scope call).isVoid : ProgramQuery Bool) :=
      houtcome.bind fun _ _ => Guards.pure trivial
    exact hvoid.faults_of_answer hprogram
  · exact (regime_all.bodies.holds_normalize fuel hscope.shows fun _ _ => trivial).faults_of_answer hprogram
  · exact (regime_all.bodies.holds_checkFunction fuel fun _ _ => trivial).faults_of_answer hprogram
  · obtain ⟨faults, after, hrun, _, hfaults⟩ :=
      (checkProgram_guards regime_all fuel program hprogram).exists_ok fun _ _ h => h.2
    exact ⟨faults, after, hrun, hfaults⟩
  · intro candidate hcandidate
    refine ⟨Program.parameters_of_candidate hcandidate, ?_⟩
    exact fun _ _ _ _ htakes => boundBy_of_takes htakes

end Accord
