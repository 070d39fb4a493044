import Accord.Program.Check
import Accord.Proofs.Body.Logic
import Accord.Proofs.Call.Guard

/-!
# Bodies within bounds

Checking a function that mentions ground types stays within bounds, and what it is refused for
is mild (`Regime.bodies`).  A program is checked function by function and instance by instance,
and nothing else than mild faults is found (`checkProgram_guards`).
-/

namespace Accord

open Query List Program

variable {inv : TypeTable → Prop} {mild : Diagnostic → Prop} {fair ground : TypeExpr → Prop}
  (h : Regime inv mild fair ground)

include h

/-- Questions about types and about programs stay within bounds. -/
def Regime.bodies : ProgramLogic where
  ground := ground
  mild := mild
  asks good query := Guards inv good mild query
  holds good query := Guards (Within inv fair ground) good mild query
  inherited := h.ofGround.toInherited
  literal := h.literal
  pointer := h.pointer
  array := h.array
  ordinary := h.ordinary
  askPure := .pure
  askThrow _ hcause := .throw (h.ordinary hcause)
  askBind := .bind
  pure := .pure
  throw := .throw
  bind := .bind
  lift := liftProgram_guards
  name := h.ofGround.canonicalName
  retrieve := retrieve_guards h.ofGround
  verify := verify_guards h.ofGround _
  unalias fuel := unalias_guards h.ofGround fuel
  dereference fuel := dereference_guards h.ofGround fuel
  assignable fuel _ _ hsource hdest :=
    assignable_guards h fuel .lenient hsource (h.fair_of_ground hdest)
  callOutcome fuel := callOutcome_guards h fuel

variable (fuel : Nat)

omit h in
/-- Faults are reported, and a mild fault is all that a check is refused for. -/
theorem faultOf_guards {kept : Program → Prop} {check : ProgramQuery Unit}
    (hcheck : Guards kept (fun _ => True) mild check) :
    Guards kept (fun fault => ∀ cause ∈ fault, mild cause) (fun _ => False) (faultOf check) := by
  refine hcheck.outcome.bind fun result hresult => ?_
  cases result with
  | ok => exact .pure nofun
  | error cause =>
    refine .pure ?_
    rintro _ ⟨⟩
    exact hresult.1 cause rfl

theorem checkStored_guards {function : FunctionDef} (hfunction : function.Admissible fair ground) :
    Guards (Within inv fair ground) (fun _ => True) mild (checkStored fuel function) := by
  unfold checkStored
  cases hgeneric : function.isGeneric with
  | true => exact h.bodies.holds_checkStructure function
  | false => exact h.bodies.holds_checkFunction fuel (hfunction.concrete hgeneric)

omit h in
theorem mild_of_filterMap {faults : List (Option Diagnostic)}
    (hfaults : ∀ fault ∈ faults, ∀ cause ∈ fault, mild cause) :
    ∀ cause ∈ faults.filterMap id, mild cause := by
  intro cause hcause
  obtain ⟨fault, hfault, hsome⟩ := mem_filterMap.1 hcause
  exact hfaults fault hfault cause hsome

omit h in
/-- An instance that is waiting to be checked is one that is remembered. -/
theorem Program.Within.pending {program : Program} (hprogram : program.Within inv fair ground)
    (checked : List String) : ∀ entry ∈ program.pending checked, entry.2.All ground := by
  intro entry hentry
  have hmem := (mem_filter.1 hentry).1
  exact hprogram.instances entry (mem_mergeSort.1 hmem)

theorem checkInstances_guards (rounds : Nat) (checked : List String) :
    Guards (Within inv fair ground) (fun faults => ∀ cause ∈ faults, mild cause)
      (fun _ => False) (checkInstances fuel rounds checked) := by
  induction rounds generalizing checked with
  | zero =>
    exact .pure (forall_mem_singleton.2 (h.ordinary trivial))
  | succ rounds ih =>
    unfold checkInstances
    refine Guards.get.bind fun program hprogram => ?_
    have hpending := hprogram.pending checked
    split
    · exact .pure nofun
    · rename_i pending _
      have heach : ∀ entry ∈ program.pending checked, Guards (Within inv fair ground)
          (fun fault => ∀ cause ∈ fault, mild cause) (fun _ => False)
          (faultOf (checkTypes fuel entry.2)) :=
        fun entry hentry => faultOf_guards (h.bodies.holds_checkTypes fuel (hpending entry hentry))
      refine (Guards.mapM heach).bind fun faults hfaults => ?_
      refine (ih _).bind fun later hlater => Guards.pure ?_
      exact forall_mem_append.2 ⟨mild_of_filterMap hfaults, hlater⟩

/-- Checking a program comes to an answer, and reports mild faults only. -/
theorem checkProgram_guards :
    Guards (Within inv fair ground) (fun faults => ∀ cause ∈ faults, mild cause)
      (fun _ => False) (checkProgram fuel) := by
  refine Guards.get.bind fun program hprogram => ?_
  refine (Guards.mapM fun function hmem =>
    faultOf_guards (checkStored_guards h fuel (hprogram.functions function hmem))).bind
      fun faults hfaults => ?_
  refine (checkInstances_guards h fuel fuel []).bind fun later hlater => .pure ?_
  exact forall_mem_append.2 ⟨mild_of_filterMap hfaults, hlater⟩

end Accord
