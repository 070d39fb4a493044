import Accord.Proofs.Body.Frame
import Accord.Proofs.Body.Guard
import Accord.Proofs.Types.History

/-!
# The checks of a program

Checking an instance may make further instances, so instances are checked in rounds.  Here the
checks are noted as they are made: `notedProgram` finds what `checkProgram` finds, and says of each
check what it was (`faults_notedProgram`).

A round checks what is remembered and was not checked before.  What it makes meanwhile is left to
the next, and nothing that is remembered is forgotten or hidden (`Program.Holds`).  So every
instance is checked once when the rounds end.
-/

namespace Accord

open Query

variable {program : Program}

/-! ## Checks -/

/-- A check that is made of a program. -/
inductive ProgramCheck where
  /-- The structure of a stored function. -/
  | ofStructure (function : FunctionDef)
  /-- The structure and the types of a stored function. -/
  | ofFunction (function : FunctionDef)
  /-- The types of an instance. -/
  | ofInstance (key : String) (function : FunctionDef)

/-- A check and the fault that it found, if any. -/
structure CheckNote where
  check : ProgramCheck
  fault : Option Diagnostic

namespace ProgramCheck

/-- Makes the check. -/
def run (fuel : Nat) : ProgramCheck → ProgramQuery Unit
  | ofStructure function => Query.ofExcept (checkStructure function)
  | ofFunction function => checkFunction fuel function
  | ofInstance _ function => checkTypes fuel function

/-- Makes the check and notes what it finds. -/
def noted (fuel : Nat) (check : ProgramCheck) : ProgramQuery CheckNote := do
  return { check, fault := ← faultOf (check.run fuel) }

/-- The check of a stored function. -/
def ofStored (function : FunctionDef) : ProgramCheck :=
  if function.isGeneric then ofStructure function else ofFunction function

/-- The check of a remembered instance. -/
def ofEntry (entry : String × FunctionDef) : ProgramCheck :=
  ofInstance entry.1 entry.2

theorem run_ofStored (fuel : Nat) (function : FunctionDef) :
    (ofStored function).run fuel = checkStored fuel function := by
  rw [ofStored, checkStored]
  split <;> rfl

end ProgramCheck

/-- The checks made, and whether the last round left nothing to check. -/
structure CheckLog where
  notes : List CheckNote := []
  complete : Bool := true

/-- The faults to report. -/
def CheckLog.faults (log : CheckLog) : List Diagnostic :=
  log.notes.filterMap (·.fault) ++ if log.complete then [] else [.limitReached]

/-- Makes checks in order, before those of the log that follows. -/
def notedBefore (fuel : Nat) (checks : List ProgramCheck) (rest : ProgramQuery CheckLog) :
    ProgramQuery CheckLog := do
  let found ← checks.mapM (·.noted fuel)
  let later ← rest
  return { later with notes := found ++ later.notes }

/-- Checks instances in rounds, and notes the checks. -/
def notedInstances (fuel : Nat) : Nat → List String → ProgramQuery CheckLog
  | 0, _ => return { complete := false }
  | rounds + 1, checked => do
    match (← get).pending checked with
    | [] => return {}
    | pending =>
      notedBefore fuel (pending.map ProgramCheck.ofEntry)
        (notedInstances fuel rounds (checked ++ pending.map (·.1)))

/-- Checks a program, and notes the checks. -/
def notedProgram (fuel : Nat) : ProgramQuery CheckLog := do
  notedBefore fuel ((← get).functions.functions.map ProgramCheck.ofStored) (notedInstances fuel fuel [])

/-! ## The faults found -/

theorem mapM_noted_fault (fuel : Nat) (checks : List ProgramCheck) :
    List.map (·.fault) <$> checks.mapM (·.noted fuel) =
      checks.mapM fun check => faultOf (check.run fuel) := by
  induction checks with
  | nil => rfl
  | cons check rest ih =>
    simp only [List.mapM_cons, ProgramCheck.noted, ← ih, map_bind, bind_assoc, pure_bind, bind_map_left,
      map_pure, List.map_cons]

theorem faults_notedBefore (fuel : Nat) (checks : List ProgramCheck) (rest : ProgramQuery CheckLog) :
    CheckLog.faults <$> notedBefore fuel checks rest = (do
      let faults ← checks.mapM fun check => faultOf (check.run fuel)
      let later ← CheckLog.faults <$> rest
      return faults.filterMap id ++ later) := by
  rw [← mapM_noted_fault]
  simp only [notedBefore, map_bind, bind_map_left, map_pure, CheckLog.faults, List.filterMap_append,
    List.filterMap_map, List.append_assoc, Function.id_comp]

theorem faults_notedInstances (fuel rounds : Nat) (checked : List String) :
    CheckLog.faults <$> notedInstances fuel rounds checked =
      checkInstances fuel rounds checked := by
  induction rounds generalizing checked with
  | zero => rfl
  | succ rounds ih =>
    rw [notedInstances, checkInstances, map_bind]
    refine bind_congr fun program => ?_
    cases program.pending checked with
    | nil => rfl
    | cons entry rest =>
      rw [faults_notedBefore, ih, List.mapM_map]
      rfl

/-- Noting the checks changes nothing about the faults found. -/
theorem faults_notedProgram (fuel : Nat) :
    CheckLog.faults <$> notedProgram fuel = checkProgram fuel := by
  rw [notedProgram, checkProgram, map_bind]
  refine bind_congr fun program => ?_
  rw [faults_notedBefore, faults_notedInstances, List.mapM_map]
  simp only [Function.comp_def, ProgramCheck.run_ofStored]

/-! ## What a check leaves behind -/

section Checks

variable {inv : Program → Prop} [Program.Enduring inv]

theorem ProgramCheck.run_keeps (fuel : Nat) : (check : ProgramCheck) → Keeps inv (check.run fuel)
  | ofStructure _ => Keeps.ofExcept _
  | ofFunction function => (Keeps.ofExcept _).bind fun _ => checkTypes_keeps fuel function
  | ofInstance _ function => checkTypes_keeps fuel function

theorem mapM_noted_guards (fuel : Nat) (checks : List ProgramCheck) :
    Guards inv (fun notes => notes.map (·.check) = checks) (fun _ => False)
      (checks.mapM (·.noted fuel)) := by
  induction checks with
  | nil => exact Guards.pure rfl
  | cons check rest ih =>
    rw [List.mapM_cons]
    have hkeeps : Keeps inv (check.run fuel) := check.run_keeps fuel
    have hnoted : Guards inv (·.check = check) (fun _ => False) (check.noted fuel) :=
      (faultOf_guards (.of_keeps hkeeps)).bind fun _ _ => Guards.pure rfl
    refine hnoted.bind fun note hnote => ih.bind fun notes hnotes => Guards.pure ?_
    rw [List.map_cons, hnote, hnotes]

/-- Checks come before what follows, and leave behind what survives them. -/
theorem notedBefore_ends {fuel : Nat} {checks : List ProgramCheck} {rest : ProgramQuery CheckLog}
    {post : CheckLog → Program → Prop} (hprogram : inv program)
    (hrest : ∀ mid, inv mid → Ends (fun later after => ∀ notes : List CheckNote,
        notes.map (·.check) = checks → post { later with notes := notes ++ later.notes } after)
      (fun _ _ => False) (rest mid)) :
    Ends post (fun _ _ => False) (notedBefore fuel checks rest program) := by
  refine ((mapM_noted_guards fuel checks program hprogram).mono (fun _ _ h => h)
    fun _ _ h => h.2).bind fun notes mid hmid => ?_
  refine (hrest mid hmid.1).bind fun later after hafter => ?_
  exact .ok (hafter notes hmid.2)

end Checks

/-! ## Rounds -/

/-- The program remembers the instances, and no two under one key. -/
structure Program.Holds (entries : List (String × FunctionDef)) (program : Program) : Prop where
  distinct : (program.memo.instances.map (·.1)).Nodup
  entries : entries ⊆ program.memo.instances

instance (entries : List (String × FunctionDef)) : Program.Enduring (Program.Holds entries) where
  types _ _ h _ := ⟨h.distinct, h.entries⟩
  instances _ _ _ h hfree :=
    ⟨List.nodup_cons.2 ⟨lookup_eq_none_iff_not_mem.1 hfree, h.distinct⟩,
      List.subset_cons_of_subset _ h.entries⟩
  calls _ _ _ h _ := ⟨h.distinct, h.entries⟩
  plans _ _ _ h _ := ⟨h.distinct, h.entries⟩

namespace Program

theorem mem_pending {checked : List String} {entry : String × FunctionDef} :
    entry ∈ program.pending checked ↔ entry ∈ program.memo.instances ∧ entry.1 ∉ checked := by
  rw [pending, List.mem_filter, instances, sortedByKey, List.mem_mergeSort]
  simp

theorem nodup_pending (h : (program.memo.instances.map (·.1)).Nodup) (checked : List String) :
    ((program.pending checked).map (·.1)).Nodup := by
  have hsorted : ((program.instances).map (·.1)).Nodup :=
    ((List.mergeSort_perm _ _).map _).nodup_iff.2 h
  exact hsorted.sublist (List.filter_sublist.map _)

/-- Instances that were all checked, each once, if none is left. -/
theorem Holds.perm {entries : List (String × FunctionDef)} (h : program.Holds entries)
    (hkeys : (entries.map (·.1)).Nodup) (hnone : program.pending (entries.map (·.1)) = []) :
    entries.Perm program.memo.instances := by
  refine (List.perm_ext_iff_of_nodup (.of_map _ hkeys) (.of_map _ h.distinct)).2 fun entry =>
    ⟨fun hentry => h.entries hentry, fun hentry => ?_⟩
  have hchecked : entry.1 ∈ entries.map (·.1) := by
    by_contra hnew
    exact List.ne_nil_of_mem (mem_pending.2 ⟨hentry, hnew⟩) hnone
  -- Under one key only one instance is remembered, so what was checked under it is the entry.
  obtain ⟨same, hsame, hkey⟩ := List.mem_map.1 hchecked
  rwa [← List.inj_on_of_nodup_map h.distinct (h.entries hsame) hentry hkey]

end Program

/-- The rounds check instances that are remembered, no two of one key and none that was checked
before.  If they are completed, none is left. -/
theorem notedInstances_ends (fuel rounds : Nat) {checked : List (String × FunctionDef)}
    (hprogram : program.Holds checked) (hchecked : (checked.map (·.1)).Nodup) :
    Ends (fun log after => ∃ later : List (String × FunctionDef),
        log.notes.map (·.check) = later.map ProgramCheck.ofEntry ∧
        after.Holds (checked ++ later) ∧ ((checked ++ later).map (·.1)).Nodup ∧
        (log.complete → (checked ++ later).Perm after.memo.instances))
      (fun _ _ => False) (notedInstances fuel rounds (checked.map (·.1)) program) := by
  induction rounds generalizing checked program with
  | zero => exact .ok ⟨[], rfl, by simpa using hprogram, by simpa using hchecked, nofun⟩
  | succ rounds ih =>
    rw [notedInstances, get_bind]
    cases hpending : program.pending (checked.map (·.1)) with
    | nil =>
      exact .ok ⟨[], rfl, by simpa using hprogram, by simpa using hchecked,
        fun _ => by simpa using hprogram.perm hchecked hpending⟩
    | cons entry others =>
      -- What waits is remembered and was not checked, so the invariant holds of it as well, and
      -- making the checks cannot break it.
      have hnew : ((checked ++ entry :: others).map (·.1)).Nodup := by
        rw [← hpending, List.map_append]
        refine List.nodup_append'.2 ⟨hchecked, Program.nodup_pending hprogram.distinct _, ?_⟩
        intro key hold hkey
        obtain ⟨waiting, hwaiting, rfl⟩ := List.mem_map.1 hkey
        exact (Program.mem_pending.1 hwaiting).2 hold
      have hholds : program.Holds (checked ++ entry :: others) := by
        refine ⟨hprogram.distinct, List.append_subset.2 ⟨hprogram.entries, ?_⟩⟩
        rw [← hpending]
        exact fun waiting hwaiting => (Program.mem_pending.1 hwaiting).1
      refine notedBefore_ends hholds fun mid hmid => ?_
      rw [← List.map_append]
      refine (ih hmid hnew).mono (fun later after hafter notes hnotes => ?_) fun _ _ h => h
      obtain ⟨rest, hrest, hlater⟩ := hafter
      rw [List.append_assoc] at hlater
      refine ⟨entry :: others ++ rest, ?_, hlater⟩
      rw [List.map_append, hnotes, hrest, List.map_append]

theorem notedProgram_ends (fuel : Nat) (hprogram : program.Holds []) :
    Ends (fun log after => ∃ instances : List (String × FunctionDef),
        log.notes.map (·.check) = program.functions.functions.map ProgramCheck.ofStored ++
          instances.map ProgramCheck.ofEntry ∧
        after.Holds instances ∧ (instances.map (·.1)).Nodup ∧
        (log.complete → instances.Perm after.memo.instances))
      (fun _ _ => False) (notedProgram fuel program) := by
  rw [notedProgram, get_bind]
  refine notedBefore_ends hprogram fun mid hmid => ?_
  refine (notedInstances_ends fuel fuel hmid List.nodup_nil).mono
    (fun later after hafter notes hnotes => ?_) fun _ _ h => h
  obtain ⟨instances, hinstances, hlater⟩ := hafter
  exact ⟨instances, by rw [List.map_append, hnotes, hinstances], hlater⟩

/-! ## The checks of a program -/

namespace CheckLog

variable {log : CheckLog}

theorem complete_of_not_limitReached (h : .limitReached ∉ log.faults) : log.complete := by
  by_contra hmore
  exact h (by simp [faults, hmore])

theorem faults_of_complete (h : log.complete) : log.faults = log.notes.filterMap (·.fault) := by
  rw [faults, if_pos h, List.append_nil]

end CheckLog

/-- A function that hands an integer on, a generic one that hands on what it gets, and one that
keeps it. -/
def handedOn : List FunctionDef :=
  let handing (name next : String) (argument : Expr) : FunctionDef :=
    { name, body := [.call { name := next, arguments := [argument], origin := "main.mer" }]
      origin := "main.mer" }
  let x : Parameter := { name := "x", type := .param "T" }
  [handing "main" "pass" (.intLit 1 {}),
    { handing "pass" "keep" (.ident "x" {}) with generics := ["T"], parameters := [x] },
    { name := "keep", generics := ["T"], parameters := [x], origin := "main.mer" }]

end Accord
