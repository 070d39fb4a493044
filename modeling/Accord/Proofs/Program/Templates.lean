import Accord.Proofs.Body.Guard
import Accord.Proofs.Types.History
import Accord.Proofs.Types.Templates

/-!
# Checking a program meets no type parameters

Generic functions are checked through their instances, and an instance has no parameters left.
So a program is checked on types without parameters only, and calls on types that are still
open do not come up: `checkProgram_meets_no_parameters`.  It is asked of the project that
parameters stand in the definitions that declare them, and that no primitive has the name of a
parameter (`Project.Scoped`).  Where one has, an instance that was made for the parameter is
found for the primitive.

The bounds are those of `Regime`: types may be compared if their parameters are some
definition's, and are ground if they have none.
-/

namespace Accord

open TypeTable TypeExpr

open Query

/-! ## Scoping -/

/-- The type parameters that the definitions and functions of a project declare. -/
def Project.parameters (project : Project) : List String :=
  (project.files.flatMap (·.types)).flatMap (·.generics) ++
    (project.files.flatMap (·.functions)).flatMap (·.generics)

/-- Names are plain, parameters stand in the definition or function that declares them, and no
primitive has the name of a parameter. -/
structure Project.Scoped (project : Project) : Prop where
  files : ∀ file ∈ project.files, file.plain = true
  parameters : ∀ name ∈ project.parameters, isPlainName name = true ∧ name ∉ literalTypes
  types : ∀ definition ∈ project.files.flatMap (·.types), isPlainName definition.name = true ∧
    ∀ type ∈ definition.body.components, type.Kept definition.generics project.parameters
  functions : ∀ function ∈ project.files.flatMap (·.functions),
    function.All (Kept function.generics project.parameters)

/-- Types with parameters may be compared, and types without may be bound to parameters. -/
theorem regime_kept {parameters : List String}
    (hparameters : ∀ name ∈ parameters, isPlainName name ∧ name ∉ literalTypes) :
    Regime (Kept parameters) Diagnostic.Ordinary
      (Kept parameters parameters) (Kept [] parameters) where
  ofFair := enclosed_kept fun name hname => (hparameters name hname).1
  ofGround := enclosed_closed fun name hname => (hparameters name hname).1
  fair_of_ground h := h.mono (by simp)
  param h := by cases h.isGeneric
  literal := by
    intro name hname
    refine ⟨?_, ?_⟩
    · revert name
      decide
    · have hfree : name ∉ parameters := fun hmem => (hparameters name hmem).2 hname
      simpa [keepsTo] using hfree
  pointer h := ⟨h.plain, h.keeps⟩
  array h := ⟨h.plain, h.keeps⟩
  union h := ⟨plainAll_iff.2 fun type hmem => (h type hmem).plain,
    allKeepTo_iff.2 fun type hmem => (h type hmem).keeps⟩
  unresolved h hgeneric := by
    rw [h.isGeneric] at hgeneric
    cases hgeneric

/-- Instances of a function have no parameters once each of its own is replaced. -/
theorem FunctionDef.admissible_kept {parameters : List String} {function : FunctionDef}
    (hgenerics : function.generics ⊆ parameters)
    (h : function.All (Kept function.generics parameters)) :
    function.Admissible (Kept parameters parameters) (Kept [] parameters) where
  parameters rules hrules type hmem :=
    (h.parameters type hmem).substitute (fun name hname => .inr (hgenerics hname))
      fun entry hentry => (hrules entry hentry).mono (by simp)
  concrete hgeneric type hmem := by
    have hnone : function.generics = [] := by simpa [FunctionDef.isGeneric] using hgeneric
    simpa [hnone] using h type hmem
  made hrules hbound name type hmem := by
    rw [FunctionDef.types_instantiate] at hmem
    obtain ⟨template, htemplate, rfl⟩ := List.mem_map.1 hmem
    exact (h template htemplate).substitute (fun name hname => .inl (hbound name hname)) hrules

/-! ## Building -/

section Built

variable {project : Project} (hproject : project.Scoped)

include hproject

theorem kept_of_ofProject {table : TypeTable} (h : ofProject project = .ok table) :
    table.Kept project.parameters := by
  have hplain : ∀ definition ∈ project.files.flatMap (·.types), definition.plain := by
    intro definition hmem
    have hdefinition := hproject.types definition hmem
    simp only [TypeDef.plain, Bool.and_eq_true, List.all_eq_true]
    exact ⟨hdefinition.1, fun component hcomponent => (hdefinition.2 component hcomponent).plain⟩
  obtain ⟨_, _, hinstances, hstored⟩ := stored_of_foldlM h (.empty project)
  have hitem : ∀ entry ∈ table.stored, entry.2 ∈ project.files.flatMap (·.types) := by
    intro entry hentry
    rcases hstored entry hentry with hnone | ⟨hitem, _⟩
    · cases hnone
    · exact hitem
  exact
    { toSpelled := spelled_of_foldlM hproject.files hplain h
      generics := fun entry hentry name hname =>
        List.mem_append_left _ (List.mem_flatMap.2 ⟨_, hitem entry hentry, hname⟩)
      stored := fun entry hentry => (hproject.types _ (hitem entry hentry)).2
      instanceOpen := by simp [hinstances]
      instanceClosed := by simp [hinstances] }

theorem within_of_build {fuel : Nat} {program : Program}
    (hbuild : Program.build fuel project = .ok program) :
    program.Within (Kept project.parameters)
      (Kept project.parameters project.parameters)
      (Kept [] project.parameters) := by
  obtain ⟨types, walked, functions, htypes, hwalk, hfunctions, hprogram⟩ :=
    Program.build_eq_ok hbuild
  have hregime := regime_kept hproject.parameters
  have hkept := kept_of_ofProject hproject htypes
  have hwalked : walked.Kept project.parameters := by
    have hwalks := checkContainment_guards hregime.ofFair fuel
      (fun table htable entry hentry type hmem =>
        (htable.stored entry hentry type hmem).mono (htable.generics entry hentry)) types hkept
    exact (hwalks.of_run hwalk).1
  have hsame : walked.project = project := by
    have hover := checkContainment_keeps fuel types (Over.refl types)
    rw [after_of_ok hwalk] at hover
    rw [hover.project, (stored_of_foldlM htypes (.empty project)).2.1]
  rw [hsame] at hfunctions
  -- A function that is entered is admissible, and its parameters have types with names.
  have hadmissible : ∀ function ∈ project.files.flatMap (·.functions), function.Admissible
      (Kept project.parameters project.parameters)
      (Kept [] project.parameters) := fun function hmem =>
    FunctionDef.admissible_kept
      (fun name hname => List.mem_append_right _ (List.mem_flatMap.2 ⟨function, hmem, hname⟩))
      (hproject.functions function hmem)
  obtain ⟨hlast, hall⟩ := OverloadTable.ofProject_yields
    (fun htype => (hregime.ofFair.canonicalName htype).keeps) FunctionDef.Admissible.fair
    hadmissible walked functions program.types hwalked hfunctions
  rw [hprogram]
  exact ⟨hlast, hall, by simp, by simp, by simp⟩

end Built

/-- If parameters stand only in the definitions that declare them and no primitive has the name
of one, then checking the program that is built finds no call on types with parameters, and
the instances it makes mention no type with parameters. -/
theorem checkProgram_meets_no_parameters {fuel : Nat} {project : Project} {program : Program}
    (hproject : project.Scoped) (hbuild : Program.build fuel project = .ok program)
    (checkFuel : Nat) :
    ∃ faults after, checkProgram checkFuel program = .ok faults after ∧
      (∀ call span, Diagnostic.unresolvedGeneric call span ∉ faults) ∧
      ∀ entry ∈ after.memo.instances, ∀ type ∈ entry.2.types, type.isGeneric = false := by
  obtain ⟨faults, after, hrun, hafter, hfaults⟩ := (checkProgram_guards
    (regime_kept hproject.parameters) checkFuel program
    (within_of_build hproject hbuild)).exists_ok fun _ _ h => h.2
  refine ⟨faults, after, hrun, fun call span hmem => hfaults _ hmem, ?_⟩
  exact fun entry hentry type hmem => (hafter.instances entry hentry type hmem).isGeneric

/-- A generic function that hands a box on, with its type in the body. -/
def keepBox : FunctionDef :=
  { name := "keep"
    generics := ["T"]
    parameters := [{ name := "box", type := .named "Box" none [.param "T"] "main.mer" }]
    returnType := some (.named "Box" none [.param "T"] "main.mer")
    body := [.declareConst "kept" (.named "Box" none [.param "T"] "main.mer") (.ident "box" {}) {},
      .ret (some (.ident "kept" {})) {}]
    origin := "main.mer" }

/-- A procedure that hands a box of integers to it. -/
def keepIntegers : FunctionDef :=
  { name := "main"
    body := [.declareVar "box" (.named "Box" none [.int] "main.mer") none {},
      .call { name := "keep", arguments := [.ident "box" {}], origin := "main.mer" }]
    origin := "main.mer" }

/-- A generic record, and the two functions. -/
def boxes : Project :=
  { files := [{
      name := "main.mer"
      package := "app"
      types := [boxDef]
      functions := [keepBox, keepIntegers] }] }

/-- Checking the project makes an instance of the generic function, and neither its parameters
nor its body mention the type parameter. -/
theorem boxes_meet_no_parameters :
    boxes.Scoped ∧ ∃ program after, Program.build 8 boxes = .ok program ∧
      checkProgram 8 program = .ok [] after ∧
      after.memo.instances.map (·.1) = ["main.mer::keep<Int>"] ∧
      ∀ entry ∈ after.memo.instances, ∀ type ∈ entry.2.types, type.isGeneric = false := by
  have hscoped : boxes.Scoped := ⟨by decide, by decide, by decide, by decide⟩
  have hruns : (match Program.build 8 boxes with
      | .error _ => false
      | .ok program => match checkProgram 8 program with
        | .error _ _ => false
        | .ok faults after => faults.isEmpty &&
          after.memo.instances.map (·.1) == ["main.mer::keep<Int>"]) = true := by
    decide +kernel
  cases hbuild : Program.build 8 boxes with
  | error cause => simp [hbuild] at hruns
  | ok program =>
    obtain ⟨faults, after, hcheck, _, hinstances⟩ :=
      checkProgram_meets_no_parameters hscoped hbuild 8
    simp only [hbuild, hcheck, Bool.and_eq_true, List.isEmpty_iff, beq_iff_eq] at hruns
    obtain ⟨rfl, hkeys⟩ := hruns
    exact ⟨hscoped, program, after, rfl, hcheck, hkeys, hinstances⟩

end Accord
