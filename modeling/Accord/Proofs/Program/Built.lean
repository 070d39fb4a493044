import Accord.Program.Build
import Accord.Proofs.Call.Replay

/-!
# What building a program establishes

A program that is built from a project with plain names is spelled (`spelled_of_build`).

A project is regular if its names are plain, sums have names, only records are generic, and
parameters stand in generic definitions only.  The table of types of a program that is built
from a regular project is one that look-ups lead to, and the types in its definitions have
names (`built_types`).
-/

namespace Accord

open Query TypeTable

variable {function : FunctionDef} {items : List TypeDef} {table grown : TypeTable}
  {type : TypeExpr} {project : Project} {fuel : Nat} {program : Program}

/-- Components have plain names and no sums, only records are generic, and parameters stand
in generic definitions only. -/
structure TypeDef.Regular (definition : TypeDef) : Prop where
  name : isPlainName definition.name = true
  components : ∀ component ∈ definition.body.components, component.Pattern
  generics : definition.isGeneric = true → definition.body.isRecord = true
  closed : definition.isGeneric = false →
    ∀ component ∈ definition.body.components, component.isGeneric = false

theorem TypeDef.Regular.plain {definition : TypeDef} (h : definition.Regular) :
    definition.plain := by
  simp only [TypeDef.plain, Bool.and_eq_true, List.all_eq_true]
  exact ⟨h.name, fun component hmem => (h.components component hmem).plain⟩

/-- The types of the parameters have plain names and no sums. -/
def FunctionDef.Regular (function : FunctionDef) : Prop :=
  ∀ type ∈ function.parameterTypes, type.Pattern

theorem FunctionDef.Regular.plain (h : function.Regular) : function.Plain :=
  fun type hmem => (h type hmem).plain

/-- Every file, definition and function is regular. -/
structure Project.Regular (project : Project) : Prop where
  files : ∀ file ∈ project.files, file.plain = true
  types : ∀ definition ∈ project.files.flatMap (·.types), definition.Regular
  functions : ∀ function ∈ project.files.flatMap (·.functions), function.Regular

/-! ## The table of types -/

/-- Storing definitions leads to a table that holds no others, and each under its key. -/
theorem stored_of_foldlM (h : items.foldlM store table = .ok grown) (htable : table.Reached) :
    grown.Reached ∧ grown.project = table.project ∧ grown.instances = table.instances ∧
      ∀ entry ∈ grown.stored, entry ∈ table.stored ∨ entry.2 ∈ items ∧
        ∃ package, entry.1 = typeKey package entry.2.name entry.2.generics.length := by
  induction items generalizing table with
  | nil =>
    cases h
    exact ⟨htable, rfl, rfl, fun _ => Or.inl⟩
  | cons definition rest ih =>
    obtain ⟨next, hstore, h⟩ := Except.bind_eq_ok.1 h
    obtain ⟨hreached, hproject, hinstances, hstored⟩ := ih h (.stored htable hstore)
    obtain ⟨package, _, rfl⟩ := store_eq_ok hstore
    refine ⟨hreached, hproject, hinstances, fun entry hentry => ?_⟩
    rcases hstored entry hentry with hold | ⟨hnew, hkey⟩
    · rcases List.mem_append.1 hold with holder | hadded
      · exact Or.inl holder
      · rw [List.mem_singleton.1 hadded]
        exact Or.inr ⟨List.mem_cons_self, package, rfl⟩
    · exact Or.inr ⟨List.mem_cons_of_mem _ hnew, hkey⟩

section Tables

variable (hregular : project.Regular)

include hregular

theorem regular_of_ofProject (h : ofProject project = .ok table) :
    table.Reached ∧ table.project = project ∧ ∀ entry ∈ table.stored, entry.2.Regular := by
  obtain ⟨hreached, hproject, _, hstored⟩ := stored_of_foldlM h (.empty project)
  refine ⟨hreached, hproject, fun entry hentry => ?_⟩
  rcases hstored entry hentry with hnone | ⟨hitem, _⟩
  · cases hnone
  · exact hregular.types _ hitem

theorem plain_of_ofProject (h : ofProject project = .ok table) : table.Stable := by
  obtain ⟨_, hproject, hstored⟩ := regular_of_ofProject hregular h
  exact ⟨⟨hproject ▸ hregular.files, fun entry hentry => (hstored entry hentry).plain⟩,
    fun entry hentry => (hstored entry hentry).generics⟩

end Tables

/-! ## The table of functions -/

section Functions

variable {inv : TypeTable → Prop} {nameable : TypeExpr → Prop}
  (hnames : ∀ {type : TypeExpr}, nameable type → Keeps inv (canonicalName type))

include hnames

theorem nameOrSpelling_yields (h : nameable type) :
    Yields inv (fun _ => True) (nameOrSpelling type) := by
  refine (hnames h).outcome.yields.bind fun found _ => ?_
  split
  · exact Yields.pure trivial
  · exact Yields.pure trivial
  · exact Yields.throw _

theorem signature_yields (h : ∀ type ∈ function.parameterTypes, nameable type) :
    Yields inv (fun _ => True) function.signature :=
  Yields.mapM fun type hmem => nameOrSpelling_yields hnames (h type hmem)

theorem checkDistinct_yields (function : FunctionDef) (signature : List String)
    {others : List FunctionDef}
    (h : ∀ other ∈ others, ∀ type ∈ other.parameterTypes, nameable type) :
    Yields inv (fun _ => True) (checkDistinct function signature others) := by
  induction others with
  | nil => exact Yields.pure trivial
  | cons other rest ih =>
    obtain ⟨hfirst, hrest⟩ := List.forall_mem_cons.1 h
    unfold checkDistinct
    exact (signature_yields hnames hfirst).bind fun _ _ => Yields.ite (Yields.throw _) (ih hrest)

/-- The functions of the table are good. -/
def OverloadTable.All (good : FunctionDef → Prop) (table : OverloadTable) : Prop :=
  ∀ function ∈ table.functions, good function

variable {good : FunctionDef → Prop}
  (hgood : ∀ {function : FunctionDef}, good function → ∀ type ∈ function.parameterTypes, nameable type)

include hgood

theorem OverloadTable.store_yields {table : OverloadTable} (htable : table.All good)
    (h : good function) : Yields inv (OverloadTable.All good) (table.store function) := by
  intro s grown t hs hrun
  unfold OverloadTable.store at hrun
  obtain ⟨state, _, hget, hrun⟩ := bind_eq_ok.1 hrun
  cases hget
  cases hpackage : s.project.packageOf? function.origin with
  | none =>
    rw [hpackage] at hrun
    exact absurd hrun throw_ne_ok
  | some package =>
    rw [hpackage] at hrun
    have hothers : ∀ key, ∀ other ∈ table.overloads key,
        ∀ type ∈ other.parameterTypes, nameable type := by
      intro key other hmem
      rw [OverloadTable.overloads_eq] at hmem
      obtain ⟨entry, hentry, rfl⟩ := List.mem_map.1 hmem
      exact hgood (htable _ (List.mem_map_of_mem (List.mem_filter.1 hentry).1))
    have hgrown : OverloadTable.All good (table.add { package, function }) := by
      intro other hmem
      obtain ⟨entry, hentry, rfl⟩ := List.mem_map.1 hmem
      rcases List.mem_append.1 hentry with hold | hnew
      · exact htable _ (List.mem_map_of_mem hold)
      · rw [List.mem_singleton.1 hnew]
        exact h
    refine Yields.bind (signature_yields hnames (hgood h)) (fun signature _ => ?_) s grown t hs hrun
    exact (checkDistinct_yields hnames function signature (hothers _)).bind
      fun _ _ => Yields.pure hgrown

theorem OverloadTable.ofProject_yields
    (h : ∀ function ∈ project.files.flatMap (·.functions), good function) :
    Yields inv (OverloadTable.All good) (OverloadTable.ofProject project) :=
  Yields.foldlM
    (fun _ hmem _ htable => OverloadTable.store_yields hnames hgood htable (h _ hmem))
    (by simp [OverloadTable.All, OverloadTable.functions])

end Functions

/-! ## Programs -/

/-- The steps in which a program is built. -/
theorem Program.build_eq_ok (h : Program.build fuel project = .ok program) :
    ∃ types walked functions, ofProject project = .ok types ∧
      checkContainment fuel types = .ok () walked ∧
      OverloadTable.ofProject walked.project walked = .ok functions program.types ∧
      program = { types := program.types, functions } := by
  unfold Program.build at h
  cases hpackages : project.checkPackages with
  | error cause => simp [hpackages, Bind.bind, Except.bind] at h
  | ok _ =>
    cases htypes : ofProject project with
    | error cause => simp [hpackages, htypes, Bind.bind, Except.bind] at h
    | ok types =>
      simp only [hpackages, htypes, Bind.bind, Except.bind] at h
      split at h
      · rename_i walked hwalk
        unfold Program.withFunctions at h
        split at h
        · rename_i functions last hfunctions
          cases h
          exact ⟨types, walked, functions, rfl, hwalk, hfunctions, rfl⟩
        · cases h
      · cases h

section Built

variable (hbuild : Program.build fuel project = .ok program) (hregular : project.Regular)

include hbuild hregular

theorem built_types :
    program.types.Variant program.types ∧ (∀ entry ∈ program.types.stored, entry.2.Regular) ∧
      (∀ entry ∈ program.types.stored, ∀ component ∈ entry.2.body.components,
        component.isGeneric = false → ∃ name, program.types.Names component name) ∧
      ∀ function ∈ program.functions.functions, function.Regular := by
  obtain ⟨types, walked, functions, htypes, hwalk, hfunctions, hprogram⟩ :=
    Program.build_eq_ok hbuild
  obtain ⟨hreached, hproject, hstored⟩ := regular_of_ofProject hregular htypes
  have hbase := hreached.variant (plain_of_ofProject hregular htypes)
  obtain ⟨hwalked, hnamed⟩ := named_of_checkContainment hbase.walkable hbase
    (fun _ hentry => hbase.plain.plainBody hentry) hwalk
  rw [hwalked.project, hproject] at hfunctions
  obtain ⟨hlast, hall⟩ := OverloadTable.ofProject_yields
    (fun hplain => keeps_of_steady (canonicalName_steady _ hplain)) FunctionDef.Regular.plain
    hregular.functions walked functions program.types hwalked hfunctions
  have hself := hlast.reached.variant hlast.plain
  have hback : program.types.Variant types := ⟨hlast.toOver.symm, hreached, hbase.plain⟩
  rw [hlast.stored]
  refine ⟨hself, hstored, fun entry hentry component hmem hclosed => ?_, ?_⟩
  · obtain ⟨name, after, hrun⟩ := hnamed entry hentry component hmem hclosed
    have hplain := ((hstored entry hentry).components component hmem).plain
    exact ⟨name, (Names.of_run hself hplain hback hrun).1⟩
  · rw [hprogram]
    exact hall

end Built

/-! ## Projects with plain names -/

/-- Every name that the project writes in a type is plain. -/
structure Project.Plain (project : Project) : Prop where
  files : ∀ file ∈ project.files, file.plain = true
  types : ∀ definition ∈ project.files.flatMap (·.types), definition.plain = true
  functions : ∀ function ∈ project.files.flatMap (·.functions),
    function.Plain ∧ function.PlainReturn

theorem spelled_of_foldlM {project : Project} (hfiles : ∀ file ∈ project.files, file.plain)
    (hitems : ∀ item ∈ items, item.plain) (h : items.foldlM store { project } = .ok grown) :
    grown.Spelled := by
  have htable : Spelled { project } := ⟨⟨hfiles, by simp, by simp, by simp⟩, by simp⟩
  generalize ({ project } : TypeTable) = table at htable h
  induction items generalizing table with
  | nil =>
    cases h
    exact htable
  | cons definition rest ih =>
    obtain ⟨hdefinition, hrest⟩ := List.forall_mem_cons.1 hitems
    obtain ⟨next, hstore, h⟩ := Except.bind_eq_ok.1 h
    refine ih hrest _ ⟨store_keyed hstore htable.toKeyed hdefinition, ?_⟩ h
    obtain ⟨package, _, rfl⟩ := store_eq_ok hstore
    exact htable.instanceBodies

theorem canonicalName_spelledOver {base : TypeTable} (hplain : type.plain) :
    Keeps base.SpelledOver (canonicalName type) :=
  (canonicalName_matches type (matches_self type hplain)).keeps

/-- Walks keep a table spelled. -/
theorem walkable_spelledOver (base : TypeTable) : Walkable base.SpelledOver fun _ => True where
  primitive _ := trivial
  param _ := trivial
  pointer _ := trivial
  slice _ := trivial
  array _ := trivial
  union _ _ := trivial
  canonicalName hplain := (canonicalName_spelledOver hplain).yields
  retrieve := by
    intro ref hplain s found t hs hrun
    obtain ⟨answer, last, hlocate, hrun⟩ := bind_eq_ok.1 hrun
    obtain ⟨rfl, rfl⟩ := pure_eq_ok.1 hrun
    have hmatches : base.Matches ref.toType ref.toType := matches_self ref.toType hplain
    have hrepeats := (locate_matches hmatches).ok hs hlocate
    obtain ⟨_, _, _, hbody⟩ := hrepeats.later hrepeats.good.spelled (.refl _)
    exact ⟨hrepeats.good, fun _ => trivial, hbody⟩

/-- A program that is built from a project with plain names is spelled, and remembers
nothing. -/
theorem spelled_of_build (hbuild : Program.build fuel project = .ok program)
    (hplain : project.Plain) : program.Spelled ∧ program.memo = {} := by
  obtain ⟨types, walked, functions, htypes, hwalk, hfunctions, hprogram⟩ :=
    Program.build_eq_ok hbuild
  have hspelled := spelled_of_foldlM hplain.files hplain.types htypes
  have hproject := (stored_of_foldlM htypes (.empty project)).2.1
  obtain ⟨hwalked, _⟩ := named_of_checkContainment (walkable_spelledOver types)
    ⟨.refl types, hspelled⟩ (fun entry hentry => hspelled.plainBody ⟨entry.1, Or.inl hentry⟩) hwalk
  rw [hwalked.project, hproject] at hfunctions
  obtain ⟨hlast, hall⟩ := OverloadTable.ofProject_yields canonicalName_spelledOver And.left
    hplain.functions walked functions program.types hwalked hfunctions
  rw [hprogram]
  exact ⟨⟨hlast.spelled, hall, by simp, by simp⟩, rfl⟩

end Accord
