import Accord.Proofs.Types.Entries
import Mathlib.Data.Set.Card

/-!
# The history of a table of types

Definitions are stored and questions are asked in any order.  Stored definitions and the
instances that questions enter share one space of keys, and with plain names neither gets in
the way of the other.

* `TableStep` is a step in the life of a table, and `Project.tableAfter` the table that steps
  lead to.
* `Project.Stores` says that a step stored a definition, and `Project.Instantiates` where an
  instance comes from: its key spells the names that its type arguments had when it was
  entered.
* `recorded_of_plain` is the invariant: a table holds what its history stored and entered,
  and nothing else.
-/

namespace Accord

open Query TypeTable

variable {α : Type} {entries : List (String × α)} {package key : String}
  {grown table base other : TypeTable} {found definition : TypeDef} {cause : Diagnostic}
  {earlier : List TableStep} {step : TableStep}

/-! ## Keys -/

/-- Every key stands for one thing. -/
def TypeTable.Distinct (table : TypeTable) : Prop :=
  (table.storedKeys ++ table.instances.map (·.1)).Nodup

section Keys

theorem lookup_eq_none_iff_not_mem : entries.lookup key = none ↔ key ∉ entries.map (·.1) := by
  rw [List.lookup_eq_none_iff, List.mem_map]
  simp only [bne_iff_ne, not_exists, not_and]
  exact ⟨fun h entry hentry heq => h entry hentry heq.symm,
    fun h entry hentry heq => h entry hentry heq.symm⟩

theorem lookup_of_mem {value : α} (hkeys : (entries.map (·.1)).Nodup)
    (hmem : (key, value) ∈ entries) : entries.lookup key = some value := by
  obtain ⟨before, later, rfl⟩ := List.append_of_mem hmem
  refine List.lookup_eq_some_iff.2 ⟨before, later, rfl, fun entry hentry => ?_⟩
  rw [List.map_append, List.map_cons] at hkeys
  have hfresh := (List.nodup_middle.1 hkeys).notMem
  refine bne_iff_ne.2 fun heq => hfresh ?_
  exact List.mem_append_left _ (List.mem_map.2 ⟨entry, hentry, heq.symm⟩)

theorem TypeTable.find?_eq_none_iff :
    table.find? key = none ↔ key ∉ table.storedKeys ++ table.instances.map (·.1) := by
  rw [find?, Option.or_eq_none_iff, lookup_eq_none_iff_not_mem, lookup_eq_none_iff_not_mem,
    List.mem_append, not_or]
  rfl

theorem TypeTable.Distinct.find?_of_stored (h : table.Distinct)
    (hmem : (key, definition) ∈ table.stored) : table.find? key = some definition := by
  rw [find?, lookup_of_mem h.of_append_left hmem, Option.some_or]

/-- The other keys are those of the instances. -/
theorem TypeTable.Distinct.find?_of_not_stored (h : table.Distinct) :
    table.find? key = some definition ∧ key ∉ table.storedKeys ↔
      (key, definition) ∈ table.instances := by
  constructor
  · rintro ⟨hfind, hkey⟩
    rw [find?, lookup_eq_none_iff_not_mem.2 hkey, Option.none_or] at hfind
    exact mem_of_lookup hfind
  · intro hmem
    have hother : key ∉ table.storedKeys := fun hkey =>
      List.disjoint_of_nodup_append h hkey (List.mem_map.2 ⟨_, hmem, rfl⟩)
    refine ⟨?_, hother⟩
    rw [find?, lookup_eq_none_iff_not_mem.2 hother, lookup_of_mem h.of_append_right hmem,
      Option.none_or]

/-- There are as many other keys as there are instances. -/
theorem TypeTable.Distinct.ncard_others (h : table.Distinct) :
    {key | (table.find? key).isSome ∧ key ∉ table.storedKeys}.ncard = table.instances.length := by
  have hset : {key | (table.find? key).isSome ∧ key ∉ table.storedKeys} =
      ((table.instances.map (·.1)).toFinset : Set String) := by
    ext key
    simp only [Set.mem_ofPred_eq, List.coe_toFinset, List.mem_map]
    constructor
    · rintro ⟨hsome, hkey⟩
      obtain ⟨made, hfind⟩ := Option.isSome_iff_exists.1 hsome
      exact ⟨(key, made), h.find?_of_not_stored.1 ⟨hfind, hkey⟩, rfl⟩
    · rintro ⟨entry, hentry, rfl⟩
      obtain ⟨hfind, hkey⟩ := h.find?_of_not_stored.2 hentry
      exact ⟨hfind ▸ rfl, hkey⟩
  rw [hset, Set.ncard_coe_finset, List.toFinset_card_of_nodup h.of_append_right, List.length_map]

instance : Lasting Distinct := by
  refine .of_withInstance fun table key made h hfree => ?_
  exact List.nodup_middle.2 (List.nodup_cons.2 ⟨find?_eq_none_iff.1 hfree, h⟩)

/-! ## Storing -/

theorem TypeTable.store_eq (h : table.project.packageOf? definition.origin = some package) :
    table.store definition =
      match table.find? (typeKey package definition.name definition.generics.length) with
      | some _ => .error (.duplicateType definition.name definition.origin)
      | none => .ok { table with stored := table.stored ++
          [(typeKey package definition.name definition.generics.length, definition)] } := by
  cases hfind : table.find? (typeKey package definition.name definition.generics.length) with
  | none | some _ => simp only [store, h, hfind]

/-- A definition is a duplicate if its key is taken. -/
theorem TypeTable.store_eq_duplicate_iff :
    table.store definition = .error (.duplicateType definition.name definition.origin) ↔
      ∃ package, table.project.packageOf? definition.origin = some package ∧
        (table.find? (typeKey package definition.name definition.generics.length)).isSome := by
  cases hpackage : table.project.packageOf? definition.origin with
  | none =>
    unfold store
    simp only [hpackage]
    simp
  | some package =>
    rw [store_eq hpackage]
    cases hfind : table.find? (typeKey package definition.name definition.generics.length) with
    | none => simp [hfind]
    | some found => simp [hfind]

theorem TypeTable.free_of_store
    (hpackage : table.project.packageOf? definition.origin = some package)
    (h : table.store definition = .ok grown) :
    table.find? (typeKey package definition.name definition.generics.length) = none := by
  rw [store_eq hpackage] at h
  split at h
  · cases h
  · assumption

theorem TypeTable.Distinct.store (h : table.Distinct)
    (hstore : table.store definition = .ok grown) : grown.Distinct := by
  obtain ⟨package, hpackage, rfl⟩ := store_eq_ok hstore
  have hfree := find?_eq_none_iff.1 (free_of_store hpackage hstore)
  rw [Distinct, storedKeys, List.map_append, List.append_assoc]
  exact List.nodup_middle.2 (List.nodup_cons.2 ⟨hfree, h⟩)

theorem TypeTable.find?_of_store (hstore : table.store definition = .ok grown)
    (hfind : table.find? key = some found) : grown.find? key = some found := by
  obtain ⟨package, hpackage, rfl⟩ := store_eq_ok hstore
  have hfree := free_of_store hpackage hstore
  rw [find?, Option.or_eq_some_iff] at hfind ⊢
  rw [List.lookup_append]
  rcases hfind with hstored | ⟨hstored, hinstance⟩
  · exact .inl (by rw [hstored, Option.some_or])
  · -- The new key is not this one, which was taken.
    have hne : key ≠ typeKey package definition.name definition.generics.length := by
      rintro rfl
      rw [find?, hstored, hinstance] at hfree
      cases hfree
    refine .inr ⟨?_, hinstance⟩
    rw [hstored, Option.none_or, List.lookup_cons, beq_false_of_ne hne]
    rfl

end Keys

/-! ## Steps -/

/-- A step in the life of a table. -/
inductive TableStep where
  | store (definition : TypeDef)
  | ask (question : TypeQuestion)

namespace TableStep

/-- Whether every name in a step is plain. -/
def plain : TableStep → Bool
  | .store definition => definition.plain
  | .ask question => question.subject.plain

/-- The table after a step.  A definition that is refused leaves it as it is. -/
def take (table : TypeTable) : TableStep → TypeTable
  | .store definition =>
    match table.store definition with
    | .ok grown => grown
    | .error _ => table
  | .ask question => question.ask table

theorem take_of_ok (h : table.store definition = .ok grown) :
    (store definition).take table = grown := by
  simp only [take, h]

theorem take_of_error (h : table.store definition = .error cause) :
    (store definition).take table = table := by
  simp only [take, h]

/-- No step puts another thing in the place of what stands under a key. -/
theorem find?_take (step : TableStep) (h : table.find? key = some found) :
    (step.take table).find? key = some found := by
  cases step with
  | store definition =>
    cases hstore : table.store definition with
    | ok grown =>
      rw [take_of_ok hstore]
      exact find?_of_store hstore h
    | error cause =>
      rw [take_of_error hstore]
      exact h
  | ask question =>
    have hbefore : table.Before (question.ask table) := question.ask_keeps (.refl table)
    exact hbefore.find? h

end TableStep

namespace Project

variable {project : Project} {steps : List TableStep}

/-- The table of a project after steps, from one with nothing stored. -/
def tableAfter (project : Project) (steps : List TableStep) : TypeTable :=
  steps.foldl TableStep.take { project }

theorem tableAfter_concat (steps : List TableStep) (step : TableStep) :
    project.tableAfter (steps ++ [step]) = step.take (project.tableAfter steps) := by
  rw [tableAfter, List.foldl_append]
  rfl

/-- What stands under a key stands there at any later time. -/
theorem find?_tableAfter (hearlier : earlier <+: steps)
    (h : (project.tableAfter earlier).find? key = some found) :
    (project.tableAfter steps).find? key = some found := by
  obtain ⟨later, rfl⟩ := hearlier
  induction later using List.reverseRecOn with
  | nil => rwa [List.append_nil]
  | append_singleton later step ih =>
    rw [← List.append_assoc, tableAfter_concat]
    exact step.find?_take ih

/-- One of the steps stored the definition, for the package. -/
def Stores (project : Project) (steps : List TableStep) (package : String)
    (definition : TypeDef) : Prop :=
  project.packageOf? definition.origin = some package ∧
    ∃ earlier, earlier ++ [.store definition] <+: steps ∧
      ∃ grown, (project.tableAfter earlier).store definition = .ok grown

theorem Stores.mono (h : project.Stores earlier package definition) (hearlier : earlier <+: steps) :
    project.Stores steps package definition := by
  obtain ⟨hpackage, before, hbefore, hstore⟩ := h
  exact ⟨hpackage, before, hbefore.trans hearlier, hstore⟩

theorem stores_concat :
    project.Stores (steps ++ [step]) package definition ↔
      project.Stores steps package definition ∨
        project.packageOf? definition.origin = some package ∧ step = .store definition ∧
          ∃ grown, (project.tableAfter steps).store definition = .ok grown := by
  constructor
  · rintro ⟨hpackage, earlier, hearlier, hstore⟩
    rcases List.prefix_concat_iff.1 hearlier with hlast | hbefore
    · obtain ⟨rfl, hstep⟩ := List.append_inj_left' hlast rfl, List.append_inj_right' hlast rfl
      cases hstep
      exact .inr ⟨hpackage, rfl, hstore⟩
    · exact .inl ⟨hpackage, earlier, hbefore, hstore⟩
  · rintro (hbefore | ⟨hpackage, rfl, hstore⟩)
    · exact hbefore.mono (List.prefix_append _ _)
    · exact ⟨hpackage, steps, List.prefix_rfl, hstore⟩

/-! ## The invariant -/

/-- A table holds what its history stored and entered, and nothing else. -/
structure Recorded (project : Project) (steps : List TableStep) : Prop where
  owner : (project.tableAfter steps).project = project
  spelled : (project.tableAfter steps).Spelled
  distinct : (project.tableAfter steps).Distinct
  stored : ∀ entry, entry ∈ (project.tableAfter steps).stored ↔
    ∃ package, project.Stores steps package entry.2 ∧
      entry.1 = typeKey package entry.2.name entry.2.generics.length
  entered : ∀ entry ∈ (project.tableAfter steps).instances, ∃ earlier, earlier <+: steps ∧
    (project.tableAfter earlier).Entry (fun type => type.plain = true) entry

theorem recorded_nil (hfiles : ∀ file ∈ project.files, file.plain) :
    project.Recorded [] where
  owner := rfl
  spelled := ⟨⟨hfiles, by simp [tableAfter], by simp [tableAfter], by simp [tableAfter]⟩,
    by simp [tableAfter]⟩
  distinct := List.nodup_nil
  stored entry := by
    refine ⟨fun hmem => absurd hmem List.not_mem_nil, ?_⟩
    rintro ⟨package, ⟨_, earlier, hearlier, _⟩, _⟩
    simp at hearlier
  entered entry hmem := absurd hmem List.not_mem_nil

section

variable (h : project.Recorded steps)

include h

theorem Recorded.entered_mono (step : TableStep) :
    ∀ entry ∈ (project.tableAfter steps).instances, ∃ earlier, earlier <+: steps ++ [step] ∧
      (project.tableAfter earlier).Entry (fun type => type.plain) entry := by
  intro entry hentry
  obtain ⟨earlier, hearlier, hmade⟩ := h.entered entry hentry
  exact ⟨earlier, hearlier.trans (List.prefix_append _ _), hmade⟩

/-- A step that stores nothing leaves the record of what was stored as it is. -/
theorem Recorded.stored_of_eq
    (hstored : (step.take (project.tableAfter steps)).stored = (project.tableAfter steps).stored)
      (hstep : ∀ definition grown, step = .store definition → (project.tableAfter steps).store
      definition ≠ .ok grown) (entry : String × TypeDef) :
    entry ∈ (step.take (project.tableAfter steps)).stored ↔
      ∃ package, project.Stores (steps ++ [step]) package entry.2 ∧
        entry.1 = typeKey package entry.2.name entry.2.generics.length := by
  rw [hstored, h.stored]
  refine exists_congr fun package => and_congr_left fun _ => ?_
  rw [stores_concat, or_iff_left]
  rintro ⟨_, hlast, grown, hstore⟩
  exact hstep _ grown hlast hstore

theorem Recorded.ask {question : TypeQuestion}
    (hplain : question.subject.plain) : project.Recorded (steps ++ [.ask question]) := by
  have hgrown := question.ask_grows h.spelled.confines hplain (h.spelled.grownBy _)
  have hdistinct := question.ask_keeps h.distinct
  refine ⟨?_, ?_, ?_, ?_, ?_⟩ <;> rw [tableAfter_concat]
  · exact hgrown.project.trans h.owner
  · exact hgrown.spelled
  · exact hdistinct
  · exact h.stored_of_eq hgrown.stored (by simp)
  · intro entry hentry
    rcases hgrown.entries entry hentry with hold | hnew
    · exact h.entered_mono _ entry hold
    · exact ⟨steps, List.prefix_append _ _, hnew⟩

theorem Recorded.refused (hstore : (project.tableAfter steps).store definition = .error cause) :
    project.Recorded (steps ++ [.store definition]) := by
  have hsame := TableStep.take_of_error hstore
  have hrefused : ∀ other grown, TableStep.store definition = .store other →
      (project.tableAfter steps).store other ≠ .ok grown := by
    rintro _ grown ⟨⟩ hok
    rw [hstore] at hok
    cases hok
  have hstored := h.stored_of_eq (by rw [hsame]) hrefused
  rw [hsame] at hstored
  refine ⟨?_, ?_, ?_, ?_, ?_⟩ <;> rw [tableAfter_concat, hsame]
  · exact h.owner
  · exact h.spelled
  · exact h.distinct
  · exact hstored
  · exact h.entered_mono _

theorem Recorded.store (hplain : definition.plain)
    (hstore : (project.tableAfter steps).store definition = .ok grown) :
    project.Recorded (steps ++ [.store definition]) := by
  have htable : project.tableAfter (steps ++ [.store definition]) = grown := by
    rw [tableAfter_concat, TableStep.take_of_ok hstore]
  have hkeyed := store_keyed hstore h.spelled.toKeyed hplain
  have hdistinct := h.distinct.store hstore
  obtain ⟨package, hpackage, rfl⟩ := store_eq_ok hstore
  rw [h.owner] at hpackage
  refine ⟨?_, ?_, ?_, ?_, ?_⟩ <;> rw [htable]
  · exact h.owner
  · exact ⟨hkeyed, h.spelled.instanceBodies⟩
  · exact hdistinct
  · intro entry
    rw [List.mem_append, List.mem_singleton, h.stored]
    constructor
    · rintro (⟨home, hold, hkey⟩ | rfl)
      · exact ⟨home, hold.mono (List.prefix_append _ _), hkey⟩
      · exact ⟨package, stores_concat.2 (.inr ⟨hpackage, rfl, _, hstore⟩), rfl⟩
    · rintro ⟨home, hstores, hkey⟩
      rcases stores_concat.1 hstores with hold | ⟨hhome, hlast, _⟩
      · exact .inl ⟨home, hold, hkey⟩
      · cases hlast
        rw [hpackage] at hhome
        cases hhome
        exact .inr (Prod.ext hkey rfl)
  · exact h.entered_mono _

end

theorem recorded_of_plain (hfiles : ∀ file ∈ project.files, file.plain)
    (hsteps : ∀ step ∈ steps, step.plain) : project.Recorded steps := by
  induction steps using List.reverseRecOn with
  | nil => exact recorded_nil hfiles
  | append_singleton steps step ih =>
    obtain ⟨hbefore, hstep⟩ := List.forall_mem_append.1 hsteps
    have hrecorded := ih hbefore
    have hplain := hstep step (List.mem_singleton_self step)
    cases step with
    | ask question => exact hrecorded.ask hplain
    | store definition =>
      cases hstore : (project.tableAfter steps).store definition with
      | error cause => exact hrecorded.refused hstore
      | ok grown => exact hrecorded.store hplain hstore

end Project

/-! ## Names that last -/

namespace TypeExpr

mutual

/-- The references inside a type. -/
def refs : TypeExpr → List TypeRef
  | .primitive _ => []
  | .param _ => []
  | .pointer target => target.refs
  | .array _ element => element.refs
  | .slice element => element.refs
  | .union alternatives => refsAll alternatives
  | .named name qualifier arguments origin =>
    ⟨name, qualifier, arguments, origin⟩ :: refsAll arguments

/-- The references inside several types. -/
def refsAll : List TypeExpr → List TypeRef
  | [] => []
  | type :: rest => type.refs ++ refsAll rest

end

theorem refsAll_eq (types : List TypeExpr) : refsAll types = types.flatMap refs := by
  induction types with
  | nil => rfl
  | cons type rest ih => rw [refsAll, ih, List.flatMap_cons]

theorem forall_mem_refsAll {types : List TypeExpr} {fine : TypeRef → Prop} :
    (∀ ref ∈ refsAll types, fine ref) ↔ ∀ type ∈ types, ∀ ref ∈ type.refs, fine ref := by
  rw [refsAll_eq, List.forall_mem_flatMap]

end TypeExpr

mutual

/-- The canonical name of a type depends only on the packages that its references are
declared in. -/
theorem spelling?_congr : (type : TypeExpr) →
    (∀ ref ∈ type.refs, other.home? ref = base.home? ref) →
      other.spelling? type = base.spelling? type
  | .primitive _, _ => rfl
  | .param _, _ => rfl
  | .pointer part, h | .slice part, h | .array _ part, h => by
    rw [spelling?, spelling?, spelling?_congr part h]
  | .union alternatives, h => by
    rw [spelling?, spelling?, spellings?_congr alternatives h]
  | .named name qualifier arguments origin, h => by
    obtain ⟨href, harguments⟩ := List.forall_mem_cons.1 h
    rw [spelling?, spelling?, spellings?_congr arguments harguments, href]

theorem spellings?_congr : (types : List TypeExpr) →
    (∀ ref ∈ TypeExpr.refsAll types, other.home? ref = base.home? ref) →
      other.spellings? types = base.spellings? types
  | [], _ => rfl
  | type :: rest, h => by
    obtain ⟨htype, hrest⟩ := List.forall_mem_append.1 h
    rw [spellings?, spellings?, spelling?_congr type htype, spellings?_congr rest hrest]

end

/-! ## What a table holds -/

namespace Project

variable {project : Project} {steps : List TableStep}

/-- What stands under the key is an instance of a definition that was stored.  The canonical
names that its type arguments had when it was entered spell the key, and they still have them
if the references inside are still declared in the same packages. -/
def Instantiates (project : Project) (steps : List TableStep) (key : String)
    (made : TypeDef) : Prop :=
  ∃ package generic arguments names earlier,
    project.Stores steps package generic ∧ arguments ≠ [] ∧
    generic.generics.length = arguments.length ∧
    made = generic.instantiate (.ofLists generic.generics arguments) ∧
    key = package ++ "::" ++ generic.name ++ argumentSuffix names ∧
    earlier <+: steps ∧
    (canonicalNames arguments).answer (project.tableAfter earlier) = .ok names ∧
    ((∀ ref ∈ TypeExpr.refsAll arguments,
        (project.tableAfter steps).home? ref = (project.tableAfter earlier).home? ref) →
      (canonicalNames arguments).answer (project.tableAfter steps) = .ok names)

theorem plain_of_packageOf? (hfiles : ∀ file ∈ project.files, file.plain) {file : String}
    (h : project.packageOf? file = some package) : isPlainName package := by
  obtain ⟨found, hfound, rfl⟩ := Option.map_eq_some_iff.1 h
  have hplain := hfiles found (Project.mem_of_file? hfound)
  rw [SourceFile.plain, Bool.and_eq_true] at hplain
  exact hplain.1

section Plain

variable (hfiles : ∀ file ∈ project.files, file.plain = true)
  (hsteps : ∀ step ∈ steps, step.plain = true)

include hfiles hsteps

/-- A definition that was stored determines its key, and the key determines package, name and
number of type parameters. -/
theorem stores_of_lookup {name : String} {arity : Nat} (hpackage : isPlainName package)
    (hname : isPlainName name)
    (h : (typeKey package name arity, definition) ∈ (project.tableAfter steps).stored) :
    project.Stores steps package definition ∧ definition.name = name ∧
      definition.generics.length = arity := by
  have hrecorded := recorded_of_plain hfiles hsteps
  obtain ⟨home, hstores, hkey⟩ := (hrecorded.stored _).1 h
  have hplain := hrecorded.spelled.definitions _ h
  rw [TypeDef.plain, Bool.and_eq_true] at hplain
  obtain ⟨rfl, hsame, hcount⟩ := typeKey_inj hpackage hname
    (plain_of_packageOf? hfiles hstores.1) hplain.1 hkey
  exact ⟨hstores, hsame.symm, hcount.symm⟩

theorem instantiates_of_instance {made : TypeDef}
    (h : (key, made) ∈ (project.tableAfter steps).instances) :
    project.Instantiates steps key made := by
  obtain ⟨earlier, hearlier, hentry⟩ := (recorded_of_plain hfiles hsteps).entered _ h
  have hbefore : ∀ step ∈ earlier, step.plain :=
    fun step hstep => hsteps step (hearlier.subset hstep)
  have hspelled := (recorded_of_plain hfiles hbefore).spelled
  generalize hpair : (key, made) = entry at hentry
  cases hentry with
  | @intro ref package generic names hplain harguments hdeclared hnames =>
    obtain ⟨rfl, rfl⟩ := Prod.mk.inj hpair
    have hname := (TypeRef.plain_iff.1 hplain).1
    have hplainArguments := TypeExpr.plainAll_iff.1 (TypeRef.plain_iff.1 hplain).2.2
    have hpackage := hspelled.scopes hplain package (lookup_of_declaration hdeclared).1
    obtain ⟨hstores, hgeneric, harity⟩ := stores_of_lookup hfiles hbefore hpackage hname
      (mem_stored_of_declaration hdeclared)
    refine ⟨package, generic, ref.arguments, names, earlier, hstores.mono hearlier, harguments,
      harity, rfl, by rw [hgeneric], hearlier,
      (answer_canonicalNames hspelled.confines (hspelled.grownBy _) hplainArguments).2
        hnames.spellings, fun hhomes => ?_⟩
    have hlater := (recorded_of_plain hfiles hsteps).spelled
    refine (answer_canonicalNames hlater.confines (hlater.grownBy _) hplainArguments).2 ?_
    rw [spellings?_congr ref.arguments hhomes, hnames.spellings]

theorem mem_storedKeys_iff :
    key ∈ (project.tableAfter steps).storedKeys ↔ ∃ package definition,
      project.Stores steps package definition ∧
        key = typeKey package definition.name definition.generics.length := by
  have hrecorded := recorded_of_plain hfiles hsteps
  rw [storedKeys, List.mem_map]
  constructor
  · rintro ⟨entry, hentry, rfl⟩
    obtain ⟨package, hstores, hkey⟩ := (hrecorded.stored entry).1 hentry
    exact ⟨package, entry.2, hstores, hkey⟩
  · rintro ⟨package, definition, hstores, rfl⟩
    exact ⟨(_, definition), (hrecorded.stored _).2 ⟨package, hstores, rfl⟩, rfl⟩

/-- Instances do not stand in the way of definitions: a definition is a duplicate only of one
that was stored. -/
theorem duplicate_iff (hplain : definition.plain) :
    (project.tableAfter steps).store definition =
        .error (.duplicateType definition.name definition.origin) ↔
      ∃ package other, project.packageOf? definition.origin = some package ∧
        project.Stores steps package other ∧ other.name = definition.name ∧
        other.generics.length = definition.generics.length := by
  have hrecorded := recorded_of_plain hfiles hsteps
  rw [TypeDef.plain, Bool.and_eq_true] at hplain
  rw [store_eq_duplicate_iff, hrecorded.owner]
  refine exists_congr fun package => ?_
  rw [exists_and_left]
  refine and_congr_right fun hpackage => ?_
  have hhome := plain_of_packageOf? hfiles hpackage
  rw [hrecorded.spelled.find_typeKey hhome hplain.1]
  constructor
  · intro hsome
    obtain ⟨other, hlookup⟩ := Option.isSome_iff_exists.1 hsome
    exact ⟨other, stores_of_lookup hfiles hsteps hhome hplain.1 (mem_of_lookup hlookup)⟩
  · rintro ⟨other, hstores, hname, harity⟩
    have hmem : (typeKey package other.name other.generics.length, other) ∈
        (project.tableAfter steps).stored := (hrecorded.stored _).2 ⟨package, hstores, rfl⟩
    rw [hname, harity] at hmem
    rw [lookup_of_mem hrecorded.distinct.of_append_left hmem]
    rfl

end Plain

/-- With plain names, whatever is stored and asked in whatever order: the keys of stored
definitions are distinct and stand for what was stored; every other key is that of an
instance, and there are as many of them as instances; nothing is ever replaced; and a
definition is refused as a duplicate exactly if one of its package, name and number of type
parameters was stored before. -/
theorem tableAfter_holds_history (hfiles : ∀ file ∈ project.files, file.plain = true)
    (hsteps : ∀ step ∈ steps, step.plain = true) :
    let table := project.tableAfter steps
    (table.storedKeys.Nodup ∧
      (∀ key, key ∈ table.storedKeys ↔ ∃ package definition,
        project.Stores steps package definition ∧
          key = typeKey package definition.name definition.generics.length) ∧
      ∀ package definition, project.Stores steps package definition →
        table.find? (typeKey package definition.name definition.generics.length) =
          some definition) ∧
    (∀ key made, table.find? key = some made → key ∉ table.storedKeys →
      project.Instantiates steps key made) ∧
    {key | (table.find? key).isSome ∧ key ∉ table.storedKeys}.ncard = table.instances.length ∧
    (∀ earlier, earlier <+: steps → ∀ key found,
      (project.tableAfter earlier).find? key = some found → table.find? key = some found) ∧
    ∀ definition, definition.plain = true →
      (table.store definition = .error (.duplicateType definition.name definition.origin) ↔
        ∃ package other, project.packageOf? definition.origin = some package ∧
          project.Stores steps package other ∧ other.name = definition.name ∧
          other.generics.length = definition.generics.length) := by
  have hrecorded := recorded_of_plain hfiles hsteps
  refine ⟨⟨hrecorded.distinct.of_append_left, fun _ => mem_storedKeys_iff hfiles hsteps, ?_⟩, ?_,
    hrecorded.distinct.ncard_others, ?_, ?_⟩
  · intro package definition hstores
    exact hrecorded.distinct.find?_of_stored ((hrecorded.stored _).2 ⟨package, hstores, rfl⟩)
  · intro key made hfind hkey
    exact instantiates_of_instance hfiles hsteps
      (hrecorded.distinct.find?_of_not_stored.1 ⟨hfind, hkey⟩)
  · exact fun earlier hearlier key found => find?_tableAfter hearlier
  · exact fun definition hplain => duplicate_iff hfiles hsteps hplain

end Project

/-! ## A definition that comes late -/

/-- Two packages, the second of which sees the first. -/
def twoPackages : Project :=
  { files := [{ name := "lib.mer", package := "lib" },
      { name := "main.mer", package := "app", imports := ["lib"] }] }

/-- An item that a file defines. -/
def itemIn (file : String) : TypeDef :=
  { name := "Item", origin := file, body := .record [] }

/-- A reference to an item. -/
def item (qualifier : Option String) : TypeExpr :=
  .named "Item" qualifier [] "main.mer"

/-- Boxes of anything. -/
def boxDef : TypeDef :=
  { name := "Box", generics := ["T"], origin := "main.mer",
    body := .record [{ name := "value", type := .param "T" }] }

/-- The box of a type, as an instance. -/
def boxHolding (type : TypeExpr) : TypeDef :=
  { boxDef with generics := [], body := .record [{ name := "value", type }] }

/-- A reference to the box of a type. -/
def boxOf (type : TypeExpr) : TypeRef :=
  ⟨"Box", none, [type], "main.mer"⟩

/-- A box of items is asked for, and then the package that asked gets items of its own. -/
def lateItem : List TableStep :=
  [.store (itemIn "lib.mer"), .store boxDef, .ask (.retrieve (boxOf (item none))),
    .store (itemIn "main.mer")]

theorem tableAfter_lateItem : twoPackages.tableAfter lateItem =
    { project := twoPackages
      stored := [("lib::Item", itemIn "lib.mer"), ("app::Box<1>", boxDef),
        ("app::Item", itemIn "main.mer")]
      instances := [("app::Box<lib::Item>", boxHolding (item none))] } :=
  rfl

/-- The box is the only instance, and the items of the two packages do not get in each other's
way. -/
theorem lateItem_holds_history :
    (∀ file ∈ twoPackages.files, file.plain = true) ∧
      (∀ step ∈ lateItem, step.plain = true) ∧
      twoPackages.Instantiates lateItem "app::Box<lib::Item>" (boxHolding (item none)) ∧
      {key | ((twoPackages.tableAfter lateItem).find? key).isSome ∧
        key ∉ (twoPackages.tableAfter lateItem).storedKeys}.ncard = 1 ∧
      ∃ package other, twoPackages.packageOf? "main.mer" = some package ∧
        twoPackages.Stores lateItem package other ∧ other.name = "Item" ∧
        other.generics.length = 0 := by
  have hfiles : ∀ file ∈ twoPackages.files, file.plain = true := by decide
  have hsteps : ∀ step ∈ lateItem, step.plain = true := by decide
  obtain ⟨_, hothers, hcount, _, hduplicate⟩ := Project.tableAfter_holds_history hfiles hsteps
  refine ⟨hfiles, hsteps, hothers _ _ rfl ?_, hcount, ?_⟩
  · rw [tableAfter_lateItem]
    decide
  · exact (hduplicate (itemIn "main.mer") (by decide)).1 rfl

/-- Once the package has items of its own, they are what the reference to an item means.  The
key of the box spells the name of the other item still, and no type arguments that the box
could have been made of have that name now. -/
theorem box_key_outlives_names :
    (twoPackages.tableAfter lateItem).find? "app::Box<lib::Item>" =
        some (boxHolding (item none)) ∧
      "app::Box<lib::Item>" ∉ (twoPackages.tableAfter lateItem).storedKeys ∧
      (¬ ∃ package generic arguments names,
        (typeKey package generic.name generic.generics.length, generic) ∈
          (twoPackages.tableAfter lateItem).stored ∧
        generic.generics.length = arguments.length ∧
        boxHolding (item none) = generic.instantiate (.ofLists generic.generics arguments) ∧
        (canonicalNames arguments).answer (twoPackages.tableAfter lateItem) = .ok names ∧
        "app::Box<lib::Item>" = package ++ "::" ++ generic.name ++ argumentSuffix names) ∧
      (retrieve (boxOf (item (some "lib")))).answer (twoPackages.tableAfter lateItem) =
        .ok (boxHolding (item none)) := by
  refine ⟨rfl, by rw [tableAfter_lateItem]; decide, ?_, rfl⟩
  rintro ⟨package, generic, arguments, names, hstored, hlength, hmade, hnames, hkey⟩
  -- Only the definition of boxes has the name of the instance.
  have hname : generic.name = "Box" := (congrArg TypeDef.name hmade).symm
  obtain rfl : generic = boxDef := by
    rw [tableAfter_lateItem] at hstored
    simp only [List.mem_cons, Prod.mk.injEq, List.not_mem_nil, or_false] at hstored
    rcases hstored with ⟨_, rfl⟩ | ⟨_, rfl⟩ | ⟨_, rfl⟩
    · exact absurd hname (by decide)
    · rfl
    · exact absurd hname (by decide)
  obtain ⟨type, rfl⟩ := List.length_eq_one_iff.1 hlength.symm
  -- The box holds what it was made of, which is named otherwise by now.
  have htype : item none = type := by
    injection hmade with _ _ _ hbody
    injection hbody with hfields
    injection hfields with hfield
    injection hfield
  subst htype
  obtain rfl : ["app::Item"] = names := by
    injection (show (canonicalNames [item none]).answer (twoPackages.tableAfter lateItem) =
      .ok ["app::Item"] from rfl).symm.trans hnames
  have hchars : "app".toList ++ "::Box<lib::Item>".toList =
      package.toList ++ "::Box<app::Item>".toList := by
    rw [← String.toList_append, ← String.toList_append]
    refine congrArg String.toList (hkey.trans ?_)
    rw [String.append_assoc, String.append_assoc]
    rfl
  exact absurd (List.append_inj_right' hchars (by decide)) (by decide)

end Accord
