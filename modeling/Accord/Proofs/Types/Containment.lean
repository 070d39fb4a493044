import Accord.Proofs.Types.Transparent

/-!
# What types hold by value

A type of an accepted program that is defined, or held by value in a definition, does not hold
itself by value, and what it holds ends.

* `TypeTable.Holds` is the relation that values give: an array holds its elements, a sum its
  alternatives, and a reference what its definition is made of.
* `TypeTable.Cleared` says of a type that following this relation ends and meets no canonical
  name twice.  `walkDefinition_leaves` goes from the walk over a definition to that.
* The walk happens while the program is built, and later questions enter further instances.
  `Leaves` says of a question that what it finds holds in every later table.

Nothing walks an instance that only a signature, a body or something behind a pointer mentions,
and such a type may hold itself (`unwalked_node_holds_itself`).
-/

namespace Accord

open Query TypeTable TypeRef

variable {definition : TypeDef} {ref : TypeRef} {type : TypeExpr}

/-! ## Holding by value -/

/-- What a value of a type is made of.  A component that mentions a type parameter is not a
type yet. -/
inductive TypeTable.Holds (table : TypeTable) : TypeExpr → TypeExpr → Prop where
  | element (length : UInt64) (type : TypeExpr) : Holds table (.array length type) type
  | alternative {alternatives : List TypeExpr} {type : TypeExpr} (mem : type ∈ alternatives) :
      Holds table (.union alternatives) type
  | component {name : String} {qualifier : Option String} {arguments : List TypeExpr}
      {origin : String} {definition : TypeDef} {part : TypeExpr}
      (found : (retrieve ⟨name, qualifier, arguments, origin⟩).answer table = .ok definition)
      (mem : part ∈ definition.body.components) (closed : part.isGeneric = false) :
      Holds table (.named name qualifier arguments origin) part

/-- A definition of the table holds the type by value, directly or further inside. -/
def TypeTable.HeldByDefinition (table : TypeTable) (type : TypeExpr) : Prop :=
  ∃ entry ∈ table.stored, ∃ component ∈ entry.2.body.components,
    component.isGeneric = false ∧ Relation.ReflTransGen table.Holds component type

section Holds

variable {table : TypeTable} {part : TypeExpr}

theorem TypeTable.holds_ref :
    table.Holds ref.toType part ↔ ∃ definition, (retrieve ref).answer table = .ok definition ∧
      part ∈ definition.body.components ∧ part.isGeneric = false := by
  constructor
  · intro h
    cases h with
    | component hfound hmem hclosed => exact ⟨_, hfound, hmem, hclosed⟩
  · rintro ⟨definition, hfound, hmem, hclosed⟩
    exact .component hfound hmem hclosed

/-- What a reference stands for has plain names. -/
theorem TypeTable.Spelled.plainBody_of_retrieve (h : table.Spelled) (hplain : ref.plain)
    (hfound : (retrieve ref).answer table = .ok definition) : definition.PlainBody := by
  obtain ⟨t, hrun⟩ := answer_eq_ok.1 hfound
  obtain ⟨answer, last, hlocate, hlast⟩ := bind_eq_ok.1 hrun
  obtain ⟨rfl, rfl⟩ := pure_eq_ok.1 hlast
  have hrepeats := (locate_replays hplain).ok h hlocate
  obtain ⟨_, _, _, hbody⟩ := hrepeats.later hrepeats.good (.refl _)
  exact hbody

theorem TypeTable.Holds.plain (h : table.Holds type part) (htable : table.Spelled)
    (hplain : type.plain) : part.plain := by
  cases h with
  | element => exact hplain
  | alternative hmem => exact TypeExpr.plainAll_iff.1 hplain _ hmem
  | @component name qualifier arguments origin _ _ hfound hmem _ =>
    have href : plain ⟨name, qualifier, arguments, origin⟩ := hplain
    exact htable.plainBody_of_retrieve href hfound part hmem

theorem TypeTable.plain_of_holds (htable : table.Spelled) (hplain : type.plain)
    (h : Relation.ReflTransGen table.Holds type part) : part.plain := by
  induction h with
  | refl => exact hplain
  | tail _ hholds ih => exact hholds.plain htable ih

end Holds

/-! ## Types that following ends on -/

/-- Following what the type holds ends, and meets no canonical name twice, nor one of the
path. -/
inductive TypeTable.Cleared (table : TypeTable) : List String → TypeExpr → Prop where
  | anonymous {path : List String} {type : TypeExpr} (unnamed : ∀ ref : TypeRef, type ≠ ref.toType)
      (parts : ∀ part, table.Holds type part → Cleared table path part) : Cleared table path type
  | named {path : List String} {ref : TypeRef} {key : String}
      (name : (canonicalName ref.toType).answer table = .ok key) (fresh : key ∉ path)
      (parts : ∀ part, table.Holds ref.toType part → Cleared table (key :: path) part) :
      Cleared table path ref.toType

namespace TypeTable.Cleared

variable {table : TypeTable} {path : List String} {part : TypeExpr}

theorem acc (h : table.Cleared path type) :
    Acc (fun inner outer => table.Holds outer inner) type := by
  induction h with
  | anonymous _ _ ih => exact .intro _ ih
  | named _ _ _ ih => exact .intro _ ih

theorem of_ref (h : table.Cleared path ref.toType) :
    ∃ key, (canonicalName ref.toType).answer table = .ok key ∧ key ∉ path ∧
      ∀ part, table.Holds ref.toType part → table.Cleared (key :: path) part := by
  generalize htype : ref.toType = type at h
  cases h with
  | anonymous hunnamed => exact absurd htype.symm (hunnamed ref)
  | named hname hfresh hparts => exact ⟨_, hname, hfresh, hparts⟩

/-- What a cleared type holds is cleared, below a path that has grown. -/
theorem held (h : table.Cleared path type) (hholds : table.Holds type part) :
    ∃ longer, path ⊆ longer ∧ table.Cleared longer part := by
  cases h with
  | anonymous _ hparts => exact ⟨path, List.Subset.refl path, hparts part hholds⟩
  | named _ _ hparts => exact ⟨_, List.subset_cons_self _ path, hparts part hholds⟩

theorem leads (h : table.Cleared path type) (hleads : Relation.ReflTransGen table.Holds type part) :
    ∃ longer, path ⊆ longer ∧ table.Cleared longer part := by
  induction hleads with
  | refl => exact ⟨path, List.Subset.refl path, h⟩
  | tail _ hholds ih =>
    obtain ⟨longer, hsubset, hcleared⟩ := ih
    obtain ⟨longest, hsubset', hcleared'⟩ := hcleared.held hholds
    exact ⟨longest, List.Subset.trans hsubset hsubset', hcleared'⟩

/-- A cleared reference leads to no reference of the same name. -/
theorem name_ne {outer inner : TypeRef} (h : table.Cleared path outer.toType)
    (hleads : Relation.TransGen table.Holds outer.toType inner.toType) :
    (canonicalName inner.toType).answer table ≠ (canonicalName outer.toType).answer table := by
  obtain ⟨key, hname, _, hparts⟩ := h.of_ref
  obtain ⟨part, hholds, hrest⟩ := Relation.TransGen.head'_iff.1 hleads
  obtain ⟨longer, hsubset, hcleared⟩ := (hparts part hholds).leads hrest
  obtain ⟨other, hother, hfresh, _⟩ := hcleared.of_ref
  rw [hname, hother]
  intro heq
  rw [Except.ok.inj heq] at hfresh
  exact hfresh (hsubset List.mem_cons_self)

end TypeTable.Cleared

/-! ## What questions leave behind -/

/-- What the question finds holds in the table that it leaves behind and in all later ones. -/
def Leaves {α : Type} (found : α → TypeTable → Prop) (query : TypeQuery α) : Prop :=
  ∀ s a t, s.Spelled → query s = .ok a t → t.Spelled ∧ s.Before t ∧
    ∀ later : TypeTable, later.Spelled → t.Before later → found a later

namespace Leaves

variable {α β : Type} {found : α → TypeTable → Prop}

theorem pure {a : α} (h : ∀ t, found a t) : Leaves found (pure a : TypeQuery α) := by
  intro s b t hs hrun
  obtain ⟨rfl, rfl⟩ := pure_eq_ok.1 hrun
  exact ⟨hs, .refl s, fun later _ _ => h later⟩

theorem throw (cause : Diagnostic) : Leaves found (throw cause : TypeQuery α) :=
  fun _ _ _ _ hrun => absurd hrun throw_ne_ok

theorem mono {weaker : α → TypeTable → Prop} {query : TypeQuery α} (h : Leaves found query)
    (hweaker : ∀ a t, found a t → weaker a t) : Leaves weaker query := by
  intro s a t hs hrun
  obtain ⟨ht, hbefore, hfound⟩ := h s a t hs hrun
  exact ⟨ht, hbefore, fun later hlater hlast => hweaker a later (hfound later hlater hlast)⟩

theorem bind {next : β → TypeTable → Prop} {first : TypeQuery α} {rest : α → TypeQuery β}
    (h : Leaves found first)
    (hrest : ∀ a, (∃ t, found a t) → Leaves (fun b t => found a t → next b t) (rest a)) :
    Leaves next (first >>= rest) := by
  intro s b u hs hrun
  obtain ⟨a, t, hfirst, hlast⟩ := bind_eq_ok.1 hrun
  obtain ⟨ht, hst, hfound⟩ := h s a t hs hfirst
  obtain ⟨hu, htu, hnext⟩ := hrest a ⟨t, hfound t ht (.refl t)⟩ t b u ht hlast
  exact ⟨hu, hst.trans htu, fun later hlater hul =>
    hnext later hlater hul (hfound later hlater (htu.trans hul))⟩

theorem forM {ι : Type} {each : ι → TypeQuery PUnit} {left : ι → TypeTable → Prop}
    {items : List ι} (h : ∀ i ∈ items, Leaves (fun _ t => left i t) (each i)) :
    Leaves (fun _ t => ∀ i ∈ items, left i t) (items.forM each) := by
  induction items with
  | nil => exact .pure (by simp)
  | cons i rest ih =>
    obtain ⟨hfirst, hrest⟩ := List.forall_mem_cons.1 h
    refine hfirst.bind fun _ _ => (ih hrest).mono fun _ t hall hi => ?_
    exact List.forall_mem_cons.2 ⟨hi, hall⟩

/-- An answer that is given again is given in every later table. -/
theorem of_again {good : α → Prop} {query : TypeQuery α} (h : Again good query) :
    Leaves (fun a t => query t = .ok a t ∧ good a) query := by
  intro s a t hs hrun
  have hrepeats := h.ok hs hrun
  refine ⟨hrepeats.good, hrepeats.before, fun later hlater hbefore => ?_⟩
  obtain ⟨b, hagain, rfl, hgood⟩ := hrepeats.later hlater hbefore
  exact ⟨hagain, hgood⟩

end Leaves

theorem canonicalName_leaves (hplain : type.plain) :
    Leaves (fun key t => (canonicalName type).answer t = .ok key) (canonicalName type) :=
  (Leaves.of_again (canonicalName_replays type hplain)).mono fun _ _ h =>
    answer_eq_ok.2 ⟨_, h.1⟩

theorem retrieve_leaves (hplain : ref.plain) :
    Leaves (fun definition t => retrieve ref t = .ok definition t ∧ definition.PlainBody)
      (retrieve ref) := by
  refine (Leaves.of_again (locate_replays hplain)).bind fun answer _ => ?_
  exact Leaves.pure fun t hfound => ⟨bind_of_ok hfound.1, hfound.2⟩

theorem verify_leaves (hplain : type.plain) : Leaves (fun _ _ => True) (verify type) := by
  intro s a t hs hrun
  have hgrown := verify_grows hs.confines type hplain s (hs.grownBy _)
  have hbefore := verify_keeps type s (Before.refl s)
  rw [after_of_ok hrun] at hgrown hbefore
  exact ⟨hgrown.spelled, hbefore, fun _ _ _ => trivial⟩

/-! ## The walk -/

section Walk

variable {enter : String → TypeDef → TypeQuery Unit} {path : List String}

theorem skip_leaves {query : TypeQuery Unit}
    (h : type.isGeneric = false → Leaves (fun _ t => t.Cleared path type) query) :
    Leaves (fun _ t => type.isGeneric = false → t.Cleared path type)
      (if type.isGeneric then pure () else query) := by
  split
  · rename_i hgeneric
    exact .pure fun t hclosed => by simp [hgeneric] at hclosed
  · rename_i hgeneric
    exact (h (by simpa using hgeneric)).mono fun _ _ hcleared _ => hcleared

variable (henter : ∀ key {definition : TypeDef}, definition.PlainBody →
  Leaves (fun _ t => key ∉ path ∧ ∀ part ∈ definition.body.components,
    part.isGeneric = false → t.Cleared (key :: path) part) (enter key definition))

include henter

/-- A type that the walk passes is cleared, unless it mentions a parameter. -/
theorem walkType_leaves (type : TypeExpr) (h : type.plain) :
    Leaves (fun _ t => type.isGeneric = false → t.Cleared path type) (walkType enter type) := by
  induction type using TypeExpr.induct with
  | step type ih =>
    unfold walkType
    refine skip_leaves fun hclosed => ?_
    cases type with
    | primitive | param => exact .pure fun _ => .anonymous (by simp [toType]) fun _ hholds => by cases hholds
    | pointer | slice =>
      refine (verify_leaves h).mono fun _ _ _ => .anonymous (by simp [toType]) fun _ hholds => ?_
      cases hholds
    | array length element =>
      refine (ih element (.head _) h).mono fun _ t hcleared => ?_
      refine .anonymous (by simp [toType]) fun part hholds => ?_
      cases hholds
      exact hcleared hclosed
    | union alternatives =>
      simp only [walkTypes_eq_forM]
      refine (Leaves.forM fun part hmem =>
        ih part hmem (TypeExpr.plainAll_iff.1 h part hmem)).mono fun _ t hcleared => ?_
      refine .anonymous (by simp [toType]) fun part hholds => ?_
      cases hholds with
      | alternative hmem =>
        exact hcleared part hmem (TypeExpr.anyGeneric_eq_false.1 hclosed part hmem)
    | named name qualifier arguments origin =>
      let ref : TypeRef := ⟨name, qualifier, arguments, origin⟩
      have href : ref.plain := h
      refine (canonicalName_leaves h).bind fun key _ => ?_
      refine (retrieve_leaves href).bind fun definition hdefinition => ?_
      obtain ⟨_, _, hbody⟩ := hdefinition
      refine (henter key hbody).mono fun _ t hentered hfound hname => ?_
      refine .named (show (canonicalName ref.toType).answer t = .ok key from hname) hentered.1 ?_
      intro part hholds
      obtain ⟨other, hother, hmem, hclosed⟩ := holds_ref.1 hholds
      rw [answer_eq_ok.2 ⟨t, hfound.1⟩] at hother
      cases hother
      exact hentered.2 part hmem hclosed

omit henter

/-- What a definition that the walk passes is made of is cleared below its own key. -/
theorem walkDefinition_leaves (fuel : Nat) (path : List String) (key : String)
    (h : definition.PlainBody) :
    Leaves (fun _ t => key ∉ path ∧ ∀ part ∈ definition.body.components,
      part.isGeneric = false → t.Cleared (key :: path) part)
      (walkDefinition fuel path key definition) := by
  induction fuel generalizing path key definition with
  | zero => exact .throw _
  | succ fuel ih =>
    unfold walkDefinition
    split
    · exact .throw _
    · rename_i hfresh
      rw [walkTypes_eq_forM]
      refine (Leaves.forM fun part hmem => walkType_leaves (fun key _ hbody => ih _ key hbody) part
        (h part hmem)).mono fun _ t hcleared => ?_
      exact ⟨by simpa using hfresh, hcleared⟩

theorem checkContainment_leaves (fuel : Nat) {table walked : TypeTable} (htable : table.Spelled)
    (hrun : checkContainment fuel table = .ok () walked) :
    walked.Spelled ∧ table.Before walked ∧
      ∀ later : TypeTable, later.Spelled → walked.Before later →
        ∀ entry ∈ later.stored, ∀ part ∈ entry.2.body.components, part.isGeneric = false →
          later.Cleared [entry.1] part := by
  obtain ⟨state, _, hget, hrun⟩ := bind_eq_ok.1 hrun
  cases hget
  have hwalk := Leaves.forM fun (entry : String × TypeDef) (hentry : entry ∈ table.stored) =>
    walkDefinition_leaves fuel [] entry.1 (htable.plainBody ⟨entry.1, Or.inl hentry⟩)
  obtain ⟨hwalked, hbefore, hleft⟩ := hwalk table () walked htable hrun
  refine ⟨hwalked, hbefore, fun later hlater hlast entry hentry => ?_⟩
  rw [hlast.stored, hbefore.stored] at hentry
  exact (hleft later hlater hlast entry hentry).2

end Walk

/-! ## Types of a program -/

section Program

variable {table : TypeTable}

/-- A reference without type arguments stands for a definition, whose key is its name. -/
theorem TypeTable.Spelled.key_of_retrieve (h : table.Spelled) (hplain : ref.plain)
    (hnone : ref.arguments = []) (hfound : (retrieve ref).answer table = .ok definition) :
    ∃ key, (canonicalName ref.toType).answer table = .ok key ∧
      (key, definition) ∈ table.stored := by
  obtain ⟨t, hrun⟩ := answer_eq_ok.1 hfound
  obtain ⟨answer, last, hlocate, hlast⟩ := bind_eq_ok.1 hrun
  obtain ⟨rfl, rfl⟩ := pure_eq_ok.1 hlast
  obtain ⟨_, names, hnames, hanswer⟩ :=
    (locate_answer h.confines hplain (h.grownBy _)).of_run hlocate
  obtain ⟨generic, hdeclared, heq⟩ := hanswer.declared
  have hnil : names = [] := List.eq_nil_of_length_eq_zero (by rw [hnames.length, hnone]; rfl)
  have hspelling : table.spelling? ref.toType =
      some (typeKey answer.1 ref.name ref.arguments.length) := by
    rw [hanswer.spelling hnames, hnil, hnone]
    rfl
  have hstored := mem_stored_of_declaration hdeclared
  rw [← heq hnone] at hstored
  exact ⟨_, (answer_canonicalName h.confines (h.grownBy _) hplain).2 hspelling, hstored⟩

/-- Where definitions are cleared, a reference that needs no instance, or that a definition
holds, is cleared if it stands for anything. -/
theorem cleared_of_held (htable : table.Spelled)
    (hcleared : ∀ entry ∈ table.stored, ∀ part ∈ entry.2.body.components, part.isGeneric = false →
      table.Cleared [entry.1] part)
    (hplain : ref.plain) (hheld : ref.arguments ≠ [] → table.HeldByDefinition ref.toType)
    {part : TypeExpr} (hholds : table.Holds ref.toType part) :
    ∃ path, table.Cleared path ref.toType := by
  by_cases hnone : ref.arguments = []
  · obtain ⟨definition, hfound, _⟩ := holds_ref.1 hholds
    obtain ⟨key, hname, hstored⟩ := htable.key_of_retrieve hplain hnone hfound
    refine ⟨[], .named hname List.not_mem_nil fun inner hinner => ?_⟩
    obtain ⟨other, hother, hmem, hclosed⟩ := holds_ref.1 hinner
    rw [hfound] at hother
    cases hother
    exact hcleared (key, definition) hstored inner hmem hclosed
  · obtain ⟨entry, hentry, component, hmem, hclosed, hleads⟩ := hheld hnone
    obtain ⟨path, _, hpath⟩ := (hcleared entry hentry component hmem hclosed).leads hleads
    exact ⟨path, hpath⟩

/-- Following a type ends if it ends from every reference on the way. -/
theorem acc_of_refs (type : TypeExpr)
    (h : ∀ ref : TypeRef, Relation.ReflTransGen table.Holds type ref.toType →
      Acc (fun inner outer => table.Holds outer inner) ref.toType) :
    Acc (fun inner outer => table.Holds outer inner) type := by
  induction type using TypeExpr.induct with
  | step type ih =>
    refine .intro _ fun part hholds => ?_
    have hpart (ref : TypeRef) (hleads : Relation.ReflTransGen table.Holds part ref.toType) :=
      h ref (.head hholds hleads)
    cases hholds with
    | element _ _ => exact ih part (.head _) hpart
    | alternative hmem => exact ih part hmem hpart
    | @component name qualifier arguments origin _ _ hfound hmem hclosed =>
      exact (h ⟨name, qualifier, arguments, origin⟩ .refl).inv (.component hfound hmem hclosed)

theorem asked_keeps {inv : TypeTable → Prop} [Lasting inv]
    (questions : List TypeQuestion) (h : inv table) :
    inv (questions.foldl TypeQuestion.ask table) := by
  induction questions generalizing table with
  | nil => exact h
  | cons question rest ih => exact ih (question.ask_keeps h)

/-- The definitions of a program that has been built are cleared in every later table. -/
theorem cleared_of_build {fuel : Nat} {project : Project} {program : Program}
    (hbuild : Program.build fuel project = .ok program)
    (hfiles : ∀ file ∈ project.files, file.plain)
    (hdefinitions : ∀ definition ∈ project.files.flatMap (·.types), definition.plain)
    (hspelled : table.Spelled) (hlater : program.types.Before table) : ∀ entry ∈ table.stored,
      ∀ part ∈ entry.2.body.components, part.isGeneric = false → table.Cleared [entry.1] part := by
  obtain ⟨types, walked, functions, htypes, hwalk, hfunctions, _⟩ := Program.build_eq_ok hbuild
  have htypesSpelled := spelled_of_foldlM hfiles hdefinitions htypes
  obtain ⟨_, _, hleft⟩ := checkContainment_leaves fuel htypesSpelled hwalk
  -- Entering functions leaves what was walked in place.
  have hbuilt : walked.Before program.types := by
    have hnames {type : TypeExpr} (_ : True) : Keeps walked.Before (canonicalName type) :=
      canonicalName_keeps type
    have hgood {function : FunctionDef} (_ : True) :
        ∀ type ∈ function.parameterTypes, True := fun _ _ => trivial
    exact (OverloadTable.ofProject_yields hnames hgood (fun _ _ => trivial) walked functions
      program.types (.refl walked) hfunctions).1
  exact hleft _ hspelled (hbuilt.trans hlater)

theorem cleared_of_asked {fuel : Nat} {project : Project} {program : Program}
    (hbuild : Program.build fuel project = .ok program) (hplain : project.Plain)
    {questions : List TypeQuestion}
    (hquestions : ∀ question ∈ questions, question.subject.plain)
    (htable : table = questions.foldl TypeQuestion.ask program.types) :
    table.Spelled ∧ ∀ entry ∈ table.stored, ∀ part ∈ entry.2.body.components,
      part.isGeneric = false → table.Cleared [entry.1] part := by
  subst htable
  have hprogram := (spelled_of_build hbuild hplain).1.types
  have hspelled := (asked_grows hprogram.confines hquestions (hprogram.grownBy _)).spelled
  exact ⟨hspelled, cleared_of_build hbuild hplain.files hplain.types hspelled
    (asked_keeps questions (.refl _))⟩

end Program

/-- In a program that has been built from a project with plain names, and after any questions,
follow what a type holds by value.  References without type arguments may be met on the way, and
those with type arguments that a definition holds by value.  Then the way ends, and no reference
leads to one of the same canonical name. -/
theorem holding_ends {fuel : Nat} {project : Project} {program : Program}
    (hbuild : Program.build fuel project = .ok program) (hplain : project.Plain)
    {questions : List TypeQuestion}
    (hquestions : ∀ question ∈ questions, question.subject.plain = true) {table : TypeTable}
    (htable : table = questions.foldl TypeQuestion.ask program.types)
    {type : TypeExpr} (htype : type.plain = true)
    (hheld : ∀ ref : TypeRef, Relation.ReflTransGen table.Holds type ref.toType →
      ref.arguments ≠ [] → table.HeldByDefinition ref.toType) :
    Acc (fun inner outer => table.Holds outer inner) type ∧
    ∀ outer inner : TypeRef, Relation.ReflTransGen table.Holds type outer.toType →
      Relation.TransGen table.Holds outer.toType inner.toType →
        (canonicalName inner.toType).answer table ≠ (canonicalName outer.toType).answer table := by
  obtain ⟨hspelled, hcleared⟩ := cleared_of_asked hbuild hplain hquestions htable
  have href {ref : TypeRef} {part : TypeExpr}
      (hleads : Relation.ReflTransGen table.Holds type ref.toType)
      (hholds : table.Holds ref.toType part) : ∃ path, table.Cleared path ref.toType :=
    cleared_of_held hspelled hcleared (plain_of_holds hspelled htype hleads)
      (hheld ref hleads) hholds
  constructor
  · refine acc_of_refs type fun ref hleads => .intro _ fun part hholds => ?_
    obtain ⟨path, hpath⟩ := href hleads hholds
    exact hpath.acc.inv hholds
  · intro outer inner hleads hreturns
    obtain ⟨part, hholds, _⟩ := Relation.TransGen.head'_iff.1 hreturns
    obtain ⟨path, hpath⟩ := href hleads hholds
    exact hpath.name_ne hreturns

/-! ## Held by a definition, and not -/

/-- Shelves of boxes. -/
def shelfDef : TypeDef :=
  { name := "Shelf", origin := "main.mer",
    body := .record [{ name := "boxes", type := .array 3 (boxOf .int).toType }] }

/-- A project of boxes and shelves. -/
def shelves : Project :=
  { files := [{ name := "main.mer", package := "app", types := [boxDef, shelfDef] }] }

/-- Its program.  Checking the shelves has entered boxes of numbers. -/
def shelvesProgram : Program :=
  { types :=
      { project := shelves
        stored := [("app::Box<1>", boxDef), ("app::Shelf", shelfDef)]
        instances := [("app::Box<Int>", boxHolding .int)] } }

/-- Shelves hold boxes of numbers, so arrays of these may be used. -/
theorem boxes_on_shelves_end :
    Program.build defaultFuel shelves = .ok shelvesProgram ∧
      shelvesProgram.types.HeldByDefinition (boxOf .int).toType ∧
      Acc (fun inner outer => shelvesProgram.types.Holds outer inner)
        (.array 2 (boxOf .int).toType) := by
  have hbuild : Program.build defaultFuel shelves = .ok shelvesProgram := rfl
  have hheld : shelvesProgram.types.HeldByDefinition (boxOf .int).toType :=
    ⟨("app::Shelf", shelfDef), by simp [shelvesProgram], .array 3 (boxOf .int).toType,
      by simp [shelfDef, TypeBody.components], rfl, .single (.element 3 (boxOf .int).toType)⟩
  have hmet {part : TypeExpr} (h : Relation.ReflTransGen shelvesProgram.types.Holds
      (.array 2 (boxOf .int).toType) part) :
      part = .array 2 (boxOf .int).toType ∨ part = (boxOf .int).toType ∨ part = .int := by
    induction h with
    | refl => exact Or.inl rfl
    | tail _ hholds ih =>
      rcases ih with rfl | rfl | rfl
      · cases hholds
        exact Or.inr (Or.inl rfl)
      · obtain ⟨definition, hfound, hmem, _⟩ := holds_ref.1 hholds
        cases hfound.symm.trans (show _ = .ok (boxHolding .int) from rfl)
        exact Or.inr (Or.inr (List.mem_singleton.1 hmem))
      · cases hholds
  refine ⟨hbuild, hheld, ?_⟩
  refine (@holding_ends defaultFuel shelves shelvesProgram hbuild
    ⟨by decide, by decide, by simp [shelves]⟩ [] (by simp) _ rfl _ (by decide)
    fun ref hleads hne => ?_).1
  rcases hmet hleads with heq | heq | heq
  · cases heq
  · exact heq ▸ hheld
  · cases heq

/-- Nodes that hold the next one. -/
def nodeDef : TypeDef :=
  { name := "Node", generics := ["T"], origin := "main.mer",
    body := .record [{ name := "value", type := .param "T" },
      { name := "next", type := .named "Node" none [.param "T"] "main.mer" }] }

/-- A reference to nodes of numbers. -/
def nodeOfInt : TypeRef :=
  ⟨"Node", none, [.int], "main.mer"⟩

/-- A function that takes such a node. -/
def takesNode : FunctionDef :=
  { name := "f"
    parameters := [{ name := "x", type := nodeOfInt.toType }]
    origin := "main.mer" }

/-- A project in which only the function mentions nodes of numbers. -/
def nodes : Project :=
  { files := [{ name := "main.mer", package := "app", types := [nodeDef]
                functions := [takesNode] }] }

/-- Its program.  Comparing the function with others has entered nodes of numbers. -/
def nodesProgram : Program :=
  { types :=
      { project := nodes
        stored := [("app::Node<1>", nodeDef)]
        instances := [("app::Node<Int>", nodeDef.instantiate (.ofLists ["T"] [.int]))] }
    functions := { entries := [{ package := "app", function := takesNode }] } }

/-- A program is built from the project, and the node exists and holds itself. -/
theorem unwalked_node_holds_itself :
    Program.build defaultFuel nodes = .ok nodesProgram ∧
      nodeOfInt.toType.isGeneric = false ∧
      (verify nodeOfInt.toType).answer nodesProgram.types = .ok () ∧
      nodesProgram.types.Holds nodeOfInt.toType nodeOfInt.toType := by
  refine ⟨rfl, rfl, rfl, holds_ref.2 ⟨_, rfl, ?_, rfl⟩⟩
  exact List.mem_cons_of_mem _ List.mem_cons_self

end Accord
