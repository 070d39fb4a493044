import Accord.Proofs.Package.Conflict
import Accord.Proofs.Types.Transparent

/-!
# Looking types up is unambiguous

A reference without a package in front is looked up in the package of its file and in the
packages that the file imports.  In an accepted project at most one of them has a definition of
its name and number of type arguments, so the order of the imports does not matter.

* `Project.seen_unique` is the part of the conflict check: the packages that a file sees are
  within the reach of its own package.
* `Accepted.defines` goes from the keys of the table to the patterns of the check.
* `locate_package` says what a look-up answers after any questions, and `Accepted.reimports`
  that a project stays accepted when its imports are listed in another way.
-/

namespace Accord

open Query TypeTable TypeExpr

variable {package name one other pattern : String} {table base grown : TypeTable}
  {definition : TypeDef} {ref : TypeRef} {names : List String} {file : SourceFile}

/-! ## What a file sees -/

namespace Project

variable {project : Project}

/-- The package is that of the file, or the file imports it. -/
def Sees (project : Project) (file package : String) : Prop :=
  project.packageOf? file = some package ∨ package ∈ project.importsOf file

theorem mem_visiblePackages {file : String} :
    package ∈ project.visiblePackages none file ↔ project.Sees file package := by
  rw [visiblePackages, mem_foldl_addNew, Option.mem_toList, Sees]

/-- What a file sees is within the reach of its package. -/
theorem Sees.reach (h : project.Sees name package) :
    ∃ file, project.file? name = some file ∧ file ∈ project.files ∧
      Relation.ReflTransGen project.Imports file.package package := by
  unfold Sees packageOf? importsOf at h
  cases hfile : project.file? name with
  | none => simp [hfile] at h
  | some file =>
    have hmem : file ∈ project.files := Project.mem_of_file? hfile
    refine ⟨file, rfl, hmem, ?_⟩
    rw [hfile] at h
    rcases h with hown | himport
    · rw [← Option.some.inj hown]
    · exact .single ⟨file, hmem, rfl, himport⟩

/-- In a project that passes the conflict check, a file sees a pattern in one package only. -/
theorem seen_unique (hchecked : project.checkPackages = .ok ()) (hone : project.Sees name one)
    (hother : project.Sees name other) (hdefines : project.Defines one pattern)
    (hdefines' : project.Defines other pattern) : one = other := by
  obtain ⟨file, hfile, hmem, hreach⟩ := hone.reach
  obtain ⟨file', hfile', _, hreach'⟩ := hother.reach
  rw [hfile] at hfile'
  cases hfile'
  exact checkPackages_eq_ok.1 hchecked file.package (mem_packages.2 (List.mem_map_of_mem hmem))
    pattern one other ⟨hreach, hdefines⟩ ⟨hreach', hdefines'⟩

end Project

/-! ## From keys to patterns -/

/-- The table has a definition of the name and arity under the key of the package. -/
def TypeTable.Declares (table : TypeTable) (package name : String) (arity : Nat) : Prop :=
  ∃ definition, (typeKey package name arity, definition) ∈ table.stored ∧
    definition.name = name ∧ definition.generics.length = arity

/-- Definitions stand under the key of the package of their file. -/
def TypeTable.Homed (table : TypeTable) : Prop :=
  ∀ entry ∈ table.stored, ∃ package,
    table.project.packageOf? entry.2.origin = some package ∧
      entry.1 = typeKey package entry.2.name entry.2.generics.length

theorem TypeTable.Reached.homed (h : table.Reached) : table.Homed := by
  induction h with
  | empty project => exact fun _ hentry => absurd hentry List.not_mem_nil
  | stored _ hstore ih =>
    obtain ⟨package, hpackage, rfl⟩ := store_eq_ok hstore
    exact List.forall_mem_append.2 ⟨ih, List.forall_mem_singleton.2 ⟨package, hpackage, rfl⟩⟩
  | @located table grown ref names _ _ _ _ _ hlocate ih =>
    have hover := locateNamed_keeps ref names table (.refl table)
    rw [after_of_ok hlocate] at hover
    unfold Homed
    rw [hover.project, hover.stored]
    exact ih

/-- Definitions of one name and number of type parameters have one pattern. -/
theorem TypeDef.pattern_congr {one other : TypeDef} (hname : one.name = other.name)
    (hgenerics : one.generics.length = other.generics.length) : one.pattern = other.pattern := by
  unfold pattern
  rw [hname, List.map_const', List.map_const', hgenerics]

/-- The project passes the conflict check, the table is that of its definitions, names are
plain, and definitions say in which file they stand. -/
structure Accepted (project : Project) (base : TypeTable) : Prop where
  distinct : (project.files.map (·.name)).Nodup
  files : ∀ file ∈ project.files, file.plain = true
  definitions : ∀ file ∈ project.files, ∀ definition ∈ file.types, definition.plain = true
  origins : ∀ file ∈ project.files, ∀ definition ∈ file.types, definition.origin = file.name
  checked : project.checkPackages = .ok ()
  table : ofProject project = .ok base

namespace Accepted

variable {project : Project}

section

variable (h : Accepted project base)

include h

theorem reached : base.Reached :=
  (stored_of_foldlM h.table (.empty project)).1

theorem project_eq : base.project = project :=
  (stored_of_foldlM h.table (.empty project)).2.1

theorem spelled : base.Spelled := by
  refine spelled_of_foldlM h.files (fun definition hmem => ?_) h.table
  obtain ⟨file, hfile, hdefinition⟩ := List.mem_flatMap.1 hmem
  exact h.definitions file hfile definition hdefinition

/-- What the table has of a package stands in a file of the package. -/
theorem file_of_mem_stored {entry : String × TypeDef} (hentry : entry ∈ base.stored) :
    ∃ file ∈ project.files, entry.2 ∈ file.types ∧
      entry.1 = typeKey file.package entry.2.name entry.2.generics.length := by
  obtain ⟨package, hpackage, hkey⟩ := h.reached.homed entry hentry
  obtain ⟨_, _, _, hstored⟩ := stored_of_foldlM h.table (.empty project)
  obtain ⟨hitem, _⟩ := (hstored entry hentry).resolve_left List.not_mem_nil
  obtain ⟨file, hfile, hdefinition⟩ := List.mem_flatMap.1 hitem
  refine ⟨file, hfile, hdefinition, ?_⟩
  rw [h.project_eq, h.origins file hfile _ hdefinition, Project.packageOf?,
    Project.file?_of_mem h.distinct hfile] at hpackage
  rw [hkey, ← Option.some.inj hpackage]

/-- The package of a key defines the pattern of what stands under it. -/
theorem defines {arity : Nat} (hpackage : isPlainName package) (hname : isPlainName name)
    (hentry : (typeKey package name arity, definition) ∈ base.stored) :
    project.Defines package definition.pattern ∧ definition.name = name ∧
      definition.generics.length = arity := by
  obtain ⟨file, hfile, hmem, hkey⟩ := h.file_of_mem_stored hentry
  dsimp only at hmem hkey
  have hfilePlain := h.files file hfile
  have hdefinitionPlain := h.definitions file hfile definition hmem
  simp only [SourceFile.plain, TypeDef.plain, Bool.and_eq_true] at hfilePlain hdefinitionPlain
  obtain ⟨rfl, rfl, rfl⟩ := typeKey_inj hpackage hname hfilePlain.1 hdefinitionPlain.1 hkey
  exact ⟨⟨file, hfile, rfl, definition, hmem, rfl⟩, rfl, rfl⟩

/-- What a look-up sees stands in one package only. -/
theorem unique (hplain : ref.plain)
    (hone : one ∈ base.scopesOf ref) (hother : other ∈ base.scopesOf ref)
    (hdeclares : base.Declares one ref.name ref.arguments.length)
    (hdeclares' : base.Declares other ref.name ref.arguments.length) : one = other := by
  have hscopes := h.spelled.scopes hplain
  have hname := (TypeRef.plain_iff.1 hplain).1
  unfold scopesOf at hone hother
  cases hqualifier : ref.qualifier with
  | some package =>
    rw [hqualifier, Project.visiblePackages, List.mem_singleton] at hone hother
    rw [hone, hother]
  | none =>
    obtain ⟨definition, hentry, _⟩ := hdeclares
    obtain ⟨definition', hentry', _⟩ := hdeclares'
    obtain ⟨hdefines, hsame, hcount⟩ := h.defines (hscopes one hone) hname hentry
    obtain ⟨hdefines', hsame', hcount'⟩ := h.defines (hscopes other hother) hname hentry'
    rw [TypeDef.pattern_congr (hsame.trans hsame'.symm) (hcount.trans hcount'.symm)] at hdefines
    rw [hqualifier, h.project_eq, Project.mem_visiblePackages] at hone hother
    exact Project.seen_unique h.checked hone hother hdefines hdefines'

/-- A reference is at home where it sees a definition. -/
theorem home?_eq_some (hplain : ref.plain) :
    base.home? ref = some package ↔
      package ∈ base.scopesOf ref ∧ base.Declares package ref.name ref.arguments.length := by
  have hscopes := h.spelled.scopes hplain
  have hname := (TypeRef.plain_iff.1 hplain).1
  have hfound {home : String} {declared : TypeDef}
      (hdeclared : base.declaration? ref = some (home, declared)) :
      home ∈ base.scopesOf ref ∧ base.Declares home ref.name ref.arguments.length := by
    obtain ⟨hscope, hlookup⟩ := lookup_of_declaration hdeclared
    have hentry := mem_of_lookup hlookup
    exact ⟨hscope, declared, hentry, (h.defines (hscopes home hscope) hname hentry).2⟩
  constructor
  · intro hhome
    obtain ⟨⟨home, declared⟩, hdeclared, rfl⟩ := Option.map_eq_some_iff.1 hhome
    exact hfound hdeclared
  · rintro ⟨hscope, hdeclares⟩
    cases hdeclared : base.declaration? ref with
    | none =>
      -- The look-up would have come to this package.
      obtain ⟨definition, hentry, _⟩ := hdeclares
      have hnone := List.findSome?_eq_none_iff.1 hdeclared package hscope
      rw [Option.map_eq_none_iff, List.lookup_eq_none_iff] at hnone
      simpa using hnone _ hentry
    | some found =>
      obtain ⟨hscope', hdeclares'⟩ := hfound hdeclared
      rw [home?, hdeclared, Option.map_some, h.unique hplain hscope' hscope hdeclares' hdeclares]

end

end Accepted

/-! ## What a look-up answers -/

/-- A reference whose type arguments have names is found in its home, or unknown if it has
none. -/
theorem locate_package (hbase : base.Spelled)
    (htable : base.GrownBy (fun type => type.plain) table) (hplain : ref.plain)
    (hnames : base.spellings? ref.arguments = some names) :
    ((locate ref).answer table).map Prod.fst =
      match base.home? ref with
      | some package => .ok package
      | none => .error (.unknownType ref.render ref.origin) := by
  have hconfines := hbase.confines
  obtain ⟨found, t, hfirst, ht, hfound⟩ := (canonicalNames_spells hconfines _
    (hconfines.arguments hplain) table htable).exists_ok fun _ _ hnone =>
      nomatch hnone.2.symm.trans hnames
  have hlocated := locateNamed_answer hconfines hplain hfound ht
  rw [answer, show locate ref table = locateNamed ref found t from bind_of_ok hfirst]
  generalize locateNamed ref found t = result at hlocated ⊢
  cases hlocated with
  | ok hanswer =>
    rw [hanswer.2.home]
    rfl
  | error hnone =>
    rw [hnone.2.1, hnone.2.2]
    rfl

theorem TypeExpr.plain_of_mem_refs (type : TypeExpr) (h : type.plain) :
    ∀ ref ∈ type.refs, ref.plain := by
  induction type using TypeExpr.induct with
  | step type ih =>
    cases type with
    | primitive | param => exact List.forall_mem_nil _
    | pointer part | slice part | array _ part => exact ih part (.head _) h
    | union =>
      exact forall_mem_refsAll.2 fun part hmem => ih part hmem (plainAll_iff.1 h part hmem)
    | named name qualifier arguments origin =>
      have href : TypeRef.plain ⟨name, qualifier, arguments, origin⟩ := h
      exact List.forall_mem_cons.2 ⟨href, forall_mem_refsAll.2 fun part hmem =>
        ih part hmem (plainAll_iff.1 (TypeRef.plain_iff.1 href).2.2 part hmem)⟩

/-! ## Listing imports in another way -/

/-- The files differ only in the order and the repetition of their imports. -/
structure SourceFile.Reimports (file other : SourceFile) : Prop where
  name : other.name = file.name
  package : other.package = file.package
  types : other.types = file.types
  imports : ∀ package, package ∈ other.imports ↔ package ∈ file.imports

theorem SourceFile.Reimports.symm {other : SourceFile} (h : file.Reimports other) :
    other.Reimports file :=
  ⟨h.name.symm, h.package.symm, h.types.symm, fun package => (h.imports package).symm⟩

/-- The projects differ only in how their files list their imports. -/
def Project.Reimports (project other : Project) : Prop :=
  List.Forall₂ SourceFile.Reimports project.files other.files

namespace Project.Reimports

variable {project other : Project} (h : project.Reimports other)

include h

theorem symm : other.Reimports project :=
  List.Forall₂.flip (h.imp fun _ _ hfile => hfile.symm)

theorem map_eq {β : Type} {view : SourceFile → β}
    (hview : ∀ file file', file.Reimports file' → view file' = view file) :
    other.files.map view = project.files.map view := by
  unfold Reimports at h
  generalize project.files = left, other.files = right at h
  induction h with
  | nil => rfl
  | cons hfile _ ih => rw [List.map_cons, List.map_cons, hview _ _ hfile, ih]

theorem mem (hmem : file ∈ other.files) : ∃ same ∈ project.files, same.Reimports file :=
  exists_of_mem_left (List.Forall₂.flip h) hmem

theorem imports {target : String}
    (himports : project.Imports package target) : other.Imports package target := by
  obtain ⟨file, hfile, rfl, hmem⟩ := himports
  obtain ⟨same, hsame, hreimports⟩ := h.symm.mem hfile
  exact ⟨same, hsame, hreimports.package.symm, (hreimports.imports target).1 hmem⟩

theorem defines (hdefines : project.Defines package pattern) : other.Defines package pattern := by
  obtain ⟨file, hfile, rfl, hdefinition⟩ := hdefines
  obtain ⟨same, hsame, hreimports⟩ := h.symm.mem hfile
  exact ⟨same, hsame, hreimports.package.symm, hreimports.types ▸ hdefinition⟩

theorem checked (hchecked : project.checkPackages = .ok ()) : other.checkPackages = .ok () := by
  rw [checkPackages_eq_ok] at hchecked ⊢
  have hpackages : other.packages = project.packages := by
    rw [packages_eq, packages_eq, h.map_eq fun _ _ hfile => hfile.package]
  rw [hpackages]
  intro package hpackage
  refine (hchecked package hpackage).mono fun owner pattern hclaim => ⟨?_, ?_⟩
  · exact hclaim.1.lift id fun _ _ => h.symm.imports
  · exact h.symm.defines hclaim.2

theorem file? (name : String) :
    Option.Rel SourceFile.Reimports (project.file? name) (other.file? name) := by
  unfold Reimports at h
  rw [file?_eq, file?_eq]
  generalize project.files = left, other.files = right at h
  induction h with
  | nil => exact .none
  | @cons file file' _ _ hfile _ ih =>
    by_cases hname : file.name = name
    · have hname' : file'.name = name := hfile.name.trans hname
      rw [List.find?_cons_of_pos (by simpa using hname),
        List.find?_cons_of_pos (by simpa using hname')]
      exact .some hfile
    · have hname' : file'.name ≠ name := fun heq => hname (hfile.name.symm.trans heq)
      rw [List.find?_cons_of_neg (by simpa using hname),
        List.find?_cons_of_neg (by simpa using hname')]
      exact ih

theorem packageOf? (name : String) : other.packageOf? name = project.packageOf? name := by
  have hfile := h.file? name
  unfold Project.packageOf?
  generalize project.file? name = left, other.file? name = right at hfile
  cases hfile with
  | none => rfl
  | some hfile => exact congrArg some hfile.package

theorem sees : other.Sees name package ↔ project.Sees name package := by
  refine or_congr (by rw [h.packageOf?]) ?_
  have hfile := h.file? name
  unfold Project.importsOf
  generalize project.file? name = left, other.file? name = right at hfile
  cases hfile with
  | none => exact Iff.rfl
  | some hfile => exact hfile.imports package

/-! ### The table -/

theorem store (htable : table.project = project) (hstore : table.store definition = .ok grown) :
    store { table with project := other } definition = .ok { grown with project := other } := by
  unfold TypeTable.store at hstore ⊢
  rw [h.packageOf?]
  rw [htable] at hstore
  cases hpackage : project.packageOf? definition.origin with
  | none =>
    rw [hpackage] at hstore
    cases hstore
  | some package =>
    rw [hpackage] at hstore
    simp only [find?] at hstore ⊢
    split at hstore
    · cases hstore
    · cases hstore
      rfl

theorem foldlM_store {definitions : List TypeDef} (htable : table.project = project)
    (hstore : definitions.foldlM TypeTable.store table = .ok grown) :
    definitions.foldlM TypeTable.store { table with project := other } =
      .ok { grown with project := other } := by
  induction definitions generalizing table with
  | nil =>
    cases hstore
    rfl
  | cons definition rest ih =>
    obtain ⟨next, hfirst, hstore⟩ := Except.bind_eq_ok.1 hstore
    rw [List.foldlM_cons, h.store htable hfirst]
    obtain ⟨_, _, rfl⟩ := store_eq_ok hfirst
    exact ih htable hstore

theorem ofProject (hbase : ofProject project = .ok base) :
    TypeTable.ofProject other = .ok { base with project := other } := by
  unfold TypeTable.ofProject at hbase ⊢
  rw [List.flatMap_def, h.map_eq fun _ _ hfile => hfile.types, ← List.flatMap_def]
  exact h.foldlM_store rfl hbase

end Project.Reimports

namespace Accepted

variable {project other : Project}

theorem reimports (h : Accepted project base) (hother : project.Reimports other) :
    Accepted other { base with project := other } where
  distinct := by
    rw [hother.map_eq fun _ _ hfile => hfile.name]
    exact h.distinct
  files := by
    intro file hfile
    obtain ⟨same, hsame, hreimports⟩ := hother.mem hfile
    have hplain := h.files same hsame
    simp only [SourceFile.plain, Bool.and_eq_true, List.all_eq_true] at hplain ⊢
    refine ⟨hreimports.package ▸ hplain.1, fun package hmem => ?_⟩
    exact hplain.2 package ((hreimports.imports package).1 hmem)
  definitions := by
    intro file hfile
    obtain ⟨same, hsame, hreimports⟩ := hother.mem hfile
    rw [hreimports.types]
    exact h.definitions same hsame
  origins := by
    intro file hfile
    obtain ⟨same, hsame, hreimports⟩ := hother.mem hfile
    rw [hreimports.types, hreimports.name]
    exact h.origins same hsame
  checked := hother.checked h.checked
  table := hother.ofProject h.table

/-- However imports are listed, a reference is at home in the same package. -/
theorem home?_reimports (h : Accepted project base) (hother : project.Reimports other)
    (hplain : ref.plain) : home? { base with project := other } ref = base.home? ref := by
  have hscopes (package : String) :
      package ∈ scopesOf { base with project := other } ref ↔ package ∈ base.scopesOf ref := by
    unfold scopesOf
    cases ref.qualifier with
    | some qualifier => exact Iff.rfl
    | none => rw [Project.mem_visiblePackages, Project.mem_visiblePackages, h.project_eq,
        hother.sees]
  ext package
  rw [(h.reimports hother).home?_eq_some hplain, h.home?_eq_some hplain, hscopes]
  exact Iff.rfl

end Accepted

/-- Looking types up is unambiguous in a project that is accepted, after any questions.  A
reference without a package in front whose type arguments resolve is found in the one package,
among that of its file and those the file imports, that has a definition of its name and number
of type arguments, and is unknown if there is none.  If the imports of any files are listed in
another order, or some of them again, the project is still accepted and the answer the same. -/
theorem locate_unambiguous {files : List SourceFile} {project : Project} {base : TypeTable}
    (hproject : Project.ofFiles files = .ok project)
    (hfiles : ∀ file ∈ project.files, file.plain = true)
    (hdefinitions : ∀ file ∈ project.files, ∀ definition ∈ file.types, definition.plain = true)
    (horigins : ∀ file ∈ project.files, ∀ definition ∈ file.types, definition.origin = file.name)
    (hchecked : project.checkPackages = .ok ()) (hbase : ofProject project = .ok base)
    {questions : List TypeQuestion}
    (hquestions : ∀ question ∈ questions, question.subject.plain = true)
    {ref : TypeRef} (hplain : ref.plain = true) (hqualifier : ref.qualifier = none)
    {names : List String}
    (hnames : (canonicalNames ref.arguments).answer
      (questions.foldl TypeQuestion.ask base) = .ok names) :
    (∀ one other, project.Sees ref.origin one → project.Sees ref.origin other →
      base.Declares one ref.name ref.arguments.length →
      base.Declares other ref.name ref.arguments.length → one = other) ∧
    (∀ package, project.Sees ref.origin package →
      base.Declares package ref.name ref.arguments.length →
        ∃ definition, (locate ref).answer (questions.foldl TypeQuestion.ask base) =
          .ok (package, definition)) ∧
    ((∀ package, project.Sees ref.origin package →
      ¬ base.Declares package ref.name ref.arguments.length) →
        (locate ref).answer (questions.foldl TypeQuestion.ask base) =
          .error (.unknownType ref.render ref.origin)) ∧
    ∀ other, project.Reimports other →
      other.checkPackages = .ok () ∧
      ∃ table, ofProject other = .ok table ∧
        ∀ asked : List TypeQuestion, (∀ question ∈ asked, question.subject.plain = true) →
          ((locate ref).answer (asked.foldl TypeQuestion.ask table)).map Prod.fst =
            ((locate ref).answer (questions.foldl TypeQuestion.ask base)).map Prod.fst := by
  have haccepted : Accepted project base :=
    ⟨Project.nodup_of_ofFiles hproject, hfiles, hdefinitions, horigins, hchecked, hbase⟩
  have hspelled := haccepted.spelled
  have hgrown := asked_grows hspelled.confines hquestions (hspelled.grownBy _)
  have hspellings : base.spellings? ref.arguments = some names :=
    (answer_canonicalNames hspelled.confines hgrown (hspelled.confines.arguments hplain)).1 hnames
  have hpackage := locate_package hspelled hgrown hplain hspellings
  have hscopes (package : String) :
      package ∈ base.scopesOf ref ↔ project.Sees ref.origin package := by
    rw [scopesOf, hqualifier, haccepted.project_eq, Project.mem_visiblePackages]
  refine ⟨fun one other hone hother => ?_, fun package hsees hdeclares => ?_, fun hnone => ?_,
    fun other hother => ⟨hother.checked hchecked, _, hother.ofProject hbase, ?_⟩⟩
  · exact haccepted.unique hplain ((hscopes one).2 hone) ((hscopes other).2 hother)
  · rw [(haccepted.home?_eq_some hplain).2 ⟨(hscopes package).2 hsees, hdeclares⟩] at hpackage
    cases hanswer : (locate ref).answer (questions.foldl TypeQuestion.ask base) with
    | error cause =>
      rw [hanswer] at hpackage
      cases hpackage
    | ok found =>
      rw [hanswer] at hpackage
      cases hpackage
      exact ⟨found.2, rfl⟩
  · have hhome : base.home? ref = none := by
      refine Option.eq_none_iff_forall_ne_some.2 fun package hhome => ?_
      obtain ⟨hscope, hdeclares⟩ := (haccepted.home?_eq_some hplain).1 hhome
      exact hnone package ((hscopes package).1 hscope) hdeclares
    rw [hhome] at hpackage
    cases hanswer : (locate ref).answer (questions.foldl TypeQuestion.ask base) with
    | error cause =>
      rw [hanswer] at hpackage
      cases hpackage
      rfl
    | ok found =>
      rw [hanswer] at hpackage
      cases hpackage
  · intro asked hasked
    have hspelled' := (haccepted.reimports hother).spelled
    have harguments := (List.forall_mem_cons.1 (plain_of_mem_refs _ hplain)).2
    have hsame := spellings?_congr ref.arguments fun inner hmem =>
      haccepted.home?_reimports hother (harguments inner hmem)
    rw [hpackage, locate_package hspelled' (asked_grows hspelled'.confines hasked
      (hspelled'.grownBy _)) hplain (hsame.trans hspellings),
      haccepted.home?_reimports hother hplain]

/-- Items in one package, and boxes in another that imports the given ones. -/
def boxFiles (imports : List String) : List SourceFile :=
  [{ name := "lib.mer", package := "lib", types := [itemIn "lib.mer"] },
    { name := "util.mer", package := "util" },
    { name := "main.mer", package := "app", imports, types := [boxDef] }]

/-- The definitions of these packages. -/
def boxFilesTable (imports : List String) : TypeTable :=
  { project := { files := boxFiles imports }
    stored := [("lib::Item", itemIn "lib.mer"), ("app::Box<1>", boxDef)] }

/-- A box of items is asked for with the package of the items in front and then without.  It is
found in the package of boxes, however the imports are listed. -/
theorem box_located_among_imports :
    ((locate (boxOf (item none))).answer ([.retrieve (boxOf (item (some "lib")))].foldl
        TypeQuestion.ask (boxFilesTable ["lib", "util"])) =
      .ok ("app", boxHolding (item (some "lib")))) ∧
    ((locate (boxOf (item none))).answer (boxFilesTable ["util", "lib", "util"])).map Prod.fst =
      .ok "app" := by
  have hanswer : (locate (boxOf (item none))).answer
      ([.retrieve (boxOf (item (some "lib")))].foldl TypeQuestion.ask
        (boxFilesTable ["lib", "util"])) = .ok ("app", boxHolding (item (some "lib"))) := rfl
  have hreimports : Project.Reimports { files := boxFiles ["lib", "util"] }
      { files := boxFiles ["util", "lib", "util"] } := by
    refine .cons ⟨rfl, rfl, rfl, fun _ => Iff.rfl⟩ (.cons ⟨rfl, rfl, rfl, fun _ => Iff.rfl⟩
      (.cons ⟨rfl, rfl, rfl, fun package => ?_⟩ .nil))
    grind
  obtain ⟨_, _, _, hsame⟩ := @locate_unambiguous (boxFiles ["lib", "util"])
    { files := boxFiles ["lib", "util"] } (boxFilesTable ["lib", "util"]) rfl (by decide)
    (by decide) (by decide) rfl rfl [.retrieve (boxOf (item (some "lib")))] (by decide) (boxOf (item none))
    (by decide) rfl ["lib::Item"] rfl
  obtain ⟨_, table, htable, hlocated⟩ := hsame _ hreimports
  cases htable.symm.trans (show _ = .ok (boxFilesTable ["util", "lib", "util"]) from rfl)
  refine ⟨hanswer, ?_⟩
  have hlast := hlocated [] (by simp)
  rw [hanswer] at hlast
  exact hlast

end Accord
