import Accord.Proofs.Package.Files
import Accord.Proofs.Text.PlainName
import Accord.Proofs.Types.Frame

/-!
# Look-ups in an orderly table

What a look-up finds depends on the stored definitions and not on the instances that
happen to be in the table.  That takes plain names, so that no two keys are alike by
accident, and it takes that only records are generic, so that an instance is a record
whichever reference it was first made for.

* `TypeTable.Stable` joins these two conditions, and `TypeTable.Reached` the tables that
  storing definitions and looking references up lead to.
* `TypeTable.Orderly` is the invariant of such tables (`orderly_of_reached`), and
  `TypeTable.Keyed` the part of it that does not need the second condition.
* `TypeTable.declaration?` is what a reference refers to: the first visible package that
  stores a definition of its name and number of type arguments, with that definition.
* `locateNamed_of_declaration` says that looking up finds the declaration, in every
  orderly table, and leaves the table orderly.
-/

namespace Accord

open Query TypeTable TypeRef

variable {definition : TypeDef} {ref : TypeRef} {table base : TypeTable}

/-! ## Plain names -/

namespace TypeExpr

mutual

/-- Whether every name in a type is plain. -/
def plain : TypeExpr → Bool
  | .primitive name => isPlainName name
  | .param name => isPlainName name
  | .named name qualifier arguments _ =>
    isPlainName name && qualifier.all isPlainName && plainAll arguments
  | .pointer target => target.plain
  | .array _ element => element.plain
  | .slice element => element.plain
  | .union alternatives => plainAll alternatives

/-- Whether every name in several types is plain. -/
def plainAll : List TypeExpr → Bool
  | [] => true
  | type :: rest => type.plain && plainAll rest

end

theorem plainAll_iff {types : List TypeExpr} : plainAll types ↔ ∀ type ∈ types, type.plain := by
  induction types with
  | nil => simp [plainAll]
  | cons type rest ih => simp [plainAll, ih]

end TypeExpr

/-- Whether every name in a reference is plain. -/
def TypeRef.plain (ref : TypeRef) : Bool :=
  ref.toType.plain

theorem TypeRef.plain_iff :
    ref.plain ↔ isPlainName ref.name ∧ ref.qualifier.all isPlainName ∧
      TypeExpr.plainAll ref.arguments := by
  simp [TypeRef.plain, TypeRef.toType, TypeExpr.plain, and_assoc]

theorem inherited_plain : Inherited fun type => type.plain where
  target := id
  held := id
  element := id
  alternatives := TypeExpr.plainAll_iff.1
  arguments href := TypeExpr.plainAll_iff.1 (plain_iff.1 href).2.2

/-- Whether the body is that of a record. -/
def TypeBody.isRecord : TypeBody → Bool
  | .record _ => true
  | _ => false

theorem TypeBody.isRecord_substitute (rules : Substitution) (body : TypeBody) :
    (body.substitute rules).isRecord = body.isRecord := by
  cases body <;> rfl

/-- Whether every name in a definition is plain. -/
def TypeDef.plain (definition : TypeDef) : Bool :=
  isPlainName definition.name && definition.body.components.all (·.plain)

/-- Whether the package of a file and those it imports have plain names. -/
def SourceFile.plain (file : SourceFile) : Bool :=
  isPlainName file.package && file.imports.all isPlainName

/-- Every name is plain. -/
structure TypeTable.Plain (table : TypeTable) : Prop where
  files : ∀ file ∈ table.project.files, file.plain = true
  definitions : ∀ entry ∈ table.stored, entry.2.plain = true

/-- Unions and aliases have no type parameters. -/
abbrev TypeTable.OnlyRecordsGeneric (table : TypeTable) : Prop :=
  ∀ entry ∈ table.stored, entry.2.isGeneric = true → entry.2.body.isRecord = true

/-- Every name is plain, and only records are generic. -/
structure TypeTable.Stable (table : TypeTable) : Prop extends table.Plain where
  generics : table.OnlyRecordsGeneric

/-- A table that storing definitions and looking plain references up leads to. -/
inductive TypeTable.Reached : TypeTable → Prop where
  | empty (project : Project) : Reached { project }
  | stored {table grown : TypeTable} {definition : TypeDef} (reached : Reached table)
      (store : table.store definition = .ok grown) : Reached grown
  | located {table grown : TypeTable} {ref : TypeRef} {names : List String}
      {answer : String × TypeDef} (reached : Reached table) (plain : ref.plain = true)
      (length : names.length = ref.arguments.length)
      (texts : ∀ name ∈ names, ArgumentText name)
      (locate : locateNamed ref names table = .ok answer grown) : Reached grown

/-! ## The invariant -/

/-- The key is that of an instance of a stored definition, spelled by argument texts. -/
def TypeTable.HoldsInstance (table : TypeTable) (key : String) : Prop :=
  ∃ package name texts, isPlainName package = true ∧ isPlainName name = true ∧ texts ≠ [] ∧
    (∀ text ∈ texts, ArgumentText text) ∧
    key = package ++ "::" ++ name ++ angled "," texts ∧
    (table.stored.lookup (typeKey package name texts.length)).isSome

/-- Every name is plain, and keys say what they stand for. -/
structure TypeTable.Keyed (table : TypeTable) : Prop where
  files : ∀ file ∈ table.project.files, file.plain = true
  definitions : ∀ entry ∈ table.stored, entry.2.plain = true
  keys : ∀ entry ∈ table.stored, ∃ package, isPlainName package = true ∧
    entry.1 = typeKey package entry.2.name entry.2.generics.length
  instanceKeys : ∀ entry ∈ table.instances, table.HoldsInstance entry.1

/-- Keys say what they stand for, and instances are records. -/
structure TypeTable.Orderly (table : TypeTable) : Prop extends table.Stable where
  keys : ∀ entry ∈ table.stored, ∃ package, isPlainName package = true ∧
    entry.1 = typeKey package entry.2.name entry.2.generics.length
  instanceKeys : ∀ entry ∈ table.instances, table.HoldsInstance entry.1
  instanceRecords : ∀ entry ∈ table.instances, entry.2.body.isRecord = true

theorem TypeTable.Orderly.keyed (h : table.Orderly) : table.Keyed :=
  ⟨h.files, h.definitions, h.keys, h.instanceKeys⟩

/-- An orderly table that has grown from another by instances. -/
structure TypeTable.Grown (table grown : TypeTable) : Prop extends table.Over grown where
  orderly : grown.Orderly

theorem TypeTable.Orderly.grown (h : table.Orderly) : table.Grown table :=
  ⟨Over.refl table, h⟩

variable {grown : TypeTable}

namespace TypeTable.Keyed

variable {package name : String}

/-- A stored definition has as many type parameters as its key says. -/
theorem generics_of_lookup (h : table.Keyed) (hpackage : isPlainName package)
    (hname : isPlainName name) {arity : Nat}
    (hlookup : table.stored.lookup (typeKey package name arity) = some definition) :
    definition.generics.length = arity := by
  have hmem := mem_of_lookup hlookup
  obtain ⟨home, hhome, hkey⟩ := h.keys _ hmem
  have hplain := h.definitions _ hmem
  simp only [TypeDef.plain, Bool.and_eq_true] at hplain
  exact (typeKey_inj hpackage hname hhome hplain.1 hkey).2.2.symm

/-- No instance has the key of a definition. -/
theorem find_typeKey (h : table.Keyed) (hpackage : isPlainName package)
    (hname : isPlainName name) (arity : Nat) :
    table.find? (typeKey package name arity) = table.stored.lookup (typeKey package name arity) := by
  have hnone : table.instances.lookup (typeKey package name arity) = none := by
    cases hlookup : table.instances.lookup (typeKey package name arity) with
    | none => rfl
    | some made =>
      obtain ⟨home, other, texts, hhome, hother, hne, htexts, hkey, _⟩ :=
        h.instanceKeys _ (mem_of_lookup hlookup)
      exact absurd hkey.symm (instanceKey_ne_typeKey hhome hother hne htexts hpackage hname)
  rw [find?, hnone, Option.or_none]

/-- What stands under the key of an instance is an instance, and its generic definition is
stored. -/
theorem find_instanceKey (h : table.Keyed) (hpackage : isPlainName package)
    (hname : isPlainName name) {texts : List String} (hne : texts ≠ [])
    (htexts : ∀ text ∈ texts, ArgumentText text) {found : TypeDef}
    (hfind : table.find? (package ++ "::" ++ name ++ angled "," texts) = some found) :
    (table.stored.lookup (typeKey package name texts.length)).isSome ∧
      (package ++ "::" ++ name ++ angled "," texts, found) ∈ table.instances := by
  rw [find?] at hfind
  cases hstored : table.stored.lookup (package ++ "::" ++ name ++ angled "," texts) with
  | some definition =>
    have hmem := mem_of_lookup hstored
    obtain ⟨home, hhome, hkey⟩ := h.keys _ hmem
    have hplain := h.definitions _ hmem
    simp only [TypeDef.plain, Bool.and_eq_true] at hplain
    exact absurd hkey (instanceKey_ne_typeKey hpackage hname hne htexts hhome hplain.1)
  | none =>
    rw [hstored, Option.none_or] at hfind
    have hmem := mem_of_lookup hfind
    obtain ⟨home, other, texts', hhome, hother, _, htexts', hkey, hgeneric⟩ := h.instanceKeys _ hmem
    obtain ⟨rfl, rfl, rfl⟩ := instanceKey_inj hpackage hname htexts hhome hother htexts' hkey
    exact ⟨hgeneric, hmem⟩

/-- Entering an instance of a stored generic definition keeps keys telling. -/
theorem withInstance (h : table.Keyed) {key : String} (made : TypeDef)
    (hkey : table.HoldsInstance key) : (table.withInstance key made).Keyed where
  files := h.files
  definitions := h.definitions
  keys := h.keys
  instanceKeys := List.forall_mem_cons.2 ⟨hkey, h.instanceKeys⟩

end TypeTable.Keyed

/-! ## Declarations -/

/-- What a reference refers to: the first visible package that stores a definition of its
name and number of type arguments, and that definition. -/
def TypeTable.declaration? (table : TypeTable) (ref : TypeRef) : Option (String × TypeDef) :=
  (table.scopesOf ref).findSome? fun package =>
    (table.stored.lookup (typeKey package ref.name ref.arguments.length)).map (package, ·)

theorem TypeTable.Over.declaration?_eq (h : base.Over table)
    (ref : TypeRef) : table.declaration? ref = base.declaration? ref := by
  unfold declaration? scopesOf
  rw [h.project, h.stored]

/-- What is declared is stored, in a visible package. -/
theorem TypeTable.lookup_of_declaration
    {package : String} {declared : TypeDef} (h : base.declaration? ref = some (package, declared)) :
    package ∈ base.scopesOf ref ∧
      base.stored.lookup (typeKey package ref.name ref.arguments.length) = some declared := by
  obtain ⟨scope, hmem, hscope⟩ := List.exists_of_findSome?_eq_some h
  obtain ⟨definition, hlookup, heq⟩ := Option.map_eq_some_iff.1 hscope
  cases heq
  exact ⟨hmem, hlookup⟩

/-- The definition that a look-up finds: the declared one itself, or a record for a generic
one. -/
def FoundFor (ref : TypeRef) (declared found : TypeDef) : Prop :=
  (ref.arguments = [] ∧ found = declared) ∨
    (ref.arguments ≠ [] ∧ declared.isGeneric = true ∧ found.body.isRecord = true)

/-- The packages that a reference sees are among those that it and the files of the project
name. -/
theorem TypeTable.scopes_all {good : String → Prop}
    (hfiles : ∀ file ∈ table.project.files,
      good file.package ∧ ∀ package ∈ file.imports, good package)
    (hqualifier : ∀ package ∈ ref.qualifier, good package) :
    ∀ package ∈ table.scopesOf ref, good package := by
  intro package hmem
  unfold scopesOf Project.visiblePackages at hmem
  cases hwritten : ref.qualifier with
  | some qualifier =>
    rw [hwritten] at hmem
    rw [List.mem_singleton.1 hmem]
    exact hqualifier qualifier hwritten
  | none =>
    rw [hwritten] at hmem
    rcases mem_foldl_addNew.1 hmem with hown | himport
    · obtain ⟨file, hfound, rfl⟩ := Option.map_eq_some_iff.1 (Option.mem_toList.1 hown)
      exact (hfiles file (Project.mem_of_file? hfound)).1
    · unfold Project.importsOf at himport
      split at himport
      · rename_i file hfound
        exact (hfiles file (Project.mem_of_file? hfound)).2 package himport
      · cases himport

/-- The packages that a plain reference sees have plain names. -/
theorem TypeTable.Keyed.scopes (h : table.Keyed)
    (hplain : ref.plain) : ∀ package ∈ table.scopesOf ref, isPlainName package := by
  refine scopes_all (fun file hfile => ?_) fun package hpackage => ?_
  · simpa [SourceFile.plain] using h.files file hfile
  · have hall := (plain_iff.1 hplain).2.1
    rw [Option.mem_def.1 hpackage] at hall
    simpa using hall

/-- What is reported of a reference that is declared nowhere. -/
def TypeRef.unknown (ref : TypeRef) : Diagnostic :=
  .unknownType ref.render ref.origin

/-- The key of a reference in a package, where its type arguments have the given names. -/
abbrev TypeRef.keyIn (ref : TypeRef) (package : String) (names : List String) : String :=
  package ++ "::" ++ ref.name ++ argumentSuffix names

/-- What a look-up finds for a declared reference, and the table that it leaves: the declaration
itself, an instance that stands under the key, or one that is made and entered there. -/
inductive TypeTable.Found (table : TypeTable) (ref : TypeRef) (key : String) (declared : TypeDef) :
    TypeDef → TypeTable → Prop where
  | stored (arguments : ref.arguments = []) : Found table ref key declared declared table
  | known {found : TypeDef} (arguments : ref.arguments ≠ []) (find : table.find? key = some found) :
      Found table ref key declared found table
  | made (arguments : ref.arguments ≠ []) (free : table.find? key = none) :
      Found table ref key declared (declared.instantiate (.ofLists declared.generics ref.arguments))
        (table.withInstance key (declared.instantiate (.ofLists declared.generics ref.arguments)))

section Search

variable {names : List String} {package : String} {declared found : TypeDef}
  (hlength : names.length = ref.arguments.length)

include hlength

/-- The key of a reference without type arguments is the key of its definition. -/
theorem key_of_arguments (h : ref.arguments = []) :
    ref.keyIn package names = typeKey package ref.name ref.arguments.length := by
  have hnil : names = [] := List.eq_nil_of_length_eq_zero (by simp [hlength, h])
  simp [hnil, h, argumentSuffix, angled, typeKey]

theorem names_ne_nil (h : ref.arguments ≠ []) : names ≠ [] := by
  rintro rfl
  exact h (List.eq_nil_of_length_eq_zero hlength.symm)

/-- A package in which a look-up finds nothing stores no definition for it. -/
theorem not_stored_of_searchIn (h : table.searchIn ref (argumentSuffix names) package = none) :
    table.stored.lookup (typeKey package ref.name ref.arguments.length) = none := by
  have hstored : ∀ {key}, table.find? key = none → table.stored.lookup key = none := by
    intro key hnone
    rw [find?, Option.or_eq_none_iff] at hnone
    exact hnone.1
  rw [searchIn] at h
  split at h
  · cases h
  · rename_i hfree
    split at h
    · rename_i hempty
      rw [← key_of_arguments hlength (by simpa using hempty)]
      exact hstored hfree
    · exact hstored (Option.map_eq_none_iff.1 h)

variable (h : table.Keyed) (hplain : ref.plain = true) (hnames : ∀ name ∈ names, ArgumentText name)

include h hplain hnames

/-- What a look-up in one package finds is found for a definition that is stored there. -/
theorem TypeTable.Finds.exists_found (hpackage : isPlainName package)
    (hfinds : table.Finds ref package (ref.keyIn package names) found grown) :
    ∃ declared, table.stored.lookup (typeKey package ref.name ref.arguments.length) =
        some declared ∧ table.Found ref (ref.keyIn package names) declared found grown := by
  have hname := (plain_iff.1 hplain).1
  cases hfinds with
  | there hfind =>
    by_cases harguments : ref.arguments = []
    · rw [key_of_arguments hlength harguments, h.find_typeKey hpackage hname] at hfind
      exact ⟨found, hfind, .stored harguments⟩
    · have hinstance := h.find_instanceKey hpackage hname (names_ne_nil hlength harguments) hnames
        hfind
      rw [hlength] at hinstance
      obtain ⟨declared, hlookup⟩ := Option.isSome_iff_exists.1 hinstance.1
      exact ⟨declared, hlookup, .known harguments hfind⟩
  | entered harguments hfree hgeneric =>
    rw [h.find_typeKey hpackage hname] at hgeneric
    exact ⟨_, hgeneric, .made harguments hfree⟩

/-- A search stops at the first package that stores a definition. -/
theorem search_cases {packages : List String}
    (hpackages : ∀ package ∈ packages, isPlainName package) :
    match packages.findSome? fun package =>
        (table.stored.lookup (typeKey package ref.name ref.arguments.length)).map (package, ·) with
    | none => table.search ref (argumentSuffix names) packages = none
    | some (package, declared) => isPlainName package ∧ ∃ found grown,
        table.search ref (argumentSuffix names) packages = some (package, found, grown) ∧
          table.Found ref (ref.keyIn package names) declared found grown := by
  induction packages with
  | nil => rfl
  | cons package rest ih =>
    obtain ⟨hpackage, hrest⟩ := List.forall_mem_cons.1 hpackages
    rw [List.findSome?_cons]
    cases hsearch : table.searchIn ref (argumentSuffix names) package with
    | none =>
      simp only [not_stored_of_searchIn hlength hsearch, Option.map_none, search, hsearch]
      exact ih hrest
    | some result =>
      obtain ⟨declared, hlookup, hfound⟩ :=
        (finds_of_searchIn hsearch).exists_found hlength h hplain hnames hpackage
      rw [hlookup]
      exact ⟨hpackage, _, _, by rw [search, hsearch], hfound⟩

/-- A look-up finds what is declared, or reports the reference. -/
theorem TypeTable.Keyed.locateNamed_cases :
    match table.declaration? ref with
    | none => locateNamed ref names table = .error ref.unknown table
    | some (package, declared) => isPlainName package ∧ ∃ found grown,
        locateNamed ref names table = .ok (package, found) grown ∧
          table.Found ref (ref.keyIn package names) declared found grown := by
  have hsearch := search_cases hlength h hplain hnames (h.scopes hplain)
  unfold declaration? locateNamed
  revert hsearch
  cases (table.scopesOf ref).findSome? _ with
  | none =>
    intro hsearch
    rw [hsearch]
    rfl
  | some declaration =>
    rintro ⟨hpackage, found, grown, hsearch, hfound⟩
    exact ⟨hpackage, found, grown, by rw [hsearch], hfound⟩

variable (hpackage : isPlainName package)
  (hlookup : table.stored.lookup (typeKey package ref.name ref.arguments.length) = some declared)
  (hfound : table.Found ref (ref.keyIn package names) declared found grown)

include hpackage hlookup hfound

theorem TypeTable.Found.keyed : grown.Keyed := by
  cases hfound with
  | stored => exact h
  | known => exact h
  | made harguments =>
    exact h.withInstance _ ⟨package, ref.name, names, hpackage, (plain_iff.1 hplain).1,
      names_ne_nil hlength harguments, hnames, rfl, by simp [hlength, hlookup]⟩

omit hnames in
/-- What is found stands under the key from then on. -/
theorem TypeTable.Found.find? : grown.find? (ref.keyIn package names) = some found := by
  cases hfound with
  | stored harguments =>
    rw [key_of_arguments hlength harguments,
      h.find_typeKey hpackage (plain_iff.1 hplain).1, hlookup]
  | known _ hfind => exact hfind
  | made _ hfree =>
    rw [TypeTable.find?, Option.or_eq_none_iff] at hfree
    rw [TypeTable.find?, withInstance, hfree.1, Option.none_or, List.lookup_cons, beq_self_eq_true]

omit hnames in
/-- What stands under the key is found, and nothing is entered. -/
theorem TypeTable.Found.of_find? {other : TypeDef}
    (hfind : table.find? (ref.keyIn package names) = some other) :
    found = other ∧ grown = table := by
  have hlast := hfound.find? hlength h hplain hpackage hlookup
  cases hfound with
  | made _ hfree =>
    rw [hfree] at hfind
    cases hfind
  | _ =>
    rw [hfind] at hlast
    cases hlast
    exact ⟨rfl, rfl⟩

end Search

section Orderly

variable {names : List String} {package : String} {declared found : TypeDef} (h : table.Orderly)
  (hplain : ref.plain = true) (hlength : names.length = ref.arguments.length)
  (hnames : ∀ name ∈ names, ArgumentText name)

include h hplain hlength hnames

theorem TypeTable.Orderly.of_found (hpackage : isPlainName package)
    (hlookup : table.stored.lookup (typeKey package ref.name ref.arguments.length) = some declared)
    (hfound : table.Found ref (ref.keyIn package names) declared found grown) :
    table.Grown grown ∧ FoundFor ref declared found := by
  have hgeneric (harguments : ref.arguments ≠ []) : declared.isGeneric := by
    have hcount := h.keyed.generics_of_lookup hpackage (plain_iff.1 hplain).1 hlookup
    have hne : declared.generics ≠ [] := fun hnil =>
      harguments (List.eq_nil_of_length_eq_zero (by rw [← hcount, hnil]; rfl))
    simpa [TypeDef.isGeneric] using hne
  have hkeyed := hfound.keyed hlength h.keyed hplain hnames hpackage hlookup
  cases hfound with
  | stored harguments => exact ⟨h.grown, .inl ⟨harguments, rfl⟩⟩
  | known harguments hfind =>
    have hinstance := h.keyed.find_instanceKey hpackage (plain_iff.1 hplain).1
      (names_ne_nil hlength harguments) hnames hfind
    exact ⟨h.grown, .inr ⟨harguments, hgeneric harguments, h.instanceRecords _ hinstance.2⟩⟩
  | made harguments =>
    have hrecord : (declared.instantiate
        (.ofLists declared.generics ref.arguments)).body.isRecord := by
      rw [TypeDef.instantiate, TypeBody.isRecord_substitute]
      exact h.generics _ (mem_of_lookup hlookup) (hgeneric harguments)
    refine ⟨⟨⟨rfl, rfl⟩, ⟨⟨h.files, h.definitions⟩, h.generics⟩, h.keys, hkeyed.instanceKeys, ?_⟩,
      .inr ⟨harguments, hgeneric harguments, hrecord⟩⟩
    exact List.forall_mem_cons.2 ⟨hrecord, h.instanceRecords⟩

/-- Looking a declared reference up. -/
theorem locateNamed_of_declaration (hdeclared : table.declaration? ref = some (package, declared)) :
    isPlainName package ∧ ∃ found grown,
      locateNamed ref names table = .ok (package, found) grown ∧ table.Grown grown ∧
        FoundFor ref declared found := by
  have hcases := h.keyed.locateNamed_cases hlength hplain hnames
  rw [hdeclared] at hcases
  obtain ⟨hpackage, found, grown, hlocate, hfound⟩ := hcases
  exact ⟨hpackage, found, grown, hlocate, h.of_found hplain hlength hnames hpackage
    (lookup_of_declaration hdeclared).2 hfound⟩

/-- Looking a reference up that is not declared. -/
theorem locateNamed_of_none (hdeclared : table.declaration? ref = none) :
    locateNamed ref names table = .error ref.unknown table := by
  have hcases := h.keyed.locateNamed_cases hlength hplain hnames
  rwa [hdeclared] at hcases

end Orderly

/-! ## Every table that is reached is orderly -/

/-- Storing adds a definition under a key of its package, and nothing else. -/
theorem TypeTable.store_eq_ok (h : table.store definition = .ok grown) :
    ∃ package, table.project.packageOf? definition.origin = some package ∧
      grown = { table with stored := table.stored ++
        [(typeKey package definition.name definition.generics.length, definition)] } := by
  unfold store at h
  split at h
  · cases h
  · rename_i package hpackage
    simp only at h
    split at h
    · cases h
    · cases h
      exact ⟨package, hpackage, rfl⟩

theorem TypeTable.Stable.of_store
    (hgrown : grown.Stable) (hstore : table.store definition = .ok grown) : table.Stable := by
  obtain ⟨package, _, rfl⟩ := store_eq_ok hstore
  exact
    { files := hgrown.files
      definitions := fun entry hentry => hgrown.definitions entry (by simp [hentry])
      generics := fun entry hentry => hgrown.generics entry (by simp [hentry]) }

theorem store_keyed (hstore : table.store definition = .ok grown) (h : table.Keyed)
    (hdefinition : definition.plain) : grown.Keyed := by
  obtain ⟨package, hpackage, rfl⟩ := store_eq_ok hstore
  obtain ⟨file, hfile, hname⟩ := Option.map_eq_some_iff.1 hpackage
  have hplain : isPlainName package := by
    have hfilePlain := h.files file (Project.mem_of_file? hfile)
    simp only [SourceFile.plain, Bool.and_eq_true, hname] at hfilePlain
    exact hfilePlain.1
  refine { files := h.files, definitions := ?_, keys := ?_, instanceKeys := ?_ }
  · exact List.forall_mem_append.2 ⟨h.definitions, List.forall_mem_singleton.2 hdefinition⟩
  · exact List.forall_mem_append.2 ⟨h.keys, List.forall_mem_singleton.2 ⟨package, hplain, rfl⟩⟩
  · -- What was stored before is found under its key as before.
    intro entry hentry
    obtain ⟨home, name, texts, hhome, hname', hne, htexts, hkey, hgeneric⟩ :=
      h.instanceKeys entry hentry
    refine ⟨home, name, texts, hhome, hname', hne, htexts, hkey, ?_⟩
    rw [List.lookup_append]
    simp [Option.isSome_or, hgeneric]

theorem store_orderly (hstore : table.store definition = .ok grown) (hgrown : grown.Stable)
    (h : table.Stable → table.Orderly) : grown.Orderly := by
  have horderly := h (hgrown.of_store hstore)
  have hdefinition : definition.plain := by
    obtain ⟨package, _, rfl⟩ := store_eq_ok hstore
    exact hgrown.definitions (_, definition) (List.mem_append_right _ List.mem_cons_self)
  have hkeyed := store_keyed hstore horderly.keyed hdefinition
  have hrecords : ∀ entry ∈ grown.instances, entry.2.body.isRecord := by
    obtain ⟨package, _, rfl⟩ := store_eq_ok hstore
    exact horderly.instanceRecords
  exact { toStable := hgrown, keys := hkeyed.keys, instanceKeys := hkeyed.instanceKeys,
          instanceRecords := hrecords }

theorem TypeTable.Stable.of_over (h : base.Stable) (hover : base.Over table) : table.Stable where
  files := by
    rw [hover.project]
    exact h.files
  definitions := by
    rw [hover.stored]
    exact h.definitions
  generics := by
    rw [OnlyRecordsGeneric, hover.stored]
    exact h.generics

theorem TypeTable.Over.symm (h : base.Over table) : table.Over base :=
  ⟨h.project.symm, h.stored.symm⟩

theorem orderly_of_reached (h : table.Reached) (hplain : table.Stable) : table.Orderly := by
  induction h with
  | empty project =>
    exact { toStable := hplain, keys := by simp, instanceKeys := by simp,
            instanceRecords := by simp }
  | stored _ hstore ih => exact store_orderly hstore hplain ih
  | @located table grown ref names answer _ href hlength hnames hlocate ih =>
    have hover := locateNamed_keeps ref names table (Over.refl table)
    rw [after_of_ok hlocate] at hover
    have horderly := ih (hplain.of_over hover.symm)
    cases hdeclared : table.declaration? ref with
    | none =>
      rw [locateNamed_of_none horderly href hlength hnames hdeclared] at hlocate
      cases hlocate
    | some declaration =>
      obtain ⟨_, found, grown', hfound, hgrown, _⟩ :=
        locateNamed_of_declaration horderly href hlength hnames hdeclared
      rw [hfound] at hlocate
      cases hlocate
      exact hgrown.orderly

/-- A table that is reached and has the definitions of another. -/
structure TypeTable.Variant (base table : TypeTable) : Prop extends base.Over table where
  reached : table.Reached
  plain : table.Stable

theorem TypeTable.Variant.orderly (h : base.Variant table) : table.Orderly :=
  orderly_of_reached h.reached h.plain

theorem TypeTable.Reached.variant (h : table.Reached)
    (hplain : table.Stable) : table.Variant table :=
  ⟨Over.refl table, h, hplain⟩

end Accord
