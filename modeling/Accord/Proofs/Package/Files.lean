import Accord.Source.Project
import Mathlib.Data.List.Induction
import Mathlib.Data.List.Nodup
import Mathlib.Tactic.Common

/-!
# The files of a project and its packages

The index of a project keeps positions.  Each file that is added enters its own, and the positions
that are there already still lead to the same files.  So the index shows what the list of files
says: the first file of a name (`Project.file?_eq`), the files of a package (`Project.filesOf_eq`)
and the packages in order of first appearance (`Project.packages_eq`).

Files are added one by one, and the first one whose name is taken is refused
(`Project.ofFiles_cases`).  `Project.views_agree` puts together what the index shows then: the files
that were given, each under its name and each in the list of one package.
-/

namespace Accord

open List

/-! ## Texts in order of first appearance -/

theorem mem_addNew {texts : List String} {text other : String} :
    other ∈ Project.addNew texts text ↔ other ∈ texts ∨ other = text := by
  unfold Project.addNew
  split
  · rename_i hold
    have hold : text ∈ texts := by simpa using hold
    exact ⟨.inl, fun h => h.elim id fun heq => heq ▸ hold⟩
  · simp

theorem mem_foldl_addNew {text : String} {start texts : List String} :
    text ∈ texts.foldl Project.addNew start ↔ text ∈ start ∨ text ∈ texts := by
  induction texts generalizing start with
  | nil => simp
  | cons first rest ih => rw [foldl_cons, ih, mem_addNew, mem_cons, or_assoc]

/-- A text comes before another if it appears first. -/
theorem foldl_addNew_ordered (texts : List String) :
    (texts.foldl Project.addNew []).Pairwise fun one other =>
      texts.idxOf one < texts.idxOf other := by
  induction texts using reverseRecOn with
  | nil => exact .nil
  | append_singleton texts text ih =>
    have hmem {other : String} : other ∈ texts.foldl Project.addNew [] ↔ other ∈ texts := by
      simp [mem_foldl_addNew]
    -- Texts that were there before appear where they did.
    have hold : (texts.foldl Project.addNew []).Pairwise fun one other =>
        (texts ++ [text]).idxOf one < (texts ++ [text]).idxOf other := by
      refine ih.imp_of_mem fun hone hother hlt => ?_
      rwa [idxOf_append_of_mem (hmem.1 hone), idxOf_append_of_mem (hmem.1 hother)]
    rw [foldl_append, foldl_cons, foldl_nil]
    by_cases hnew : text ∈ texts
    · rwa [Project.addNew, if_pos (by simpa [hmem] using hnew)]
    · rw [Project.addNew, if_neg (by simpa [hmem] using hnew)]
      refine pairwise_append.2 ⟨hold, pairwise_singleton _ _, fun one hone other hother => ?_⟩
      obtain rfl := mem_singleton.1 hother
      rw [idxOf_append_of_mem (hmem.1 hone), idxOf_append_of_notMem hnew]
      have hlt := idxOf_lt_length_of_mem (hmem.1 hone)
      omega

/-- Items fall into the lists of their keys. -/
theorem flatMap_filter_perm {α β : Type} [DecidableEq β] (key : α → β) {keys : List β}
    (hkeys : keys.Nodup) {items : List α} (h : ∀ item ∈ items, key item ∈ keys) :
    (keys.flatMap fun k => items.filter (key · == k)).Perm items := by
  induction keys generalizing items with
  | nil =>
    obtain rfl := eq_nil_iff_forall_not_mem.2 fun item hmem => not_mem_nil (h item hmem)
    exact .nil
  | cons first rest ih =>
    obtain ⟨hfirst, hrest⟩ := nodup_cons.1 hkeys
    let others := items.filter fun item => !(key item == first)
    have hothers : (rest.flatMap fun k => items.filter (key · == k)) =
        rest.flatMap fun k => others.filter (key · == k) := by
      refine flatMap_congr fun k hk => ?_
      rw [filter_filter]
      refine filter_congr fun item _ => ?_
      have hne : first ≠ k := fun heq => hfirst (heq ▸ hk)
      by_cases hkey : key item = k <;> simp [hkey, hne.symm]
    have hall : ∀ item ∈ others, key item ∈ rest := by
      intro item hmem
      obtain ⟨hmem, hne⟩ := mem_filter.1 hmem
      exact (mem_cons.1 (h item hmem)).resolve_left (by simpa using hne)
    rw [flatMap_cons, hothers]
    exact ((ih hrest hall).append_left _).trans (filter_append_perm (key · == first) items)

/-! ## What the index shows -/

namespace FileIndex

/-- The position under a name is that of the first file that has it. -/
theorem lookup_ofFiles (files : List SourceFile) (name : String) :
    (ofFiles files).positions.lookup name = files.findIdx? (·.name == name) := by
  induction files using reverseRecOn with
  | nil => rfl
  | append_singleton files file ih =>
    rw [ofFiles_concat, add, lookup_append, ih, findIdx?_append]
    by_cases hname : file.name = name
    · simp [hname]
    · simp [hname, lookup_cons, beq_eq_false_iff_ne.2 (Ne.symm hname)]

/-- The positions under a package are those of its files. -/
theorem filterMap_get_ofFiles (files rest : List SourceFile) (package : String) :
    ((ofFiles files).packages.get package).filterMap ((files ++ rest)[·]?) =
      files.filter (·.package == package) := by
  induction files using reverseRecOn generalizing rest with
  | nil => rfl
  | append_singleton files file ih =>
    rw [append_assoc, singleton_append, ofFiles_concat, add, Buckets.get_push, filterMap_append,
      filter_append, ih (file :: rest)]
    by_cases hpackage : file.package = package <;> simp [hpackage]

/-- A package has positions if and only if it has been met. -/
theorem contains_ofFiles (files : List SourceFile) (package : String) :
    (ofFiles files).packages.contains package = (files.map (·.package)).contains package := by
  induction files using reverseRecOn with
  | nil => rfl
  | append_singleton files file ih =>
    rw [ofFiles_concat, add, Buckets.contains_push, ih]
    simp [eq_comm, Bool.beq_eq_decide_eq]

theorem order_ofFiles (files : List SourceFile) :
    (ofFiles files).order = (files.map (·.package)).foldl Project.addNew [] := by
  induction files using reverseRecOn with
  | nil => rfl
  | append_singleton files file ih =>
    rw [ofFiles_concat, add, contains_ofFiles, ih, map_append, foldl_append]
    simp [Project.addNew, mem_foldl_addNew]

end FileIndex

namespace Project

variable {project : Project}

/-- The files of a project determine it. -/
theorem eq_of_files {other : Project} (h : project.files = other.files) : project = other := by
  obtain ⟨files, index, rfl⟩ := project
  obtain ⟨others, index', rfl⟩ := other
  cases h
  rfl

/-- A name finds the first file that has it. -/
theorem file?_eq (name : String) : project.file? name = project.files.find? (·.name == name) := by
  rw [file?, project.indexed, FileIndex.lookup_ofFiles, find?_eq_bind_findIdx?_getElem?]

theorem mem_of_file? {name : String} {file : SourceFile} (h : project.file? name = some file) :
    file ∈ project.files := by
  rw [file?_eq] at h
  exact mem_of_find?_eq_some h

/-- A package lists the files that belong to it, in order. -/
theorem filesOf_eq (package : String) :
    project.filesOf package = project.files.filter (·.package == package) := by
  have hfiles := FileIndex.filterMap_get_ofFiles project.files [] package
  rwa [append_nil, ← project.indexed] at hfiles

/-- Packages are listed in order of first appearance. -/
theorem packages_eq : project.packages = (project.files.map (·.package)).foldl addNew [] := by
  rw [packages, project.indexed, FileIndex.order_ofFiles]

theorem mem_packages {package : String} :
    package ∈ project.packages ↔ package ∈ project.files.map (·.package) := by
  simp [packages_eq, mem_foldl_addNew]

theorem packages_ordered : project.packages.Pairwise fun one other =>
    (project.files.map (·.package)).idxOf one < (project.files.map (·.package)).idxOf other := by
  rw [packages_eq]
  exact foldl_addNew_ordered _

theorem nodup_packages : project.packages.Nodup := by
  refine packages_ordered.imp fun {one other} hlt heq => ?_
  subst heq
  exact Nat.lt_irrefl _ hlt

/-! ## Adding files -/

/-- The file is the first one that has the name of a file before it. -/
def FirstRepeated (files : List SourceFile) (file : SourceFile) : Prop :=
  ∃ before after, files = before ++ file :: after ∧ (before.map (·.name)).Nodup ∧
    file.name ∈ before.map (·.name)

/-- Either the names of the files differ and all are there, or the first name that comes a second
time is refused. -/
theorem ofFiles_cases (files : List SourceFile) :
    ((files.map (·.name)).Nodup ∧ ofFiles files = .ok { files := files.map (·.stamped) }) ∨
      ∃ file, FirstRepeated files file ∧ ofFiles files = .error (.duplicateFile file.name) := by
  induction files using reverseRecOn with
  | nil => exact .inl ⟨nodup_nil, rfl⟩
  | append_singleton files file ih =>
    have hadd : ofFiles (files ++ [file]) = (ofFiles files).bind (·.addFile file) := by
      rw [ofFiles, foldlM_append]
      simp only [foldlM_cons, foldlM_nil, bind_pure]
      rfl
    rcases ih with ⟨hnodup, hfiles⟩ | ⟨repeated, ⟨before, after, rfl, hrepeated⟩, hfiles⟩
    · rw [hadd, hfiles, Except.bind, addFile, FileIndex.lookup_ofFiles]
      -- The names that are taken are those of the files before.
      have hstamped (given : SourceFile) : given.stamped.name = given.name := rfl
      have htaken : ((files.map (·.stamped)).findIdx? (·.name == file.name)).isSome ↔
          file.name ∈ files.map (·.name) := by
        simp [findIdx?_isSome, hstamped]
      cases hfound : (files.map (·.stamped)).findIdx? (·.name == file.name) with
      | some position =>
        rw [hfound] at htaken
        exact .inr ⟨file, ⟨files, [], rfl, hnodup, htaken.1 rfl⟩, rfl⟩
      | none =>
        rw [hfound] at htaken
        refine .inl ⟨?_, congrArg Except.ok (eq_of_files (by simp [push]))⟩
        rw [map_append]
        exact nodup_append_comm.1 (nodup_cons.2 ⟨by simpa using htaken, hnodup⟩)
    · refine .inr ⟨repeated, ⟨before, after ++ [file], by simp, hrepeated⟩, ?_⟩
      rw [hadd, hfiles]
      rfl

theorem FirstRepeated.not_nodup {files : List SourceFile} {file : SourceFile}
    (h : FirstRepeated files file) : ¬ (files.map (·.name)).Nodup := by
  obtain ⟨before, after, rfl, _, hname⟩ := h
  intro hnodup
  rw [map_append] at hnodup
  exact disjoint_of_nodup_append hnodup hname (mem_cons_self ..)

theorem nodup_of_ofFiles {files : List SourceFile} (h : ofFiles files = .ok project) :
    (project.files.map (·.name)).Nodup := by
  rcases ofFiles_cases files with ⟨hnodup, hfiles⟩ | ⟨_, _, hfiles⟩
  · rw [hfiles] at h
    cases h
    rwa [map_map]
  · rw [hfiles] at h
    cases h

/-- Where names differ, a name finds all files that have it. -/
theorem filter_name (h : (project.files.map (·.name)).Nodup) (name : String) :
    project.files.filter (·.name == name) = (project.file? name).toList := by
  rw [file?_eq]
  generalize project.files = files at h
  induction files with
  | nil => rfl
  | cons first rest ih =>
    rw [map_cons, nodup_cons] at h
    by_cases hname : first.name = name
    · have hrest : rest.filter (·.name == name) = [] := by
        refine filter_eq_nil_iff.2 fun file hmem hsame => h.1 ?_
        exact mem_map.2 ⟨file, hmem, by simpa [hname] using hsame⟩
      simp [hname, hrest]
    · simp [hname, ih h.2]

theorem file?_of_mem (h : (project.files.map (·.name)).Nodup) {file : SourceFile}
    (hmem : file ∈ project.files) : project.file? file.name = some file := by
  have hfound : file ∈ project.files.filter (·.name == file.name) := by simp [hmem]
  rw [filter_name h] at hfound
  simpa using hfound

/-- A list of files makes a project unless two of them have one name, and then the first name that
comes a second time is refused.  The project has the files in the order in which they were given.
A name finds the one file that has it.  Every package is listed once, in order of first appearance.
The files of a package are those that belong to it, in order, and each file is in the list of one
package. -/
theorem views_agree (files : List SourceFile) :
    ((∃ cause, ofFiles files = .error cause) ↔ ¬ (files.map (·.name)).Nodup) ∧
    (∀ cause, ofFiles files = .error cause →
      ∃ file, FirstRepeated files file ∧ cause = .duplicateFile file.name) ∧
    ((files.map (·.name)).Nodup → ∃ project, ofFiles files = .ok project ∧
      project.files = files.map (·.stamped) ∧
      (∀ name, (project.file? name).toList = project.files.filter (·.name == name)) ∧
      (∀ package, package ∈ project.packages ↔ package ∈ project.files.map (·.package)) ∧
      (project.packages.Pairwise fun one other =>
        (project.files.map (·.package)).idxOf one < (project.files.map (·.package)).idxOf other) ∧
      (∀ package, project.filesOf package <+ project.files ∧
        ∀ file, file ∈ project.filesOf package ↔ file ∈ project.files ∧ file.package = package) ∧
      (project.packages.flatMap project.filesOf).Perm project.files) := by
  rcases ofFiles_cases files with ⟨hnodup, hfiles⟩ | ⟨file, hfile, hfiles⟩
  · have hnames := nodup_of_ofFiles hfiles
    refine ⟨by simp [hfiles, hnodup], by simp [hfiles], fun _ => ⟨_, hfiles, rfl,
      fun name => (filter_name hnames name).symm, fun _ => mem_packages, packages_ordered,
      fun package => ?_, ?_⟩⟩
    · rw [filesOf_eq]
      exact ⟨filter_sublist, fun file => by simp⟩
    · rw [funext filesOf_eq]
      exact flatMap_filter_perm SourceFile.package nodup_packages fun file hmem =>
        mem_packages.2 (mem_map_of_mem hmem)
  · refine ⟨by simp [hfiles, hfile.not_nodup], fun cause hcause => ⟨file, hfile, ?_⟩,
      fun hnodup => absurd hnodup hfile.not_nodup⟩
    rw [hfiles] at hcause
    exact (Except.error.inj hcause).symm

end Project

/-- A project of one file, for tables that keep definitions of their own. -/
def mainFile : Project :=
  { files := [{ name := "main.mer", package := "app" }] }

end Accord
