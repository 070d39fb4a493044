import Accord.Proofs.Package.Lookup

/-!
# Types of one canonical name

A canonical name holds the packages that references were found in.  `resolved` is the type with
these packages in place: in front of each reference stands the package that naming it finds, and
no origin.  The canonical name is what that type is spelled like (`canonicalName_eq_resolved`).

So where a spelling is read in one way, two types of one canonical name are the same but for the
packages in front of their references and the files these are written in.
-/

namespace Accord

open Query

variable {types : List TypeExpr} {name : String}

/-! ## Types with packages in place -/

mutual

/-- The type with the package in front of each reference in which it is found while the type is
named. -/
def resolved : TypeExpr → TypeQuery TypeExpr
  | .primitive name => pure (.primitive name)
  | .param name => pure (.param name)
  | .pointer target => do return .pointer (← resolved target)
  | .slice element => do return .slice (← resolved element)
  | .array length element => do return .array length (← resolved element)
  | .union alternatives => do return .union (← resolvedAll alternatives)
  | .named name qualifier arguments origin => do
    let names ← canonicalNames arguments
    let (package, _) ← locateNamed ⟨name, qualifier, arguments, origin⟩ names
    return .named name (some package) (← resolvedAll arguments) ""

def resolvedAll : List TypeExpr → TypeQuery (List TypeExpr)
  | [] => pure []
  | type :: rest => do return (← resolved type) :: (← resolvedAll rest)

end

theorem canonicalNames_eq_resolvedAll
    (h : ∀ type ∈ types, canonicalName type = resolved type >>= fun whole => pure whole.spelled) :
    canonicalNames types =
      resolvedAll types >>= fun wholes => pure (TypeExpr.spelledAll wholes) := by
  induction types with
  | nil => rfl
  | cons type rest ih =>
    obtain ⟨htype, hrest⟩ := List.forall_mem_cons.1 h
    simp [canonicalNames, resolvedAll, TypeExpr.spelledAll, htype, ih hrest]

/-- Naming a type puts the packages in place, and spells what comes out. -/
theorem canonicalName_eq_resolved (type : TypeExpr) :
    canonicalName type = resolved type >>= fun whole => pure whole.spelled := by
  induction type using TypeExpr.induct with
  | step type ih =>
    have hall := canonicalNames_eq_resolvedAll ih
    cases type <;> simp_all [canonicalName, resolved, TypeExpr.children, TypeExpr.spelled]

/-! ## Words for packages -/

/-- The packages of files and those they import have words for names. -/
def Project.Worded (project : Project) : Prop :=
  ∀ file ∈ project.files, isWord file.package = true ∧ ∀ package ∈ file.imports,
    isWord package = true

theorem Project.Worded.of_sees {project : Project} (h : project.Worded) {package : String}
    (hsees : project.Sees name package) : isWord package := by
  unfold Sees packageOf? importsOf at hsees
  cases hfile : project.file? name with
  | none => simp [hfile] at hsees
  | some file =>
    obtain ⟨hpackage, himports⟩ := h file (Project.mem_of_file? hfile)
    rw [hfile] at hsees
    rcases hsees with hown | himport
    · rwa [← Option.some.inj hown]
    · exact himports package himport

instance : TypeTable.Lasting fun table => table.project.Worded :=
  .of_withInstance fun _ _ _ h _ => h

/-- Whether the package that is written in front of a reference, if any, has a word for a name. -/
def spoken (qualifier : Option String) (_ : String) : Bool :=
  qualifier.all isWord

theorem locateNamed_word {ref : TypeRef} (h : spoken ref.qualifier ref.origin)
    (names : List String) :
    Guards (fun table : TypeTable => table.project.Worded) (fun found => isWord found.1)
      (fun _ => True) (locateNamed ref names) := by
  intro table htable
  unfold locateNamed
  cases hsearch : table.search ref (argumentSuffix names) (table.scopesOf ref) with
  | none => exact .error ⟨htable, trivial⟩
  | some result =>
    obtain ⟨package, definition, grown⟩ := result
    obtain ⟨hseen, hfinds⟩ := TypeTable.finds_of_search hsearch
    refine .ok ⟨?_, ?_⟩
    · cases hfinds <;> exact htable
    · unfold TypeTable.scopesOf at hseen
      cases hqualifier : ref.qualifier with
      | some package =>
        rw [hqualifier, Project.visiblePackages, List.mem_singleton] at hseen
        rw [hqualifier] at h
        rwa [hseen]
      | none =>
        rw [hqualifier, Project.mem_visiblePackages] at hseen
        exact htable.of_sees hseen

section Resolved

variable {own taken : List String}

/-- The second type can be read back, and is a sum if the first is. -/
def TypeExpr.ReadAs (own taken : List String) (type whole : TypeExpr) : Prop :=
  whole.worded own taken isPlaced = true ∧ whole.isUnion = type.isUnion

theorem allWorded_of_readAs {wholes : List TypeExpr}
    (h : List.Forall₂ (TypeExpr.ReadAs own taken) types wholes) :
    TypeExpr.allWorded own taken TypeExpr.isPlaced wholes ∧
      wholes.all (fun type => !type.isUnion) = types.all fun type => !type.isUnion := by
  induction h with
  | nil => exact ⟨rfl, rfl⟩
  | cons hfirst _ ih => simp [TypeExpr.allWorded, hfirst.1, hfirst.2, ih.1, ih.2]

theorem resolvedAll_worded (h : ∀ type ∈ types, Guards (fun table : TypeTable =>
      table.project.Worded) (type.ReadAs own taken) (fun _ => True) (resolved type)) :
    Guards (fun table : TypeTable => table.project.Worded)
      (List.Forall₂ (TypeExpr.ReadAs own taken) types) (fun _ => True) (resolvedAll types) := by
  induction types with
  | nil => exact Guards.pure .nil
  | cons type rest ih =>
    obtain ⟨htype, hrest⟩ := List.forall_mem_cons.1 h
    exact htype.bind fun whole hwhole => (ih hrest).bind fun wholes hwholes =>
      Guards.pure (.cons hwhole hwholes)

theorem resolved_worded (type : TypeExpr) (h : type.worded own taken spoken) :
    Guards (fun table : TypeTable => table.project.Worded) (type.ReadAs own taken)
      (fun _ => True) (resolved type) := by
  induction type using TypeExpr.induct with
  | step type ih =>
    have hinner {part : TypeExpr} {wrap : TypeExpr → TypeExpr} (hmem : part ∈ type.children)
        (hpart : (!part.isUnion && part.worded own taken spoken))
        (hwrap : ∀ whole, type.ReadAs own taken (wrap whole) ↔
          (!whole.isUnion && whole.worded own taken TypeExpr.isPlaced)) :
        Guards (fun table : TypeTable => table.project.Worded) (type.ReadAs own taken)
          (fun _ => True) (do return wrap (← resolved part)) := by
      obtain ⟨hunion, hworded⟩ := Bool.and_eq_true_iff.1 hpart
      refine (ih part hmem hworded).bind fun whole hwhole => Guards.pure ((hwrap whole).2 ?_)
      rw [hwhole.1, hwhole.2, hunion]
      rfl
    cases type with
    | primitive _ | param _ => exact Guards.pure ⟨h, rfl⟩
    | pointer _ | slice _ | array _ _ => exact hinner (.head _) h fun _ => and_iff_left rfl
    | union alternatives =>
      simp only [TypeExpr.worded, Bool.and_eq_true] at h
      refine (resolvedAll_worded fun type hmem =>
        ih type hmem (TypeExpr.allWorded_iff.1 h.2 type hmem)).bind fun wholes hwholes => ?_
      rw [TypeExpr.children] at hwholes
      obtain ⟨hworded, hflat⟩ := allWorded_of_readAs hwholes
      refine Guards.pure ⟨?_, rfl⟩
      rw [TypeExpr.worded, hworded, hflat, h.1.2, ← hwholes.length_eq, h.1.1]
      rfl
    | named name qualifier arguments origin =>
      simp only [TypeExpr.worded, Bool.and_eq_true] at h
      unfold resolved
      refine (Guards.of_keeps (canonicalNames_keeps arguments)).bind fun names _ => ?_
      refine (locateNamed_word h.1.2 names).bind fun found hfound => ?_
      refine (resolvedAll_worded fun type hmem =>
        ih type hmem (TypeExpr.allWorded_iff.1 h.2 type hmem)).bind fun wholes hwholes => ?_
      refine Guards.pure ⟨?_, rfl⟩
      simp [TypeExpr.worded, TypeExpr.isPlaced, h.1.1, hfound, (allWorded_of_readAs hwholes).1]

/-- A type that has a name is resolved, and what comes out is spelled like that. -/
theorem spelled_of_canonicalName {type : TypeExpr} (h : type.worded own taken spoken)
    {table : TypeTable} (htable : table.project.Worded)
    (hname : (canonicalName type).answer table = .ok name) :
    ∃ whole, (resolved type).answer table = .ok whole ∧
      whole.worded own taken TypeExpr.isPlaced ∧ whole.spelled = name := by
  obtain ⟨last, hrun⟩ := answer_eq_ok.1 hname
  rw [canonicalName_eq_resolved] at hrun
  obtain ⟨whole, t, hresolved, hrest⟩ := bind_eq_ok.1 hrun
  obtain ⟨rfl, rfl⟩ := pure_eq_ok.1 hrest
  have hworded := resolved_worded type h table htable
  exact ⟨whole, answer_eq_ok.2 ⟨_, hresolved⟩, (hworded.of_run hresolved).2.1, rfl⟩

end Resolved

/-- Types that have one canonical name are the same once the packages that their references are
found in stand in the place of prefixes and origins, if their names hold no separators, no
parameter of one is called like a primitive type of the other, and sums, if any, stand where they
can be told. -/
theorem canonicalName_unambiguous {table table' : TypeTable} (htable : table.project.Worded)
    (htable' : table'.project.Worded) {type type' : TypeExpr} {parameters parameters' : List String}
    (htype : type.worded parameters parameters' spoken = true)
    (htype' : type'.worded parameters' parameters spoken = true) {name : String}
    (hname : (canonicalName type).answer table = .ok name)
    (hname' : (canonicalName type').answer table' = .ok name) :
    ∃ whole, (resolved type).answer table = .ok whole ∧
      (resolved type').answer table' = .ok whole := by
  obtain ⟨whole, hwhole, hworded, hspelled⟩ := spelled_of_canonicalName htype htable hname
  obtain ⟨whole', hwhole', hworded', hspelled'⟩ := spelled_of_canonicalName htype' htable' hname'
  obtain rfl := TypeExpr.eq_of_spelled whole hworded hworded' (hspelled.trans hspelled'.symm)
  exact ⟨whole, hwhole, hwhole'⟩

/-- Boxes of items are the same, with the package of the items in front and without. -/
theorem boxes_of_items_unambiguous :
    ∃ whole, (resolved (.pointer (boxOf (item none)).toType)).answer (boxFilesTable ["lib"]) =
        .ok whole ∧
      (resolved (.pointer (boxOf (item (some "lib"))).toType)).answer (boxFilesTable ["lib"]) =
        .ok whole :=
  @canonicalName_unambiguous (boxFilesTable ["lib"]) (boxFilesTable ["lib"])
    (show ∀ file ∈ boxFiles ["lib"], _ by decide) (show ∀ file ∈ boxFiles ["lib"], _ by decide)
    _ _ ["T"] ["U"] rfl rfl "#app::Box<lib::Item>" rfl rfl

end Accord
