import Accord.Proofs.Types.Guard

/-!
# What a question about types leaves alone

A question about types may enter instances of generic definitions, and it does
nothing else to the table: the project and the stored definitions stay what they
were.  This holds for every name and every type, and whether the question is
answered or refused.

`TypeTable.Over` relates a table to the one it grew from.  Every query is built
from `locateNamed`, so what that look-up keeps (`TypeTable.Lasting`) every query
keeps: there is no type that questions lead out of (`TypeTable.Lasting.enclosed`).
-/

namespace Accord

open Query

variable {table found : TypeTable} {ref : TypeRef} {suffix : String} {definition : TypeDef}

theorem mem_of_lookup {α : Type} {key : String} {value : α} {entries : List (String × α)}
    (h : entries.lookup key = some value) : (key, value) ∈ entries := by
  obtain ⟨before, later, rfl, _⟩ := List.lookup_eq_some_iff.1 h
  simp

/-- The table has the project and the stored definitions of another. -/
structure TypeTable.Over (base table : TypeTable) : Prop where
  project : table.project = base.project
  stored : table.stored = base.stored

theorem TypeTable.Over.refl (base : TypeTable) : base.Over base :=
  ⟨rfl, rfl⟩

/-! ## Naming -/

/-- The table with an instance entered. -/
def TypeTable.withInstance (table : TypeTable) (key : String) (made : TypeDef) : TypeTable :=
  { table with instances := (key, made) :: table.instances }

/-- What a look-up in one package finds under a key, and the table that it leaves: what stands there,
or an instance that is entered. -/
inductive TypeTable.Finds (table : TypeTable) (ref : TypeRef) (package key : String) :
    TypeDef → TypeTable → Prop where
  | there {definition : TypeDef} (find : table.find? key = some definition) :
      Finds table ref package key definition table
  | entered {generic : TypeDef} (arguments : ref.arguments ≠ []) (free : table.find? key = none)
      (find : table.find? (typeKey package ref.name ref.arguments.length) = some generic) :
      Finds table ref package key (generic.instantiate (.ofLists generic.generics ref.arguments))
        (table.withInstance key (generic.instantiate (.ofLists generic.generics ref.arguments)))

theorem TypeTable.finds_of_searchIn {package : String}
    (h : table.searchIn ref suffix package = some (definition, found)) :
    table.Finds ref package (package ++ "::" ++ ref.name ++ suffix) definition found := by
  rw [searchIn] at h
  split at h
  · rename_i hfind
    cases h
    exact .there hfind
  · rename_i hfree
    split at h
    · cases h
    · rename_i hempty
      obtain ⟨generic, hfind, hmade⟩ := Option.map_eq_some_iff.1 h
      cases hmade
      exact .entered (by simpa using hempty) hfree hfind

theorem TypeTable.finds_of_search {package : String} {packages : List String}
    (h : table.search ref suffix packages = some (package, definition, found)) :
    package ∈ packages ∧
      table.Finds ref package (package ++ "::" ++ ref.name ++ suffix) definition found := by
  induction packages with
  | nil => cases h
  | cons first rest ih =>
    rw [search] at h
    split at h
    · rename_i hfound
      cases h
      exact ⟨List.mem_cons_self, finds_of_searchIn hfound⟩
    · exact ⟨List.mem_cons_of_mem _ (ih h).1, (ih h).2⟩

/-- A property of tables that survives every look-up. -/
class TypeTable.Lasting (inv : TypeTable → Prop) : Prop where
  locateNamed (ref : TypeRef) (names : List String) : Keeps inv (locateNamed ref names)

/-- A property that survives new instances survives every look-up. -/
theorem TypeTable.Lasting.of_withInstance {inv : TypeTable → Prop}
    (h : ∀ table key made, inv table → table.find? key = none →
      inv (table.withInstance key made)) : Lasting inv := by
  refine ⟨fun ref names table hinv => ?_⟩
  rw [after, Accord.locateNamed]
  cases hsearch : table.search ref (argumentSuffix names) (table.scopesOf ref) with
  | none => exact hinv
  | some found =>
    obtain ⟨package, definition, grown⟩ := found
    cases (finds_of_search hsearch).2 with
    | there => exact hinv
    | entered _ hfree => exact h table _ _ hinv hfree

variable {base : TypeTable}

instance : TypeTable.Lasting base.Over :=
  .of_withInstance fun _ _ _ hover _ => ⟨hover.project, hover.stored⟩

instance : TypeTable.Lasting fun _ => True :=
  ⟨fun _ _ _ _ => trivial⟩

theorem locateNamed_keeps (ref : TypeRef) (names : List String) :
    Keeps base.Over (locateNamed ref names) :=
  TypeTable.Lasting.locateNamed ref names

variable {inv : TypeTable → Prop}

open TypeTable

variable [Lasting inv]

theorem canonicalName_keeps (type : TypeExpr) : Keeps inv (canonicalName type) :=
  (canonicalName_guarded (fun ref names => Guards.of_keeps (Lasting.locateNamed ref names))
    type).keeps

theorem canonicalNames_keeps (types : List TypeExpr) : Keeps inv (canonicalNames types) :=
  (canonicalNames_guarded (fun ref names => Guards.of_keeps (Lasting.locateNamed ref names))
    types).keeps

theorem locate_keeps (ref : TypeRef) : Keeps inv (locate ref) :=
  (canonicalNames_keeps ref.arguments).bind fun names => Lasting.locateNamed ref names

/-- All types together are a kind that questions do not lead out of. -/
theorem TypeTable.Lasting.enclosed :
    Enclosed inv (fun _ => True) (fun _ : TypeExpr => True) where
  toInherited := .all
  ordinary _ := trivial
  canonicalName _ := Guards.of_keeps (canonicalName_keeps _)
  locate _ := (Guards.of_keeps (locate_keeps _)).mono fun _ _ _ _ => trivial

theorem retrieve_keeps (ref : TypeRef) : Keeps inv (retrieve ref) :=
  (retrieve_guards Lasting.enclosed trivial).keeps

theorem verify_keeps (type : TypeExpr) : Keeps inv (verify type) :=
  (verify_guards Lasting.enclosed type trivial).keeps

theorem verifyAll_keeps (types : List TypeExpr) : Keeps inv (verifyAll types) :=
  (verifyAll_guards Lasting.enclosed types fun _ _ => trivial).keeps

theorem unalias_keeps (fuel : Nat) (type : TypeExpr) : Keeps inv (unalias fuel type) :=
  (unalias_guards Lasting.enclosed fuel trivial).keeps

theorem dereference_keeps (fuel : Nat) (type : TypeExpr) : Keeps inv (dereference fuel type) :=
  (dereference_guards Lasting.enclosed fuel trivial).keeps

theorem alternatives_keeps (fuel : Nat) (type : TypeExpr) : Keeps inv (alternatives fuel type) :=
  (alternatives_guards Lasting.enclosed fuel trivial).keeps

theorem walkDefinition_keeps (fuel : Nat) (path : List String) (key : String)
    (definition : TypeDef) : Keeps inv (walkDefinition fuel path key definition) :=
  (walkDefinition_guards Lasting.enclosed fuel path key fun _ _ => trivial).keeps

theorem checkContainment_keeps (fuel : Nat) : Keeps inv (checkContainment fuel) :=
  (checkContainment_guards Lasting.enclosed fuel fun _ _ _ _ _ _ => trivial).keeps

end Accord
