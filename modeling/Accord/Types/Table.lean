import Accord.Generic.Substitution
import Accord.Query
import Accord.Source.Project

/-!
# The table of types

The table holds the definitions of a project, each under a key made of its
package, its name and its number of type parameters, and the instances of
generic definitions met so far, each under a key that spells its type arguments
out.  Both kinds are only ever added, under keys that are free.

* `TypeTable.store` enters a definition, or refuses it when its key is taken.
* `TypeTable.search` finds the definition behind a reference, instantiating a
  generic definition the first time its instance is asked for.
-/

namespace Accord

/-- The key of a definition: its package, its name and its number of type parameters
(`match_pattern`). -/
def typeKey (package name : String) (arity : Nat) : String :=
  package ++ "::" ++ name ++ (if arity == 0 then "" else "<" ++ toString arity ++ ">")

/-- The types of a project. -/
structure TypeTable where
  project : Project
  /-- Definitions in the order in which they were stored, with their keys. -/
  stored : List (String × TypeDef) := []
  /-- Instances of generic definitions, the latest first, with their keys. -/
  instances : List (String × TypeDef) := []

/-- A question about types. -/
abbrev TypeQuery := Query TypeTable

namespace TypeTable

/-- The definition or instance under a key. -/
def find? (table : TypeTable) (key : String) : Option TypeDef :=
  (table.stored.lookup key).or (table.instances.lookup key)

/-- Enters a definition under its key. -/
def store (table : TypeTable) (definition : TypeDef) : Except Diagnostic TypeTable :=
  match table.project.packageOf? definition.origin with
  | none => .error (.inconsistent (.typeOutsideProject definition.name definition.origin))
  | some package =>
    let key := typeKey package definition.name definition.generics.length
    match table.find? key with
    | some _ => .error (.duplicateType definition.name definition.origin)
    | none => .ok { table with stored := table.stored ++ [(key, definition)] }

/-- The table of every definition of a project, file by file. -/
def ofProject (project : Project) : Except Diagnostic TypeTable :=
  (project.files.flatMap (·.types)).foldlM store { project }

/-- The keys of the stored definitions, in order. -/
def storedKeys (table : TypeTable) : List String :=
  table.stored.map (·.1)

/-- The packages in which a reference is looked up, in order (`lookup_scopes`). -/
def scopesOf (table : TypeTable) (ref : TypeRef) : List String :=
  table.project.visiblePackages ref.qualifier ref.origin

/-- Looks a reference up in one package.  `suffix` spells its type arguments out.
An instance that is not there yet is entered if the package has the generic
definition. -/
def searchIn (table : TypeTable) (ref : TypeRef) (suffix package : String) :
    Option (TypeDef × TypeTable) :=
  let key := package ++ "::" ++ ref.name ++ suffix
  match table.find? key with
  | some definition => some (definition, table)
  | none =>
    if ref.arguments.isEmpty then none
    else
      (table.find? (typeKey package ref.name ref.arguments.length)).map fun generic =>
        let made := generic.instantiate (.ofLists generic.generics ref.arguments)
        (made, { table with instances := (key, made) :: table.instances })

/-- Looks a reference up in several packages; the first that has it counts. -/
def search (table : TypeTable) (ref : TypeRef) (suffix : String) :
    List String → Option (String × TypeDef × TypeTable)
  | [] => none
  | package :: rest =>
    match table.searchIn ref suffix package with
    | some (definition, table) => some (package, definition, table)
    | none => table.search ref suffix rest

end TypeTable

end Accord
