import Accord.Types.Naming

/-!
# The table of functions

Functions of one package, name, number of type parameters and number of
parameters form a set of overloads.  A generic function also belongs to the set
without type parameters, because calls may leave type arguments to be inferred.

The table keeps the functions in the order in which they were stored, and an
index of its sets and entry points to which each function is added when it is
stored.  Two functions of one set must not have the same canonical parameter types.
-/

namespace Accord

/-- The key of a set of overloads (`overload_set_id`). -/
def overloadKey (package name : String) (generics parameters : Nat) : String :=
  s!"{package}::{name}<{generics}>({parameters})"

/-- A stored function with the package it belongs to. -/
structure Overload where
  package : String
  function : FunctionDef

namespace Overload

/-- The key of the set in which the function stands under its own type parameters. -/
def key (overload : Overload) : String :=
  overloadKey overload.package overload.function.name overload.function.generics.length
    overload.function.parameters.length

/-- The key under which calls without type arguments find the function. -/
def inferredKey (overload : Overload) : String :=
  overloadKey overload.package overload.function.name 0 overload.function.parameters.length

end Overload

/-- The functions of each set, and the entry points, in order. -/
structure OverloadIndex where
  sets : Buckets FunctionDef := {}
  entryPoints : List FunctionDef := []

namespace OverloadIndex

/-- Enters a function in its sets, and among the entry points if it is one. -/
def add (index : OverloadIndex) (overload : Overload) : OverloadIndex where
  sets :=
    let sets := index.sets.push overload.key overload.function
    if overload.function.isGeneric then sets.push overload.inferredKey overload.function else sets
  entryPoints :=
    if overload.function.isEntryPoint then index.entryPoints ++ [overload.function]
    else index.entryPoints

/-- The index of functions that are stored in this order. -/
def ofEntries (entries : List Overload) : OverloadIndex :=
  entries.foldl add {}

end OverloadIndex

/-- The functions of a project (`FunctionOverloadsRegister`), in the order in which they were
stored, with their index. -/
structure OverloadTable where
  entries : List Overload := []
  index : OverloadIndex := .ofEntries entries
  indexed : index = .ofEntries entries := by rfl

namespace OverloadTable

/-- The table without functions. -/
def empty : OverloadTable where

@[simp] theorem entries_empty : empty.entries = [] := rfl

/-- Enters a function at the end of the table. -/
def add (table : OverloadTable) (overload : Overload) : OverloadTable where
  entries := table.entries ++ [overload]
  index := table.index.add overload
  indexed := by rw [table.indexed]; simp [OverloadIndex.ofEntries]

/-- Every stored function. -/
def functions (table : OverloadTable) : List FunctionDef :=
  table.entries.map (·.function)

/-- The functions of a set, in order (`get_overload_set`). -/
def overloads (table : OverloadTable) (key : String) : List FunctionDef :=
  table.index.sets.get key

/-- The functions at which execution may start (`main_functions`). -/
def entryPoints (table : OverloadTable) : List FunctionDef :=
  table.index.entryPoints

end OverloadTable

/-- The canonical name of a type, or its spelling if it mentions an unknown type. -/
def nameOrSpelling (type : TypeExpr) : TypeQuery String := do
  match ← (canonicalName type).outcome with
  | .ok name => return name
  | .error (.unknownType _ _) => return type.render
  | .error cause => throw cause

/-- The names of the parameter types of a function, in order (`canonical_arguments`). -/
def FunctionDef.signature (function : FunctionDef) : TypeQuery (List String) :=
  function.parameterTypes.mapM nameOrSpelling

/-- Fails if a function of the list has the given signature. -/
def checkDistinct (function : FunctionDef) (signature : List String) :
    List FunctionDef → TypeQuery Unit
  | [] => pure ()
  | other :: rest => do
    if (← other.signature) = signature then
      throw (.duplicateFunction function.name function.origin function.span)
    else checkDistinct function signature rest

/-- Enters a function, unless one of its set has the same parameter types. -/
def OverloadTable.store (table : OverloadTable) (function : FunctionDef) :
    TypeQuery OverloadTable := do
  match (← get).project.packageOf? function.origin with
  | none => throw (.inconsistent (.functionOutsideProject function.name function.origin))
  | some package =>
    let overload : Overload := { package, function }
    let signature ← function.signature
    checkDistinct function signature (table.overloads overload.key)
    return table.add overload

/-- The table of every function of a project, file by file. -/
def OverloadTable.ofProject (project : Project) : TypeQuery OverloadTable :=
  (project.files.flatMap (·.functions)).foldlM OverloadTable.store .empty

/-- The keys of the sets in which a call looks for its function, in order
(`candidate_set_ids`). -/
def Call.candidateKeys (project : Project) (call : Call) : List String :=
  (project.visiblePackages call.qualifier call.origin).map fun package =>
    overloadKey package call.name call.generics.length call.arguments.length

end Accord
