import Accord.Types.Table

/-!
# Canonical names

The canonical name of a type spells every reference out with the package that
defines it, so references from different files to one definition get one name.
Naming a type looks its references up, and looking a reference up needs the
names of its type arguments; both recursions follow the type.

* `canonicalName` names a type.
* `locate` resolves a reference to its package and definition.
* `verify` checks that every reference inside a type resolves.
-/

namespace Accord

/-- The spelling of type arguments behind a name, from their canonical names. -/
def argumentSuffix (names : List String) : String :=
  angled "," names

/-- Resolves a reference whose type arguments have the given canonical names. -/
def locateNamed (ref : TypeRef) (names : List String) : TypeQuery (String × TypeDef) :=
  fun table =>
    match table.search ref (argumentSuffix names) (table.scopesOf ref) with
    | some (package, definition, table) => .ok (package, definition) table
    | none => .error (.unknownType ref.render ref.origin) table

mutual

/-- The canonical name of a type (`get_fully_qualified_name`).  The arguments of a
reference are named once to look it up, and once more in the table that the look-up leaves
behind. -/
def canonicalName : TypeExpr → TypeQuery String
  | .primitive name => pure name
  | .param name => pure name
  | .pointer target => do return "#" ++ (← canonicalName target)
  | .slice element => do return "$" ++ (← canonicalName element)
  | .array length element => do
    return "[" ++ toString length.toNat ++ "]" ++ (← canonicalName element)
  | .union alternatives => do return joinWith " | " (← canonicalNames alternatives)
  | .named name qualifier arguments origin => do
    let names ← canonicalNames arguments
    let (package, _) ← locateNamed ⟨name, qualifier, arguments, origin⟩ names
    let names ← canonicalNames arguments
    return package ++ "::" ++ name ++ argumentSuffix names

/-- The canonical names of several types, in order. -/
def canonicalNames : List TypeExpr → TypeQuery (List String)
  | [] => pure []
  | type :: rest => do
    let name ← canonicalName type
    let names ← canonicalNames rest
    return name :: names

end

/-- The package that defines a reference, and the definition it stands for. -/
def locate (ref : TypeRef) : TypeQuery (String × TypeDef) := do
  locateNamed ref (← canonicalNames ref.arguments)

/-- The definition that a reference stands for. -/
def retrieve (ref : TypeRef) : TypeQuery TypeDef := do
  return (← locate ref).2

mutual

/-- Fails unless every reference inside the type resolves (`verify_that_the_type_exists`). -/
def verify : TypeExpr → TypeQuery Unit
  | .primitive _ => pure ()
  | .param _ => pure ()
  | .pointer target => verify target
  | .slice element => verify element
  | .array _ element => verify element
  | .union alternatives => verifyAll alternatives
  | .named name qualifier arguments origin => do
    verifyAll arguments
    let _ ← retrieve ⟨name, qualifier, arguments, origin⟩

/-- Fails unless every reference inside several types resolves. -/
def verifyAll : List TypeExpr → TypeQuery Unit
  | [] => pure ()
  | type :: rest => do
    verify type
    verifyAll rest

end

end Accord
