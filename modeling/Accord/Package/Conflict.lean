import Accord.Package.Reach

/-!
# Conflicts between packages

A package sees the types of every package within its reach.  Where two of these
define the same pattern, a reference to that name would be ambiguous, so the
project is refused.

The pattern of a definition is its name and its number of type parameters.
-/

namespace Accord

/-- The name of a definition with a mark for each of its type parameters. -/
def TypeDef.pattern (definition : TypeDef) : String :=
  definition.name ++ angled "," (definition.generics.map fun _ => "?")

namespace Project

/-- The patterns that a package defines, in order. -/
def patternsOf (project : Project) (package : String) : List String :=
  (project.filesOf package).flatMap fun file => file.types.map (·.pattern)

/-- Who defines which pattern, as far as the search has come. -/
abbrev Owners := List (String × String)

/-- Enters one pattern of a package, unless another package owns it. -/
def claim (viewer package : String) (owners : Owners) (pattern : String) :
    Except Diagnostic Owners :=
  match owners.lookup pattern with
  | none => .ok ((pattern, package) :: owners)
  | some owner =>
    if owner == package then .ok owners
    else .error (.packageConflict pattern viewer owner package)

/-- Enters every pattern of a package. -/
def claimAll (project : Project) (viewer : String) (owners : Owners) (package : String) :
    Except Diagnostic Owners :=
  (project.patternsOf package).foldlM (claim viewer package) owners

/-- Refuses a package within whose reach two packages define one pattern
(`check_package`). -/
def checkPackage (project : Project) (package : String) : Except Diagnostic Unit := do
  let _ ← (project.reachable package).foldlM (project.claimAll package) []

/-- Checks every package of the project, in order (`check_project`). -/
def checkPackages (project : Project) : Except Diagnostic Unit :=
  project.packages.forM project.checkPackage

end Project

end Accord
