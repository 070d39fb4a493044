import Accord.Source.Project

/-!
# Packages within reach

A package reaches the packages that its files import, and what those reach.
`Project.reachable` lists them breadth first, the starting package first and
each package once.

The walk takes one package from the front of a queue at a time.  A package is
expanded once, and it puts at most its own imports into the queue, so the walk
ends within one step for the start and one for each import written anywhere.
-/

namespace Accord

namespace Project

/-- Every import written in a file of the package, in order. -/
def importsFrom (project : Project) (package : String) : List String :=
  (project.filesOf package).flatMap (·.imports)

/-- Takes packages off the queue until it is empty; `order` holds those already
expanded. -/
def walk (project : Project) : Nat → List String → List String → List String
  | 0, _, order => order
  | _, [], order => order
  | steps + 1, package :: queue, order =>
    if order.contains package then project.walk steps queue order
    else
      let seen := order ++ [package]
      let next := (project.importsFrom package).filter fun other => !seen.contains other
      project.walk steps (queue ++ next) seen

/-- A number of steps within which a walk from any package ends. -/
def walkBound (project : Project) : Nat :=
  (project.files.flatMap (·.imports)).length + 1

/-- The packages within reach of a package, breadth first (`reachable_packages`). -/
def reachable (project : Project) (package : String) : List String :=
  project.walk project.walkBound [package] []

end Project

end Accord
