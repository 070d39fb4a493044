import Accord.Source.Stmt

/-!
# Function definitions
-/

namespace Accord

/-- A parameter of a function. -/
structure Parameter where
  name : String
  type : TypeExpr

/-- A function of a project.  One without a return type is a procedure. -/
structure FunctionDef where
  name : String
  parameters : List Parameter := []
  returnType : Option TypeExpr := none
  generics : List String := []
  body : List Stmt := []
  origin : String := ""
  span : Span := {}

namespace FunctionDef

/-- Whether the function has type parameters. -/
def isGeneric (function : FunctionDef) : Bool :=
  !function.generics.isEmpty

/-- The declared types of the parameters, in order. -/
def parameterTypes (function : FunctionDef) : List TypeExpr :=
  function.parameters.map (·.type)

/-- Whether execution may start here: `main` without parameters of either kind. -/
def isEntryPoint (function : FunctionDef) : Bool :=
  !function.isGeneric && function.name == "main" && function.parameters.isEmpty

end FunctionDef

end Accord
