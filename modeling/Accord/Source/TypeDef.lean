import Accord.Source.TypeExpr

/-!
# Type definitions

A definition has a name, the names of its type parameters, the file it stands
in, and a body: the fields of a record, the alternatives of a union, or the
target of an alias.
-/

namespace Accord

/-- A field of a record. -/
structure Field where
  name : String
  type : TypeExpr

/-- What a definition stands for. -/
inductive TypeBody where
  | record (fields : List Field)
  | union (alternatives : List TypeExpr)
  | alias (target : TypeExpr)

/-- The types that a value of the body holds directly. -/
def TypeBody.components : TypeBody → List TypeExpr
  | .record fields => fields.map (·.type)
  | .union alternatives => alternatives
  | .alias target => [target]

/-- A named type of a project. -/
structure TypeDef where
  name : String
  generics : List String := []
  origin : String := ""
  body : TypeBody

/-- Whether the definition takes type arguments. -/
def TypeDef.isGeneric (definition : TypeDef) : Bool :=
  !definition.generics.isEmpty

end Accord
