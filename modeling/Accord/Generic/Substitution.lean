import Accord.Source.TypeDef

/-!
# Substitutions

A substitution lists replacements for type parameters.  Where a parameter is
listed twice, the first entry counts.  `substitute` replaces the parameters
that have an entry and leaves the others in place.
-/

namespace Accord

/-- Replacements for type parameters, in the order in which they were made. -/
abbrev Substitution := List (String × TypeExpr)

namespace Substitution

/-- The replacement of a parameter. -/
def find? (rules : Substitution) (parameter : String) : Option TypeExpr :=
  rules.lookup parameter

/-- Pairs parameters with arguments, as far as both go. -/
def ofLists (parameters : List String) (arguments : List TypeExpr) : Substitution :=
  parameters.zip arguments

/-- Puts another replacement in the place of the one that counts. -/
def replace (rules : Substitution) (parameter : String) (type : TypeExpr) : Substitution :=
  match rules with
  | [] => []
  | (name, old) :: rest =>
    if name == parameter then (name, type) :: rest
    else (name, old) :: replace rest parameter type

/-- How many of the parameters have a replacement. -/
def countBound (rules : Substitution) (parameters : List String) : Nat :=
  (parameters.filter fun parameter => (rules.find? parameter).isSome).length

end Substitution

namespace TypeExpr

mutual

/-- Replaces type parameters. -/
def substitute (rules : Substitution) : TypeExpr → TypeExpr
  | .primitive name => .primitive name
  | .param name => (rules.find? name).getD (.param name)
  | .named name qualifier arguments origin =>
    .named name qualifier (substituteAll rules arguments) origin
  | .pointer target => .pointer (target.substitute rules)
  | .array length element => .array length (element.substitute rules)
  | .slice element => .slice (element.substitute rules)
  | .union alternatives => .union (substituteAll rules alternatives)

/-- Replaces type parameters in every type of a list. -/
def substituteAll (rules : Substitution) : List TypeExpr → List TypeExpr
  | [] => []
  | type :: rest => type.substitute rules :: substituteAll rules rest

end

end TypeExpr

/-- Replaces type parameters in the components of a body. -/
def TypeBody.substitute (rules : Substitution) : TypeBody → TypeBody
  | .record fields => .record (fields.map fun f => { f with type := f.type.substitute rules })
  | .union alternatives => .union (TypeExpr.substituteAll rules alternatives)
  | .alias target => .alias (target.substitute rules)

/-- The concrete definition that a generic one stands for under a substitution. -/
def TypeDef.instantiate (rules : Substitution) (definition : TypeDef) : TypeDef :=
  { definition with generics := [], body := definition.body.substitute rules }

end Accord
