import Accord.Types.Alias

/-!
# Alternatives of unions

A union may have unions among its alternatives, also behind aliases.
`alternatives` lists what is left when every union inside is replaced by its
own alternatives: each type once, by canonical name, in order of first
appearance.  A type that is no union has no alternatives.
-/

namespace Accord

/-- The alternatives written in a union, or nothing for another type
(`direct_alternatives`). -/
def directAlternatives (fuel : Nat) (type : TypeExpr) : TypeQuery (Option (List TypeExpr)) := do
  match ← unalias fuel type with
  | .union alternatives => return some alternatives
  | .named name qualifier arguments origin =>
    match (← retrieve ⟨name, qualifier, arguments, origin⟩).body with
    | .union alternatives => return some alternatives
    | _ => return none
  | _ => return none

/-- Alternatives gathered so far, with their canonical names. -/
structure Gathered where
  types : List TypeExpr := []
  names : List String := []

/-- Adds an alternative unless one of its name is there. -/
def Gathered.add (gathered : Gathered) (name : String) (type : TypeExpr) : Gathered :=
  if gathered.names.contains name then gathered
  else { types := gathered.types ++ [type], names := name :: gathered.names }

/-- Gathers the alternatives of a union (`collect_alternatives`); `path` names the unions
being expanded, which are not expanded again inside themselves. -/
def gather : Nat → List String → TypeExpr → Gathered → TypeQuery Gathered
  | 0, _, _, _ => throw .limitReached
  | fuel + 1, path, type, gathered => do
    match ← directAlternatives fuel type with
    | none => return gathered
    | some direct =>
      let name ← canonicalName type
      if path.contains name then return gathered
      else
        direct.foldlM (fun gathered alternative => do
          match ← directAlternatives fuel alternative with
          | some _ => gather fuel (name :: path) alternative gathered
          | none => return gathered.add (← canonicalName alternative) alternative) gathered

/-- The alternatives of a union with nested unions expanded (`fetch_union_alternatives`);
none for another type. -/
def alternatives (fuel : Nat) (type : TypeExpr) : TypeQuery (List TypeExpr) := do
  return (← gather fuel [] type {}).types

/-- Whether a type has alternatives. -/
def isUnion (fuel : Nat) (type : TypeExpr) : TypeQuery Bool := do
  return !(← alternatives fuel type).isEmpty

end Accord
