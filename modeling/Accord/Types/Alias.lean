import Accord.Types.Naming

/-!
# Aliases and pointers

`unalias` follows aliases from a type to the first type that is none.  A chain
that comes back to an alias it has already passed is refused.

`dereference` goes through pointers, and through aliases between them, to the
first type that is no pointer.
-/

namespace Accord

/-- Follows aliases; `seen` holds the canonical names of those already passed. -/
def unaliasFrom : Nat → List String → TypeExpr → TypeQuery TypeExpr
  | 0, _, _ => throw .limitReached
  | fuel + 1, seen, type =>
    match type.ref? with
    | none => pure type
    | some ref => do
      let definition ← retrieve ref
      match definition.body with
      | .alias target =>
        let name ← canonicalName type
        if seen.contains name then throw (.cyclicAlias definition.name)
        else unaliasFrom fuel (name :: seen) target
      | _ => pure type

/-- The first type behind a chain of aliases that is no alias itself. -/
def unalias (fuel : Nat) (type : TypeExpr) : TypeQuery TypeExpr :=
  unaliasFrom fuel [] type

/-- The first type behind a chain of pointers that is no pointer itself. -/
def dereference : Nat → TypeExpr → TypeQuery TypeExpr
  | 0, _ => throw .limitReached
  | fuel + 1, .pointer target => do dereference fuel (← unalias fuel target)
  | _ + 1, type => pure type

end Accord
