import Accord.Types.Naming

/-!
# Containment by value

A value holds its fields, its alternatives and the elements of its arrays, so a
type must not contain itself that way.  What stands behind a pointer or in a
slice is only referred to: it has to exist and is not followed.

`checkContainment` walks every stored definition.  Types that mention a type
parameter are left out; a generic definition is walked where it is instantiated.
-/

namespace Accord

mutual

/-- Walks what a type holds by value (`visit_type_signature`).  `enter` walks a definition
that is reached. -/
def walkType (enter : String → TypeDef → TypeQuery Unit) (type : TypeExpr) :
    TypeQuery Unit :=
  if type.isGeneric then pure ()
  else
    match type with
    | .primitive _ => pure ()
    | .param _ => pure ()
    | .pointer target => verify target
    | .slice element => verify element
    | .array _ element => walkType enter element
    | .union alternatives => walkTypes enter alternatives
    | .named name qualifier arguments origin => do
      let key ← canonicalName (.named name qualifier arguments origin)
      let definition ← retrieve ⟨name, qualifier, arguments, origin⟩
      enter key definition

/-- Walks what each of several types holds by value. -/
def walkTypes (enter : String → TypeDef → TypeQuery Unit) : List TypeExpr → TypeQuery Unit
  | [] => pure ()
  | type :: rest => do
    walkType enter type
    walkTypes enter rest

end

/-- Walks the body of a definition (`visit_type_definition`); `path` holds the keys of the
definitions it is contained in. -/
def walkDefinition : Nat → List String → String → TypeDef → TypeQuery Unit
  | 0, _, _, _ => throw .limitReached
  | fuel + 1, path, key, definition =>
    if path.contains key then throw (.selfContaining definition.name)
    else walkTypes (walkDefinition fuel (key :: path)) definition.body.components

/-- Fails if a stored definition mentions an unknown type or contains itself by value
(`visit_all_type_definitions`). -/
def checkContainment (fuel : Nat) : TypeQuery Unit := do
  (← get).stored.forM fun (key, definition) => walkDefinition fuel [] key definition

end Accord
