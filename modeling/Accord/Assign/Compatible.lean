import Accord.Assign.Inference
import Accord.Types.Union

/-!
# Compatibility of types

`accepts` decides whether a value of a source type may go into a slot of a
destination type, and binds the type parameters that it meets in the
destination.

* In lenient mode a value may be widened: to a union that has its type among
  the alternatives, to a text type, or by merging two bindings of a parameter.
* In strict mode both directions have to hold and nothing is widened.  Type
  arguments, pointer targets and slice elements are always compared strictly.

A refusal leaves bindings made on the way in place, except where the
destination is a named type or a union: there they are made on trial.

The rules for each shape of destination are plain functions of the judgement
they fall back on (`Judge`); `accepts` ties the knot with less fuel each time.
-/

namespace Accord

/-- How much a comparison lets pass. -/
inductive Mode where
  | lenient
  | strict
deriving DecidableEq

/-- What a comparison reads and writes. -/
structure CheckState where
  types : TypeTable
  inference : Inference := {}

/-- A comparison of types under way. -/
abbrev Check := Query CheckState

/-- A way of comparing a source with a destination. -/
abbrev Judge := Mode → TypeExpr → TypeExpr → Check Bool

instance : MonadLift (EStateM Diagnostic TypeTable) (EStateM Diagnostic CheckState) where
  monadLift query := Query.on (·.types) (fun state types => { state with types }) query

namespace Check

variable {α : Type}

/-- Changes what is known about parameters. -/
def infer (change : Inference → Inference) : Check Unit :=
  modify fun state => { state with inference := change state.inference }

/-- Forgets what a comparison inferred, whatever its outcome. -/
def isolated (check : Check α) : Check α := fun state =>
  match check state with
  | .ok value after => .ok value { after with inference := state.inference }
  | .error cause after => .error cause { after with inference := state.inference }

/-- Keeps what a comparison inferred only if it accepts (`attempt`). -/
def onTrial (check : Check Bool) : Check Bool := fun state =>
  match check state with
  | .ok true after => .ok true after
  | .ok false after => .ok false { after with inference := state.inference }
  | .error cause after => .error cause { after with inference := state.inference }

/-- Runs a comparison on a table of types, and hands out what it inferred. -/
def run (inference : Inference) (check : Check α) : TypeQuery (α × Inference) := fun types =>
  match check { types, inference } with
  | .ok value after => .ok (value, after.inference) after.types
  | .error cause after => .error cause after.types

end Check

/-- Whether the type is the parameter of the given name. -/
def TypeExpr.isParam (name : String) : TypeExpr → Bool
  | .param other => other == name
  | _ => false

/-- A value meets a type parameter (`bind_template`).  The first value binds it; later
ones must fit its binding, which a lenient check may widen unless the parameter is locked. -/
def meetParam (judge : Judge) (mode : Mode) (source : TypeExpr) (name : String) :
    Check Bool := do
  if source.isParam name then return true
  let before := (← get).inference
  if mode = .strict then Check.infer (·.lock name)
  match before.bindings.find? name with
  | none =>
    Check.infer (·.bind name source)
    return true
  | some bound =>
    if mode = .strict ∨ before.locked.contains name then
      judge .strict source bound
    else if ← Check.isolated (judge .lenient source bound) then
      return true
    else
      let fits ← Check.isolated (judge .lenient bound source)
      let wider := if fits then source else bound.merge source
      Check.infer (·.rebind name wider)
      return true

/-- Compares two lists of type arguments strictly, pair by pair. -/
def sameArguments (judge : Judge) : List TypeExpr → List TypeExpr → Check Bool
  | source :: sources, dest :: dests => do
    if ← judge .strict source dest then sameArguments judge sources dests
    else return false
  | _, _ => return true

/-- Two references to one definition, with the same type arguments (`name_equivalent`). -/
def sameDefinition (judge : Judge) (source dest : TypeRef) : Check Bool := do
  if source.name != dest.name || source.arguments.length != dest.arguments.length then
    return false
  let (sourcePackage, _) ← locate source
  let (destPackage, _) ← locate dest
  if sourcePackage != destPackage then return false
  Check.onTrial (sameArguments judge source.arguments dest.arguments)

/-- Whether some alternative takes the source.  Only the one that does leaves bindings. -/
def someAccepts (judge : Judge) (mode : Mode) (source : TypeExpr) :
    List TypeExpr → Check Bool
  | [] => return false
  | alternative :: rest => do
    if ← Check.onTrial (judge mode source alternative) then return true
    else someAccepts judge mode source rest

/-- Whether each source is taken by some alternative. -/
def allAccepted (judge : Judge) (mode : Mode) (alternatives : List TypeExpr) :
    List TypeExpr → Check Bool
  | [] => return true
  | source :: rest => do
    if ← someAccepts judge mode source alternatives then
      allAccepted judge mode alternatives rest
    else return false

/-- Membership in a union: some alternative takes the source, or the source is a union
each alternative of which is taken (`structurally_equivalent`). -/
def memberOf (fuel : Nat) (judge : Judge) (mode : Mode) (source dest : TypeExpr) :
    Check Bool := do
  let accepted ← alternatives fuel dest
  if accepted.isEmpty then return false
  if ← someAccepts judge mode source accepted then return true
  let offered ← alternatives fuel source
  if offered.isEmpty then return false
  Check.onTrial (allAccepted judge mode accepted offered)

/-- The element type of a pointer to an array. -/
def pointedElement (fuel : Nat) (target : TypeExpr) : TypeQuery (Option TypeExpr) := do
  match ← unalias fuel target with
  | .array _ element => return some element
  | _ => return none

/-- Whether a value may be used as text (`string_compatible`).  Raw text takes either kind
of text; slices of characters and pointers to arrays of characters count as text. -/
def textAccepts (fuel : Nat) (source : TypeExpr) (dest : String) : TypeQuery Bool := do
  match source with
  | .primitive name =>
    return TypeExpr.isTextName name && (name == "String" || dest == "RawString")
  | .slice element => return (← unalias fuel element).isPrimitive "Char"
  | .pointer target =>
    match ← pointedElement fuel target with
    | some element => return (← unalias fuel element).isPrimitive "Char"
    | none => return false
  | _ => return false

/-- The rule for each shape of destination (`dispatch`). -/
def acceptsShape (fuel : Nat) (judge : Judge) (mode : Mode) (source dest : TypeExpr) :
    Check Bool :=
  match dest with
  | .param name => meetParam judge mode source name
  | .named name qualifier arguments origin => do
    let same ← match source.ref? with
      | some ref => sameDefinition judge ref ⟨name, qualifier, arguments, origin⟩
      | none => pure false
    if same then return true
    else memberOf fuel judge mode source dest
  | .union _ => memberOf fuel judge mode source dest
  | .pointer target =>
    match source with
    | .pointer pointed => judge .strict pointed target
    | _ => return false
  | .array length element =>
    match source with
    | .array given held => if given = length then judge mode held element else return false
    | _ => return false
  | .slice element =>
    match source with
    | .slice held => judge .strict held element
    | .pointer pointed => do
      match ← pointedElement fuel pointed with
      | some held => judge .strict held element
      | none => return false
    | _ => return false
  | .primitive name =>
    if TypeExpr.isTextName name then textAccepts fuel source name
    else return source.isPrimitive name

/-- The type that a source stands for: the binding of a bound parameter, unless the
destination is that very parameter. -/
def standsFor? (inference : Inference) (source dest : TypeExpr) : Option TypeExpr :=
  match source with
  | .param name => if dest.isParam name then none else inference.bindings.find? name
  | _ => none

/-- Compares two types that are no aliases. -/
def acceptsBare (fuel : Nat) (judge : Judge) (mode : Mode) (source dest : TypeExpr) :
    Check Bool := do
  match standsFor? (← get).inference source dest with
  | some bound => judge mode bound dest
  | none => acceptsShape fuel judge mode source dest

/-- Two primitive types must have the same name; nothing else is asked of other types. -/
def samePrimitive : TypeExpr → TypeExpr → Bool
  | .primitive left, .primitive right => left == right
  | _, _ => true

/-- Whether a value of the source type may go into a slot of the destination type
(`validate`). -/
def accepts : Nat → Judge
  | 0, _, _, _ => throw .limitReached
  | fuel + 1, mode, source, dest => do
    let source ← unalias fuel source
    let dest ← unalias fuel dest
    match mode with
    | .lenient => acceptsBare fuel (accepts fuel) .lenient source dest
    | .strict =>
      if ← acceptsBare fuel (accepts fuel) .strict source dest then
        if ← Check.isolated (acceptsBare fuel (accepts fuel) .strict dest source) then
          return samePrimitive source dest
        else return false
      else return false

/-- Whether a value may be assigned, with nothing known about type parameters. -/
def assignable (fuel : Nat) (mode : Mode) (source dest : TypeExpr) : TypeQuery Bool := do
  return (← Check.run {} (accepts fuel mode source dest)).1

end Accord
