import Accord.Types.Union

/-!
# How specific a signature is

Of several functions that take a call, the most specific one is meant.  A
signature is measured by six numbers that are compared in order: whether the
function is generic, how often its parameters mention a type parameter, how many
type arguments they carry (more is more specific), how many unions they have,
how many alternatives these cover, and how far they convert text.
-/

namespace Accord

/-- What the parameter types of a function amount to. -/
structure Weight where
  /-- Occurrences of type parameters. -/
  paramUses : Nat := 0
  /-- Type arguments, at every depth. -/
  complexity : Nat := 0
  /-- Positions with a union. -/
  unions : Nat := 0
  /-- Alternatives of these unions. -/
  cases : Nat := 0
  /-- Cost of the conversions that the parameters allow. -/
  conversions : Nat := 0
deriving DecidableEq

instance : Add Weight where
  add left right :=
    { paramUses := left.paramUses + right.paramUses
      complexity := left.complexity + right.complexity
      unions := left.unions + right.unions
      cases := left.cases + right.cases
      conversions := left.conversions + right.conversions }

/-- The measure of a function. -/
structure Specificity where
  generic : Bool
  weight : Weight
deriving DecidableEq

namespace Specificity

/-- Compares two measures (`compare_with`); the lesser one is the more specific. -/
def compare (left right : Specificity) : Ordering :=
  (Ord.compare left.generic right.generic).then <|
  (Ord.compare left.weight.paramUses right.weight.paramUses).then <|
  (Ord.compare right.weight.complexity left.weight.complexity).then <|
  (Ord.compare left.weight.unions right.weight.unions).then <|
  (Ord.compare left.weight.cases right.weight.cases).then <|
  Ord.compare left.weight.conversions right.weight.conversions

/-- A measure with every number at the end of the 64-bit range that makes it less specific
(`worst_possible_specificity`). -/
def worst : Specificity :=
  let most := UInt64.size - 1
  { generic := true
    weight :=
      { paramUses := most, complexity := 0, unions := most, cases := most, conversions := most } }

end Specificity

/-- What it costs that a parameter of a primitive type converts its argument. -/
def conversionCost (name : String) : Nat :=
  if name == "RawString" then 3 else if name == "String" then 2 else 0

/-- The weight of a type as a union (`count_union`). -/
def weighUnion (fuel : Nat) (type : TypeExpr) : TypeQuery Weight := do
  let covered ← alternatives fuel type
  return if covered.isEmpty then {} else { unions := 1, cases := covered.length }

/-- The weight of a type (`visit`).  Only the type of a parameter itself, passed by value,
converts its argument. -/
def weigh : Nat → Bool → TypeExpr → TypeQuery Weight
  | 0, _, _ => throw .limitReached
  | fuel + 1, converts, type => do
    match ← unalias fuel type with
    | .param _ => return { paramUses := 1 }
    | .primitive name => return { conversions := if converts then conversionCost name else 0 }
    | .named name qualifier arguments origin =>
      let inner ← arguments.foldlM (fun weight argument => do
        return weight + (← weigh fuel false argument)) {}
      let own ← weighUnion fuel (.named name qualifier arguments origin)
      return { complexity := arguments.length } + inner + own
    | .union covered =>
      let own ← weighUnion fuel (.union covered)
      return { paramUses := TypeExpr.paramCountAll covered } + own
    | .pointer target => weigh fuel false target
    | .array _ _ => return {}
    | .slice _ => return {}

/-- The measure of a function. -/
def FunctionDef.specificity (fuel : Nat) (function : FunctionDef) : TypeQuery Specificity := do
  let weight ← function.parameterTypes.foldlM (fun weight type => do
    return weight + (← weigh fuel true type)) {}
  return { generic := function.isGeneric, weight }

end Accord
