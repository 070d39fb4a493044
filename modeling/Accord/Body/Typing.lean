import Accord.Body.Scope
import Accord.Call.Outcome

/-!
# Types of expressions

`typeOf` finds the type of an expression in a scope, from the parts to the
whole.  The type found is never an alias.  Each operator states what it asks of
its operands in a function of their types.
-/

namespace Accord

/-- An operand of a type other than the one expected. -/
def mismatch (expected : String) (got : TypeExpr) (span : Span) : Diagnostic :=
  .typeMismatch expected got.render span

/-- Whether two types have one canonical name. -/
def sameName (left right : TypeExpr) : TypeQuery Bool := do
  let leftName ← canonicalName left
  let rightName ← canonicalName right
  return leftName == rightName

/-- The type of an operation on two values.  The spans are those of the operands and of
the whole. -/
def binaryType (op : BinaryOp) (left right : TypeExpr) (leftSpan rightSpan span : Span) :
    TypeQuery TypeExpr := do
  if op.isLogical then
    if !left.isPrimitive "Bool" then throw (mismatch "Bool" left leftSpan)
    if !right.isPrimitive "Bool" then throw (mismatch "Bool" right rightSpan)
    return .bool
  if !(← sameName left right) then throw (mismatch left.render right span)
  if op.isEquality then return .bool
  if op.isOrdering then
    if left.isNumeric || left.isPrimitive "Char" then return .bool
    else throw (mismatch "Int, Float or Char" left span)
  if left.isNumeric then return left
  else throw (mismatch "Int or Float" left span)

/-- The type of an operation on one value. -/
def unaryType (op : UnaryOp) (operand : TypeExpr) (span : Span) :
    Except Diagnostic TypeExpr :=
  match op with
  | .addressOf => .ok (.pointer operand)
  | .deref =>
    match operand with
    | .pointer target => .ok target
    | other => .error (.notAPointer other.render span)
  | .not =>
    if operand.isPrimitive "Bool" then .ok operand
    else .error (mismatch "Bool" operand span)
  | .plus | .minus =>
    if operand.isNumeric then .ok operand
    else .error (mismatch "Int or Float" operand span)

/-- The type of an element of a value. -/
def elementType (storage position : TypeExpr) (positionSpan span : Span) :
    Except Diagnostic TypeExpr :=
  if !position.isPrimitive "Int" then .error (mismatch "Int" position positionSpan)
  else
    match storage with
    | .array _ element => .ok element
    | .slice element => .ok element
    | other =>
      if other.isText then .ok .char else .error (.notIndexable other.render span)

/-- The type of the length of a text or slice, which is their only member. -/
def lengthType (type : TypeExpr) (member : String) (span : Span) :
    Except Diagnostic TypeExpr :=
  if member == "len" then .ok .int else .error (.unknownField member type.render span)

/-- The type of a member of a value of the given type, which is no pointer. -/
def memberType (type : TypeExpr) (member : String) (span : Span) : TypeQuery TypeExpr :=
  match type with
  | .named name qualifier arguments origin => do
    match (← retrieve ⟨name, qualifier, arguments, origin⟩).body with
    | .record fields =>
      Query.demand (.unknownField member type.render span)
        ((fields.find? (·.name == member)).map (·.type))
    | _ => throw (.notARecord type.render span)
  | .slice _ => Query.ofExcept (lengthType type member span)
  | _ =>
    if type.isText then Query.ofExcept (lengthType type member span)
    else throw (.notARecord type.render span)

/-- The type of a call used as a value. -/
def valueOf (call : Call) : CallOutcome → Except Diagnostic TypeExpr
  | .value type => .ok type
  | .void => .error (.voidValue call.render call.span)
  | .unresolved => .error (.unresolvedGeneric call.render call.span)

/-- The type behind the aliases of what a query finds. -/
def settled (fuel : Nat) (query : ProgramQuery TypeExpr) : ProgramQuery TypeExpr := do
  let type ← query
  unalias fuel type

mutual

/-- The type of an expression, perhaps behind aliases. -/
def ownType (fuel : Nat) (scope : Scope) : Expr → ProgramQuery TypeExpr
  | .intLit _ _ => return .int
  | .floatLit _ _ => return .float
  | .charLit _ _ => return .char
  | .boolLit _ _ => return .bool
  | .stringLit _ _ => return .string
  | .ident name span =>
    Query.demand (.undefinedVariable name span) ((scope.lookup name).map (·.type))
  | .call name qualifier arguments generics origin span => do
    let call : Call := { name, qualifier, arguments, generics, origin, span }
    let types ← argumentTypes fuel scope arguments
    let outcome ← callOutcome fuel call types
    Query.ofExcept (valueOf call outcome)
  | .arrayLit length element _ _ => do
    verify element
    return .array length element
  | .typeOp op value type _ => do
    let _ ← settled fuel (ownType fuel scope value)
    verify type
    match op with
    | .test => return .bool
    | .cast => return type
  | .binary op left right span => do
    let leftType ← settled fuel (ownType fuel scope left)
    let rightType ← settled fuel (ownType fuel scope right)
    binaryType op leftType rightType left.span right.span span
  | .unary op operand span => do
    let type ← settled fuel (ownType fuel scope operand)
    Query.ofExcept (unaryType op type span)
  | .index storage position span => do
    let storageType ← settled fuel (ownType fuel scope storage)
    let positionType ← settled fuel (ownType fuel scope position)
    Query.ofExcept (elementType storageType positionType position.span span)
  | .member value name span => do
    let type ← settled fuel (ownType fuel scope value)
    let type ← dereference fuel type
    memberType type name span

/-- The types of the arguments of a call, in order. -/
def argumentTypes (fuel : Nat) (scope : Scope) : List Expr → ProgramQuery (List TypeExpr)
  | [] => return []
  | argument :: rest => do
    let type ← settled fuel (ownType fuel scope argument)
    let types ← argumentTypes fuel scope rest
    return type :: types

end

/-- The type of an expression in a scope. -/
def typeOf (fuel : Nat) (scope : Scope) (expr : Expr) : ProgramQuery TypeExpr :=
  settled fuel (ownType fuel scope expr)

/-- What a call in a scope yields. -/
def callOutcomeIn (fuel : Nat) (scope : Scope) (call : Call) : ProgramQuery CallOutcome := do
  let types ← argumentTypes fuel scope call.arguments
  callOutcome fuel call types

end Accord
