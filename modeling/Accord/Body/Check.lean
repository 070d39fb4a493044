import Accord.Body.Address
import Accord.Body.Exit
import Accord.Body.Typing

/-!
# Checking function bodies

A body is checked statement by statement in the scope that the statements
before it leave.  Blocks inside open a frame of their own.  Checking stops at
the first fault.
-/

namespace Accord

/-- Fails unless a value may go into a slot of the given type. -/
def expectAssignable (fuel : Nat) (scope : Scope) (value : Expr) (dest : TypeExpr)
    (span : Span) : ProgramQuery Unit := do
  let type ← typeOf fuel scope value
  let fits ← assignable fuel .lenient type dest
  if !fits then throw (mismatch dest.render type span)

/-- Fails unless an expression is a truth value. -/
def expectCondition (fuel : Nat) (scope : Scope) (condition : Expr) : ProgramQuery Unit := do
  let type ← typeOf fuel scope condition
  if !type.isPrimitive "Bool" then throw (mismatch "Bool" type condition.span)

/-- Fails unless an expression may be assigned to: a variable, a field or an element of
one, or what a pointer points at.  A constant must not be written to, nor its fields or
elements; what it points at may be. -/
def checkTarget (fuel : Nat) (scope : Scope) (span : Span) : Expr → ProgramQuery Unit
  | .ident name _ =>
    match scope.lookup name with
    | some object => if object.isConst then throw (.assignmentToConst name span) else pure ()
    | none => throw (.undefinedVariable name span)
  | .member value _ _ => do
    match ← typeOf fuel scope value with
    | .pointer _ => pure ()
    | _ => checkTarget fuel scope span value
  | .index storage _ _ => checkTarget fuel scope span storage
  | .unary .deref _ _ => pure ()
  | _ => throw (.notAssignable span)

/-- Checks a return statement against the return type of its function. -/
def checkReturn (fuel : Nat) (function : FunctionDef) (scope : Scope) (value : Option Expr)
    (span : Span) : ProgramQuery Unit :=
  match function.returnType, value with
  | some expected, some value => expectAssignable fuel scope value expected span
  | some _, none => throw (.missingReturnValue function.name span)
  | none, some _ => throw (.unexpectedReturnValue function.name span)
  | none, none => pure ()

mutual

/-- Checks a statement, and yields the scope behind it. -/
def checkStmt (fuel : Nat) (function : FunctionDef) (scope : Scope) :
    Stmt → ProgramQuery Scope
  | .declareVar name type value span => do
    verify type
    match value with
    | some value => expectAssignable fuel scope value type span
    | none => pure ()
    Query.ofExcept (scope.declare name type false false span)
  | .declareConst name type value span => do
    verify type
    expectAssignable fuel scope value type span
    Query.ofExcept (scope.declare name type true false span)
  | .assign target value span => do
    checkTarget fuel scope span target
    let type ← typeOf fuel scope target
    expectAssignable fuel scope value type span
    return scope
  | .conditional condition thenBranch elseBranch _ => do
    expectCondition fuel scope condition
    let scope := (← checkBlock fuel function scope.enter thenBranch).leave
    let scope := (← checkBlock fuel function scope.enter elseBranch).leave
    return scope
  | .whileLoop condition body _ => do
    expectCondition fuel scope condition
    return (← checkBlock fuel function scope.enter body).leave
  | .untilLoop condition body _ => do
    expectCondition fuel scope condition
    return (← checkBlock fuel function scope.enter body).leave
  | .ret value span => do
    checkReturn fuel function scope value span
    return scope
  | .call c => do
    let _ ← callOutcomeIn fuel scope c
    return scope
  | .continueLoop _ => return scope
  | .breakLoop _ => return scope

/-- Checks the statements of a block in order, and yields the scope behind the last. -/
def checkBlock (fuel : Nat) (function : FunctionDef) (scope : Scope) :
    List Stmt → ProgramQuery Scope
  | [] => return scope
  | statement :: rest => do
    checkBlock fuel function (← checkStmt fuel function scope statement) rest

end

/-- The checks of a function that need no types. -/
def checkStructure (function : FunctionDef) : Except Diagnostic Unit := do
  function.checkAddresses
  function.checkExits

/-- Checks the signature and the body of a function. -/
def checkTypes (fuel : Nat) (function : FunctionDef) : ProgramQuery Unit := do
  verifyAll function.parameterTypes
  match function.returnType with
  | some type => verify type
  | none => pure ()
  let scope ← Query.ofExcept (Scope.ofFunction function)
  let _ ← checkBlock fuel function scope function.body

/-- Checks a function altogether. -/
def checkFunction (fuel : Nat) (function : FunctionDef) : ProgramQuery Unit := do
  Query.ofExcept (checkStructure function)
  checkTypes fuel function

end Accord
