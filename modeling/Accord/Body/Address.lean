import Accord.Diagnostic
import Accord.Source.FunctionDef

/-!
# Addresses

The address of an expression can be taken only where the expression denotes a
place in memory: a variable, a field, an element, or what a pointer points at.
`FunctionDef.checkAddresses` finds the first address that is taken of anything
else, reading from left to right and outside before inside.
-/

namespace Accord

/-- Whether an expression denotes a place in memory. -/
def Expr.isAddressable : Expr → Bool
  | .ident _ _ => true
  | .member _ _ _ => true
  | .index _ _ _ => true
  | .typeOp _ value _ _ => value.isAddressable
  | .unary op _ _ => op == .deref
  | _ => false

mutual

/-- Fails at the first bad address in an expression. -/
def Expr.checkAddresses : Expr → Except Diagnostic Unit
  | .unary op operand span =>
    if op == .addressOf && !operand.isAddressable then throw (.notAddressable span)
    else operand.checkAddresses
  | .call _ _ arguments _ _ _ => Expr.checkAddressesAll arguments
  | .binary _ left right _ => do
    left.checkAddresses
    right.checkAddresses
  | .arrayLit _ _ elements _ => Expr.checkAddressesAll elements
  | .typeOp _ value _ _ => value.checkAddresses
  | .member value _ _ => value.checkAddresses
  | .index storage position _ => do
    storage.checkAddresses
    position.checkAddresses
  | .intLit _ _ => pure ()
  | .floatLit _ _ => pure ()
  | .charLit _ _ => pure ()
  | .boolLit _ _ => pure ()
  | .stringLit _ _ => pure ()
  | .ident _ _ => pure ()

/-- Fails at the first bad address in several expressions. -/
def Expr.checkAddressesAll : List Expr → Except Diagnostic Unit
  | [] => pure ()
  | expr :: rest => do
    expr.checkAddresses
    Expr.checkAddressesAll rest

end

/-- Fails at the first bad address in an expression that may be missing. -/
def Expr.checkAddressesOpt : Option Expr → Except Diagnostic Unit
  | some expr => expr.checkAddresses
  | none => pure ()

mutual

/-- Fails at the first bad address in a statement. -/
def Stmt.checkAddresses : Stmt → Except Diagnostic Unit
  | .declareVar _ _ value _ => Expr.checkAddressesOpt value
  | .declareConst _ _ value _ => value.checkAddresses
  | .assign target value _ => do
    target.checkAddresses
    value.checkAddresses
  | .conditional condition thenBranch elseBranch _ => do
    condition.checkAddresses
    Stmt.checkAddressesAll thenBranch
    Stmt.checkAddressesAll elseBranch
  | .whileLoop condition body _ => do
    condition.checkAddresses
    Stmt.checkAddressesAll body
  | .untilLoop condition body _ => do
    condition.checkAddresses
    Stmt.checkAddressesAll body
  | .ret value _ => Expr.checkAddressesOpt value
  | .call c => Expr.checkAddressesAll c.arguments
  | .continueLoop _ => pure ()
  | .breakLoop _ => pure ()

/-- Fails at the first bad address in a block. -/
def Stmt.checkAddressesAll : List Stmt → Except Diagnostic Unit
  | [] => pure ()
  | statement :: rest => do
    statement.checkAddresses
    Stmt.checkAddressesAll rest

end

/-- Fails at the first bad address in a function. -/
def FunctionDef.checkAddresses (function : FunctionDef) : Except Diagnostic Unit :=
  Stmt.checkAddressesAll function.body

end Accord
