import Accord.Generic.Substitution
import Accord.Source.FunctionDef

/-!
# Instances of generic functions

An instance of a generic function is the function with its type parameters
replaced throughout its signature and its body, under a name of its own.
-/

namespace Accord

mutual

/-- Replaces type parameters in an expression. -/
def Expr.substitute (rules : Substitution) : Expr → Expr
  | .call name qualifier arguments generics origin span =>
    .call name qualifier (Expr.substituteAll rules arguments)
      (TypeExpr.substituteAll rules generics) origin span
  | .binary op left right span =>
    .binary op (left.substitute rules) (right.substitute rules) span
  | .unary op operand span => .unary op (operand.substitute rules) span
  | .arrayLit length element elements span =>
    .arrayLit length (element.substitute rules) (Expr.substituteAll rules elements) span
  | .typeOp op value type span =>
    .typeOp op (value.substitute rules) (type.substitute rules) span
  | .member value name span => .member (value.substitute rules) name span
  | .index storage position span =>
    .index (storage.substitute rules) (position.substitute rules) span
  | .intLit value span => .intLit value span
  | .floatLit value span => .floatLit value span
  | .charLit value span => .charLit value span
  | .boolLit value span => .boolLit value span
  | .stringLit value span => .stringLit value span
  | .ident name span => .ident name span

/-- Replaces type parameters in every expression of a list. -/
def Expr.substituteAll (rules : Substitution) : List Expr → List Expr
  | [] => []
  | expr :: rest => expr.substitute rules :: Expr.substituteAll rules rest

end

/-- Replaces type parameters in a call. -/
def Call.substitute (rules : Substitution) (call : Call) : Call :=
  { call with
    arguments := Expr.substituteAll rules call.arguments
    generics := TypeExpr.substituteAll rules call.generics }

mutual

/-- Replaces type parameters in a statement. -/
def Stmt.substitute (rules : Substitution) : Stmt → Stmt
  | .declareVar name type value span =>
    .declareVar name (type.substitute rules) (value.map (·.substitute rules)) span
  | .declareConst name type value span =>
    .declareConst name (type.substitute rules) (value.substitute rules) span
  | .assign target value span =>
    .assign (target.substitute rules) (value.substitute rules) span
  | .conditional condition thenBranch elseBranch span =>
    .conditional (condition.substitute rules) (Stmt.substituteAll rules thenBranch)
      (Stmt.substituteAll rules elseBranch) span
  | .whileLoop condition body span =>
    .whileLoop (condition.substitute rules) (Stmt.substituteAll rules body) span
  | .untilLoop condition body span =>
    .untilLoop (condition.substitute rules) (Stmt.substituteAll rules body) span
  | .ret value span => .ret (value.map (·.substitute rules)) span
  | .call c => .call (c.substitute rules)
  | .continueLoop span => .continueLoop span
  | .breakLoop span => .breakLoop span

/-- Replaces type parameters in every statement of a block. -/
def Stmt.substituteAll (rules : Substitution) : List Stmt → List Stmt
  | [] => []
  | statement :: rest => statement.substitute rules :: Stmt.substituteAll rules rest

end

/-- The instance of a generic function under a substitution, with a new name. -/
def FunctionDef.instantiate (rules : Substitution) (name : String) (function : FunctionDef) :
    FunctionDef :=
  { function with
    name
    parameters := function.parameters.map fun p => { p with type := p.type.substitute rules }
    returnType := function.returnType.map (·.substitute rules)
    generics := []
    body := Stmt.substituteAll rules function.body }

end Accord
