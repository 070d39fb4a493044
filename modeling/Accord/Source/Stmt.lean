import Accord.Source.Expr

/-!
# Statements
-/

namespace Accord

/-- A statement of a function body. -/
inductive Stmt where
  | declareVar (name : String) (type : TypeExpr) (value : Option Expr) (span : Span)
  | declareConst (name : String) (type : TypeExpr) (value : Expr) (span : Span)
  | assign (target value : Expr) (span : Span)
  | conditional (condition : Expr) (thenBranch elseBranch : List Stmt) (span : Span)
  | whileLoop (condition : Expr) (body : List Stmt) (span : Span)
  | untilLoop (condition : Expr) (body : List Stmt) (span : Span)
  | ret (value : Option Expr) (span : Span)
  | call (call : Call)
  | continueLoop (span : Span)
  | breakLoop (span : Span)

/-- The position of a statement. -/
def Stmt.span : Stmt → Span
  | .declareVar _ _ _ span => span
  | .declareConst _ _ _ span => span
  | .assign _ _ span => span
  | .conditional _ _ _ span => span
  | .whileLoop _ _ span => span
  | .untilLoop _ _ span => span
  | .ret _ span => span
  | .call c => c.span
  | .continueLoop span => span
  | .breakLoop span => span

end Accord
