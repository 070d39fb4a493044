import Accord.Source.Stmt
import Mathlib.Tactic.Common

/-!
# Induction over syntax

Types are made of types, expressions of expressions, and statements of expressions and
statements.  What stands directly inside is listed in the order in which it is written.  Whatever
passes from there to the whole holds of every type (`TypeExpr.induct`), of every expression
(`Expr.induct`) and of every statement (`Stmt.induct`).
-/

namespace Accord

open TypeExpr

/-! ## What stands inside -/

/-- The types directly inside a type, from left to right. -/
def TypeExpr.children : TypeExpr → List TypeExpr
  | .primitive _ => []
  | .param _ => []
  | .named _ _ arguments _ => arguments
  | .pointer target => [target]
  | .array _ element => [element]
  | .slice element => [element]
  | .union alternatives => alternatives

/-- The expressions directly inside an expression, from left to right. -/
def Expr.children : Expr → List Expr
  | .call _ _ arguments _ _ _ => arguments
  | .binary _ left right _ => [left, right]
  | .unary _ operand _ => [operand]
  | .arrayLit _ _ elements _ => elements
  | .typeOp _ value _ _ => [value]
  | .member value _ _ => [value]
  | .index storage position _ => [storage, position]
  | .intLit _ _ => []
  | .floatLit _ _ => []
  | .charLit _ _ => []
  | .boolLit _ _ => []
  | .stringLit _ _ => []
  | .ident _ _ => []

/-- The expressions directly inside a statement, from left to right. -/
def Stmt.operands : Stmt → List Expr
  | .declareVar _ _ value _ => value.toList
  | .declareConst _ _ value _ => [value]
  | .assign target value _ => [target, value]
  | .conditional condition _ _ _ => [condition]
  | .whileLoop condition _ _ => [condition]
  | .untilLoop condition _ _ => [condition]
  | .ret value _ => value.toList
  | .call c => c.arguments
  | .continueLoop _ => []
  | .breakLoop _ => []

/-- The statements directly inside a statement, which come after its expressions. -/
def Stmt.inner : Stmt → List Stmt
  | .conditional _ thenBranch elseBranch _ => thenBranch ++ elseBranch
  | .whileLoop _ body _ => body
  | .untilLoop _ body _ => body
  | _ => []

/-! ## Induction -/

mutual

@[elab_as_elim]
theorem TypeExpr.induct {motive : TypeExpr → Prop}
    (step : ∀ type : TypeExpr, (∀ child ∈ type.children, motive child) → motive type) :
    (type : TypeExpr) → motive type
  | .primitive _ => step _ nofun
  | .param _ => step _ nofun
  | .named _ _ arguments _ => step _ (inductAll step arguments)
  | .pointer part | .array _ part | .slice part => step _ (by simp [children, induct step part])
  | .union alternatives => step _ (inductAll step alternatives)

theorem TypeExpr.inductAll {motive : TypeExpr → Prop}
    (step : ∀ type : TypeExpr, (∀ child ∈ type.children, motive child) → motive type) :
    (types : List TypeExpr) → ∀ type ∈ types, motive type
  | [] => nofun
  | type :: rest =>
    List.forall_mem_cons.2 ⟨induct step type, inductAll step rest⟩

end

mutual

@[elab_as_elim]
theorem Expr.induct {motive : Expr → Prop}
    (step : ∀ expr : Expr, (∀ child ∈ expr.children, motive child) → motive expr) :
    (expr : Expr) → motive expr
  | .call _ _ arguments _ _ _ => step _ (Expr.inductAll step arguments)
  | .binary _ left right _ =>
    step _ (by simp [Expr.children, Expr.induct step left, Expr.induct step right])
  | .unary _ operand _ => step _ (by simp [Expr.children, Expr.induct step operand])
  | .arrayLit _ _ elements _ => step _ (Expr.inductAll step elements)
  | .typeOp _ value _ _ | .member value _ _ =>
    step _ (by simp [Expr.children, Expr.induct step value])
  | .index storage position _ =>
    step _ (by simp [Expr.children, Expr.induct step storage, Expr.induct step position])
  | .intLit _ _ => step _ nofun
  | .floatLit _ _ => step _ nofun
  | .charLit _ _ => step _ nofun
  | .boolLit _ _ => step _ nofun
  | .stringLit _ _ => step _ nofun
  | .ident _ _ => step _ nofun

theorem Expr.inductAll {motive : Expr → Prop}
    (step : ∀ expr : Expr, (∀ child ∈ expr.children, motive child) → motive expr) :
    (exprs : List Expr) → ∀ expr ∈ exprs, motive expr
  | [] => nofun
  | expr :: rest => List.forall_mem_cons.2 ⟨Expr.induct step expr, Expr.inductAll step rest⟩

end

mutual

@[elab_as_elim]
theorem Stmt.induct {motive : Stmt → Prop}
    (step : ∀ statement : Stmt, (∀ child ∈ statement.inner, motive child) → motive statement) :
    (statement : Stmt) → motive statement
  | .conditional _ thenBranch elseBranch _ =>
    step _ (List.forall_mem_append.2
      ⟨Stmt.inductAll step thenBranch, Stmt.inductAll step elseBranch⟩)
  | .whileLoop _ body _ | .untilLoop _ body _ => step _ (Stmt.inductAll step body)
  | .declareVar _ _ _ _ => step _ nofun
  | .declareConst _ _ _ _ => step _ nofun
  | .assign _ _ _ => step _ nofun
  | .ret _ _ => step _ nofun
  | .call _ => step _ nofun
  | .continueLoop _ => step _ nofun
  | .breakLoop _ => step _ nofun

theorem Stmt.inductAll {motive : Stmt → Prop}
    (step : ∀ statement : Stmt, (∀ child ∈ statement.inner, motive child) → motive statement) :
    (block : List Stmt) → ∀ statement ∈ block, motive statement
  | [] => nofun
  | statement :: rest =>
    List.forall_mem_cons.2 ⟨Stmt.induct step statement, Stmt.inductAll step rest⟩

end

/-! ## Lists -/

theorem map_eq_self_iff {α : Type} {f : α → α} {items : List α} :
    items.map f = items ↔ ∀ item ∈ items, f item = item := by
  induction items with
  | nil => simp
  | cons item rest ih => simp [ih]

theorem TypeExpr.anyGeneric_eq_false {types : List TypeExpr} :
    anyGeneric types = false ↔ ∀ type ∈ types, type.isGeneric = false := by
  induction types with
  | nil => simp [anyGeneric]
  | cons type rest ih => simp [anyGeneric, ih]

end Accord
