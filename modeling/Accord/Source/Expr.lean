import Accord.Source.Span
import Accord.Source.TypeExpr

/-!
# Expressions and calls

Expressions are trees whose nodes carry their span.  A call is both an
expression and a statement: `Call` is the call on its own, and `Expr.ofCall`
places it among the expressions.
-/

namespace Accord

/-- Operators on two values. -/
inductive BinaryOp where
  | add | sub | mul | div | mod
  | eq | ne | lt | le | gt | ge
  | and | or
deriving DecidableEq

namespace BinaryOp

/-- Conjunction and disjunction. -/
def isLogical : BinaryOp → Bool
  | .and | .or => true
  | _ => false

/-- Equality and its negation. -/
def isEquality : BinaryOp → Bool
  | .eq | .ne => true
  | _ => false

/-- The four comparisons by order. -/
def isOrdering : BinaryOp → Bool
  | .lt | .le | .gt | .ge => true
  | _ => false

end BinaryOp

/-- Operators on one value. -/
inductive UnaryOp where
  | addressOf | deref | not | plus | minus
deriving DecidableEq

/-- Operators that take a value and a type. -/
inductive TypeOp where
  /-- Does the value have the type? -/
  | test
  /-- The value at the type. -/
  | cast
deriving DecidableEq

/-- An expression of a function body. -/
inductive Expr where
  | call (name : String) (qualifier : Option String) (arguments : List Expr)
      (generics : List TypeExpr) (origin : String) (span : Span)
  | binary (op : BinaryOp) (left right : Expr) (span : Span)
  | unary (op : UnaryOp) (operand : Expr) (span : Span)
  | arrayLit (length : UInt64) (element : TypeExpr) (elements : List Expr) (span : Span)
  | typeOp (op : TypeOp) (value : Expr) (type : TypeExpr) (span : Span)
  | member (value : Expr) (name : String) (span : Span)
  | index (storage position : Expr) (span : Span)
  | intLit (value : Int64) (span : Span)
  | floatLit (value : Float) (span : Span)
  | charLit (value : Char) (span : Span)
  | boolLit (value : Bool) (span : Span)
  | stringLit (value : String) (span : Span)
  | ident (name : String) (span : Span)

/-- A call of a function. -/
structure Call where
  name : String
  /-- The package written in front of the name. -/
  qualifier : Option String := none
  arguments : List Expr := []
  /-- Type arguments written at the call. -/
  generics : List TypeExpr := []
  origin : String := ""
  span : Span := {}

/-- A call as an expression. -/
def Expr.ofCall (call : Call) : Expr :=
  .call call.name call.qualifier call.arguments call.generics call.origin call.span

/-- The call as written, without its arguments. -/
def Call.render (call : Call) : String :=
  qualify call.qualifier call.name

/-- The position of an expression. -/
def Expr.span : Expr → Span
  | .call _ _ _ _ _ span => span
  | .binary _ _ _ span => span
  | .unary _ _ span => span
  | .arrayLit _ _ _ span => span
  | .typeOp _ _ _ span => span
  | .member _ _ span => span
  | .index _ _ span => span
  | .intLit _ span => span
  | .floatLit _ span => span
  | .charLit _ span => span
  | .boolLit _ span => span
  | .stringLit _ span => span
  | .ident _ span => span

end Accord
