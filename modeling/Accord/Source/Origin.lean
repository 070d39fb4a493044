import Accord.Source.FunctionDef
import Accord.Source.TypeDef

/-!
# Origin files

References, calls and definitions remember the file they were written in,
because that file decides which packages they see.  Input may leave the file
out; `withOrigin` fills it in everywhere below a node and changes nothing else.
An origin that is already there stays.
-/

namespace Accord

/-- The origin already recorded, or else the given file. -/
def originOr (file recorded : String) : String :=
  if recorded.isEmpty then file else recorded

mutual

/-- Records the file in every reference of a type that lacks one. -/
def TypeExpr.withOrigin (file : String) : TypeExpr → TypeExpr
  | .primitive name => .primitive name
  | .param name => .param name
  | .named name qualifier arguments origin =>
    .named name qualifier (TypeExpr.withOriginAll file arguments) (originOr file origin)
  | .pointer target => .pointer (target.withOrigin file)
  | .array length element => .array length (element.withOrigin file)
  | .slice element => .slice (element.withOrigin file)
  | .union alternatives => .union (TypeExpr.withOriginAll file alternatives)

/-- Records the file in every type of a list. -/
def TypeExpr.withOriginAll (file : String) : List TypeExpr → List TypeExpr
  | [] => []
  | type :: rest => type.withOrigin file :: TypeExpr.withOriginAll file rest

end

/-- Records the file in the components of a body. -/
def TypeBody.withOrigin (file : String) : TypeBody → TypeBody
  | .record fields => .record (fields.map fun f => { f with type := f.type.withOrigin file })
  | .union alternatives => .union (TypeExpr.withOriginAll file alternatives)
  | .alias target => .alias (target.withOrigin file)

/-- Records the file in a type definition and its body. -/
def TypeDef.withOrigin (file : String) (definition : TypeDef) : TypeDef :=
  { definition with
    origin := originOr file definition.origin
    body := definition.body.withOrigin file }

mutual

/-- Records the file in every call and reference of an expression. -/
def Expr.withOrigin (file : String) : Expr → Expr
  | .call name qualifier arguments generics origin span =>
    .call name qualifier (Expr.withOriginAll file arguments)
      (TypeExpr.withOriginAll file generics) (originOr file origin) span
  | .binary op left right span =>
    .binary op (left.withOrigin file) (right.withOrigin file) span
  | .unary op operand span => .unary op (operand.withOrigin file) span
  | .arrayLit length element elements span =>
    .arrayLit length (element.withOrigin file) (Expr.withOriginAll file elements) span
  | .typeOp op value type span =>
    .typeOp op (value.withOrigin file) (type.withOrigin file) span
  | .member value name span => .member (value.withOrigin file) name span
  | .index storage position span =>
    .index (storage.withOrigin file) (position.withOrigin file) span
  | .intLit value span => .intLit value span
  | .floatLit value span => .floatLit value span
  | .charLit value span => .charLit value span
  | .boolLit value span => .boolLit value span
  | .stringLit value span => .stringLit value span
  | .ident name span => .ident name span

/-- Records the file in every expression of a list. -/
def Expr.withOriginAll (file : String) : List Expr → List Expr
  | [] => []
  | expr :: rest => expr.withOrigin file :: Expr.withOriginAll file rest

end

/-- Records the file in a call and its arguments. -/
def Call.withOrigin (file : String) (call : Call) : Call :=
  { call with
    arguments := Expr.withOriginAll file call.arguments
    generics := TypeExpr.withOriginAll file call.generics
    origin := originOr file call.origin }

mutual

/-- Records the file everywhere in a statement. -/
def Stmt.withOrigin (file : String) : Stmt → Stmt
  | .declareVar name type value span =>
    .declareVar name (type.withOrigin file) (value.map (·.withOrigin file)) span
  | .declareConst name type value span =>
    .declareConst name (type.withOrigin file) (value.withOrigin file) span
  | .assign target value span =>
    .assign (target.withOrigin file) (value.withOrigin file) span
  | .conditional condition thenBranch elseBranch span =>
    .conditional (condition.withOrigin file) (Stmt.withOriginAll file thenBranch)
      (Stmt.withOriginAll file elseBranch) span
  | .whileLoop condition body span =>
    .whileLoop (condition.withOrigin file) (Stmt.withOriginAll file body) span
  | .untilLoop condition body span =>
    .untilLoop (condition.withOrigin file) (Stmt.withOriginAll file body) span
  | .ret value span => .ret (value.map (·.withOrigin file)) span
  | .call c => .call (c.withOrigin file)
  | .continueLoop span => .continueLoop span
  | .breakLoop span => .breakLoop span

/-- Records the file in every statement of a block. -/
def Stmt.withOriginAll (file : String) : List Stmt → List Stmt
  | [] => []
  | statement :: rest => statement.withOrigin file :: Stmt.withOriginAll file rest

end

/-- Records the file in a function, its signature and its body. -/
def FunctionDef.withOrigin (file : String) (function : FunctionDef) : FunctionDef :=
  { function with
    parameters := function.parameters.map fun p => { p with type := p.type.withOrigin file }
    returnType := function.returnType.map (·.withOrigin file)
    body := Stmt.withOriginAll file function.body
    origin := originOr file function.origin }

end Accord
