import Accord.Format.Expr
import Accord.Source.FunctionDef

/-!
# Statements and functions as JSON

Statements are tagged records.  The value of a variable or of a return, and the
statements behind an else, may be left out; so may every part of a function but
its name.
-/

namespace Accord

open Json

/-! ## Statements -/

namespace Stmt

mutual

/-- The statement as a tagged record. -/
def encode : Stmt → Json
  | .declareVar name type value span =>
    tagged "VariableDeclaration" [("identifier", .text name), ("declared_type", type.encode),
      ("value", ofOption Expr.encode value), ("span", span.encode)]
  | .declareConst name type value span =>
    tagged "ConstDeclaration" [("identifier", .text name), ("declared_type", type.encode),
      ("value", value.encode), ("span", span.encode)]
  | .assign target value span =>
    tagged "Assignment" [("target", target.encode), ("value", value.encode),
      ("span", span.encode)]
  | .conditional condition thenBranch elseBranch span =>
    tagged "Conditional" [("condition", condition.encode),
      ("then_branch", .list (encodeAll thenBranch)),
      ("else_branch", .list (encodeAll elseBranch)), ("span", span.encode)]
  | .whileLoop condition body span =>
    tagged "WhileLoop" [("condition", condition.encode), ("body", .list (encodeAll body)),
      ("span", span.encode)]
  | .untilLoop condition body span =>
    tagged "UntilLoop" [("condition", condition.encode), ("body", .list (encodeAll body)),
      ("span", span.encode)]
  | .ret value span =>
    tagged "Return" [("value", ofOption Expr.encode value), ("span", span.encode)]
  | .call c => tagged "FunctionCall" c.members
  | .continueLoop span => tagged "Continue" [("span", span.encode)]
  | .breakLoop span => tagged "Break" [("span", span.encode)]

/-- Every statement of a list as a tagged record. -/
def encodeAll : List Stmt → List Json
  | [] => []
  | statement :: rest => statement.encode :: encodeAll rest

end

/-- Reads a statement of the given kind, given a reader of the statements inside. -/
def ofMembers (inner : Json → Decoded Stmt) (kind : String) (members : Members) :
    Decoded Stmt :=
  match kind with
  | "VariableDeclaration" =>
    return .declareVar (← field members "identifier" asText)
      (← field members "declared_type" (TypeExpr.decode .inner))
      (← optionalField members "value" (Expr.decode .inner)) (← spanIn members)
  | "ConstDeclaration" =>
    return .declareConst (← field members "identifier" asText)
      (← field members "declared_type" (TypeExpr.decode .inner))
      (← field members "value" (Expr.decode .inner)) (← spanIn members)
  | "Assignment" =>
    return .assign (← field members "target" (Expr.decode .inner))
      (← field members "value" (Expr.decode .inner)) (← spanIn members)
  | "Conditional" =>
    return .conditional (← field members "condition" (Expr.decode .inner))
      (← field members "then_branch" (asListOf inner))
      (← fieldOr members "else_branch" [] (asListOf inner)) (← spanIn members)
  | "WhileLoop" =>
    return .whileLoop (← field members "condition" (Expr.decode .inner))
      (← field members "body" (asListOf inner)) (← spanIn members)
  | "UntilLoop" =>
    return .untilLoop (← field members "condition" (Expr.decode .inner))
      (← field members "body" (asListOf inner)) (← spanIn members)
  | "Return" => return .ret (← optionalField members "value" (Expr.decode .inner)) (← spanIn members)
  | "FunctionCall" => return .call (← Call.ofMembers .inner (Expr.decode .inner) members)
  | "Continue" => return .continueLoop (← spanIn members)
  | "Break" => return .breakLoop (← spanIn members)
  | kind => throw (.unknown kind)

/-- The kinds of statements, as they are numbered. -/
def kinds : List String :=
  ["VariableDeclaration", "ConstDeclaration", "Assignment", "Conditional", "WhileLoop",
    "UntilLoop", "Return", "FunctionCall", "Continue", "Break"]

/-- Reads a statement that is nested at most as deep as the first argument says. -/
def decodeWithin : Nat → Place → Json → Decoded Stmt
  | 0, _, _ => .error .unsound
  | depth + 1, place, value => do
    let members ← value.asRecord
    ofMembers (decodeWithin depth .inner) (← kindOf place kinds members) members

/-- Reads a statement that stands by itself. -/
def decode (value : Json) : Decoded Stmt :=
  decodeWithin (value.height + 1) .outer value

end Stmt

/-! ## Functions -/

/-- The parameter as a record. -/
def Parameter.encode (parameter : Parameter) : Json :=
  .record [("name", .text parameter.name), ("argument_type", parameter.type.encode)]

/-- Reads a parameter. -/
def Parameter.decode (value : Json) : Decoded Parameter := do
  let members ← value.asRecord
  return {
    name := ← field members "name" asText
    type := ← field members "argument_type" (TypeExpr.decode .outer) }

/-- The function as a record. -/
def FunctionDef.encode (function : FunctionDef) : Json :=
  .record [
    ("name", .text function.name),
    ("arguments", .list (function.parameters.map Parameter.encode)),
    ("return_type", ofOption TypeExpr.encode function.returnType),
    ("generics", ofTexts function.generics),
    ("body", .list (Stmt.encodeAll function.body)),
    ("origin_file", .text function.origin),
    ("span", function.span.encode)]

/-- Reads a function. -/
def FunctionDef.decode (value : Json) : Decoded FunctionDef := do
  let members ← value.asRecord
  return {
    name := ← field members "name" asText
    parameters := ← fieldOr members "arguments" [] (asListOf Parameter.decode)
    returnType := ← optionalField members "return_type" (TypeExpr.decode .outer)
    generics := ← fieldOr members "generics" [] (asListOf asText)
    body := ← fieldOr members "body" [] (asListOf Stmt.decode)
    origin := ← fieldOr members "origin_file" "" asText
    span := ← spanIn members }

end Accord
