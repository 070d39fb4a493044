import Accord.Format.Type
import Accord.Source.Expr

/-!
# Spans, expressions and calls as JSON

Operators are choices, expressions are tagged records, and a call is the record
that stands behind the kind "FunctionCall" in expressions and statements alike.
A span may be left out anywhere.

Calls hold expressions and expressions hold calls, so the reader of calls takes
the reader of arguments as a parameter.  The arguments of a call that stands by
itself stand by themselves too.
-/

namespace Accord

open Json

/-! ## Spans -/

/-- The span as a record. -/
def Span.encode (span : Span) : Json :=
  .record [
    ("start", ofNat span.start.toNat),
    ("end", ofNat span.stop.toNat),
    ("file_id", ofNat span.file.toNat)]

/-- Reads a span. -/
def Span.decode (value : Json) : Decoded Span := do
  let members ← value.asRecord
  return {
    start := ← field members "start" asWord
    stop := ← field members "end" asWord
    file := ← fieldOr members "file_id" 0 asWord }

/-- Reads the span of a record, which may be left out. -/
def spanIn (members : Members) : Decoded Span :=
  fieldOr members "span" {} Span.decode

/-! ## Operators -/

/-- The name of an operator on two values. -/
def BinaryOp.name : BinaryOp → String
  | .add => "Add"
  | .sub => "Sub"
  | .mul => "Mul"
  | .div => "Div"
  | .mod => "Mod"
  | .eq => "Eq"
  | .ne => "Ne"
  | .lt => "Lt"
  | .le => "Le"
  | .gt => "Gt"
  | .ge => "Ge"
  | .and => "And"
  | .or => "Or"

/-- Reads an operator on two values. -/
def BinaryOp.decode (value : Json) : Decoded BinaryOp := do
  match ← value.asChoice with
  | "Add" => return .add
  | "Sub" => return .sub
  | "Mul" => return .mul
  | "Div" => return .div
  | "Mod" => return .mod
  | "Eq" => return .eq
  | "Ne" => return .ne
  | "Lt" => return .lt
  | "Le" => return .le
  | "Gt" => return .gt
  | "Ge" => return .ge
  | "And" => return .and
  | "Or" => return .or
  | name => throw (.unknown name)

/-- The name of an operator on one value. -/
def UnaryOp.name : UnaryOp → String
  | .addressOf => "AddressOf"
  | .deref => "Deref"
  | .not => "Not"
  | .plus => "Plus"
  | .minus => "Minus"

/-- Reads an operator on one value. -/
def UnaryOp.decode (value : Json) : Decoded UnaryOp := do
  match ← value.asChoice with
  | "AddressOf" => return .addressOf
  | "Deref" => return .deref
  | "Not" => return .not
  | "Plus" => return .plus
  | "Minus" => return .minus
  | name => throw (.unknown name)

/-- The name of an operator on a value and a type. -/
def TypeOp.name : TypeOp → String
  | .test => "Is"
  | .cast => "As"

/-- Reads an operator on a value and a type. -/
def TypeOp.decode (value : Json) : Decoded TypeOp := do
  match ← value.asChoice with
  | "Is" => return .test
  | "As" => return .cast
  | name => throw (.unknown name)

/-! ## Encoding -/

/-- The members of a call whose arguments are encoded already. -/
def callMembers (name : String) (qualifier : Option String) (arguments : List Json)
    (generics : List TypeExpr) (origin : String) (span : Span) : Members :=
  [ ("name", .text name),
    ("package_prefix", ofOption .text qualifier),
    ("arguments", .list arguments),
    ("instantiated_generics", .list (generics.map TypeExpr.encode)),
    ("origin_file", .text origin),
    ("span", span.encode)]

namespace Expr

mutual

/-- The expression as a tagged record. -/
def encode : Expr → Json
  | .call name qualifier arguments generics origin span =>
    tagged "FunctionCall"
      (callMembers name qualifier (encodeAll arguments) generics origin span)
  | .binary op left right span =>
    tagged "BinaryOperator" [("operator", .text op.name), ("left", left.encode),
      ("right", right.encode), ("span", span.encode)]
  | .unary op operand span =>
    tagged "UnaryOperator" [("operator", .text op.name), ("operand", operand.encode),
      ("span", span.encode)]
  | .arrayLit length element elements span =>
    tagged "ArrayLiteral" [("length", ofNat length.toNat), ("stored_type", element.encode),
      ("elements", .list (encodeAll elements)), ("span", span.encode)]
  | .typeOp op value type span =>
    tagged "TypeOperator" [("operator", .text op.name), ("expression", value.encode),
      ("type_signature", type.encode), ("span", span.encode)]
  | .member value name span =>
    tagged "DotMemberAccess" [("struct_value", value.encode), ("member", .text name),
      ("span", span.encode)]
  | .index storage position span =>
    tagged "SquareBracketsAccess" [("storage", storage.encode), ("index", position.encode),
      ("span", span.encode)]
  | .intLit value span =>
    tagged "IntLiteral" [("value", .number (.whole value.toInt)), ("span", span.encode)]
  | .floatLit value span =>
    tagged "FloatLiteral" [("value", .number (.fractional value)), ("span", span.encode)]
  | .charLit value span =>
    tagged "CharLiteral" [("value", .text (String.ofList [value])), ("span", span.encode)]
  | .boolLit value span =>
    tagged "BoolLiteral" [("value", .bool value), ("span", span.encode)]
  | .stringLit value span =>
    tagged "StringLiteral" [("value", .text value), ("span", span.encode)]
  | .ident name span =>
    tagged "Identifier" [("name", .text name), ("span", span.encode)]

/-- Every expression of a list as a tagged record. -/
def encodeAll : List Expr → List Json
  | [] => []
  | item :: rest => item.encode :: encodeAll rest

end

end Expr

/-- The members of a call. -/
def Call.members (call : Call) : Members :=
  callMembers call.name call.qualifier (Expr.encodeAll call.arguments) call.generics
    call.origin call.span

/-- The call as a record. -/
def Call.encode (call : Call) : Json :=
  .record call.members

/-! ## Decoding -/

/-- Reads the members of a call, given the place of its parts and a reader of its
arguments. -/
def Call.ofMembers (place : Place) (argument : Json → Decoded Expr) (members : Members) :
    Decoded Call := do
  return {
    name := ← field members "name" asText
    qualifier := ← optionalField members "package_prefix" asText
    arguments := ← fieldOr members "arguments" [] (asListOf argument)
    generics := ← fieldOr members "instantiated_generics" [] (asListOf (TypeExpr.decode place))
    origin := ← fieldOr members "origin_file" "" asText
    span := ← spanIn members }

namespace Expr

/-- Reads an expression of the given kind, given a reader of its operands. -/
def ofMembers (operand : Json → Decoded Expr) (kind : String) (members : Members) :
    Decoded Expr :=
  match kind with
  | "FunctionCall" => return ofCall (← Call.ofMembers .inner operand members)
  | "BinaryOperator" =>
    return .binary (← field members "operator" BinaryOp.decode)
      (← field members "left" operand) (← field members "right" operand) (← spanIn members)
  | "UnaryOperator" =>
    return .unary (← field members "operator" UnaryOp.decode)
      (← field members "operand" operand) (← spanIn members)
  | "ArrayLiteral" =>
    return .arrayLit (← field members "length" asWord)
      (← field members "stored_type" (TypeExpr.decode .inner))
      (← fieldOr members "elements" [] (asListOf operand)) (← spanIn members)
  | "TypeOperator" =>
    return .typeOp (← field members "operator" TypeOp.decode)
      (← field members "expression" operand)
      (← field members "type_signature" (TypeExpr.decode .inner)) (← spanIn members)
  | "DotMemberAccess" =>
    return .member (← field members "struct_value" operand) (← field members "member" asText)
      (← spanIn members)
  | "SquareBracketsAccess" =>
    return .index (← field members "storage" operand) (← field members "index" operand)
      (← spanIn members)
  | "IntLiteral" => return .intLit (← field members "value" asSigned) (← spanIn members)
  | "FloatLiteral" => return .floatLit (← field members "value" asFloat) (← spanIn members)
  | "CharLiteral" => return .charLit (← field members "value" asChar) (← spanIn members)
  | "BoolLiteral" => return .boolLit (← field members "value" asBool) (← spanIn members)
  | "StringLiteral" => return .stringLit (← field members "value" asText) (← spanIn members)
  | "Identifier" => return .ident (← field members "name" asText) (← spanIn members)
  | kind => throw (.unknown kind)

/-- The kinds of expressions, as they are numbered. -/
def kinds : List String :=
  ["FunctionCall", "BinaryOperator", "UnaryOperator", "ArrayLiteral", "TypeOperator",
    "DotMemberAccess", "SquareBracketsAccess", "IntLiteral", "FloatLiteral", "CharLiteral",
    "BoolLiteral", "StringLiteral", "Identifier"]

/-- Reads an expression that is nested at most as deep as the first argument says. -/
def decodeWithin : Nat → Place → Json → Decoded Expr
  | 0, _, _ => .error .unsound
  | depth + 1, place, value => do
    let members ← value.asRecord
    ofMembers (decodeWithin depth .inner) (← kindOf place kinds members) members

/-- Reads an expression. -/
def decode (place : Place) (value : Json) : Decoded Expr :=
  decodeWithin (value.height + 1) place value

end Expr

/-- Reads a call that stands by itself. -/
def Call.decode (value : Json) : Decoded Call := do
  Call.ofMembers .outer (Expr.decode .outer) (← value.asRecord)

end Accord
