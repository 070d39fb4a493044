import Accord.Json.Fields
import Accord.Source.TypeDef

/-!
# Types and type definitions as JSON

Each shape of a type and each body of a definition is a tagged record.  Encoding
writes every member.  In decoding, the package in front of a name may be left
out or null, and type arguments, type parameters and origins may be left out.

Decoding a type recurses on its nesting, which the height of the value bounds.
-/

namespace Accord

open Json

/-! ## Types -/

namespace TypeExpr

mutual

/-- The type as a tagged record. -/
def encode : TypeExpr → Json
  | .primitive name => tagged "Primitive" [("name", .text name)]
  | .named name qualifier arguments origin =>
    tagged "Custom" [
      ("name", .text name),
      ("package_prefix", ofOption .text qualifier),
      ("type_parameters", .list (encodeAll arguments)),
      ("origin_file", .text origin)]
  | .pointer target => tagged "Pointer" [("pointed", target.encode)]
  | .array length element =>
    tagged "Array" [("length", ofNat length.toNat), ("element", element.encode)]
  | .slice element => tagged "Slice" [("element", element.encode)]
  | .param name => tagged "Template" [("name", .text name)]
  | .union alternatives =>
    tagged "InlineUnion" [("alternatives", .list (encodeAll alternatives))]

/-- Every type of a list as a tagged record. -/
def encodeAll : List TypeExpr → List Json
  | [] => []
  | type :: rest => type.encode :: encodeAll rest

end

/-- The kinds of types, as they are numbered. -/
def kinds : List String :=
  ["Primitive", "Custom", "Pointer", "Array", "Slice", "Template", "InlineUnion"]

/-- Reads a type that is nested at most as deep as the first argument says. -/
def decodeWithin : Nat → Place → Json → Decoded TypeExpr
  | 0, _, _ => .error .unsound
  | depth + 1, place, value => do
    let members ← value.asRecord
    match ← kindOf place kinds members with
    | "Primitive" => return .primitive (← field members "name" asText)
    | "Custom" =>
      return .named (← field members "name" asText)
        (← optionalField members "package_prefix" asText)
        (← fieldOr members "type_parameters" [] (asListOf (decodeWithin depth .inner)))
        (← fieldOr members "origin_file" "" asText)
    | "Pointer" => return .pointer (← field members "pointed" (decodeWithin depth .inner))
    | "Array" =>
      return .array (← field members "length" asWord)
        (← field members "element" (decodeWithin depth .inner))
    | "Slice" => return .slice (← field members "element" (decodeWithin depth .inner))
    | "Template" => return .param (← field members "name" asText)
    | "InlineUnion" =>
      return .union (← field members "alternatives" (asListOf (decodeWithin depth .inner)))
    | kind => throw (.unknown kind)

/-- Reads a type. -/
def decode (place : Place) (value : Json) : Decoded TypeExpr :=
  decodeWithin (value.height + 1) place value

end TypeExpr

/-! ## Definitions -/

/-- The field as a record. -/
def Field.encode (item : Field) : Json :=
  .record [("name", .text item.name), ("field_type", item.type.encode)]

/-- Reads a field of a record type.  It stands inside the definition. -/
def Field.decode (value : Json) : Decoded Field := do
  let members ← value.asRecord
  return {
    name := ← field members "name" asText
    type := ← field members "field_type" (TypeExpr.decode .inner) }

/-- The kind of a definition with the given body. -/
def TypeBody.kind : TypeBody → String
  | .record _ => "Struct"
  | .union _ => "Union"
  | .alias _ => "Alias"

/-- The member that holds the body. -/
def TypeBody.encode : TypeBody → String × Json
  | .record fields => ("fields", .list (fields.map Field.encode))
  | .union alternatives => ("alternatives", .list (alternatives.map TypeExpr.encode))
  | .alias target => ("aliased", target.encode)

/-- The kinds of definitions, as they are numbered. -/
def TypeDef.kinds : List String :=
  ["Struct", "Union", "Alias"]

/-- Reads the body of a definition of the given kind. -/
def TypeBody.decode (kind : String) (members : Members) : Decoded TypeBody :=
  match kind with
  | "Struct" => return .record (← field members "fields" (asListOf Field.decode))
  | "Union" => return .union (← field members "alternatives" (asListOf (TypeExpr.decode .inner)))
  | "Alias" => return .alias (← field members "aliased" (TypeExpr.decode .inner))
  | kind => throw (.unknown kind)

/-- The definition as a tagged record. -/
def TypeDef.encode (definition : TypeDef) : Json :=
  tagged definition.body.kind [
    ("name", .text definition.name),
    definition.body.encode,
    ("generics", ofTexts definition.generics),
    ("origin_file", .text definition.origin)]

/-- Reads a type definition, which stands by itself. -/
def TypeDef.decode (value : Json) : Decoded TypeDef := do
  let members ← value.asRecord
  let kind ← kindOf .outer TypeDef.kinds members
  return {
    name := ← field members "name" asText
    body := ← TypeBody.decode kind members
    generics := ← fieldOr members "generics" [] (asListOf asText)
    origin := ← fieldOr members "origin_file" "" asText }

end Accord
