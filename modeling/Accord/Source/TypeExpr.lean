import Accord.Text

/-!
# Type expressions

`TypeExpr` is the closed set of shapes in which a program mentions a type.
Primitive types and type parameters are names of their own; a named type is a
reference that has to be looked up, so it remembers the file it was written in.

* `TypeExpr.render` is the notation used in messages.
* `TypeExpr.isGeneric` tells whether a type parameter occurs anywhere inside.
* `TypeRef` is a named type on its own, as look-ups take it.

Functions on type expressions come in pairs, one for a type and one for a list
of types, so that every recursion follows the data.
-/

namespace Accord

/-- A type as written in a program. -/
inductive TypeExpr where
  /-- A type known by its name alone. -/
  | primitive (name : String)
  /-- A reference to a definition, with an optional package in front of it. -/
  | named (name : String) (qualifier : Option String) (arguments : List TypeExpr)
      (origin : String)
  | pointer (target : TypeExpr)
  | array (length : UInt64) (element : TypeExpr)
  | slice (element : TypeExpr)
  /-- A parameter of a generic definition. -/
  | param (name : String)
  /-- A sum of types without a name. -/
  | union (alternatives : List TypeExpr)

/-- A reference to a type definition, apart from the type it denotes. -/
structure TypeRef where
  name : String
  qualifier : Option String
  arguments : List TypeExpr
  origin : String

/-- The type that a reference denotes. -/
def TypeRef.toType (ref : TypeRef) : TypeExpr :=
  .named ref.name ref.qualifier ref.arguments ref.origin

/-- The reference behind a named type. -/
def TypeExpr.ref? : TypeExpr → Option TypeRef
  | .named name qualifier arguments origin => some ⟨name, qualifier, arguments, origin⟩
  | _ => none

namespace TypeExpr

/-! ## The primitive types that the rules mention -/

def int : TypeExpr := .primitive "Int"

def float : TypeExpr := .primitive "Float"

def bool : TypeExpr := .primitive "Bool"

def char : TypeExpr := .primitive "Char"

def string : TypeExpr := .primitive "String"

/-- Whether this is the primitive type of the given name. -/
def isPrimitive (name : String) : TypeExpr → Bool
  | .primitive other => other == name
  | _ => false

/-- The names of the two primitive types that hold text. -/
def isTextName (name : String) : Bool :=
  name == "String" || name == "RawString"

/-- Whether this is one of the two primitive types that hold text. -/
def isText : TypeExpr → Bool
  | .primitive name => isTextName name
  | _ => false

/-- Whether arithmetic is defined on values of this type. -/
def isNumeric (type : TypeExpr) : Bool :=
  type.isPrimitive "Int" || type.isPrimitive "Float"

/-! ## Notation in messages -/

mutual

/-- The type in source notation. -/
def render : TypeExpr → String
  | .primitive name => name
  | .param name => name
  | .named name qualifier arguments _ =>
    qualify qualifier name ++ angled ", " (renderAll arguments)
  | .pointer target => "#" ++ target.render
  | .array length element => "[" ++ toString length.toNat ++ "]" ++ element.render
  | .slice element => "$" ++ element.render
  | .union alternatives => joinWith " | " (renderAll alternatives)

/-- Every type of a list in source notation. -/
def renderAll : List TypeExpr → List String
  | [] => []
  | type :: rest => type.render :: renderAll rest

end

/-- An argument list in source notation. -/
def renderList (types : List TypeExpr) : String :=
  joinWith ", " (renderAll types)

/-! ## Type parameters -/

mutual

/-- Whether a type parameter occurs inside. -/
def isGeneric : TypeExpr → Bool
  | .primitive _ => false
  | .param _ => true
  | .named _ _ arguments _ => anyGeneric arguments
  | .pointer target => target.isGeneric
  | .array _ element => element.isGeneric
  | .slice element => element.isGeneric
  | .union alternatives => anyGeneric alternatives

/-- Whether a type parameter occurs in some type of a list. -/
def anyGeneric : List TypeExpr → Bool
  | [] => false
  | type :: rest => type.isGeneric || anyGeneric rest

end

mutual

/-- How often type parameters occur inside. -/
def paramCount : TypeExpr → Nat
  | .primitive _ => 0
  | .param _ => 1
  | .named _ _ arguments _ => paramCountAll arguments
  | .pointer target => target.paramCount
  | .array _ element => element.paramCount
  | .slice element => element.paramCount
  | .union alternatives => paramCountAll alternatives

/-- How often type parameters occur in a list of types. -/
def paramCountAll : List TypeExpr → Nat
  | [] => 0
  | type :: rest => type.paramCount + paramCountAll rest

end

end TypeExpr

/-- The reference in source notation. -/
def TypeRef.render (ref : TypeRef) : String :=
  ref.toType.render

end Accord
