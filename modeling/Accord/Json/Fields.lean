import Accord.Json.Value

/-!
# Reading members of records

A record is read member by member.  A member that is asked for may stand
anywhere and must stand there once; members that nobody asks for are left alone.

* `field` asks for a member that has to be there.
* `fieldOr` has a value for a member that is left out.
* `optionalField` takes a member that is left out, or null, for no value.

A value of several shapes is a tagged record: its member "kind" names the shape
and stands next to the members of that shape.  Kinds are numbered, and inside
another tagged record the number may stand for the name (`Place`).

A choice without members is a text; it may also be written as a record whose only
member has the name of the choice and holds nothing (`asChoice`).
-/

namespace Accord.Json

/-- Why a value does not have the form asked for. -/
inductive Fault where
  /-- The text follows no grammar. -/
  | ungrammatical
  /-- Lists and records are nested too deep, or a part denotes nothing. -/
  | unsound
  | missing (field : String)
  | repeated (field : String)
  | expected (form : String)
  | unknown (name : String)

/-- The wording of a fault. -/
def Fault.message : Fault → String
  | .ungrammatical => "the text is not a JSON value"
  | .unsound => "the value is nested too deep or holds a part without a value"
  | .missing field => s!"member {field} is missing"
  | .repeated field => s!"member {field} stands more than once"
  | .expected form => s!"expected {form}"
  | .unknown name => s!"unknown name {name}"

/-- What is read from a value. -/
abbrev Decoded := Except Fault

/-- The members of a record. -/
abbrev Members := List (String × Json)

variable {α : Type}

/-- The members of a value that is a record. -/
def asRecord : Json → Decoded Members
  | .record members => .ok members
  | _ => .error (.expected "a record")

/-- The items of a value that is a list. -/
def asList : Json → Decoded (List Json)
  | .list items => .ok items
  | _ => .error (.expected "a list")

/-- The text of a value that is one. -/
def asText : Json → Decoded String
  | .text value => .ok value
  | _ => .error (.expected "a text")

/-- The truth value of a value that is one. -/
def asBool : Json → Decoded Bool
  | .bool value => .ok value
  | _ => .error (.expected "a truth value")

/-- The character of a text of one character. -/
def asChar : Json → Decoded Char
  | .text value =>
    match value.toList with
    | [c] => .ok c
    | _ => .error (.expected "one character")
  | _ => .error (.expected "one character")

/-- A whole number that fits a word of 64 bits. -/
def asWord : Json → Decoded UInt64
  | .number (.whole value) =>
    if 0 ≤ value ∧ value < UInt64.size then .ok (UInt64.ofNat value.toNat)
    else .error (.expected "a number from 0 to 2^64 - 1")
  | _ => .error (.expected "a whole number")

/-- A whole number that fits a signed word of 64 bits. -/
def asSigned : Json → Decoded Int64
  | .number (.whole value) =>
    if Int64.minValue.toInt ≤ value ∧ value ≤ Int64.maxValue.toInt then .ok (Int64.ofInt value)
    else .error (.expected "a number from -2^63 to 2^63 - 1")
  | _ => .error (.expected "a whole number")

/-- Any number as a binary fraction. -/
def asFloat : Json → Decoded Float
  | .number (.whole value) => .ok (Float.ofInt value)
  | .number (.fractional value) => .ok value
  | _ => .error (.expected "a number")

/-- Reads every item of a list. -/
def asListOf (decode : Json → Decoded α) (value : Json) : Decoded (List α) := do
  (← value.asList).mapM decode

/-- The value of a member that stands at most once. -/
def member? (members : Members) (name : String) : Decoded (Option Json) :=
  match members.filter (·.1 == name) with
  | [] => .ok none
  | [(_, value)] => .ok (some value)
  | _ => .error (.repeated name)

/-- Reads a member that has to be there. -/
def field (members : Members) (name : String) (decode : Json → Decoded α) : Decoded α := do
  match ← member? members name with
  | some value => decode value
  | none => throw (.missing name)

/-- Reads a member that may be left out. -/
def fieldOr (members : Members) (name : String) (default : α) (decode : Json → Decoded α) :
    Decoded α := do
  match ← member? members name with
  | some value => decode value
  | none => return default

/-- Reads a member that may be left out or null. -/
def optionalField (members : Members) (name : String) (decode : Json → Decoded α) :
    Decoded (Option α) := do
  match ← member? members name with
  | some .null => return none
  | some value => return some (← decode value)
  | none => return none

/-- A record of the given kind. -/
def tagged (kind : String) (members : Members) : Json :=
  .record (("kind", .text kind) :: members)

/-- Where a tagged record stands. -/
inductive Place where
  /-- By itself. -/
  | outer
  /-- Inside another tagged record. -/
  | inner
deriving DecidableEq

/-- The kind of a tagged record, one of the given kinds. -/
def kindOf (place : Place) (kinds : List String) (members : Members) : Decoded String := do
  match place, ← field members "kind" fun value => .ok value with
  | _, .text name => return name
  | .inner, .number (.whole (.ofNat position)) =>
    match kinds[position]? with
    | some name => return name
    | none => throw (.expected "the number of a kind")
  | _, _ => throw (.expected "a kind")

/-- Whether a value holds nothing: null, or a record without members. -/
def isNothing : Json → Bool
  | .null => true
  | .record [] => true
  | _ => false

/-- The name of a choice. -/
def asChoice : Json → Decoded String
  | .text name => .ok name
  | .record [(name, value)] =>
    if value.isNothing then .ok name else .error (.expected "a choice without members")
  | _ => .error (.expected "a choice")

end Accord.Json
