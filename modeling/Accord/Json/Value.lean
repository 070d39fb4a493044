/-!
# JSON values

A number is whole or fractional, as it was written: whole numbers outside the
range of 64 bits, and a negative zero, count as fractional.  Members of a record
keep their order, and a name may occur more than once.

A text may follow the grammar and still denote nothing, for instance half of a
surrogate pair.  Such a part is `Json.void`; it does harm only where it is read.
-/

namespace Accord

/-- A number of a JSON text. -/
inductive Number where
  | whole (value : Int)
  | fractional (value : Float)

/-- A JSON value. -/
inductive Json where
  | null
  | bool (value : Bool)
  | number (value : Number)
  | text (value : String)
  | list (items : List Json)
  | record (members : List (String × Json))
  /-- A part that follows the grammar and denotes nothing. -/
  | void

namespace Json

mutual

/-- How deep lists and records are nested. -/
def height : Json → Nat
  | .list items => heightItems items + 1
  | .record members => heightMembers members + 1
  | _ => 0

/-- The greatest height of several values. -/
def heightItems : List Json → Nat
  | [] => 0
  | item :: rest => max item.height (heightItems rest)

/-- The greatest height of the values of several members. -/
def heightMembers : List (String × Json) → Nat
  | [] => 0
  | (_, value) :: rest => max value.height (heightMembers rest)

end

mutual

/-- Whether every part denotes something. -/
def isDefined : Json → Bool
  | .void => false
  | .list items => definedItems items
  | .record members => definedMembers members
  | _ => true

/-- Whether every part of several values denotes something. -/
def definedItems : List Json → Bool
  | [] => true
  | item :: rest => item.isDefined && definedItems rest

/-- Whether every part of several members denotes something. -/
def definedMembers : List (String × Json) → Bool
  | [] => true
  | (_, value) :: rest => value.isDefined && definedMembers rest

end

/-- A whole number that is not negative. -/
def ofNat (value : Nat) : Json :=
  .number (.whole value)

/-- A value or null. -/
def ofOption {α : Type} (encode : α → Json) : Option α → Json
  | some value => encode value
  | none => .null

/-- A list of texts. -/
def ofTexts (texts : List String) : Json :=
  .list (texts.map .text)

end Json

end Accord
