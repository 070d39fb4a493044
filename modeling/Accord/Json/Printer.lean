import Accord.Decimal.Shortest
import Accord.Json.Value
import Accord.Text

/-!
# Writing JSON texts

`Json.compact` writes a value without blanks, `Json.pretty` with one member or
item on a line, two blanks deeper for each level.  Quotes, backslashes and
control characters are escaped, and nothing else.
-/

namespace Accord.Json

/-- The hexadecimal digit of a number below sixteen. -/
def hexChar (value : Nat) : Char :=
  if value < 10 then Char.ofNat ('0'.toNat + value) else Char.ofNat ('a'.toNat + value - 10)

/-- A character inside quotes. -/
def escape (c : Char) : List Char :=
  if c == '"' then ['\\', '"']
  else if c == '\\' then ['\\', '\\']
  else if c == '\x08' then ['\\', 'b']
  else if c == '\x0c' then ['\\', 'f']
  else if c == '\n' then ['\\', 'n']
  else if c == '\r' then ['\\', 'r']
  else if c == '\t' then ['\\', 't']
  else if c.toNat < 32 then
    ['\\', 'u', '0', '0', hexChar (c.toNat / 16), hexChar (c.toNat % 16)]
  else [c]

/-- A text in quotes. -/
def quote (text : String) : String :=
  "\"" ++ String.ofList (text.toList.flatMap escape) ++ "\""

/-- Fractions from 10^-5 up to below 10^16 are written in positional notation. -/
def fractionStyle : DecimalStyle :=
  { least := -5, greatest := 15 }

/-- A number as it is written. -/
def renderNumber : Number → String
  | .whole value => toString value
  | .fractional value => fractionStyle.render value

mutual

/-- The value without blanks. -/
def compact : Json → String
  | .null => "null"
  | .bool value => if value then "true" else "false"
  | .number value => renderNumber value
  | .text value => quote value
  | .list items => "[" ++ joinWith "," (compactItems items) ++ "]"
  | .record members => "\x7b" ++ joinWith "," (compactMembers members) ++ "\x7d"
  | .void => "null"

/-- Each of several values without blanks. -/
def compactItems : List Json → List String
  | [] => []
  | item :: rest => item.compact :: compactItems rest

/-- Each of several members without blanks. -/
def compactMembers : List (String × Json) → List String
  | [] => []
  | (name, value) :: rest => (quote name ++ ":" ++ value.compact) :: compactMembers rest

end

/-- The start of a line at a given depth. -/
def newLine (depth : Nat) : String :=
  "\n" ++ String.ofList (List.replicate (2 * depth) ' ')

/-- Parts on lines of their own between brackets; the brackets alone if there are none. -/
def block (opening closing : String) (depth : Nat) : List String → String
  | [] => opening ++ closing
  | part :: rest =>
    opening ++ newLine (depth + 1) ++
      joinWith ("," ++ newLine (depth + 1)) (part :: rest) ++ newLine depth ++ closing

mutual

/-- The value with a line for each item and member. -/
def prettyAt (depth : Nat) : Json → String
  | .list items => block "[" "]" depth (prettyItems (depth + 1) items)
  | .record members => block "\x7b" "\x7d" depth (prettyMembers (depth + 1) members)
  | .null => "null"
  | .bool value => if value then "true" else "false"
  | .number value => renderNumber value
  | .text value => quote value
  | .void => "null"

/-- Each of several values with its lines. -/
def prettyItems (depth : Nat) : List Json → List String
  | [] => []
  | item :: rest => prettyAt depth item :: prettyItems depth rest

/-- Each of several members with its lines. -/
def prettyMembers (depth : Nat) : List (String × Json) → List String
  | [] => []
  | (name, value) :: rest =>
    (quote name ++ ": " ++ prettyAt depth value) :: prettyMembers depth rest

end

/-- The value on lines of their own. -/
def pretty (value : Json) : String :=
  prettyAt 0 value

end Accord.Json
