/-!
# Joining texts

Names and messages are built from lists of texts.  `joinWith` puts a separator
between neighbours and nowhere else, and `angled` writes a bracketed argument
list, which is empty for an empty list.
-/

namespace Accord

/-- The texts in order with the separator between neighbours. -/
def joinWith (separator : String) : List String → String
  | [] => ""
  | [text] => text
  | text :: next :: rest => text ++ separator ++ joinWith separator (next :: rest)

/-- Arguments between angle brackets, or nothing when there are none. -/
def angled (separator : String) : List String → String
  | [] => ""
  | text :: rest => "<" ++ joinWith separator (text :: rest) ++ ">"

/-- A name behind an explicit package, or the bare name. -/
def qualify : Option String → String → String
  | some package, name => package ++ "::" ++ name
  | none, name => name

end Accord
