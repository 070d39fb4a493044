import Accord.Format.Function
import Accord.Json.Reader
import Accord.Source.Project

/-!
# Files and project descriptions as JSON

A project description is a text that holds a list of files.

* `SourceFile.encode` and `SourceFile.decode` convert one file.
* `Project.read` reads a description: its files are decoded, stamped and
  checked for distinct names.

A description is nested at most `depthLimit` deep, and every part of it denotes
something.  Both are asked of types and statements in full; members of a file, a
function or a parameter that nobody asks for are skipped whatever they hold.
-/

namespace Accord

open Json

/-! ## Files -/

/-- The file as a record. -/
def SourceFile.encode (file : SourceFile) : Json :=
  .record [
    ("filename", .text file.name),
    ("package_name", .text file.package),
    ("imports", ofTexts file.imports),
    ("type_definitions", .list (file.types.map TypeDef.encode)),
    ("function_definitions", .list (file.functions.map FunctionDef.encode))]

/-- Reads a file. -/
def SourceFile.decode (value : Json) : Decoded SourceFile := do
  let members ← value.asRecord
  return {
    name := ← field members "filename" asText
    package := ← field members "package_name" asText
    imports := ← fieldOr members "imports" [] (asListOf asText)
    types := ← fieldOr members "type_definitions" [] (asListOf TypeDef.decode)
    functions := ← fieldOr members "function_definitions" [] (asListOf FunctionDef.decode) }

/-! ## Limits of a description -/

/-- How deep lists and records of a description may be nested. -/
def depthLimit : Nat := 127

/-- Whether a value whose outermost bracket stands at the given level keeps the limits. -/
def Json.isSoundAt (level : Nat) (value : Json) : Bool :=
  value.isDefined && level + value.height ≤ depthLimit + 1

/-- The values of the members of the given name. -/
def Json.under (name : String) : Json → List Json
  | .record members => (members.filter (·.1 == name)).map (·.2)
  | _ => []

/-- The items of the lists under the given name. -/
def Json.itemsUnder (name : String) (value : Json) : List Json :=
  (value.under name).flatMap fun
    | .list items => items
    | _ => []

/-- Whether the types and statements of a function keep the limits. -/
def soundFunction (function : Json) : Bool :=
  (((function.itemsUnder "arguments").flatMap (under "argument_type")).all (isSoundAt 7)) &&
  ((function.under "return_type").all (isSoundAt 5)) &&
  ((function.itemsUnder "body").all (isSoundAt 6))

/-- Whether the types and statements of a file keep the limits. -/
def soundFile (file : Json) : Bool :=
  ((file.itemsUnder "type_definitions").all (isSoundAt 4)) &&
  ((file.itemsUnder "function_definitions").all soundFunction)

/-! ## Descriptions -/

/-- Reads the files of a project description. -/
def readFiles (text : String) : Decoded (List SourceFile) := do
  let some value := Json.read? text | throw .ungrammatical
  let items ← value.asList
  unless items.all soundFile do throw .unsound
  items.mapM SourceFile.decode

/-- Reads a project description. -/
def Project.read (text : String) : Except Diagnostic Project :=
  match readFiles text with
  | .ok files => Project.ofFiles files
  | .error fault => .error (.malformed fault.message)

end Accord
