import Accord.Buckets
import Accord.Diagnostic
import Accord.Source.Origin

/-!
# Projects

A project is a list of files with distinct names.  Each file belongs to a
package and lists the packages it imports.  Files are found by their positions,
which an index keeps by file and by package.

* `Project.ofFiles` stamps each file's name on what it defines, enters the file
  in the index, and refuses a file name that occurs twice.
* `Project.visiblePackages` is the order in which a name used in a file is
  looked up.
-/

namespace Accord

/-- One file of a project. -/
structure SourceFile where
  name : String
  package : String
  imports : List String := []
  types : List TypeDef := []
  functions : List FunctionDef := []

/-- Records the file's name in everything it defines. -/
def SourceFile.stamped (file : SourceFile) : SourceFile :=
  { file with
    types := file.types.map (·.withOrigin file.name)
    functions := file.functions.map (·.withOrigin file.name) }

/-- Where the files of a project stand. -/
structure FileIndex where
  /-- The position of each file. -/
  positions : List (String × Nat) := []
  /-- The positions of the files of each package, in order. -/
  packages : Buckets Nat := {}
  /-- The packages in order of first appearance. -/
  order : List String := []

namespace FileIndex

/-- Enters a file at a position. -/
def add (index : FileIndex) (file : SourceFile) (position : Nat) : FileIndex where
  positions := index.positions ++ [(file.name, position)]
  packages := index.packages.push file.package position
  order :=
    bif index.packages.contains file.package then index.order
    else index.order ++ [file.package]

/-- The index of a list of files. -/
def ofFiles (files : List SourceFile) : FileIndex :=
  files.zipIdx.foldl (fun index (file, position) => index.add file position) {}

theorem ofFiles_concat (files : List SourceFile) (file : SourceFile) :
    ofFiles (files ++ [file]) = (ofFiles files).add file files.length := by
  simp [ofFiles, List.zipIdx_append]

end FileIndex

/-- Files that are checked together (`ProjectFileStructure`), with their index. -/
structure Project where
  files : List SourceFile := []
  index : FileIndex := .ofFiles files
  indexed : index = .ofFiles files := by rfl

namespace Project

/-- The file of a given name (`get_file`). -/
def file? (project : Project) (name : String) : Option SourceFile :=
  (project.index.positions.lookup name).bind (project.files[·]?)

/-- Adds a file at the end. -/
def push (project : Project) (file : SourceFile) : Project where
  files := project.files ++ [file]
  index := project.index.add file project.files.length
  indexed := by rw [project.indexed, FileIndex.ofFiles_concat]

/-- Adds a file, unless its name is taken. -/
def addFile (project : Project) (file : SourceFile) : Except Diagnostic Project :=
  match project.index.positions.lookup file.name with
  | some _ => .error (.duplicateFile file.name)
  | none => .ok (project.push file.stamped)

/-- The project of the given files, in order. -/
def ofFiles (files : List SourceFile) : Except Diagnostic Project :=
  files.foldlM addFile {}

/-- The package that a file belongs to. -/
def packageOf? (project : Project) (file : String) : Option String :=
  (project.file? file).map (·.package)

/-- The packages that a file imports; none for an unknown file. -/
def importsOf (project : Project) (file : String) : List String :=
  match project.file? file with
  | some file => file.imports
  | none => []

/-- The files of a package, in order (`files_of_package`). -/
def filesOf (project : Project) (package : String) : List SourceFile :=
  (project.index.packages.get package).filterMap (project.files[·]?)

/-- Appends a text to a list that does not hold it yet. -/
def addNew (texts : List String) (text : String) : List String :=
  if texts.contains text then texts else texts ++ [text]

/-- The packages of a project, each once, in order of first appearance. -/
def packages (project : Project) : List String :=
  project.index.order

/-- The packages in which a name used in a file is looked up, in order: the one
written in front of it, or else the file's own package and then its imports. -/
def visiblePackages (project : Project) (qualifier : Option String) (file : String) :
    List String :=
  match qualifier with
  | some package => [package]
  | none => (project.importsOf file).foldl addNew (project.packageOf? file).toList

end Project

end Accord
