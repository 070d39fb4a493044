import Accord.Diagnostic
import Accord.Source.FunctionDef

/-!
# Scopes

Every block of a body has a frame, which holds the objects declared in the block
and knows the frame of the block around it.  Frames are numbered in the order in
which they are opened and are never removed: leaving a block goes back to the
frame around it.  A name is looked up from the current frame outwards, and must
not be declared while an object of that name is visible.  Objects are numbered in
order of declaration.
-/

namespace Accord

/-- A named value of a function body. -/
structure LocalObject where
  id : Nat
  name : String
  type : TypeExpr
  isConst : Bool
  isArgument : Bool

/-- The objects declared in one block, and the number of the frame around it. -/
structure Frame where
  outer : Option Nat
  objects : List LocalObject := []

/-- The object of a name in a frame. -/
def Frame.find? (frame : Frame) (name : String) : Option LocalObject :=
  frame.objects.find? (·.name == name)

/-- The frames opened so far, the latest first, and the number of the one in force. -/
structure Scope where
  frames : List Frame := [{ outer := none }]
  current : Nat := 0
  nextId : Nat := 0

namespace Scope

/-- The frame of a number.  The number of the latest is how many are older. -/
def frameAt? : List Frame → Nat → Option Frame
  | [], _ => none
  | frame :: older, id => if id = older.length then some frame else frameAt? older id

/-- Opens a frame. -/
def enter (scope : Scope) : Scope :=
  { scope with
    frames := { outer := some scope.current } :: scope.frames
    current := scope.frames.length }

/-- Closes the current frame; the one that has none around it stays. -/
def leave (scope : Scope) : Scope :=
  match (frameAt? scope.frames scope.current).bind (·.outer) with
  | some outer => { scope with current := outer }
  | none => scope

/-- The object of a name that is visible from the frame of a number.  The search goes on
among older frames, since a frame is opened after the one around it. -/
def visibleFrom (name : String) : List Frame → Nat → Option LocalObject
  | [], _ => none
  | frame :: older, id =>
    if id = older.length then (frame.find? name).or (frame.outer.bind (visibleFrom name older))
    else visibleFrom name older id

/-- The visible object of a name. -/
def lookup (scope : Scope) (name : String) : Option LocalObject :=
  visibleFrom name scope.frames scope.current

/-- Puts an object into the frame of a number. -/
def insertAt (object : LocalObject) : List Frame → Nat → List Frame
  | [], _ => []
  | frame :: older, id =>
    if id = older.length then { frame with objects := object :: frame.objects } :: older
    else frame :: insertAt object older id

/-- Declares an object, unless its name is visible. -/
def declare (scope : Scope) (name : String) (type : TypeExpr) (isConst isArgument : Bool)
    (span : Span) : Except Diagnostic Scope :=
  match scope.lookup name with
  | some _ => .error (.duplicateIdentifier name span)
  | none =>
    let object := { id := scope.nextId, name, type, isConst, isArgument }
    .ok { scope with
      frames := insertAt object scope.frames scope.current
      nextId := scope.nextId + 1 }

/-- The scope of a function before its body: its parameters in the root frame. -/
def ofFunction (function : FunctionDef) : Except Diagnostic Scope :=
  function.parameters.foldlM (fun (scope : Scope) parameter =>
    scope.declare parameter.name parameter.type false true function.span) {}

end Scope

end Accord
