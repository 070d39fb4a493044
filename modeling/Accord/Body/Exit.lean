import Accord.Diagnostic
import Accord.Source.FunctionDef

/-!
# How control leaves a block

Either control may reach the end of a block, or every path through it returns,
or every path returns or jumps.  From this follow three rules:

* no statement stands behind one that control does not get past;
* `break` and `continue` stand in loops;
* a function with a return type returns on every path.

The body of a loop may not run at all, so a loop never keeps control from
getting past it.
-/

namespace Accord

/-- How control leaves a block. -/
inductive Exit where
  /-- Control may reach the end. -/
  | fallsThrough
  /-- Every path returns. -/
  | returns
  /-- Every path returns or jumps, and some path jumps. -/
  | jumps
deriving DecidableEq

namespace Exit

/-- Whether control never gets past the block. -/
def terminates : Exit → Bool
  | .fallsThrough => false
  | _ => true

/-- The exit of a choice between two blocks. -/
def join : Exit → Exit → Exit
  | .fallsThrough, _ => .fallsThrough
  | _, .fallsThrough => .fallsThrough
  | .returns, .returns => .returns
  | _, _ => .jumps

end Exit

/-- The exit of a jump, which has to stand in a loop. -/
def jumpExit (inLoop : Bool) (keyword : String) (span : Span) : Except Diagnostic Exit :=
  if inLoop then .ok .jumps else .error (.misplacedLoopControl keyword span)

mutual

/-- The exit of a statement of the named function. -/
def Stmt.exit (function : String) (inLoop : Bool) : Stmt → Except Diagnostic Exit
  | .ret _ _ => .ok .returns
  | .breakLoop span => jumpExit inLoop "break" span
  | .continueLoop span => jumpExit inLoop "continue" span
  | .conditional _ thenBranch elseBranch _ => do
    let thenExit ← Stmt.blockExit function inLoop thenBranch
    let elseExit ← Stmt.blockExit function inLoop elseBranch
    return thenExit.join elseExit
  | .whileLoop _ body _ => do
    let _ ← Stmt.blockExit function true body
    return .fallsThrough
  | .untilLoop _ body _ => do
    let _ ← Stmt.blockExit function true body
    return .fallsThrough
  | .declareVar _ _ _ _ => .ok .fallsThrough
  | .declareConst _ _ _ _ => .ok .fallsThrough
  | .assign _ _ _ => .ok .fallsThrough
  | .call _ => .ok .fallsThrough

/-- The exit of a block.  Nothing may stand behind a statement that control does not get
past. -/
def Stmt.blockExit (function : String) (inLoop : Bool) : List Stmt → Except Diagnostic Exit
  | [] => .ok .fallsThrough
  | [statement] => statement.exit function inLoop
  | statement :: next :: rest => do
    let exit ← statement.exit function inLoop
    if exit.terminates then throw (.unreachableCode function next.span)
    else Stmt.blockExit function inLoop (next :: rest)

end

/-- Checks how control moves through a function. -/
def FunctionDef.checkExits (function : FunctionDef) : Except Diagnostic Unit := do
  let exit ← Stmt.blockExit function.name false function.body
  if function.returnType.isSome && exit != .returns then
    throw (.missingReturnPath function.name function.span)

end Accord
