import Accord.Body.Check
import Accord.Proofs.Body.Addresses
import Accord.Proofs.Query.Guard

/-!
# The faults of structure

A check of structure refuses a function for few causes.

* An address is refused only as one that cannot be taken (`FunctionDef.checkAddresses_faults`).
* Control is refused only for a misplaced jump, for a statement that is not reached, or for a
  path without a return (`FunctionDef.checkExits_faults`).
-/

namespace Accord

/-! ## Addresses -/

/-- The cause is an address that cannot be taken. -/
def Diagnostic.IsAddressFault : Diagnostic → Prop
  | .notAddressable _ => True
  | _ => False

theorem FunctionDef.checkAddresses_faults (function : FunctionDef) :
    Except.Faults Diagnostic.IsAddressFault function.checkAddresses := by
  intro cause hcause
  rcases function.firstFault_checkAddresses with ⟨hok, _⟩ | ⟨path, span, herror, _⟩
  · rw [hok] at hcause
    cases hcause
  · rw [herror] at hcause
    cases hcause
    trivial

/-! ## Exits -/

/-- The cause is the way in which control moves. -/
def Diagnostic.IsExitFault : Diagnostic → Prop
  | .misplacedLoopControl _ _ => True
  | .unreachableCode _ _ => True
  | .missingReturnPath _ _ => True
  | _ => False

theorem jumpExit_faults (inLoop : Bool) (keyword : String) (span : Span) :
    Except.Faults Diagnostic.IsExitFault (jumpExit inLoop keyword span) := by
  cases inLoop with
  | true => exact Except.Faults.ok Exit.jumps
  | false => exact Except.Faults.error trivial

variable (function : String)

mutual

theorem Stmt.exit_faults : (statement : Stmt) → ∀ inLoop,
    Except.Faults Diagnostic.IsExitFault (statement.exit function inLoop)
  | .ret _ _, _ => Except.Faults.ok _
  | .breakLoop span, inLoop => jumpExit_faults inLoop "break" span
  | .continueLoop span, inLoop => jumpExit_faults inLoop "continue" span
  | .conditional _ thenBranch elseBranch _, inLoop =>
    (Stmt.blockExit_faults thenBranch inLoop).bind fun _ =>
      (Stmt.blockExit_faults elseBranch inLoop).bind fun _ => Except.Faults.ok _
  | .whileLoop _ body _, _ | .untilLoop _ body _, _ =>
    (Stmt.blockExit_faults body true).bind fun _ => Except.Faults.ok _
  | .declareVar _ _ _ _, _ | .declareConst _ _ _ _, _ | .assign _ _ _, _ | .call _, _ =>
    Except.Faults.ok _

theorem Stmt.blockExit_faults : (block : List Stmt) → ∀ inLoop,
    Except.Faults Diagnostic.IsExitFault (Stmt.blockExit function inLoop block)
  | [], _ => Except.Faults.ok _
  | [statement], inLoop => Stmt.exit_faults statement inLoop
  | statement :: next :: rest, inLoop => by
    refine (Stmt.exit_faults statement inLoop).bind fun exit => ?_
    split
    · exact Except.Faults.error trivial
    · exact Stmt.blockExit_faults (next :: rest) inLoop

end

theorem FunctionDef.checkExits_faults (function : FunctionDef) :
    Except.Faults Diagnostic.IsExitFault function.checkExits := by
  refine (Stmt.blockExit_faults function.name function.body false).bind fun exit => ?_
  split
  · exact Except.Faults.error trivial
  · exact Except.Faults.ok ()

/-- What a check of structure finds is a bad address or a fault of control. -/
theorem checkStructure_faults (function : FunctionDef) :
    Except.Faults (fun cause => cause.IsAddressFault ∨ cause.IsExitFault)
      (checkStructure function) :=
  Except.Faults.bind (fun cause h => .inl (function.checkAddresses_faults cause h))
    fun _ cause h => .inr (function.checkExits_faults cause h)

end Accord
