import Accord.Proofs.Body.Logic
import Accord.Proofs.Program.Frame

/-!
# What checking a body leaves alone

What survives every question about a program survives finding the type of an expression and
checking a statement, whether they succeed or not (`typeOf_keeps`, `checkBlock_keeps`).  So they
lead to later states of the program.
-/

namespace Accord

open TypeTable Program

open Query

/-- What survives every question about a program. -/
def Program.Enduring.logic (inv : Program → Prop) [Enduring inv] : ProgramLogic where
  ground _ := True
  mild _ := True
  asks good query := ∀ table : TypeTable, Guards table.Before good (fun _ => True) query
  holds good query := Guards inv good (fun _ => True) query
  inherited := .all
  literal _ := trivial
  pointer _ := trivial
  array _ := trivial
  ordinary _ := trivial
  askPure h _ := .pure h
  askThrow _ _ _ := .throw trivial
  askBind hfirst hrest table := (hfirst table).bind fun a ha => hrest a ha table
  pure := .pure
  throw _ := .throw trivial
  bind := .bind
  lift := liftProgram_stable Enduring.toLasting.toStable
  name h _ := Lasting.enclosed.canonicalName h
  retrieve h _ := retrieve_guards Lasting.enclosed h
  verify h _ := verify_guards Lasting.enclosed _ h
  unalias fuel _ h _ := unalias_guards Lasting.enclosed fuel h
  dereference fuel _ h _ := dereference_guards Lasting.enclosed fuel h
  assignable fuel _ _ hsource hdest _ :=
    assignable_guards Lasting.regime fuel .lenient hsource hdest
  callOutcome fuel call arguments _ _ _ :=
    (Guards.of_keeps (callOutcome_keeps fuel call arguments)).mono fun outcome _ => by
      cases outcome <;> simp [CallOutcome.Within]

variable {inv : Program → Prop} [Enduring inv]

open Program.Enduring (logic)

theorem binaryType_keeps (op : BinaryOp) (left right : TypeExpr) (leftSpan rightSpan span : Span) :
    Keeps inv (liftM (binaryType op left right leftSpan rightSpan span) : ProgramQuery TypeExpr) :=
  ((logic inv).lift ((logic inv).asks_binaryType op trivial trivial _ _ _)).keeps

theorem memberType_keeps (type : TypeExpr) (member : String) (span : Span) :
    Keeps inv (liftM (memberType type member span) : ProgramQuery TypeExpr) :=
  ((logic inv).lift ((logic inv).asks_memberType trivial member span)).keeps

variable (fuel : Nat) (function : FunctionDef) (scope : Scope)

theorem argumentTypes_keeps (arguments : List Expr) :
    Keeps inv (argumentTypes fuel scope arguments) :=
  ((logic inv).holds_argumentTypes fuel (fun _ _ _ => trivial) _ fun _ _ => trivial).keeps

theorem typeOf_keeps (expr : Expr) : Keeps inv (typeOf fuel scope expr) :=
  ((logic inv).holds_typeOf fuel (fun _ _ _ => trivial) fun _ _ => trivial).keeps

theorem expectAssignable_keeps (value : Expr) (dest : TypeExpr) (span : Span) :
    Keeps inv (expectAssignable fuel scope value dest span) :=
  ((logic inv).holds_expectAssignable fuel (fun _ _ _ => trivial) (fun _ _ => trivial) trivial
    span).keeps

theorem expectCondition_keeps (condition : Expr) :
    Keeps inv (expectCondition fuel scope condition) :=
  ((logic inv).holds_expectCondition fuel (fun _ _ _ => trivial) fun _ _ => trivial).keeps

theorem checkTarget_keeps (span : Span) (target : Expr) :
    Keeps inv (checkTarget fuel scope span target) :=
  ((logic inv).holds_checkTarget fuel (fun _ _ _ => trivial) span fun _ _ => trivial).keeps

theorem checkStmt_keeps (statement : Stmt) : Keeps inv (checkStmt fuel function scope statement) :=
  ((logic inv).holds_checkStmt fuel (fun _ _ => trivial) statement (fun _ _ => trivial)
    fun _ _ _ _ => trivial).keeps

theorem checkBlock_keeps (block : List Stmt) : Keeps inv (checkBlock fuel function scope block) :=
  ((logic inv).holds_checkBlock fuel (fun _ _ => trivial) block (fun _ _ => trivial)
    fun _ _ _ _ => trivial).keeps

theorem checkTypes_keeps : Keeps inv (checkTypes fuel function) :=
  ((logic inv).holds_checkTypes fuel fun _ _ => trivial).keeps

end Accord
