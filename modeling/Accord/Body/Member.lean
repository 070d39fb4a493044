import Accord.Body.Typing

/-!
# Members

Member access goes through pointers by itself.  `normalize` writes the
dereferences out, and `fieldIndex` finds the position of a field in its record.
-/

namespace Accord

/-- The position of a field among the fields of a record type. -/
def fieldIndex (fuel : Nat) (type : TypeExpr) (member : String) (span : Span) :
    TypeQuery Nat := do
  match (← unalias fuel type).ref? with
  | none => throw (.notARecord type.render span)
  | some ref =>
    match (← retrieve ref).body with
    | .record fields =>
      Query.demand (.unknownField member type.render span)
        (fields.findIdx? (·.name == member))
    | _ => throw (.notARecord type.render span)

/-- Writes dereferences around an expression of the given type until its type is no
pointer. -/
def withDerefs : Nat → Span → Expr → TypeExpr → TypeQuery Expr
  | 0, _, _, _ => throw .limitReached
  | fuel + 1, span, expr, .pointer target => do
    withDerefs fuel span (.unary .deref expr span) (← unalias fuel target)
  | _ + 1, _, expr, _ => pure expr

/-- Writes out the dereferences of a chain of member accesses. -/
def normalize (fuel : Nat) (scope : Scope) : Expr → ProgramQuery Expr
  | .member value name span => do
    let operand ← normalize fuel scope value
    let type ← typeOf fuel scope operand
    let operand ← withDerefs fuel span operand type
    return .member operand name span
  | expr => return expr

end Accord
