import Accord.Body.Member
import Accord.Proofs.Body.Faults
import Accord.Proofs.Generic.Mentions

/-!
# Walks through bodies

Finding the type of an expression and checking a statement ask about types, resolve calls and
go on to their parts.  What is said of the answers to such questions is therefore said of the
types of expressions, of statements and of functions, in one way for everything that can be
said (`ProgramLogic`): the type of an expression that mentions ground types is ground, in a
scope whose objects have ground types, and the checks of bodies that mention ground types are
refused for mild causes only.
-/

namespace Accord

open Query

variable {frames : List Frame} {name : String} {object : LocalObject} {type left right : TypeExpr}
  {scope : Scope} {α : Type} {good : α → Prop} {c : Prop} {function : FunctionDef} {expr : Expr}

/-! ## Scopes -/

/-- Every object of the scope has a good type. -/
def Scope.All (good : TypeExpr → Prop) (scope : Scope) : Prop :=
  ∀ frame ∈ scope.frames, ∀ object ∈ frame.objects, good object.type

namespace Scope.All

variable {good : TypeExpr → Prop}

/-- What is visible from a frame is declared in some frame. -/
theorem visibleFrom (h : ∀ frame ∈ frames, ∀ object ∈ frame.objects, good object.type) {id : Nat}
    (hvisible : Scope.visibleFrom name frames id = some object) : good object.type := by
  induction frames generalizing id with
  | nil => cases hvisible
  | cons frame older ih =>
    obtain ⟨hframe, holder⟩ := List.forall_mem_cons.1 h
    rw [Scope.visibleFrom] at hvisible
    split at hvisible
    · rcases Option.or_eq_some_iff.1 hvisible with hfind | ⟨_, houter⟩
      · exact hframe _ (List.mem_of_find?_eq_some hfind)
      · obtain ⟨outer, _, hfound⟩ := Option.bind_eq_some_iff.1 houter
        exact ih holder hfound
    · exact ih holder hvisible

theorem lookup (h : scope.All good) (hlookup : scope.lookup name = some object) :
    good object.type :=
  visibleFrom h hlookup

theorem enter (h : scope.All good) : scope.enter.All good :=
  List.forall_mem_cons.2 ⟨by simp, h⟩

theorem leave (h : scope.All good) : scope.leave.All good := by
  unfold Scope.leave
  split
  · exact h
  · exact h

theorem insertAt (h : ∀ frame ∈ frames, ∀ object ∈ frame.objects, good object.type)
    (hobject : good object.type) (id : Nat) :
    ∀ frame ∈ Scope.insertAt object frames id, ∀ object ∈ frame.objects, good object.type := by
  induction frames with
  | nil => simp [Scope.insertAt]
  | cons frame older ih =>
    obtain ⟨hframe, holder⟩ := List.forall_mem_cons.1 h
    rw [Scope.insertAt]
    split
    · exact List.forall_mem_cons.2 ⟨List.forall_mem_cons.2 ⟨hobject, hframe⟩, holder⟩
    · exact List.forall_mem_cons.2 ⟨hframe, ih holder⟩

theorem declare (h : scope.All good) (htype : good type) {isConst isArgument : Bool} {span : Span}
    {next : Scope} (hdeclare : scope.declare name type isConst isArgument span = .ok next) :
    next.All good := by
  unfold Scope.declare at hdeclare
  split at hdeclare
  · cases hdeclare
  · cases hdeclare
    exact insertAt h htype scope.current

end Scope.All

/-- What is visible in the scope has a good type. -/
def Scope.Shows (good : TypeExpr → Prop) (scope : Scope) : Prop :=
  ∀ name object, scope.lookup name = some object → good object.type

theorem Scope.All.shows {good : TypeExpr → Prop} (h : scope.All good) : scope.Shows good :=
  fun _ _ hlookup => h.lookup hlookup

/-! ## What can be said of questions -/

/-- Something that is said of questions about types and about programs. -/
structure ProgramLogic : Type 1 where
  /-- The types that turn up. -/
  ground : TypeExpr → Prop
  /-- The causes for which questions are refused. -/
  mild : Diagnostic → Prop
  /-- It is so of a question about types, and its answer is good. -/
  asks {α : Type} (good : α → Prop) (query : TypeQuery α) : Prop
  /-- It is so of a question about the program, and its answer is good. -/
  holds {α : Type} (good : α → Prop) (query : ProgramQuery α) : Prop
  inherited : Inherited ground
  literal {name : String} : name ∈ literalTypes → ground (.primitive name)
  pointer {target : TypeExpr} : ground target → ground (.pointer target)
  array {length : UInt64} {element : TypeExpr} : ground element → ground (.array length element)
  ordinary {cause : Diagnostic} : cause.Ordinary → mild cause
  askPure {α : Type} {good : α → Prop} {a : α} (h : good a) : asks good (Pure.pure a)
  askThrow {α : Type} {good : α → Prop} {cause : Diagnostic} (h : cause.isPlanning = false)
    (hcause : cause.Ordinary) : asks good (MonadExcept.throw cause : TypeQuery α)
  askBind {α β : Type} {good : α → Prop} {next : β → Prop} {first : TypeQuery α}
    {rest : α → TypeQuery β} (hfirst : asks good first)
    (hrest : ∀ a, good a → asks next (rest a)) : asks next (first >>= rest)
  pure {α : Type} {good : α → Prop} {a : α} (h : good a) : holds good (pure a)
  throw {α : Type} {good : α → Prop} {cause : Diagnostic} (h : mild cause) :
    holds good (throw cause : ProgramQuery α)
  bind {α β : Type} {good : α → Prop} {next : β → Prop} {first : ProgramQuery α}
    {rest : α → ProgramQuery β} (hfirst : holds good first)
    (hrest : ∀ a, good a → holds next (rest a)) : holds next (first >>= rest)
  lift {α : Type} {good : α → Prop} {query : TypeQuery α} (h : asks good query) :
    holds good (liftM query)
  name {type : TypeExpr} (h : ground type) : asks (fun _ => True) (canonicalName type)
  retrieve {ref : TypeRef} (h : ground ref.toType) :
    asks (fun found => ∀ type ∈ found.body.components, ground type) (retrieve ref)
  verify {type : TypeExpr} (h : ground type) : asks (fun _ => True) (verify type)
  unalias (fuel : Nat) {type : TypeExpr} (h : ground type) : asks ground (unalias fuel type)
  dereference (fuel : Nat) {type : TypeExpr} (h : ground type) :
    asks ground (dereference fuel type)
  assignable (fuel : Nat) {source dest : TypeExpr} (hsource : ground source)
    (hdest : ground dest) : asks (fun _ => True) (assignable fuel .lenient source dest)
  callOutcome (fuel : Nat) {call : Call} {arguments : List TypeExpr}
    (hgenerics : ∀ type ∈ call.generics, ground type)
    (harguments : ∀ type ∈ arguments, ground type)
    (hlength : arguments.length = call.arguments.length) :
    holds (CallOutcome.Within ground mild) (callOutcome fuel call arguments)

namespace ProgramLogic

variable (p : ProgramLogic)

theorem askIte [Decidable c] {left right : TypeQuery α} (hleft : p.asks good left)
    (hright : p.asks good right) : p.asks good (if c then left else right) := by
  split
  · exact hleft
  · exact hright

theorem ite [Decidable c] {left right : ProgramQuery α} (hleft : p.holds good left)
    (hright : p.holds good right) : p.holds good (if c then left else right) := by
  split
  · exact hleft
  · exact hright

theorem ofExcept {result : Except Diagnostic α} (hfaults : Except.Faults p.mild result)
    (h : ∀ a, result = .ok a → good a) : p.holds good (Query.ofExcept result) := by
  cases result with
  | error cause => exact p.throw (hfaults cause rfl)
  | ok a => exact p.pure (h a rfl)

/-! ## Declarations -/

theorem declare_faults (scope : Scope) (name : String) (type : TypeExpr)
    (isConst isArgument : Bool) (span : Span) :
    Except.Faults p.mild (scope.declare name type isConst isArgument span) := by
  unfold Scope.declare
  split
  · exact Except.Faults.error (p.ordinary trivial)
  · exact Except.Faults.ok _

theorem holds_declare (hscope : scope.All p.ground) (name : String) (htype : p.ground type)
    (isConst isArgument : Bool) (span : Span) :
    p.holds (Scope.All p.ground)
      (Query.ofExcept (scope.declare name type isConst isArgument span)) :=
  p.ofExcept (p.declare_faults scope name type isConst isArgument span)
    fun _ hnext => hscope.declare htype hnext

theorem holds_ofFunction (hfunction : ∀ type ∈ function.parameterTypes, p.ground type) :
    p.holds (Scope.All p.ground)
      (Query.ofExcept (Scope.ofFunction function)) := by
  have hfold : ∀ (parameters : List Parameter) (scope : Scope), scope.All p.ground →
      (∀ parameter ∈ parameters, p.ground parameter.type) →
      Except.Faults p.mild (parameters.foldlM (fun (scope : Scope) parameter =>
        scope.declare parameter.name parameter.type false true function.span) scope) ∧
      ∀ last, parameters.foldlM (fun (scope : Scope) parameter =>
        scope.declare parameter.name parameter.type false true function.span) scope = .ok last →
        last.All p.ground := by
    intro parameters
    induction parameters with
    | nil =>
      intro scope hscope _
      refine ⟨Except.Faults.ok scope, ?_⟩
      rintro _ ⟨⟩
      exact hscope
    | cons parameter rest ih =>
      intro scope hscope hparameters
      obtain ⟨hparameter, hrest⟩ := List.forall_mem_cons.1 hparameters
      rw [List.foldlM_cons]
      cases hdeclare : scope.declare parameter.name parameter.type false true function.span with
      | error cause =>
        refine ⟨Except.Faults.error ?_, nofun⟩
        exact p.declare_faults scope parameter.name parameter.type false true function.span cause
          hdeclare
      | ok next => exact ih next (hscope.declare hparameter hdeclare) hrest
  have hparameters : ∀ parameter ∈ function.parameters, p.ground parameter.type :=
    fun parameter hmem => hfunction _ (List.mem_map_of_mem hmem)
  obtain ⟨hfaults, hlast⟩ := hfold function.parameters {} (by simp [Scope.All]) hparameters
  exact p.ofExcept hfaults hlast

/-! ## Operators -/

theorem asks_sameName (hleft : p.ground left) (hright : p.ground right) :
    p.asks (fun _ => True) (sameName left right) :=
  p.askBind (p.name hleft) fun _ _ => p.askBind (p.name hright) fun _ _ => p.askPure trivial

theorem asks_binaryType (op : BinaryOp) (hleft : p.ground left) (hright : p.ground right)
    (leftSpan rightSpan span : Span) :
    p.asks p.ground (binaryType op left right leftSpan rightSpan span) := by
  have hbool : p.ground .bool := p.literal (by simp [literalTypes])
  have hthrow : ∀ expected got span, p.asks p.ground
      (MonadExcept.throw (mismatch expected got span) : TypeQuery TypeExpr) :=
    fun _ _ _ => p.askThrow rfl trivial
  unfold binaryType
  refine p.askIte ?_ ?_
  · exact p.askIte (hthrow _ _ _) (p.askIte (hthrow _ _ _) (p.askPure hbool))
  · refine p.askBind (p.asks_sameName hleft hright) fun same _ => p.askIte (hthrow _ _ _) ?_
    refine p.askIte (p.askPure hbool) (p.askIte ?_ ?_)
    · exact p.askIte (p.askPure hbool) (hthrow _ _ _)
    · exact p.askIte (p.askPure hleft) (hthrow _ _ _)

theorem holds_unaryType (op : UnaryOp) {operand : TypeExpr} (hoperand : p.ground operand)
    (span : Span) : p.holds p.ground (Query.ofExcept (unaryType op operand span)) := by
  have hmismatch : ∀ expected, p.mild (mismatch expected operand span) :=
    fun _ => p.ordinary trivial
  cases op with
  | addressOf => exact p.pure (p.pointer hoperand)
  | deref =>
    cases operand with
    | pointer target => exact p.pure (p.inherited.target hoperand)
    | _ => exact p.throw (p.ordinary trivial)
  | not =>
    rw [unaryType]
    split
    · exact p.pure hoperand
    · exact p.throw (hmismatch _)
  | plus | minus =>
    simp only [unaryType]
    split
    · exact p.pure hoperand
    · exact p.throw (hmismatch _)

theorem holds_elementType {storage position : TypeExpr} (hstorage : p.ground storage)
    (positionSpan span : Span) :
    p.holds p.ground (Query.ofExcept (elementType storage position positionSpan span)) := by
  unfold elementType
  split
  · exact p.throw (p.ordinary trivial)
  · split
    · exact p.pure (p.inherited.held hstorage)
    · exact p.pure (p.inherited.element hstorage)
    · split
      · exact p.pure (p.literal (by simp [literalTypes]))
      · exact p.throw (p.ordinary trivial)

theorem asks_lengthType (type : TypeExpr) (member : String) (span : Span) :
    p.asks p.ground (Query.ofExcept (lengthType type member span)) := by
  unfold lengthType
  split
  · exact p.askPure (p.literal (by simp [literalTypes]))
  · exact p.askThrow rfl trivial

theorem asks_memberType (htype : p.ground type) (member : String) (span : Span) :
    p.asks p.ground (memberType type member span) := by
  unfold memberType
  split
  · rename_i name qualifier arguments origin
    have href : p.ground (TypeRef.toType ⟨name, qualifier, arguments, origin⟩) := htype
    refine p.askBind (p.retrieve href) fun definition hdefinition => ?_
    split
    · rename_i fields hbody
      rw [hbody] at hdefinition
      cases hfield : fields.find? (·.name == member) with
      | none => exact p.askThrow rfl trivial
      | some field =>
        have hmem := List.mem_of_find?_eq_some hfield
        exact p.askPure (hdefinition _ (List.mem_map_of_mem hmem))
    · exact p.askThrow rfl trivial
  · exact p.asks_lengthType _ member span
  · exact p.askIte (p.asks_lengthType type member span) (p.askThrow rfl trivial)

theorem holds_valueOf (call : Call) {outcome : CallOutcome}
    (houtcome : outcome.Within p.ground p.mild) :
    p.holds p.ground (Query.ofExcept (valueOf call outcome)) := by
  cases outcome with
  | value type => exact p.pure houtcome
  | void => exact p.throw (p.ordinary trivial)
  | unresolved => exact p.throw (houtcome _ _)

/-! ## Expressions -/

theorem holds_settled (fuel : Nat) {query : ProgramQuery TypeExpr}
    (hquery : p.holds p.ground query) : p.holds p.ground (settled fuel query) :=
  p.bind hquery fun _ htype => p.lift (p.unalias fuel htype)

mutual

theorem holds_ownType (fuel : Nat) (hscope : scope.Shows p.ground) :
    (expr : Expr) → (∀ type ∈ expr.types, p.ground type) →
      p.holds p.ground (ownType fuel scope expr)
  | .intLit _ _, _ | .floatLit _ _, _ | .charLit _ _, _ | .boolLit _ _, _ | .stringLit _ _, _ =>
    p.pure (p.literal (by simp [literalTypes]))
  | .ident name span, _ => by
    rw [ownType]
    cases hlookup : scope.lookup name with
    | none => exact p.throw (p.ordinary trivial)
    | some object => exact p.pure (hscope name object hlookup)
  | .call name qualifier arguments generics origin span, htypes => by
    obtain ⟨hgenerics, harguments⟩ := List.forall_mem_append.1 htypes
    refine p.bind (holds_argumentTypes fuel hscope arguments harguments) fun types hfound => ?_
    refine p.bind (p.callOutcome fuel hgenerics hfound.2 hfound.1) fun outcome houtcome => ?_
    exact p.holds_valueOf _ houtcome
  | .arrayLit length element elements span, htypes => by
    have helement := htypes element List.mem_cons_self
    exact p.bind (p.lift (p.verify helement)) fun _ _ => p.pure (p.array helement)
  | .typeOp op value type span, htypes => by
    obtain ⟨htype, hvalue⟩ := List.forall_mem_cons.1 htypes
    refine p.bind (p.holds_settled fuel (holds_ownType fuel hscope value hvalue)) fun _ _ => ?_
    refine p.bind (p.lift (p.verify htype)) fun _ _ => ?_
    cases op with
    | test => exact p.pure (p.literal (by simp [literalTypes]))
    | cast => exact p.pure htype
  | .binary op left right span, htypes => by
    obtain ⟨hleft, hright⟩ := List.forall_mem_append.1 htypes
    refine p.bind (p.holds_settled fuel (holds_ownType fuel hscope left hleft))
      fun leftType hleftType => ?_
    refine p.bind (p.holds_settled fuel (holds_ownType fuel hscope right hright))
      fun rightType hrightType => ?_
    exact p.lift (p.asks_binaryType op hleftType hrightType _ _ _)
  | .unary op operand span, htypes =>
    p.bind (p.holds_settled fuel (holds_ownType fuel hscope operand htypes))
      fun _ htype => p.holds_unaryType op htype span
  | .index storage position span, htypes => by
    obtain ⟨hstorage, hposition⟩ := List.forall_mem_append.1 htypes
    refine p.bind (p.holds_settled fuel (holds_ownType fuel hscope storage hstorage))
      fun storageType hstorageType => ?_
    refine p.bind (p.holds_settled fuel (holds_ownType fuel hscope position hposition))
      fun positionType _ => ?_
    exact p.holds_elementType hstorageType _ _
  | .member value name span, htypes => by
    refine p.bind (p.holds_settled fuel (holds_ownType fuel hscope value htypes))
      fun type htype => ?_
    refine p.bind (p.lift (p.dereference fuel htype)) fun bare hbare => ?_
    exact p.lift (p.asks_memberType hbare name span)

theorem holds_argumentTypes (fuel : Nat) (hscope : scope.Shows p.ground) :
    (arguments : List Expr) → (∀ type ∈ Expr.typesAll arguments, p.ground type) →
      p.holds (fun types => types.length = arguments.length ∧ ∀ type ∈ types, p.ground type)
        (argumentTypes fuel scope arguments)
  | [], _ => p.pure (by simp)
  | argument :: rest, htypes => by
    obtain ⟨hargument, hrest⟩ := List.forall_mem_append.1 htypes
    refine p.bind (p.holds_settled fuel (holds_ownType fuel hscope argument hargument))
      fun type htype => ?_
    refine p.bind (holds_argumentTypes fuel hscope rest hrest) fun types hfound => ?_
    exact p.pure ⟨by simp [hfound.1], List.forall_mem_cons.2 ⟨htype, hfound.2⟩⟩

end

section Queries

variable (fuel : Nat) (hscope : scope.Shows p.ground)

include hscope

theorem holds_typeOf (hexpr : ∀ type ∈ expr.types, p.ground type) :
    p.holds p.ground (typeOf fuel scope expr) :=
  p.holds_settled fuel (p.holds_ownType fuel hscope expr hexpr)

theorem holds_callOutcomeIn {call : Call} (hgenerics : ∀ type ∈ call.generics, p.ground type)
    (harguments : ∀ type ∈ Expr.typesAll call.arguments, p.ground type) :
    p.holds (CallOutcome.Within p.ground p.mild) (callOutcomeIn fuel scope call) :=
  p.bind (p.holds_argumentTypes fuel hscope call.arguments harguments) fun _ hfound =>
    p.callOutcome fuel hgenerics hfound.2 hfound.1

omit hscope in
theorem asks_withDerefs (span : Span) (hexpr : ∀ type ∈ expr.types, p.ground type)
    (htype : p.ground type) :
    p.asks (fun found => ∀ type ∈ found.types, p.ground type)
      (withDerefs fuel span expr type) := by
  induction fuel generalizing expr type with
  | zero => exact p.askThrow rfl trivial
  | succ fuel ih =>
    cases type with
    | pointer target =>
      have hderef : ∀ type ∈ (Expr.unary .deref expr span).types, p.ground type := hexpr
      exact p.askBind (p.unalias fuel (p.inherited.target htype)) fun _ hbare => ih hderef hbare
    | _ => exact p.askPure hexpr

theorem holds_normalize (hexpr : ∀ type ∈ expr.types, p.ground type) :
    p.holds (fun found => ∀ type ∈ found.types, p.ground type) (normalize fuel scope expr) := by
  fun_induction normalize fuel scope expr with
  | case1 value name span ih =>
    refine p.bind (ih hexpr) fun operand hoperand => ?_
    refine p.bind (p.holds_typeOf fuel hscope hoperand) fun type htype => ?_
    refine p.bind (p.lift (p.asks_withDerefs fuel span hoperand htype)) fun found hfound => ?_
    exact p.pure hfound
  | case2 => exact p.pure hexpr

/-! ## Statements -/

theorem holds_expectAssignable {value : Expr} (hvalue : ∀ type ∈ value.types, p.ground type)
    {dest : TypeExpr} (hdest : p.ground dest) (span : Span) :
    p.holds (fun _ => True) (expectAssignable fuel scope value dest span) := by
  refine p.bind (p.holds_typeOf fuel hscope hvalue) fun type htype => ?_
  refine p.bind (p.lift (p.assignable fuel htype hdest)) fun fits _ => ?_
  exact p.ite (p.throw (p.ordinary trivial)) (p.pure trivial)

theorem holds_expectCondition {condition : Expr}
    (hcondition : ∀ type ∈ condition.types, p.ground type) :
    p.holds (fun _ => True) (expectCondition fuel scope condition) :=
  p.bind (p.holds_typeOf fuel hscope hcondition) fun _ _ =>
    p.ite (p.throw (p.ordinary trivial)) (p.pure trivial)

theorem holds_checkTarget (span : Span) {target : Expr}
    (htarget : ∀ type ∈ target.types, p.ground type) :
    p.holds (fun _ => True) (checkTarget fuel scope span target) := by
  fun_induction checkTarget fuel scope span target with
  | case1 => exact p.throw (p.ordinary trivial)
  | case2 => exact p.pure trivial
  | case3 => exact p.throw (p.ordinary trivial)
  | case4 value _ _ ih =>
    have hvalue : ∀ type ∈ value.types, p.ground type := htarget
    refine p.bind (p.holds_typeOf fuel hscope hvalue) fun type _ => ?_
    split
    · exact p.pure trivial
    · exact ih hvalue
  | case5 _ _ _ ih => exact ih (List.forall_mem_append.1 htarget).1
  | case6 => exact p.pure trivial
  | case7 => exact p.throw (p.ordinary trivial)

theorem holds_checkReturn (hfunction : ∀ type ∈ function.returnType, p.ground type)
    {value : Option Expr} (hvalue : ∀ type ∈ Expr.typesOpt value, p.ground type) (span : Span) :
    p.holds (fun _ => True) (checkReturn fuel function scope value span) := by
  unfold checkReturn
  split
  · rename_i expected _ hreturn
    exact p.holds_expectAssignable fuel hscope hvalue (hfunction expected hreturn) span
  · exact p.throw (p.ordinary trivial)
  · exact p.throw (p.ordinary trivial)
  · exact p.pure trivial

end Queries

mutual

theorem holds_checkStmt (fuel : Nat) (hfunction : ∀ type ∈ function.returnType, p.ground type) :
    (statement : Stmt) →
      (∀ type ∈ statement.types, p.ground type) → ∀ {scope : Scope}, scope.All p.ground →
      p.holds (Scope.All p.ground) (checkStmt fuel function scope statement)
  | .declareVar name type value span, htypes, scope, hscope => by
    obtain ⟨htype, hvalue⟩ := List.forall_mem_cons.1 htypes
    refine p.bind (p.lift (p.verify htype)) fun _ _ => ?_
    have hdeclare := p.holds_declare hscope name htype false false span
    cases value with
    | some value =>
      exact p.bind (p.holds_expectAssignable fuel hscope.shows hvalue htype span)
        fun _ _ => hdeclare
    | none => exact hdeclare
  | .declareConst name type value span, htypes, scope, hscope => by
    obtain ⟨htype, hvalue⟩ := List.forall_mem_cons.1 htypes
    refine p.bind (p.lift (p.verify htype)) fun _ _ => ?_
    exact p.bind (p.holds_expectAssignable fuel hscope.shows hvalue htype span) fun _ _ =>
      p.holds_declare hscope name htype true false span
  | .assign target value span, htypes, scope, hscope => by
    obtain ⟨htarget, hvalue⟩ := List.forall_mem_append.1 htypes
    refine p.bind (p.holds_checkTarget fuel hscope.shows span htarget) fun _ _ => ?_
    refine p.bind (p.holds_typeOf fuel hscope.shows htarget) fun type htype => ?_
    exact p.bind (p.holds_expectAssignable fuel hscope.shows hvalue htype span) fun _ _ =>
      p.pure hscope
  | .conditional condition thenBranch elseBranch span, htypes, scope, hscope => by
    obtain ⟨hcondition, hbranches⟩ := List.forall_mem_append.1 htypes
    obtain ⟨hthen, helse⟩ := List.forall_mem_append.1 hbranches
    refine p.bind (p.holds_expectCondition fuel hscope.shows hcondition) fun _ _ => ?_
    refine p.bind (holds_checkBlock fuel hfunction thenBranch hthen hscope.enter)
      fun inner hinner => ?_
    refine p.bind (holds_checkBlock fuel hfunction elseBranch helse hinner.leave.enter)
      fun inner hinner => ?_
    exact p.pure hinner.leave
  | .whileLoop _ body _, htypes, _, hscope | .untilLoop _ body _, htypes, _, hscope => by
    obtain ⟨hcondition, hbody⟩ := List.forall_mem_append.1 htypes
    refine p.bind (p.holds_expectCondition fuel hscope.shows hcondition) fun _ _ => ?_
    exact p.bind (holds_checkBlock fuel hfunction body hbody hscope.enter)
      fun _ hinner => p.pure hinner.leave
  | .ret value span, htypes, scope, hscope =>
    p.bind (p.holds_checkReturn fuel hscope.shows hfunction htypes span) fun _ _ => p.pure hscope
  | .call c, htypes, scope, hscope => by
    obtain ⟨hgenerics, harguments⟩ := List.forall_mem_append.1 htypes
    exact p.bind (p.holds_callOutcomeIn fuel hscope.shows hgenerics harguments) fun _ _ =>
      p.pure hscope
  | .continueLoop _, _, _, hscope => p.pure hscope
  | .breakLoop _, _, _, hscope => p.pure hscope

theorem holds_checkBlock (fuel : Nat) (hfunction : ∀ type ∈ function.returnType, p.ground type) :
    (block : List Stmt) →
      (∀ type ∈ Stmt.typesAll block, p.ground type) → ∀ {scope : Scope}, scope.All p.ground →
      p.holds (Scope.All p.ground) (checkBlock fuel function scope block)
  | [], _, _, hscope => p.pure hscope
  | statement :: rest, htypes, scope, hscope => by
    obtain ⟨hstatement, hrest⟩ := List.forall_mem_append.1 htypes
    exact p.bind (holds_checkStmt fuel hfunction statement hstatement hscope)
      fun _ hnext => holds_checkBlock fuel hfunction rest hrest hnext

end

/-! ## Functions -/

theorem holds_verifyAll {types : List TypeExpr} (h : ∀ type ∈ types, p.ground type) :
    p.asks (fun _ => True) (verifyAll types) := by
  induction types with
  | nil => exact p.askPure trivial
  | cons type rest ih =>
    obtain ⟨htype, hrest⟩ := List.forall_mem_cons.1 h
    exact p.askBind (p.verify htype) fun _ _ => ih hrest

theorem holds_checkTypes (fuel : Nat) (hfunction : function.All p.ground) :
    p.holds (fun _ => True) (checkTypes fuel function) := by
  unfold checkTypes
  refine p.bind (p.lift (p.holds_verifyAll hfunction.parameters)) fun _ _ => ?_
  have hrest : p.holds (fun _ => True)
      (do
        let scope ← Query.ofExcept (Scope.ofFunction function)
        let _ ← checkBlock fuel function scope function.body
        Pure.pure () : ProgramQuery Unit) :=
    p.bind (p.holds_ofFunction hfunction.parameters) fun scope hscope =>
      p.bind (p.holds_checkBlock fuel hfunction.returns function.body hfunction.body hscope)
        fun _ _ => p.pure trivial
  dsimp only
  split
  · rename_i type hreturn
    exact p.bind (p.lift (p.verify (hfunction.returns type hreturn))) fun _ _ => hrest
  · exact hrest

theorem holds_checkStructure (function : FunctionDef) :
    p.holds (fun _ => True) (Query.ofExcept (checkStructure function)) := by
  refine p.ofExcept (fun cause hcause => p.ordinary ?_) fun _ _ => trivial
  rcases checkStructure_faults function cause hcause with haddress | hexit
  · cases cause with
    | notAddressable => trivial
    | _ => exact haddress.elim
  · cases cause with
    | misplacedLoopControl | unreachableCode | missingReturnPath => trivial
    | _ => exact hexit.elim

theorem holds_checkFunction (fuel : Nat) (hfunction : function.All p.ground) :
    p.holds (fun _ => True) (checkFunction fuel function) :=
  p.bind (p.holds_checkStructure function) fun _ _ => p.holds_checkTypes fuel hfunction

end ProgramLogic

end Accord
