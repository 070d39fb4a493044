import Accord.Program.Build
import Accord.Proofs.Body.Frame
import Mathlib.Logic.Relation

/-!
# Checked bodies are typed

The type of an expression is found from the types of its operands, and a statement is
checked by finding the types of the expressions in it.  So every operand in a checked
body has been found to have a type, in the scope in force where it stands and in a state
of the program between the start of the check and its end (`checkFunction_types_operands`).

The elements of an array literal are no operands in this sense: the type of the literal is
written in front of them, and they are not looked at.  A checked body may therefore have
names in array literals that nobody declares (`checkFunction_of_undeclared_element`).
-/

namespace Accord

open Query Relation Stmt

variable {expr : Expr} {function : FunctionDef} {fuel : Nat} {scope : Scope}

/-! ## Expressions in expressions -/

/-- The expressions inside an expression whose types determine its own. -/
def Expr.operands : Expr → List Expr
  | .call _ _ arguments _ _ _ => arguments
  | .binary _ left right _ => [left, right]
  | .unary _ operand _ => [operand]
  | .typeOp _ value _ _ => [value]
  | .member value _ _ => [value]
  | .index storage position _ => [storage, position]
  | _ => []

/-- The elements of an array literal. -/
def Expr.elements : Expr → List Expr
  | .arrayLit _ _ elements _ => elements
  | _ => []

/-- An expression, or an operand of it at some depth. -/
def Expr.Operand (whole part : Expr) : Prop :=
  ReflTransGen (fun outer inner => inner ∈ outer.operands) whole part

/-- An expression, or one inside it at some depth, be it an operand or an element. -/
def Expr.Part (whole part : Expr) : Prop :=
  ReflTransGen (fun outer inner => inner ∈ outer.operands ∨ inner ∈ outer.elements) whole part

/-- What stands inside an expression is an operand, or stands inside an element of an array
literal there. -/
theorem Expr.Part.operand_or_element {whole part : Expr} (h : whole.Part part) :
    whole.Operand part ∨
      ∃ literal element, whole.Part literal ∧ element ∈ literal.elements ∧ element.Part part := by
  induction h with
  | refl => exact Or.inl .refl
  | @tail outer inner houter hinner ih =>
    rcases ih with hoperand | ⟨literal, element, hliteral, helement, hpart⟩
    · rcases hinner with hinner | hinner
      · exact Or.inl (hoperand.tail hinner)
      · exact Or.inr ⟨outer, inner, houter, hinner, .refl⟩
    · exact Or.inr ⟨literal, element, hliteral, helement, hpart.tail hinner⟩

/-! ## Expressions in statements -/

/-- The expressions that stand in a statement itself, not in its blocks. -/
def Stmt.exprs : Stmt → List Expr
  | .declareVar _ _ value _ => value.toList
  | .declareConst _ _ value _ => [value]
  | .assign target value _ => [target, value]
  | .conditional condition _ _ _ => [condition]
  | .whileLoop condition _ _ => [condition]
  | .untilLoop condition _ _ => [condition]
  | .ret value _ => value.toList
  | .call c => c.arguments
  | .continueLoop _ => []
  | .breakLoop _ => []

mutual

/-- The scope behind a statement: declarations add to it, and what blocks declare is gone
behind them. -/
def Scope.behind (scope : Scope) : Stmt → Except Diagnostic Scope
  | .declareVar name type _ span => scope.declare name type false false span
  | .declareConst name type _ span => scope.declare name type true false span
  | .conditional _ thenBranch elseBranch _ => do
    let chosen ← Scope.behindAll scope.enter thenBranch
    let other ← Scope.behindAll chosen.leave.enter elseBranch
    return other.leave
  | .whileLoop _ body _ => do return (← Scope.behindAll scope.enter body).leave
  | .untilLoop _ body _ => do return (← Scope.behindAll scope.enter body).leave
  | _ => .ok scope

/-- The scope behind the statements of a block. -/
def Scope.behindAll (scope : Scope) : List Stmt → Except Diagnostic Scope
  | [] => .ok scope
  | statement :: rest => do Scope.behindAll (← scope.behind statement) rest

end

mutual

/-- In a statement that begins in the first scope stands an expression, in the second. -/
inductive Stmt.Has : Scope → Stmt → Scope → Expr → Prop where
  | own {scope : Scope} {statement : Stmt} {expr : Expr} (mem : expr ∈ statement.exprs) :
      Has scope statement scope expr
  | thenBranch {scope inner : Scope} {condition expr : Expr} {thenBranch elseBranch : List Stmt}
      {span : Span} (has : BlockHas scope.enter thenBranch inner expr) :
      Has scope (.conditional condition thenBranch elseBranch span) inner expr
  | elseBranch {scope chosen inner : Scope} {condition expr : Expr}
      {thenBranch elseBranch : List Stmt} {span : Span}
      (behind : scope.enter.behindAll thenBranch = .ok chosen)
      (has : BlockHas chosen.leave.enter elseBranch inner expr) :
      Has scope (.conditional condition thenBranch elseBranch span) inner expr
  | whileBody {scope inner : Scope} {condition expr : Expr} {body : List Stmt} {span : Span}
      (has : BlockHas scope.enter body inner expr) :
      Has scope (.whileLoop condition body span) inner expr
  | untilBody {scope inner : Scope} {condition expr : Expr} {body : List Stmt} {span : Span}
      (has : BlockHas scope.enter body inner expr) :
      Has scope (.untilLoop condition body span) inner expr

/-- In a block that begins in the first scope stands an expression, in the second. -/
inductive Stmt.BlockHas : Scope → List Stmt → Scope → Expr → Prop where
  | head {scope inner : Scope} {statement : Stmt} {rest : List Stmt} {expr : Expr}
      (has : Has scope statement inner expr) :
      BlockHas scope (statement :: rest) inner expr
  | tail {scope next inner : Scope} {statement : Stmt} {rest : List Stmt} {expr : Expr}
      (behind : scope.behind statement = .ok next) (has : BlockHas next rest inner expr) :
      BlockHas scope (statement :: rest) inner expr

end

/-! ## Queries that find types -/

/-- Between two states of the program the expression is found to have a type. -/
def TypedBetween (fuel : Nat) (earlier later : Program) (scope : Scope) (expr : Expr) : Prop :=
  ∃ start type stop, earlier.Before start ∧ typeOf fuel scope expr start = .ok type stop ∧
    stop.Before later

/-- Where the query answers, the expression is found to have a type on the way. -/
def Visits (fuel : Nat) (scope : Scope) (expr : Expr) {α : Type} (query : ProgramQuery α) :
    Prop :=
  ∀ earlier answer later, query earlier = .ok answer later →
    TypedBetween fuel earlier later scope expr

section Visits

variable {α β : Type}

theorem Visits.self (fuel : Nat) (scope : Scope) (expr : Expr) :
    Visits fuel scope expr (typeOf fuel scope expr) :=
  fun earlier type later h => ⟨earlier, type, later, .refl _, h, .refl _⟩

theorem Visits.throw (cause : Diagnostic) : Visits fuel scope expr (throw cause : ProgramQuery α) :=
  fun _ _ _ h => absurd h throw_ne_ok

/-- The expression is visited first, and the rest leads to a later state. -/
theorem Visits.bind {first : ProgramQuery α} {rest : α → ProgramQuery β}
    (hfirst : Visits fuel scope expr first)
    (hrest : ∀ answer (earlier : Program), Keeps earlier.Before (rest answer)) :
    Visits fuel scope expr (first >>= rest) := by
  intro earlier answer later hrun
  obtain ⟨middle, between, hstart, hstop⟩ := bind_eq_ok.1 hrun
  obtain ⟨start, type, stop, hbefore, htype, hafter⟩ := hfirst _ _ _ hstart
  exact ⟨start, type, stop, hbefore, htype, hafter.trans (before_of_ok (hrest _ _) hstop)⟩

/-- The expression is visited by the rest, for every answer that the first part gives. -/
theorem Visits.then {first : ProgramQuery α} {rest : α → ProgramQuery β} {good : α → Prop}
    (hfirst : ∀ earlier : Program, Keeps earlier.Before first)
    (hgood : Yields (fun _ => True) good first)
    (hrest : ∀ answer, good answer → Visits fuel scope expr (rest answer)) :
    Visits fuel scope expr (first >>= rest) := by
  intro earlier answer later hrun
  obtain ⟨middle, between, hstart, hstop⟩ := bind_eq_ok.1 hrun
  have hanswer := (hgood _ _ _ trivial hstart).2
  obtain ⟨start, type, stop, hbefore, htype, hafter⟩ := hrest middle hanswer _ _ _ hstop
  exact ⟨start, type, stop, (before_of_ok (hfirst _) hstart).trans hbefore, htype, hafter⟩

theorem Visits.next {first : ProgramQuery α} {rest : α → ProgramQuery β}
    (hfirst : ∀ earlier : Program, Keeps earlier.Before first)
    (hrest : ∀ answer, Visits fuel scope expr (rest answer)) :
    Visits fuel scope expr (first >>= rest) := by
  have hgood : Yields (fun _ => True) (fun _ => True) first := fun _ _ _ _ _ => ⟨trivial, trivial⟩
  exact Visits.then hfirst hgood fun answer _ => hrest answer

/-- What finding the type of a visited expression visits is visited. -/
theorem Visits.trans {part : Expr} {query : ProgramQuery α} (h : Visits fuel scope expr query)
    (hpart : Visits fuel scope part (typeOf fuel scope expr)) :
    Visits fuel scope part query := by
  intro earlier answer later hrun
  obtain ⟨start, type, stop, hbefore, htype, hafter⟩ := h _ _ _ hrun
  obtain ⟨start', type', stop', hbefore', htype', hafter'⟩ := hpart _ _ _ htype
  exact ⟨start', type', stop', hbefore.trans hbefore', htype', hafter'.trans hafter⟩

end Visits

/-! ## Operands are visited -/

section Operands

variable {operand : Expr}

theorem argumentTypes_visits {arguments : List Expr} (h : operand ∈ arguments) :
    Visits fuel scope operand (argumentTypes fuel scope arguments) := by
  induction arguments with
  | nil => cases h
  | cons argument rest ih =>
    rw [argumentTypes]
    rcases List.mem_cons.1 h with rfl | hrest
    · refine (Visits.self fuel scope operand).bind fun _ _ => ?_
      exact (argumentTypes_keeps fuel scope rest).bind fun _ => .pure _
    · refine Visits.next (fun _ => typeOf_keeps fuel scope argument) fun _ => ?_
      exact (ih hrest).bind fun _ _ => .pure _

theorem ownType_visits (h : operand ∈ expr.operands) :
    Visits fuel scope operand (ownType fuel scope expr) := by
  have hself := Visits.self fuel scope operand
  cases expr with
  | call name qualifier arguments generics origin span =>
    rw [ownType]
    exact (argumentTypes_visits h).bind fun types _ =>
      (callOutcome_keeps fuel _ types).bind fun _ => .ofExcept _
  | binary op left right span =>
    rw [ownType]
    simp only [Expr.operands, List.mem_cons, List.not_mem_nil, or_false] at h
    rcases h with rfl | rfl
    · exact hself.bind fun _ _ => (typeOf_keeps fuel scope right).bind fun _ =>
        binaryType_keeps _ _ _ _ _ _
    · exact Visits.next (fun _ => typeOf_keeps fuel scope left) fun _ => hself.bind fun _ _ =>
        binaryType_keeps _ _ _ _ _ _
  | unary op inner span =>
    rw [ownType]
    rw [List.mem_singleton.1 h] at hself ⊢
    exact hself.bind fun _ _ => .ofExcept _
  | typeOp op value type span =>
    unfold ownType
    rw [List.mem_singleton.1 h] at hself ⊢
    refine hself.bind fun _ _ => (liftProgram_before fun _ => verify_keeps type).bind fun _ => ?_
    cases op <;> exact .pure _
  | member value name span =>
    rw [ownType]
    rw [List.mem_singleton.1 h] at hself ⊢
    exact hself.bind fun type _ =>
      (liftProgram_before fun _ => dereference_keeps fuel type).bind fun _ =>
        memberType_keeps _ _ _
  | index storage position span =>
    rw [ownType]
    simp only [Expr.operands, List.mem_cons, List.not_mem_nil, or_false] at h
    rcases h with rfl | rfl
    · exact hself.bind fun _ _ => (typeOf_keeps fuel scope position).bind fun _ =>
        .ofExcept _
    · exact Visits.next (fun _ => typeOf_keeps fuel scope storage) fun _ =>
        hself.bind fun _ _ => .ofExcept _
  | _ => cases h

theorem typeOf_visits (h : expr.Operand operand) :
    Visits fuel scope operand (typeOf fuel scope expr) := by
  induction h with
  | refl => exact Visits.self fuel scope expr
  | @tail outer inner _ hinner ih =>
    refine ih.trans ?_
    exact (ownType_visits hinner).bind fun _ _ => liftProgram_before fun _ => unalias_keeps fuel _

end Operands

/-! ## Expressions of statements are visited -/

section Statements

variable {inner : Scope}

theorem expectAssignable_visits (dest : TypeExpr) (span : Span) :
    Visits fuel scope expr (expectAssignable fuel scope expr dest span) :=
  (Visits.self fuel scope expr).bind fun type _ =>
    (liftProgram_before fun _ => assignable_keeps fuel .lenient type dest).bind fun _ =>
      .ite (.throw _) (.pure _)

theorem expectCondition_visits : Visits fuel scope expr (expectCondition fuel scope expr) :=
  (Visits.self fuel scope expr).bind fun _ _ => .ite (.throw _) (.pure _)

/-- A value that is returned is visited, or refused where nothing is to be returned. -/
theorem checkReturn_visits (span : Span) :
    Visits fuel scope expr (checkReturn fuel function scope (some expr) span) := by
  unfold checkReturn
  cases function.returnType with
  | some expected => exact expectAssignable_visits expected span
  | none => exact Visits.throw _

theorem checkStmt_visits_own {statement : Stmt} (h : expr ∈ statement.exprs) :
    Visits fuel scope expr (checkStmt fuel function scope statement) := by
  cases statement with
  | declareVar name type value span =>
    rw [Option.mem_toList.1 h, checkStmt]
    exact Visits.next (fun _ => liftProgram_before fun _ => verify_keeps type) fun _ =>
      (expectAssignable_visits type span).bind fun _ _ => .ofExcept _
  | declareConst name type value span =>
    rw [List.mem_singleton.1 h, checkStmt]
    exact Visits.next (fun _ => liftProgram_before fun _ => verify_keeps type) fun _ =>
      (expectAssignable_visits type span).bind fun _ _ => .ofExcept _
  | assign target value span =>
    rw [checkStmt]
    refine Visits.next (fun _ => checkTarget_keeps fuel scope span target) fun _ => ?_
    simp only [exprs, List.mem_cons, List.not_mem_nil, or_false] at h
    rcases h with rfl | rfl
    · exact (Visits.self fuel scope expr).bind fun _ _ =>
        (expectAssignable_keeps _ _ _ _ _).bind fun _ => .pure _
    · exact Visits.next (fun _ => typeOf_keeps fuel scope target) fun type =>
        (expectAssignable_visits type span).bind fun _ _ => .pure _
  | conditional condition thenBranch elseBranch span =>
    rw [List.mem_singleton.1 h, checkStmt]
    exact expectCondition_visits.bind fun _ _ =>
      (checkBlock_keeps fuel function _ thenBranch).bind fun _ =>
        (checkBlock_keeps fuel function _ elseBranch).bind fun _ => .pure _
  | whileLoop _ body _ | untilLoop _ body _ =>
    rw [List.mem_singleton.1 h, checkStmt]
    exact expectCondition_visits.bind fun _ _ =>
      (checkBlock_keeps fuel function _ body).bind fun _ => .pure _
  | ret value span =>
    rw [Option.mem_toList.1 h, checkStmt]
    exact (checkReturn_visits span).bind fun _ _ => .pure _
  | call c =>
    rw [checkStmt]
    refine Visits.bind ?_ fun _ _ => .pure _
    exact (argumentTypes_visits h).bind fun types _ => callOutcome_keeps fuel c types
  | continueLoop span => cases h
  | breakLoop span => cases h

mutual

/-- The scope behind a checked statement is the one that its declarations make. -/
theorem checkStmt_behind (fuel : Nat) (function : FunctionDef) (scope : Scope) :
    (statement : Stmt) → Yields (fun _ => True) (fun next => scope.behind statement = .ok next)
      (checkStmt fuel function scope statement)
  | .declareVar name type value span =>
    Yields.last fun _ =>
      match value with
      | some _ => Yields.last fun _ => Yields.ofExcept fun _ h => h
      | none => Yields.ofExcept fun _ h => h
  | .declareConst name type value span =>
    Yields.last fun _ => Yields.last fun _ => Yields.ofExcept fun _ h => h
  | .assign target value span =>
    Yields.last fun _ => Yields.last fun _ => Yields.last fun _ => Yields.pure rfl
  | .conditional condition thenBranch elseBranch span =>
    Yields.last fun _ =>
      (checkBlock_behind fuel function scope.enter thenBranch).bind fun chosen hchosen =>
        (checkBlock_behind fuel function chosen.leave.enter elseBranch).bind fun other hother =>
          Yields.pure (by simp [Scope.behind, hchosen, hother, Bind.bind, Except.bind, Pure.pure, Except.pure])
  | .whileLoop _ body _ | .untilLoop _ body _ =>
    Yields.last fun _ => (checkBlock_behind fuel function scope.enter body).bind fun last hlast =>
      Yields.pure (by simp [Scope.behind, hlast, Bind.bind, Except.bind, Pure.pure, Except.pure])
  | .ret _ _ | .call _ => Yields.last fun _ => Yields.pure rfl
  | .continueLoop span => Yields.pure rfl
  | .breakLoop span => Yields.pure rfl

theorem checkBlock_behind (fuel : Nat) (function : FunctionDef) (scope : Scope) :
    (block : List Stmt) → Yields (fun _ => True) (fun last => scope.behindAll block = .ok last)
      (checkBlock fuel function scope block)
  | [] => .pure rfl
  | statement :: rest =>
    (checkStmt_behind fuel function scope statement).bind fun next hnext =>
      (checkBlock_behind fuel function next rest).mono fun last hlast => by
        simpa [Scope.behindAll, hnext, Bind.bind, Except.bind] using hlast

end

mutual

theorem checkStmt_visits {scope inner : Scope} {statement : Stmt} : Has scope statement inner expr →
      Visits fuel inner expr (checkStmt fuel function scope statement)
  | .own mem => checkStmt_visits_own mem
  | .thenBranch has =>
    Visits.next (fun _ => expectCondition_keeps _ _ _) fun _ =>
      (checkBlock_visits has).bind fun _ _ =>
        (checkBlock_keeps _ _ _ _).bind fun _ => .pure _
  | .elseBranch behind has =>
    Visits.next (fun _ => expectCondition_keeps _ _ _) fun _ =>
      Visits.then (fun _ => checkBlock_keeps _ _ _ _) (checkBlock_behind _ _ _ _) fun chosen hchosen => by
        rw [behind] at hchosen
        cases hchosen
        exact (checkBlock_visits has).bind fun _ _ => .pure _
  | .whileBody has | .untilBody has =>
    Visits.next (fun _ => expectCondition_keeps _ _ _) fun _ =>
      (checkBlock_visits has).bind fun _ _ => .pure _

theorem checkBlock_visits {scope inner : Scope} {block : List Stmt} :
    BlockHas scope block inner expr →
      Visits fuel inner expr (checkBlock fuel function scope block)
  | .head has => (checkStmt_visits has).bind fun _ _ => checkBlock_keeps _ _ _ _
  | .tail behind has =>
    Visits.then (fun _ => checkStmt_keeps _ _ _ _) (checkStmt_behind _ _ _ _) fun next hnext => by
      rw [behind] at hnext
      cases hnext
      exact checkBlock_visits has

end

end Statements

/-! ## Checked functions -/

/-- A name that has a type is visible. -/
theorem TypedBetween.visible {earlier later : Program} {name : String} {span : Span}
    (h : TypedBetween fuel earlier later scope (.ident name span)) :
    ∃ object, scope.lookup name = some object := by
  obtain ⟨start, type, stop, _, htype, _⟩ := h
  obtain ⟨found, middle, hown, _⟩ := bind_eq_ok.1 htype
  rw [ownType] at hown
  cases hlookup : scope.lookup name with
  | some object => exact ⟨object, rfl⟩
  | none =>
    rw [hlookup] at hown
    exact absurd hown throw_ne_ok

/-- A function is checked by checking its body, in the scope of its parameters. -/
theorem checkBlock_of_checkFunction
    {program later : Program} (hcheck : checkFunction fuel function program = .ok () later) :
    ∃ scope start last, Scope.ofFunction function = .ok scope ∧ program.Before start ∧
      checkBlock fuel function scope function.body start = .ok last later := by
  obtain ⟨_, checked, hstructure, htypes⟩ := bind_eq_ok.1 hcheck
  have hchecked := before_of_ok (.ofExcept _) hstructure
  unfold checkTypes at htypes
  obtain ⟨_, verified, hverify, hrest⟩ := bind_eq_ok.1 htypes
  have hverified := before_of_ok (liftProgram_before fun _ => verifyAll_keeps _) hverify
  -- What follows the return type is the same whether there is one or not.
  have hbody : ∀ {start}, program.Before start →
      (ofExcept (Scope.ofFunction function) >>= fun scope =>
        checkBlock fuel function scope function.body >>= fun _ => pure ()) start =
          .ok () later →
      ∃ scope start last, Scope.ofFunction function = .ok scope ∧ program.Before start ∧
        checkBlock fuel function scope function.body start = .ok last later := by
    intro start hstart hrun
    obtain ⟨scope, opened, hscope, hrun⟩ := bind_eq_ok.1 hrun
    obtain ⟨last, after, hblock, hlast⟩ := bind_eq_ok.1 hrun
    cases hlast
    cases hfunction : Scope.ofFunction function with
    | error cause =>
      rw [hfunction] at hscope
      exact absurd hscope throw_ne_ok
    | ok found =>
      rw [hfunction] at hscope
      cases hscope
      exact ⟨_, _, last, rfl, hstart, hblock⟩
  cases hreturn : function.returnType with
  | none =>
    rw [hreturn] at hrest
    exact hbody (hchecked.trans hverified) hrest
  | some type =>
    rw [hreturn] at hrest
    obtain ⟨_, start, hverify, hrest⟩ := bind_eq_ok.1 hrest
    have hstart := before_of_ok (liftProgram_before fun _ => verify_keeps type) hverify
    exact hbody ((hchecked.trans hverified).trans hstart) hrest

/-- The operands in a checked body have types where they stand, and the names among them are
visible there.  What stands inside the elements of array literals decides whether all parts
of the body have types. -/
theorem checkFunction_types_operands {fuel : Nat} {function : FunctionDef}
    {program later : Program} (hcheck : checkFunction fuel function program = .ok () later) :
    ∃ scope last, Scope.ofFunction function = .ok scope ∧
      scope.behindAll function.body = .ok last ∧
      (∀ inner whole part, BlockHas scope function.body inner whole → whole.Operand part →
        TypedBetween fuel program later inner part ∧
          ∀ name span, part = .ident name span → ∃ object, inner.lookup name = some object) ∧
      ((∀ inner whole part, BlockHas scope function.body inner whole → whole.Part part →
          TypedBetween fuel program later inner part) ↔
        ∀ inner whole literal element part, BlockHas scope function.body inner whole →
          whole.Part literal → element ∈ literal.elements → element.Part part →
            TypedBetween fuel program later inner part) := by
  obtain ⟨scope, start, last, hscope, hstart, hblock⟩ := checkBlock_of_checkFunction hcheck
  have htyped : ∀ inner whole part, BlockHas scope function.body inner whole →
      whole.Operand part → TypedBetween fuel program later inner part := by
    intro inner whole part hhas hoperand
    obtain ⟨before, type, after, hbefore, htype, hafter⟩ :=
      (checkBlock_visits hhas).trans (typeOf_visits hoperand) _ _ _ hblock
    exact ⟨before, type, after, hstart.trans hbefore, htype, hafter⟩
  have hlast := (checkBlock_behind fuel function scope function.body _ _ _ trivial hblock).2
  refine ⟨scope, last, hscope, hlast, fun inner whole part hhas hoperand => ?_, ?_, ?_⟩
  · have hpart := htyped inner whole part hhas hoperand
    refine ⟨hpart, fun name span hident => ?_⟩
    rw [hident] at hpart
    exact hpart.visible
  · intro hall inner whole literal element part hhas hliteral helement hpart
    exact hall inner whole part hhas ((hliteral.tail (Or.inr helement)).trans hpart)
  · intro helements inner whole part hhas hpart
    rcases hpart.operand_or_element with hoperand | ⟨literal, element, hliteral, helement, hinside⟩
    · exact htyped inner whole part hhas hoperand
    · exact helements inner whole literal element part hhas hliteral helement hinside

/-! ## Two functions -/

/-- A function that counts down to zero by calling itself. -/
def countDown : FunctionDef :=
  { name := "down"
    parameters := [{ name := "n", type := .int }]
    returnType := some .int
    origin := "main.mer"
    body :=
      [.conditional (.binary .gt (.ident "n" {}) (.intLit 0 {}) {})
        [.declareConst "less" .int (.binary .sub (.ident "n" {}) (.intLit 1 {}) {}) {},
          .ret (some (.call "down" none [.ident "less" {}] [] "main.mer" {})) {}]
        [.ret (some (.ident "n" {})) {}] {}] }

/-- The argument of the call has a type in the branch that declares it. -/
theorem checkFunction_types_argument :
    ∃ later scope inner,
      checkFunction 8 countDown (ofOneFile [countDown]) = .ok () later ∧
        Scope.ofFunction countDown = .ok scope ∧
        Stmt.BlockHas scope countDown.body inner
          (.call "down" none [.ident "less" {}] [] "main.mer" {}) ∧
        TypedBetween 8 (ofOneFile [countDown]) later inner (.ident "less" {}) := by
  have hpasses : (match checkFunction 8 countDown (ofOneFile [countDown]) with
      | .ok _ _ => true
      | .error _ _ => false) = true := by decide +kernel
  obtain ⟨later, hcheck⟩ : ∃ later,
      checkFunction 8 countDown (ofOneFile [countDown]) = .ok () later := by
    cases hrun : checkFunction 8 countDown (ofOneFile [countDown]) with
    | ok _ later => exact ⟨later, rfl⟩
    | error cause later => simp [hrun] at hpasses
  obtain ⟨scope, last, hscope, _, htyped, _⟩ := checkFunction_types_operands hcheck
  cases hscope
  have hhas : Stmt.BlockHas
      { frames := [{ outer := none, objects := [⟨0, "n", .int, false, true⟩] }], nextId := 1 }
      countDown.body _
      (.call "down" none [.ident "less" {}] [] "main.mer" {}) :=
    .head (.thenBranch (.tail rfl (.head (.own (by simp [Stmt.exprs])))))
  have hoperand : Expr.Operand (.call "down" none [.ident "less" {}] [] "main.mer" {})
      (.ident "less" {}) := .single (by simp [Expr.operands])
  exact ⟨later, _, _, hcheck, rfl, hhas, (htyped _ _ _ hhas hoperand).1⟩

/-- A function whose only name stands in an array literal and is not declared. -/
def undeclaredElement : FunctionDef :=
  { name := "f"
    origin := "main.mer"
    body :=
      [.declareVar "xs" (.array 1 .int)
        (some (.arrayLit 1 .int [.ident "missing" {}] {})) {}] }

/-- The function passes the check, and the name in it has no type in any state. -/
theorem checkFunction_of_undeclared_element :
    Program.build 8 (oneFile [undeclaredElement]) = .ok (ofOneFile [undeclaredElement]) ∧
      undeclaredElement.isGeneric = false ∧
      ∃ later scope inner whole,
        checkFunction 8 undeclaredElement (ofOneFile [undeclaredElement]) = .ok () later ∧
        Scope.ofFunction undeclaredElement = .ok scope ∧
        BlockHas scope undeclaredElement.body inner whole ∧
        whole.Part (.ident "missing" {}) ∧ inner.lookup "missing" = none ∧
        ∀ fuel earlier later, ¬ TypedBetween fuel earlier later inner (.ident "missing" {}) := by
  refine ⟨rfl, rfl, _, _, {}, .arrayLit 1 .int [.ident "missing" {}] {}, rfl, rfl, ?_, ?_, rfl, ?_⟩
  · exact .head (.own (by simp [exprs]))
  · exact .single (Or.inr (by simp [Expr.elements]))
  · intro fuel earlier later htyped
    obtain ⟨object, hobject⟩ := htyped.visible
    cases hobject

end Accord
