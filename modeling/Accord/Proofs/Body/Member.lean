import Accord.Proofs.Body.Replay
import Accord.Proofs.Call.Returns

/-!
# Dereferences before members

A member of a record is also found through pointers to the record.  `normalize` writes the
dereferences that this takes into the expression, at every member of a chain.  The expression
that comes out has the type of the one that went in, its members are taken from values that are
no pointers, and normalizing it again changes nothing (`normalize_keeps_types`).

Types are found anew at each member of the chain and once more afterwards, so this takes that
they are found again: plans have to hold from the start of the run to its end.  Where a call that
was planned is answered with a function afterwards, the dereferences are those of a type that the
expression no longer has (`normalize_changes_types`).
-/

namespace Accord

open Query

variable {fuel : Nat} {span : Span} {expr result operand normal : Expr} {type bare : TypeExpr}
  {table : TypeTable} {after start : Program} {scope : Scope}

/-! ## Inserted dereferences -/

/-- What a chain of members begins with. -/
def Expr.root : Expr → Expr
  | .member value _ _ => value.root
  | expr => expr

/-- The expression with dereferences in front. -/
def Expr.derefs (span : Span) (count : Nat) (expr : Expr) : Expr :=
  (fun inner => .unary .deref inner span)^[count] expr

theorem Expr.types_derefs (span : Span) (count : Nat) (expr : Expr) :
    (expr.derefs span count).types = expr.types := by
  induction count generalizing expr with
  | zero => rfl
  | succ count ih => exact ih (.unary .deref expr span)

/-- The second expression is the first with dereferences inserted before the members of the
chain that ends it, so that what the members are taken from is good. -/
inductive Expr.Dereferenced (good : Expr → Prop) : Expr → Expr → Prop where
  | base {expr : Expr} (other : ∀ value name span, expr ≠ .member value name span) :
      Dereferenced good expr expr
  | member {value operand : Expr} {name : String} {span : Span} (count : Nat)
      (inner : Dereferenced good value operand) (operands : good (operand.derefs span count)) :
      Dereferenced good (.member value name span) (.member (operand.derefs span count) name span)

/-- What is dereferenced as often as it can be has the type at the end of the pointers. -/
theorem withDerefs_eq_ok {after : TypeTable}
    (h : withDerefs fuel span expr type table = .ok result after) :
    ∃ count bare, result = expr.derefs span count ∧
      dereference fuel type table = .ok bare after ∧ ∀ target, bare ≠ .pointer target := by
  induction fuel generalizing expr type table with
  | zero => exact absurd h throw_ne_ok
  | succ fuel ih =>
    cases type with
    | pointer target =>
      obtain ⟨bare, middle, hbare, hrest⟩ := bind_eq_ok.1 h
      obtain ⟨count, last, rfl, hlast, hpointer⟩ := ih hrest
      exact ⟨count + 1, last, rfl, bind_eq_ok.2 ⟨bare, middle, hbare, hlast⟩, hpointer⟩
    | _ =>
      obtain ⟨rfl, rfl⟩ := pure_eq_ok.1 h
      exact ⟨0, _, rfl, rfl, by simp⟩

section Typing

variable {program : Program}

/-- A value that a pointer points to has the type that the pointer says. -/
theorem typeOf_deref {target : TypeExpr}
    (htype : typeOf fuel scope expr program = .ok (.pointer target) program)
    (hbare : unalias fuel target program.types = .ok bare program.types) :
    typeOf fuel scope (.unary .deref expr span) program = .ok bare program := by
  have hown : ownType fuel scope (.unary .deref expr span) program = .ok target program := by
    rw [ownType]
    exact bind_of_ok htype
  rw [typeOf, settled, bind_of_ok hown]
  exact liftProgram_of_ok hbare

/-- A member is taken from what is behind the pointers. -/
theorem typeOf_member (name : String) (span : Span)
    (htype : typeOf fuel scope expr program = .ok type program)
    (hbare : dereference fuel type program.types = .ok bare program.types) :
    typeOf fuel scope (.member expr name span) program =
      settled fuel (liftM (memberType bare name span)) program := by
  refine settled_congr fuel ?_
  rw [ownType]
  exact (bind_of_ok htype).trans (bind_of_ok (liftProgram_of_ok hbare))

/-- The inserted dereferences lead to the type at the end of the pointers, also later. -/
theorem typeOf_withDerefs {small : Nat} (hle : small ≤ fuel) (hplain : type.plain)
    {after : TypeTable} (htable : table.Spelled)
    (hrun : withDerefs small span expr type table = .ok result after)
    (hprogram : program.types.Spelled) (hbefore : after.Before program.types)
    (htype : typeOf fuel scope expr program = .ok type program)
    (hbare : dereference small type table = .ok bare after) :
    typeOf fuel scope result program = .ok bare program := by
  induction small generalizing expr type table with
  | zero => exact absurd hrun throw_ne_ok
  | succ small ih =>
    cases type with
    | pointer target =>
      obtain ⟨next, middle, hnext, hrest⟩ := bind_eq_ok.1 hrun
      obtain ⟨next', middle', hnext', hrest'⟩ := bind_eq_ok.1 hbare
      rw [hnext] at hnext'
      cases hnext'
      have htarget : target.plain := hplain
      -- Each step is made again with the fuel of the whole, which is more.
      have hrepeats := (unalias_repeats (show small ≤ fuel by omega) htarget).ok htable hnext
      obtain ⟨_, _, _, hnextPlain⟩ :=
        ((unalias_replays small htarget).ok htable hnext).later hrepeats.good (.refl _)
      have hmiddle := (dereference_replays small hnextPlain).ok hrepeats.good hrest'
      obtain ⟨_, hagain, rfl, _⟩ := hrepeats.later hprogram (hmiddle.before.trans hbefore)
      exact ih (by omega) hnextPlain hrepeats.good hrest (typeOf_deref htype hagain) hrest'
    | _ =>
      obtain ⟨rfl, rfl⟩ := pure_eq_ok.1 hrun
      obtain ⟨rfl, _⟩ := pure_eq_ok.1 hbare
      exact htype

end Typing

/-! ## Normal expressions -/

/-- The second expression is the first with dereferences inserted, and its members are taken from
values whose types are no pointers. -/
def Dereferences (fuel : Nat) (scope : Scope) (program : Program) : Expr → Expr → Prop :=
  Expr.Dereferenced fun operand => ∃ type,
    typeOf fuel scope operand program = .ok type program ∧ ∀ target, type ≠ .pointer target

/-- In a later state, the second expression has the type of the first, has its dereferences
written out, and is normal. -/
structure Normalizes (fuel : Nat) (scope : Scope) (expr normal : Expr) (later : Program) :
    Prop where
  types : typeOf fuel scope normal later = typeOf fuel scope expr later
  dereferences : Dereferences fuel scope later expr normal
  normal : normalize fuel scope normal later = .ok normal later

theorem normalize_of_other (h : ∀ value name span, expr ≠ .member value name span) :
    normalize fuel scope expr = pure expr := by
  cases expr with
  | member value name span => exact absurd rfl (h value name span)
  | _ => rfl

/-- An expression behind an inserted dereference is left as it is, and one without stays
normal. -/
theorem normalize_derefs {program : Program}
    (h : normalize fuel scope operand program = .ok operand program) (span : Span) (count : Nat) :
    normalize fuel scope (operand.derefs span count) program =
      .ok (operand.derefs span count) program := by
  cases count with
  | zero => exact h
  | succ count =>
    rw [Expr.derefs, Function.iterate_succ_apply']
    rfl

section Normalize

variable (hscope : scope.Plain)

include hscope

/-- One member of the chain: what holds of the value that it is taken from holds of it too. -/
theorem normalizes_member {value : Expr} {name : String} {middle typed : Program}
    (hmiddle : middle.Plain) (hstart : start.Before middle) (hoperand : operand.Plain)
    (hnormal : ∀ later : Program, later.Plain → middle.Before later → start.PlansHold later →
      Normalizes fuel scope value operand later)
    (htype : typeOf fuel scope operand middle = .ok type typed)
    (hderefs : (liftM (withDerefs fuel span operand type) : ProgramQuery Expr) typed =
      .ok result after) :
    after.Plain ∧ middle.Before after ∧ result.Plain ∧
      ∀ later : Program, later.Plain → after.Before later → start.PlansHold later →
        Normalizes fuel scope (.member value name span) (.member result name span) later := by
  obtain ⟨hrecurs, hplain⟩ := (typeOf_recurrent fuel hscope hoperand).ok hmiddle htype
  obtain ⟨types, hrun, rfl⟩ := on_eq_ok.1 hderefs
  obtain ⟨count, bare, rfl, hbare, hpointer⟩ := withDerefs_eq_ok hrun
  obtain ⟨hrecurs', _⟩ := (Recurrent.lift (dereference_replays fuel hplain)).ok hrecurs.plain
    (liftProgram_of_ok hbare)
  refine ⟨hrecurs'.plain, hrecurs.before.trans hrecurs'.before, ?_,
    fun later hlater hbefore hhold => ?_⟩
  · rw [Expr.Plain, Expr.types_derefs]
    exact hoperand
  have htyped := hrecurs'.before.trans hbefore
  have hvalue := hnormal later hlater (hrecurs.before.trans htyped) hhold
  have hfound := hrecurs.again later hlater htyped (hhold.from_later hstart)
  obtain ⟨_, hlast, rfl, _⟩ := ((dereference_replays fuel hplain).ok hrecurs.plain.types
    hbare).later hlater.types hbefore.types
  have hresult := typeOf_withDerefs (Nat.le_refl fuel) hplain hrecurs.plain.types hrun
    hlater.types hbefore.types hfound hbare
  -- What is no pointer is not dereferenced any further.
  have hself : dereference fuel bare later.types = .ok bare later.types ∧
      ∀ expr, withDerefs fuel span expr bare later.types = .ok expr later.types := by
    cases fuel with
    | zero => exact absurd hrun throw_ne_ok
    | succ fuel =>
      cases bare with
      | pointer target => exact absurd rfl (hpointer target)
      | _ => exact ⟨rfl, fun _ => rfl⟩
  refine ⟨?_, .member count hvalue.dereferences ⟨bare, hresult, hpointer⟩, ?_⟩
  · rw [typeOf_member name span hresult hself.1,
      typeOf_member name span (hvalue.types ▸ hfound) hlast]
  · rw [normalize, bind_of_ok (normalize_derefs hvalue.normal span count), bind_of_ok hresult,
      bind_of_ok (liftProgram_of_ok (hself.2 _))]
    rfl

/-- Normalizing leads to an expression that is normal and has the type of the first in every
later state, as long as plans hold. -/
theorem normalizes_of_ok (expr : Expr) (hexpr : expr.Plain) (hstart : start.Plain)
    (hrun : normalize fuel scope expr start = .ok normal after) :
    after.Plain ∧ start.Before after ∧ normal.Plain ∧
      ∀ later : Program, later.Plain → after.Before later → start.PlansHold later →
        Normalizes fuel scope expr normal later := by
  induction expr using Expr.root.induct generalizing normal after with
  | case1 value name span ih =>
    obtain ⟨operand, middle, hoperand, hrun⟩ := bind_eq_ok.1 hrun
    obtain ⟨type, typed, htype, hrun⟩ := bind_eq_ok.1 hrun
    obtain ⟨result, after', hderefs, hrun⟩ := bind_eq_ok.1 hrun
    obtain ⟨rfl, rfl⟩ := pure_eq_ok.1 hrun
    obtain ⟨hmiddle, hbefore, hplain, hnormal⟩ := ih hexpr hoperand
    obtain ⟨hlast, hbefore', hresult, hall⟩ :=
      normalizes_member hscope hmiddle hbefore hplain hnormal htype hderefs
    exact ⟨hlast, hbefore.trans hbefore', hresult, hall⟩
  | case2 expr hother =>
    rw [normalize_of_other hother] at hrun
    obtain ⟨rfl, rfl⟩ := pure_eq_ok.1 hrun
    refine ⟨hstart, .refl _, hexpr, fun later _ _ _ => ⟨rfl, .base hother, ?_⟩⟩
    rw [normalize_of_other hother]
    rfl

end Normalize

/-! ## Expressions without calls -/

/-- Whether finding the type of the expression takes the resolution of a call. -/
def Expr.makesCall : Expr → Bool
  | .call _ _ _ _ _ _ => true
  | .binary _ left right _ => left.makesCall || right.makesCall
  | .unary _ operand _ => operand.makesCall
  | .typeOp _ value _ _ => value.makesCall
  | .member value _ _ => value.makesCall
  | .index storage position _ => storage.makesCall || position.makesCall
  | _ => false

theorem Expr.makesCall_derefs (span : Span) (count : Nat) (expr : Expr) :
    (expr.derefs span count).makesCall = expr.makesCall := by
  induction count generalizing expr with
  | zero => rfl
  | succ count ih => exact ih (.unary .deref expr span)

section Memory

variable {memo : Memo}

theorem liftProgram_keeps_memo {α : Type} (query : TypeQuery α) :
    Keeps (fun program : Program => program.memo = memo) (liftM query : ProgramQuery α) :=
  .on (fun _ _ => trivial) (fun _ _ h _ => h) fun _ (h : True) => h

theorem settled_keeps_memo {query : ProgramQuery TypeExpr} (fuel : Nat)
    (h : Keeps (fun program : Program => program.memo = memo) query) :
    Keeps (fun program : Program => program.memo = memo) (settled fuel query) :=
  h.bind fun type => liftProgram_keeps_memo (unalias fuel type)

/-- Only calls are remembered. -/
theorem ownType_keeps_memo (fuel : Nat) (scope : Scope) :
    (expr : Expr) → expr.makesCall = false →
      Keeps (fun program : Program => program.memo = memo) (ownType fuel scope expr)
  | .intLit _ _, _ | .floatLit _ _, _ | .charLit _ _, _ | .boolLit _ _, _ | .stringLit _ _, _ =>
    .pure _
  | .ident _ _, _ => .demand _ _
  | .arrayLit _ element _ _, _ =>
    (liftProgram_keeps_memo (verify element)).bind fun _ => .pure _
  | .typeOp op value type _, h =>
    (settled_keeps_memo fuel (ownType_keeps_memo fuel scope value h)).bind fun _ =>
      (liftProgram_keeps_memo (verify type)).bind fun _ =>
        match op with
        | .test => .pure _
        | .cast => .pure _
  | .binary _ left right _, h =>
    have hparts := Bool.or_eq_false_iff.1 h
    (settled_keeps_memo fuel (ownType_keeps_memo fuel scope left hparts.1)).bind fun _ =>
      (settled_keeps_memo fuel (ownType_keeps_memo fuel scope right hparts.2)).bind fun _ =>
        liftProgram_keeps_memo _
  | .unary _ operand _, h =>
    (settled_keeps_memo fuel (ownType_keeps_memo fuel scope operand h)).bind fun _ =>
      .ofExcept _
  | .index storage position _, h =>
    have hparts := Bool.or_eq_false_iff.1 h
    (settled_keeps_memo fuel (ownType_keeps_memo fuel scope storage hparts.1)).bind fun _ =>
      (settled_keeps_memo fuel (ownType_keeps_memo fuel scope position hparts.2)).bind fun _ =>
        .ofExcept _
  | .member value _ _, h =>
    (settled_keeps_memo fuel (ownType_keeps_memo fuel scope value h)).bind fun type =>
      (liftProgram_keeps_memo (dereference fuel type)).bind fun _ => liftProgram_keeps_memo _

/-- Normalizing an expression without calls leaves what is remembered as it is. -/
theorem normalize_keeps_memo (h : expr.makesCall = false)
    (hrun : normalize fuel scope expr start = .ok normal after) :
    after.memo = start.memo ∧ normal.makesCall = false := by
  induction expr using Expr.root.induct generalizing normal after with
  | case1 value name span ih =>
    obtain ⟨operand, middle, hoperand, hrun⟩ := bind_eq_ok.1 hrun
    obtain ⟨type, typed, htype, hrun⟩ := bind_eq_ok.1 hrun
    obtain ⟨result, after', hderefs, hrun⟩ := bind_eq_ok.1 hrun
    obtain ⟨rfl, rfl⟩ := pure_eq_ok.1 hrun
    obtain ⟨hmiddle, hcalls⟩ := ih h hoperand
    have htyped := settled_keeps_memo fuel (ownType_keeps_memo fuel scope operand hcalls) middle
      hmiddle
    rw [← typeOf, after_of_ok htype] at htyped
    obtain ⟨types, hcount, rfl⟩ := on_eq_ok.1 hderefs
    obtain ⟨count, _, rfl, _⟩ := withDerefs_eq_ok hcount
    exact ⟨htyped, (operand.makesCall_derefs span count).trans hcalls⟩
  | case2 expr hother =>
    rw [normalize_of_other hother] at hrun
    obtain ⟨rfl, rfl⟩ := pure_eq_ok.1 hrun
    exact ⟨rfl, h⟩

end Memory

/-- Writing dereferences out before members keeps the type of an expression, or the reason why it
has none; members are then taken from values that are no pointers, and doing it again changes
nothing.  This holds as long as no call that was planned is answered meanwhile with a function
that returns something else, and so of every expression without calls. -/
theorem normalize_keeps_types {fuel : Nat} {scope : Scope} {expr normal : Expr}
    {start after : Program} (hstart : start.Plain) (hscope : scope.Plain) (hexpr : expr.Plain)
    (hrun : normalize fuel scope expr start = .ok normal after)
    (hhold : expr.makesCall = false ∨ start.PlansHold after) :
    typeOf fuel scope normal after = typeOf fuel scope expr after ∧
      Dereferences fuel scope after expr normal ∧
      normalize fuel scope normal after = .ok normal after := by
  have hhold' : start.PlansHold after := by
    rcases hhold with hcalls | hhold
    · obtain ⟨hmemo, _⟩ := normalize_keeps_memo hcalls hrun
      exact Program.plansHold_of_calls (congrArg Memo.calls hmemo)
    · exact hhold
  obtain ⟨hafter, _, _, hnormal⟩ := normalizes_of_ok hscope expr hexpr hstart hrun
  obtain ⟨htypes, hderefs, hagain⟩ := hnormal after hafter (.refl after) hhold'
  exact ⟨htypes, hderefs, hagain⟩

/-! ## Two programs -/

/-- A project of one file. -/
def fileOf (types : List TypeDef) (functions : List FunctionDef) : Project :=
  { files := [{ name := "main.mer", package := "app", types, functions }] }

/-- The program of such a project, if no definition is generic. -/
def programOf (types : List TypeDef) (functions : List FunctionDef) : Program :=
  { types := { project := fileOf types functions
               stored := types.map fun definition => ("app::" ++ definition.name, definition) }
    functions := (ofOneFile functions).functions }

/-- Two empty records and their union, and a record that holds a point behind two pointers, which
an alias stands for. -/
def pointTypes : List TypeDef :=
  [mainDef "A" (.record []), mainDef "B" (.record []),
    mainDef "U" (.union [inMain "A", inMain "B"]),
    mainDef "Pin" (.record [{ name := "point", type := inMain "Handle" }]),
    mainDef "Handle" (.alias (.pointer (.pointer (inMain "Point")))),
    mainDef "Point" (.record [{ name := "x", type := .int }])]

/-- A function for each of the two records, which returns a pointer. -/
def pinFunctions : List FunctionDef :=
  [ofOne "A" (.pointer (inMain "Pin")), ofOne "B" (.pointer (inMain "Pin"))]

/-- A call of `f` with the named value. -/
def callOn (name : String) : Expr :=
  .call "f" none [.ident name {}] [] "main.mer" {}

/-- A member of the point in what the call returns. -/
def pinChain : Expr :=
  .member (.member (callOn "u") "point" {}) "x" {}

/-- The same with its dereferences: one before the first member, two before the second. -/
def pinNormal : Expr :=
  .member ((Expr.member ((callOn "u").derefs {} 1) "point" {}).derefs {} 2) "x" {}

/-- The call is planned, its plan holds, and the chain that it begins is normalized for good. -/
theorem normalize_pin :
    let start := programOf pointTypes pinFunctions
    let scope := scopeOf [("u", inMain "U")]
    Program.build 8 (fileOf pointTypes pinFunctions) = .ok start ∧
      ∃ after, normalize 8 scope pinChain start = .ok pinNormal after ∧
        start.PlansHold after ∧ after.memo.plans.length = 1 ∧
        typeOf 8 scope pinNormal after = typeOf 8 scope pinChain after ∧
        Dereferences 8 scope after pinChain pinNormal ∧
        normalize 8 scope pinNormal after = .ok pinNormal after := by
  intro start scope
  have hbuild : Program.build 8 (fileOf pointTypes pinFunctions) = .ok start := rfl
  have hplain : (fileOf pointTypes pinFunctions).Plain := by
    refine ⟨by decide, by decide, ?_⟩
    show ∀ function ∈ pinFunctions ++ [],
      (∀ type ∈ function.parameterTypes, type.plain = true) ∧
        ∀ type ∈ function.returnType, type.plain = true
    decide
  have hanswer : (normalize 8 scope pinChain).answer start = .ok pinNormal := by cbv
  have hmemo : ((normalize 8 scope pinChain).after start).memo.plans.length = 1 ∧
      ∀ entry ∈ ((normalize 8 scope pinChain).after start).memo.plans,
        ((normalize 8 scope pinChain).after start).memo.calls.lookup entry.1 = none := by
    decide +kernel
  obtain ⟨after, hrun⟩ := answer_eq_ok.1 hanswer
  rw [after_of_ok hrun] at hmemo
  have hhold := Program.plansHold_of_apart start hmemo.2
  exact ⟨hbuild, after, hrun, hhold, hmemo.1, normalize_keeps_types
    (plain_of_build hbuild hplain) (plain_scopeOf (by decide)) (by decide) hrun (.inr hhold)⟩

/-- Two empty records and a point. -/
def coverTypes : List TypeDef :=
  [mainDef "A" (.record []), mainDef "B" (.record []),
    mainDef "Point" (.record [{ name := "x", type := .int }])]

/-- The function of a name that takes values of the given types. -/
def functionFrom (name : String) (parameters : List TypeExpr) (returned : TypeExpr) :
    FunctionDef :=
  { name
    parameters := parameters.map fun type => { name := "x", type }
    returnType := some returned
    origin := "main.mer" }

/-- Functions for the parts of a sum with a pointer and for a pointer to a sum, whose calls have
one key, and functions that tell their results apart. -/
def coverFunctions (first second : TypeExpr) : List FunctionDef :=
  [functionFrom "f" [.pointer .int] (inMain "A"), functionFrom "f" [.float] (inMain "A"),
    functionFrom "f" [.pointer (.union [.int, .float])] (inMain "B"),
    functionFrom "h" [inMain "A", inMain "B"] first,
    functionFrom "h" [inMain "B", inMain "B"] second]

/-- A sum with a pointer, and a pointer to a sum. -/
def coverScope : Scope :=
  scopeOf [("u", .union [.pointer .int, .float]), ("v", .pointer (.union [.int, .float]))]

/-- The point that the second function makes of what the first does. -/
def coverCall : Expr :=
  .call "h" none [callOn "u", callOn "v"] [] "main.mer" {}

/-- The first call of `f` is planned, and the second is answered under the same key.  Asked again,
the first call is answered with the function for the second, and the whole has another type. -/
theorem normalize_changes_types :
    (let functions := coverFunctions (.pointer (.pointer (inMain "Point")))
        (.pointer (inMain "Point"))
      let start := programOf coverTypes functions
      Program.build 8 (fileOf coverTypes functions) = .ok start ∧
        (normalize 8 coverScope (.member coverCall "x" {})).answer start =
          .ok (.member (coverCall.derefs {} 2) "x" {}) ∧
        let after := (normalize 8 coverScope (.member coverCall "x" {})).after start
        (typeOf 8 coverScope (.member coverCall "x" {})).answer after = .ok .int ∧
          (typeOf 8 coverScope (.member (coverCall.derefs {} 2) "x" {})).answer after =
            .error (.notAPointer "Point" {})) ∧
    (let functions := coverFunctions (.pointer (inMain "Point"))
        (.pointer (.pointer (inMain "Point")))
      let start := programOf coverTypes functions
      Program.build 8 (fileOf coverTypes functions) = .ok start ∧
        (normalize 8 coverScope (.member coverCall "x" {})).answer start =
          .ok (.member (coverCall.derefs {} 1) "x" {}) ∧
        let after := (normalize 8 coverScope (.member coverCall "x" {})).after start
        (typeOf 8 coverScope (coverCall.derefs {} 1)).answer after =
            .ok (.pointer (inMain "Point")) ∧
          (normalize 8 coverScope (.member (coverCall.derefs {} 1) "x" {})).answer after =
            .ok (.member (coverCall.derefs {} 2) "x" {})) := by
  refine ⟨⟨rfl, ?_, ?_, ?_⟩, rfl, ?_, ?_, ?_⟩ <;> cbv

end Accord
