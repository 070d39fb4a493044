import Accord.Proofs.Body.Frame
import Accord.Proofs.Call.Plans

/-!
# Types found again

The type of an expression is found by asking about types and by resolving calls, and both are
answered again in the same way.  The one exception is a call that no function takes and that has
been planned instead: where a function is remembered meanwhile under the key of the plan, the
call is answered with that function from then on.  As long as such functions return what the
plans return (`Program.PlansHold`), an expression has the same type in every later state, and
finding it there leaves the state as it is (`typeOf_recurrent`).
-/

namespace Accord

open Query List TypeExpr Program

variable {after : Program} {key : String} {type : TypeExpr}

/-! ## Questions about types -/

section Types

theorem Again.pure {α : Type} {good : α → Prop} {a : α} (h : good a) :
    Again good (pure a : TypeQuery α) :=
  Holder.Replays.pure ⟨rfl, h⟩

theorem Again.bind {α β : Type} {good : α → Prop} {next : β → Prop} {first : TypeQuery α}
    {rest : α → TypeQuery β} (hfirst : Again good first)
    (hrest : ∀ a, good a → Again next (rest a)) : Again next (first >>= rest) := by
  refine Holder.Replays.bind hfirst fun a b hab => ?_
  obtain ⟨rfl, ha⟩ := hab
  exact hrest a ha

theorem retrieve_replays {ref : TypeRef} (hplain : ref.plain) :
    Again TypeDef.PlainBody (retrieve ref) :=
  (locate_replays hplain).bind fun _ hbody => .pure hbody

/-- Following aliases again may take more fuel. -/
theorem unalias_repeats {fuel more : Nat} (hle : fuel ≤ more) (hplain : type.plain) :
    tables.Replays (fun bare other => bare = other ∧ bare.plain) (unalias fuel type)
      (unalias more type) :=
  unalias_parallel replaying.toTypeParallel hle (⟨rfl, hplain⟩ : SamePlain type type)

theorem unalias_replays (fuel : Nat) (hplain : type.plain) :
    Again (fun bare => bare.plain) (unalias fuel type) :=
  unalias_repeats (Nat.le_refl fuel) hplain

theorem dereference_replays (fuel : Nat) (hplain : type.plain) :
    Again (fun bare => bare.plain) (dereference fuel type) :=
  dereference_parallel replaying.toTypeParallel replaying.shape (Nat.le_refl fuel)
    (⟨rfl, hplain⟩ : SamePlain type type)

theorem verify_replays (hplain : type.plain) : Again (fun _ => True) (verify type) :=
  (verify_parallel replaying.toTypeParallel replaying.shape type
    (⟨rfl, hplain⟩ : SamePlain type type)).mono fun _ _ _ => ⟨rfl, trivial⟩

theorem assignable_replays (fuel : Nat) {source dest : TypeExpr} (hsource : source.plain)
    (hdest : dest.plain) : Again (fun _ => True) (assignable fuel .lenient source dest) := by
  have hempty : SameInference SamePlain {} {} := ⟨.nil, rfl⟩
  have hchecked := replaying.checks_accepts (Nat.le_refl fuel) .lenient
    (⟨rfl, hsource⟩ : SamePlain source source) (⟨rfl, hdest⟩ : SamePlain dest dest)
  exact Holder.Replays.bind (replaying.run hempty hchecked) fun _ _ hsame =>
    Holder.Replays.pure ⟨hsame.1, trivial⟩

end Types

/-! ## Questions about programs -/

/-- The names in the program and in what it remembers are plain, also in what plans return. -/
structure Program.Plain (program : Program) : Prop extends program.Spelled where
  plans : ∀ entry ∈ program.memo.plans, ∀ type ∈ entry.2.returnType, type.plain = true

/-- A program that is built from a project with plain names. -/
theorem plain_of_build {fuel : Nat} {project : Project} {program : Program}
    (hbuild : build fuel project = .ok program) (hplain : project.Plain) :
    program.Plain := by
  obtain ⟨hspelled, hmemo⟩ := spelled_of_build hbuild hplain
  exact ⟨hspelled, by simp [hmemo]⟩

/-- A call that meant no function at the start and has a plan has not been given a function that
returns something else. -/
def Program.PlansHold (start later : Program) : Prop :=
  ∀ key plan function, later.memo.plans.lookup key = some plan →
    start.memo.calls.lookup key = none → later.memo.calls.lookup key = some function →
    function.returnType = plan.returnType

section PlansHold

variable {start middle later : Program}

theorem Program.PlansHold.from_later (h : start.PlansHold later) (hbefore : start.Before middle) :
    middle.PlansHold later := by
  intro key plan function hplan hfree hfunction
  refine h key plan function hplan ?_ hfunction
  cases hlookup : start.memo.calls.lookup key with
  | none => rfl
  | some known =>
    rw [hbefore.calls key known hlookup] at hfree
    cases hfree

/-- Plans hold if nothing but plans is remembered under their keys. -/
theorem Program.plansHold_of_apart (start : Program)
    (h : ∀ entry ∈ later.memo.plans, later.memo.calls.lookup entry.1 = none) :
    start.PlansHold later := by
  intro key plan function hplan _ hfunction
  rw [h _ (mem_of_lookup hplan)] at hfunction
  cases hfunction

/-- Plans hold as long as no call is answered for the first time. -/
theorem Program.plansHold_of_calls (h : later.memo.calls = start.memo.calls) :
    start.PlansHold later := by
  intro key plan function _ hfree hfunction
  rw [h, hfree] at hfunction
  cases hfunction

end PlansHold

/-- An answer that every later state gives again, if plans hold, and that leaves it as it is. -/
structure Recurs {α : Type} (query : ProgramQuery α) (start : Program) (a : α)
    (after : Program) : Prop where
  plain : after.Plain
  before : start.Before after
  again : ∀ later : Program, later.Plain → after.Before later → start.PlansHold later →
    query later = .ok a later

/-- What the query answers is good and is answered again. -/
def Recurrent {α : Type} (good : α → Prop) (query : ProgramQuery α) : Prop :=
  ∀ start : Program, start.Plain →
    Ends (fun a after => Recurs query start a after ∧ good a) (fun _ _ => True) (query start)

namespace Recurrent

variable {α β : Type} {good : α → Prop}

theorem pure {a : α} (h : good a) : Recurrent good (pure a : ProgramQuery α) :=
  fun _ hstart => .ok ⟨⟨hstart, .refl _, fun _ _ _ _ => rfl⟩, h⟩

theorem throw (cause : Diagnostic) : Recurrent good (throw cause : ProgramQuery α) :=
  fun _ _ => .error trivial

theorem bind {next : β → Prop} {first : ProgramQuery α} {rest : α → ProgramQuery β}
    (hfirst : Recurrent good first) (hrest : ∀ a, good a → Recurrent next (rest a)) :
    Recurrent next (first >>= rest) := by
  intro start hstart
  refine (hfirst start hstart).bind fun a middle hmiddle => ?_
  obtain ⟨hmiddle, ha⟩ := hmiddle
  refine (hrest a ha middle hmiddle.plain).mono (fun b after hafter => ?_) fun _ _ h => h
  obtain ⟨hafter, hb⟩ := hafter
  refine ⟨⟨hafter.plain, hmiddle.before.trans hafter.before, fun later hlater hbefore hhold => ?_⟩,
    hb⟩
  rw [bind_of_ok (hmiddle.again later hlater (hafter.before.trans hbefore) hhold)]
  exact hafter.again later hlater hbefore (hhold.from_later hmiddle.before)

/-- A question about types that is answered again. -/
theorem lift {query : TypeQuery α} (h : Again good query) :
    Recurrent good (liftM query : ProgramQuery α) := by
  intro start hstart
  refine (h.lift hstart.toSpelled).mono (fun a after hafter => ?_) fun _ _ _ => trivial
  obtain ⟨types, rfl, htypes, hbefore, ha, hrun⟩ := hafter
  refine ⟨⟨⟨hstart.withTypes htypes, hstart.plans⟩, ⟨hbefore, rfl, .refl _, .refl _, .refl _⟩,
    fun later hlater hlast _ => ?_⟩, ha⟩
  exact liftProgram_of_ok (h.later htypes hlater.types hlast.types hrun)

theorem ok {query : ProgramQuery α} (h : Recurrent good query) {start : Program} {a : α}
    (hstart : start.Plain) (hrun : query start = .ok a after) :
    Recurs query start a after ∧ good a := by
  exact (h start hstart).of_run hrun

end Recurrent

/-! ## Calls -/

/-- What plans return keeps while calls are resolved. -/
theorem Program.plans_lasting (plans : List (String × PlannedCall)) :
    Lasting fun program => program.memo.plans = plans where
  types _ _ h _ := h
  instances _ _ _ h _ := h
  calls _ _ _ h _ := h

section Calls

variable {fuel : Nat} {call : Call} {arguments : List TypeExpr} {program : Program}
  (hgenerics : ∀ type ∈ call.generics, type.plain = true)
  (harguments : ∀ type ∈ arguments, type.plain = true)

theorem planCall_of_known {types : TypeTable}
    (hkey : callKey call arguments program.types = .ok key types) {planned : PlannedCall}
    (hknown : program.memo.plans.lookup key = some planned) :
    planCall fuel call arguments program = .ok planned { program with types } := by
  rw [planCall, bind_of_ok (liftProgram_of_ok hkey), get_bind, hknown]
  rfl

/-- The plan of a call, as it is remembered. -/
structure Remembered (call : Call) (arguments : List TypeExpr) (start : Program)
    (planned : PlannedCall) (after : Program) : Prop where
  plain : after.Plain
  before : start.Before after
  returns : ∀ type ∈ planned.returnType, type.plain = true
  plan : ∃ key, callKey call arguments after.types = .ok key after.types ∧
    after.memo.plans.lookup key = some planned

include hgenerics harguments

theorem makePlan_remembers (hprogram : program.Plain)
    (hkey : callKey call arguments program.types = .ok key program.types)
    (hunknown : program.memo.plans.lookup key = none) :
    Ends (Remembered call arguments program) (fun _ _ => True)
      (makePlan fuel call arguments key program) := by
  have hkeys := callKey_replays hgenerics harguments
  have hplan : Ends _ _ (planOf fuel call arguments program) :=
    planOf_ends hgenerics harguments hprogram.toSpelled
  have hkept := hplan.keeping
    (planOf_keeps (plans_lasting program.memo.plans) fuel call arguments) rfl
  refine (hkept.mono (fun _ _ h => h) fun _ _ _ => trivial).bind fun plan planned hplanned => ?_
  obtain ⟨hplans, hplanned⟩ := hplanned
  cases hmerged : mergeReturns call plan planned.types with
  | error cause later =>
    rw [bind_of_error (liftProgram_of_error hmerged)]
    exact .error trivial
  | ok returned later =>
    obtain ⟨hlater, hbefore, _⟩ :=
      (mergeReturns_ends call hplanned.returns hplanned.spelled.types).of_run hmerged
    have hreturned := ((mergeReturns_guards
      (fun {type} _ => (canonicalName_unknown type).relax fun _ _ => trivial) plainAll_iff.2
      (fun _ => trivial) call hplanned.returns _ trivial).of_run hmerged).2
    rw [bind_of_ok (liftProgram_of_ok hmerged)]
    have hkey' := hkeys.later hprogram.types hlater (hplanned.before.types.trans hbefore) hkey
    refine .ok ⟨⟨⟨hlater, hplanned.spelled.functions, hplanned.spelled.calls,
        hplanned.spelled.instances⟩, ?_⟩, ?_, hreturned, key, hkey', lookup_cons_self⟩
    · refine forall_mem_cons.2 ⟨hreturned, ?_⟩
      rw [hplans]
      exact hprogram.plans
    · have hfree : planned.memo.plans.lookup key = none := by rw [hplans, hunknown]
      have hsame := hplanned.before
      exact ⟨hsame.types.trans hbefore, hsame.functions, hsame.calls, hsame.instances,
        hsame.plans.cons _ hfree⟩

theorem planCall_remembers (hprogram : program.Plain) :
    Ends (Remembered call arguments program) (fun _ _ => True)
      (planCall fuel call arguments program) := by
  have hkeys := callKey_replays hgenerics harguments
  cases hkey : callKey call arguments program.types with
  | error cause types =>
    rw [planCall, bind_of_error (liftProgram_of_error hkey)]
    exact .error trivial
  | ok key types =>
    have hrepeats := hkeys.ok hprogram.types hkey
    obtain ⟨_, hagain, rfl, _⟩ := hrepeats.later hrepeats.good (.refl _)
    have hbefore : program.Before { program with types } :=
      ⟨hrepeats.before, rfl, .refl _, .refl _, .refl _⟩
    have hkeyed : Plain { program with types } := ⟨hprogram.withTypes hrepeats.good, hprogram.plans⟩
    cases hlookup : program.memo.plans.lookup key with
    | some planned =>
      rw [planCall_of_known hkey hlookup]
      exact .ok ⟨hkeyed, hbefore, hprogram.plans _ (mem_of_lookup hlookup), key, hagain, hlookup⟩
    | none =>
      rw [planCall_of_unknown hkey hlookup]
      refine (makePlan_remembers hgenerics harguments hkeyed hagain hlookup).mono
        (fun planned after h => ?_) fun _ _ h => h
      exact ⟨h.plain, hbefore.trans h.before, h.returns, h.plan⟩

omit hgenerics harguments in
/-- A resolution that finds nothing has kept nothing. -/
theorem kept_of_settle_none {kept : List (FunctionDef × Substitution)}
    (h : settle key call arguments kept program = .ok none after) :
    kept = [] ∧ program = after := by
  match kept with
  | [] => exact ⟨rfl, (pure_eq_ok.1 h).2⟩
  | [(function, rules)] =>
    rw [settle_single] at h
    obtain ⟨found, chosen, _, h⟩ := bind_eq_ok.1 h
    obtain ⟨_, remembered, _, h⟩ := bind_eq_ok.1 h
    cases (pure_eq_ok.1 h).1
  | _ :: _ :: _ => exact absurd h throw_ne_ok

/-- A call that means no function means none in a later state that knows none for its key. -/
theorem resolve_none_lasts (hprogram : program.Spelled)
    (hrun : resolve fuel call arguments program = .ok none after) :
    ∃ key, callKey call arguments after.types = .ok key after.types ∧
      program.memo.calls.lookup key = none ∧
      ∀ later : Program, later.Spelled → after.Before later →
        later.memo.calls.lookup key = none →
          resolve fuel call arguments later = .ok none later := by
  have hkeys := callKey_replays hgenerics harguments
  have hlength := length_of_resolve hrun
  obtain ⟨hafter, hlasts⟩ := (resolve_ends hgenerics harguments fuel hprogram).of_run hrun
  have hbefore := before_of_ok (resolve_keeps (before_lasting program) fuel call _) hrun
  -- Asked in the state that it leaves behind, the call is named and its candidates scanned.
  have hnone : resolve fuel call arguments after = .ok none after :=
    hlasts after.types hafter.types (.refl _)
  cases hkey : callKey call arguments after.types with
  | error cause types =>
    rw [resolve_of_unnamed hlength hkey] at hnone
    cases hnone
  | ok key types =>
    have hrepeats := hkeys.ok hafter.types hkey
    cases hlookup : after.memo.calls.lookup key with
    | some function =>
      rw [resolve_of_known hlength hkey hlookup] at hnone
      cases hnone
    | none =>
      have hscans := scanCandidates_replays hgenerics harguments fuel hafter
      cases hscan : scanCandidates fuel call arguments (after.candidates call) types with
      | error cause scanned =>
        rw [resolve_of_unscanned hlength hkey hlookup hscan] at hnone
        cases hnone
      | ok scan scanned =>
        rw [resolve_of_scanned hlength hkey hlookup hscan] at hnone
        obtain ⟨hnil, hsame⟩ := kept_of_settle_none hnone
        have hagain := hscans.ok hrepeats.good hscan
        have hscanned : scanned = after.types := congrArg Program.types hsame
        subst hscanned
        obtain ⟨_, hkey', rfl, _⟩ := hrepeats.later hafter.types hagain.before
        have hfree : program.memo.calls.lookup key = none := by
          cases hknown : program.memo.calls.lookup key with
          | none => rfl
          | some function =>
            rw [hbefore.calls key function hknown] at hlookup
            cases hlookup
        refine ⟨key, hkey.symm.trans hkey', hfree, fun later hlater hlast hunknown => ?_⟩
        obtain ⟨scan', hscan', hkept⟩ := hagain.later hlater.types hlast.types
        have hall := hkept.kept
        rw [hnil, forall₂_nil_left_iff] at hall
        have hcandidates : later.candidates call = after.candidates call :=
          candidates_congr call hlast.types.project hlast.functions
        rw [← hcandidates] at hscan'
        rw [resolve_of_scanned hlength (hkeys.later hafter.types hlater.types hlast.types hkey')
          hunknown hscan', hall]
        rfl

theorem callOutcome_recurrent :
    Recurrent (CallOutcome.Within (fun type => type.plain) fun _ => True)
      (callOutcome fuel call arguments) := by
  intro start hstart
  unfold callOutcome
  by_cases hgeneric : anyGeneric arguments
  · rw [if_pos hgeneric]
    exact Recurrent.pure (fun _ _ => trivial) start hstart
  · rw [if_neg hgeneric]
    cases hrun : resolve fuel call arguments start with
    | error cause after =>
      rw [bind_of_error hrun]
      exact .error trivial
    | ok found after =>
      obtain ⟨hspelled, hlasts⟩ :=
        (resolve_ends hgenerics harguments fuel hstart.toSpelled).of_run hrun
      have hbefore := before_of_ok (resolve_keeps (before_lasting start) fuel call arguments) hrun
      have hplans := resolve_keeps (plans_lasting start.memo.plans) fuel call arguments start rfl
      rw [after_of_ok hrun] at hplans
      have hafter : after.Plain := ⟨hspelled, hplans ▸ hstart.plans⟩
      rw [bind_of_ok hrun]
      cases found with
      | some function =>
        refine .ok ⟨⟨hafter, hbefore, fun later hlater hlast _ => ?_⟩,
          CallOutcome.within_ofReturn hlasts.1⟩
        rw [bind_of_ok (hlasts.2 later hlater.toSpelled hlast)]
        rfl
      | none =>
        obtain ⟨key, hkey, hfree, hnone⟩ :=
          resolve_none_lasts hgenerics harguments hstart.toSpelled hrun
        refine (planCall_remembers hgenerics harguments hafter).bind fun planned last hlast => ?_
        refine .ok ⟨⟨hlast.plain, hbefore.trans hlast.before,
            fun later hlater hbefore' hhold => ?_⟩,
          CallOutcome.within_ofReturn hlast.returns⟩
        have hkeys := callKey_replays hgenerics harguments
        have hkey' := hkeys.later hspelled.types hlast.plain.types hlast.before.types hkey
        obtain ⟨_, hlastKey, hplan⟩ := hlast.plan
        rw [hkey'] at hlastKey
        cases hlastKey
        have hlaterKey := hkeys.later hlast.plain.types hlater.types hbefore'.types hkey'
        have hplan' := hbefore'.plans key planned hplan
        -- The call is answered by the plan, or by a function that returns the same.
        cases hlookup : later.memo.calls.lookup key with
        | none =>
          have hunknown := hnone later hlater.toSpelled (hlast.before.trans hbefore') hlookup
          rw [bind_of_ok hunknown]
          simp only
          rw [bind_of_ok (planCall_of_known hlaterKey hplan')]
          rfl
        | some function =>
          have hlength := length_of_resolve hrun
          rw [bind_of_ok (resolve_of_known hlength hlaterKey hlookup)]
          simp only
          rw [hhold key planned function hplan' hfree hlookup]
          rfl

end Calls

/-! ## Expressions -/

/-- The types written in the expression have plain names. -/
def Expr.Plain (expr : Expr) : Prop :=
  ∀ type ∈ expr.types, type.plain = true

instance (expr : Expr) : Decidable expr.Plain :=
  inferInstanceAs (Decidable (∀ type ∈ expr.types, type.plain = true))

/-- The types of visible objects have plain names. -/
def Scope.Plain (scope : Scope) : Prop :=
  ∀ name object, scope.lookup name = some object → object.type.plain = true

/-- A scope with the given objects. -/
def scopeOf (objects : List (String × TypeExpr)) : Scope :=
  { frames := [{ outer := none
                 objects := objects.map fun object => ⟨0, object.1, object.2, false, true⟩ }] }

theorem plain_scopeOf {objects : List (String × TypeExpr)}
    (h : ∀ object ∈ objects, object.2.plain) : (scopeOf objects).Plain := by
  intro name found hfound
  have hfind : (objects.map fun object =>
      (⟨0, object.1, object.2, false, true⟩ : LocalObject)).find? (·.name == name) =
        some found := by
    simpa [scopeOf, Scope.lookup, Scope.visibleFrom, Frame.find?] using hfound
  obtain ⟨object, hobject, rfl⟩ := mem_map.1 (mem_of_find?_eq_some hfind)
  exact h object hobject

theorem settled_congr (fuel : Nat) {query query' : ProgramQuery TypeExpr}
    {program program' : Program} (h : query program = query' program') :
    settled fuel query program = settled fuel query' program' := by
  cases hrun : query program with
  | ok type after => rw [settled, settled, bind_of_ok hrun, bind_of_ok (h.symm.trans hrun)]
  | error cause after =>
    rw [settled, settled, bind_of_error hrun, bind_of_error (h.symm.trans hrun)]

/-- Questions about plainly named types and about programs are answered again. -/
def recurring : ProgramLogic where
  ground type := type.plain = true
  mild _ := True
  asks good query := Again good query
  holds good query := Recurrent good query
  inherited := inherited_plain
  literal hname :=
    (by decide : ∀ name ∈ literalTypes, (TypeExpr.primitive name).plain = true) _ hname
  pointer := id
  array := id
  ordinary _ := trivial
  askPure := Again.pure
  askThrow h _ := Holder.Replays.throw h _
  askBind := Again.bind
  pure := Recurrent.pure
  throw _ := Recurrent.throw _
  bind := Recurrent.bind
  lift := Recurrent.lift
  name h := (canonicalName_replays _ h).mono fun _ _ hname => ⟨hname.1, trivial⟩
  retrieve := retrieve_replays
  verify := verify_replays
  unalias _ _ h := unalias_replays _ h
  dereference _ _ h := dereference_replays _ h
  assignable := assignable_replays
  callOutcome _ _ _ hgenerics harguments _ := callOutcome_recurrent hgenerics harguments

/-- The type of an expression is found again in every later state, as long as plans hold. -/
theorem typeOf_recurrent (fuel : Nat) {scope : Scope} (hscope : scope.Plain) {expr : Expr}
    (h : expr.Plain) : Recurrent (fun type => type.plain) (typeOf fuel scope expr) :=
  recurring.holds_typeOf fuel hscope h

end Accord
