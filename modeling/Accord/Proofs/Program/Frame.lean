import Accord.Proofs.Call.Resolve

/-!
# What a question about a program leaves alone

Answers are only ever added, under keys that are free: `Program.Before` says that one
state of a program has everything that an earlier one has.  Resolving a call and
planning one lead to later states, whether they succeed or not (`resolve_keeps`,
`planCall_keeps`).

Between the look-up of a key and the entry under it other answers are entered, but none
under that key.  The invariant of a resolution therefore has to be kept by answers of the
kinds entered meanwhile: those are the fields of `Program.Stable` and `Program.Lasting`.
What answers of every kind keep (`Program.Enduring`) survives every question, and having all
that an earlier state has is such a property.
-/

namespace Accord

open Query

variable {key : String} {α : Type} {program : Program} {inv : Program → Prop}
  {query : TypeQuery α}

/-! ## Later states -/

/-- What is found in the first list is found in the second. -/
def Retains {α : Type} (before after : List (String × α)) : Prop :=
  ∀ key value, before.lookup key = some value → after.lookup key = some value

section Retains

variable {first second third : List (String × α)}

theorem Retains.refl (entries : List (String × α)) : Retains entries entries :=
  fun _ _ h => h

theorem Retains.trans (h : Retains first second) (h' : Retains second third) :
    Retains first third :=
  fun key value hfound => h' key value (h key value hfound)

/-- An entry under a free key hides nothing. -/
theorem Retains.cons (h : Retains first second) (value : α) (hfree : second.lookup key = none) :
    Retains first ((key, value) :: second) := by
  intro other found hfound
  have hsecond := h other found hfound
  have hne : other ≠ key := by
    rintro rfl
    rw [hfree] at hsecond
    cases hsecond
  rw [List.lookup_cons, beq_false_of_ne hne]
  exact hsecond

end Retains

/-- The later table has the project, the definitions and the instances of the earlier. -/
structure TypeTable.Before (earlier later : TypeTable) : Prop extends earlier.Over later where
  instances : Retains earlier.instances later.instances

theorem TypeTable.Before.refl (table : TypeTable) : table.Before table :=
  ⟨.refl table, .refl _⟩

theorem TypeTable.Before.trans {first second third : TypeTable} (h : first.Before second)
    (h' : second.Before third) : first.Before third :=
  ⟨⟨h'.project.trans h.project, h'.stored.trans h.stored⟩, h.instances.trans h'.instances⟩

/-- What is found under a key is found there later. -/
theorem TypeTable.Before.find? {earlier later : TypeTable} (h : earlier.Before later)
    {definition : TypeDef} (hfound : earlier.find? key = some definition) :
    later.find? key = some definition := by
  rw [TypeTable.find?, Option.or_eq_some_iff] at hfound ⊢
  rw [h.stored]
  exact hfound.imp_right fun hinstance => ⟨hinstance.1, h.instances key definition hinstance.2⟩

instance (earlier : TypeTable) : TypeTable.Lasting earlier.Before := by
  refine .of_withInstance fun table key made h hfree => ?_
  rw [TypeTable.find?, Option.or_eq_none_iff] at hfree
  exact ⟨⟨h.project, h.stored⟩, h.instances.cons made hfree.2⟩

/-- The later program has every definition, instance and answer of the earlier. -/
structure Program.Before (earlier later : Program) : Prop where
  types : earlier.types.Before later.types
  functions : later.functions = earlier.functions
  calls : Retains earlier.memo.calls later.memo.calls
  instances : Retains earlier.memo.instances later.memo.instances
  plans : Retains earlier.memo.plans later.memo.plans

theorem Program.Before.refl (program : Program) : program.Before program :=
  ⟨.refl _, rfl, .refl _, .refl _, .refl _⟩

theorem Program.Before.trans {first second third : Program} (h : first.Before second)
    (h' : second.Before third) : first.Before third where
  types := h.types.trans h'.types
  functions := h'.functions.trans h.functions
  calls := h.calls.trans h'.calls
  instances := h.instances.trans h'.instances
  plans := h.plans.trans h'.plans

/-- A query that keeps being later leads to a later state. -/
theorem before_of_ok {query : ProgramQuery α} {later : Program} {answer : α}
    (hquery : Keeps program.Before query) (h : query program = .ok answer later) :
    program.Before later := by
  have hafter := hquery program (.refl program)
  rwa [after_of_ok h] at hafter

/-! ## What survives a resolution -/

/-- A property of programs that survives questions about types and new instances. -/
structure Program.Stable (inv : Program → Prop) : Prop where
  types : ∀ program types, inv program → program.types.Before types → inv { program with types }
  instances : ∀ program key made, inv program → program.memo.instances.lookup key = none →
    inv { program with memo :=
      { program.memo with instances := (key, made) :: program.memo.instances } }

/-- It also survives the answer to a call. -/
structure Program.Lasting (inv : Program → Prop) : Prop extends Program.Stable inv where
  calls : ∀ program key found, inv program → program.memo.calls.lookup key = none →
    inv { program with memo := { program.memo with calls := (key, found) :: program.memo.calls } }

/-- It survives the plan of a call as well. -/
class Program.Enduring (inv : Program → Prop) : Prop extends Program.Lasting inv where
  plans : ∀ program key plan, inv program → program.memo.plans.lookup key = none →
    inv { program with memo := { program.memo with plans := (key, plan) :: program.memo.plans } }

theorem Program.before_lasting (earlier : Program) : Program.Lasting earlier.Before where
  types _ _ h htypes := ⟨h.types.trans htypes, h.functions, h.calls, h.instances, h.plans⟩
  instances _ _ made h hfree :=
    ⟨h.types, h.functions, h.calls, h.instances.cons made hfree, h.plans⟩
  calls _ _ found h hfree :=
    ⟨h.types, h.functions, h.calls.cons found hfree, h.instances, h.plans⟩

instance (earlier : Program) : Program.Enduring earlier.Before where
  toLasting := Program.before_lasting earlier
  plans _ _ plan h hfree :=
    ⟨h.types, h.functions, h.calls, h.instances, h.plans.cons plan hfree⟩

/-- Memories of the other kinds may be asked for at the same time. -/
theorem Program.Stable.with_call (h : Program.Stable inv) (key : String) :
    Program.Stable fun program => inv program ∧ program.memo.calls.lookup key = none where
  types program types hinv htypes := ⟨h.types program types hinv.1 htypes, hinv.2⟩
  instances program key made hinv hfree := ⟨h.instances program key made hinv.1 hfree, hinv.2⟩

theorem Program.Lasting.with_plan (h : Program.Lasting inv) (key : String) :
    Program.Lasting fun program => inv program ∧ program.memo.plans.lookup key = none where
  types program types hinv htypes := ⟨h.types program types hinv.1 htypes, hinv.2⟩
  instances program key made hinv hfree := ⟨h.instances program key made hinv.1 hfree, hinv.2⟩
  calls program key found hinv hfree := ⟨h.calls program key found hinv.1 hfree, hinv.2⟩

section Stable

variable (hinv : Program.Stable inv)

include hinv

theorem liftProgram_stable {good : α → Prop}
    (h : ∀ table : TypeTable, Guards table.Before good (fun _ => True) query) :
    Guards inv good (fun _ => True) (liftM query : ProgramQuery α) := by
  refine fun program hprogram => .on ((h program.types program.types (.refl _)).mono
    (fun _ types ha => ⟨?_, ha.2⟩) fun _ types he => ⟨?_, trivial⟩)
  · exact hinv.types program types hprogram ha.1
  · exact hinv.types program types hprogram he.1

theorem liftProgram_keeps (h : ∀ table : TypeTable, Keeps table.Before query) :
    Keeps inv (liftM query : ProgramQuery α) :=
  (liftProgram_stable hinv fun table => Guards.of_keeps (h table)).keeps

theorem instantiate_keeps (function : FunctionDef) (rules : Substitution) :
    Keeps inv (instantiate function rules) := by
  rw [instantiate_eq]
  refine (liftProgram_keeps hinv fun _ => boundNames_keeps function rules _).bind fun names => ?_
  refine Keeps.get_bind fun program hprogram => ?_
  cases hlookup : program.memo.instances.lookup (function.instanceKey names) with
  | some known => exact hprogram
  | none => exact hinv.instances program _ _ hprogram hlookup

theorem choose_keeps (function : FunctionDef) (rules : Substitution) :
    Keeps inv (choose function rules) :=
  Keeps.ite (instantiate_keeps hinv function rules) (Keeps.pure _)

end Stable

section Lasting

variable (hinv : Program.Lasting inv)

include hinv

/-- What follows the scan keeps the property, if the key is free. -/
theorem settle_keeps (key : String) (call : Call) (arguments : List TypeExpr)
    (kept : List (FunctionDef × Substitution)) (hprogram : inv program)
    (hfree : program.memo.calls.lookup key = none) :
    inv ((settle key call arguments kept).after program) := by
  match kept with
  | [] => exact hprogram
  | [(function, rules)] =>
    rw [settle_single]
    refine (choose_keeps (hinv.with_call key) function rules).after_bind (fun _ h => h.1)
      (fun found chosen hchosen => ?_) ⟨hprogram, hfree⟩
    exact hinv.calls chosen key found hchosen.1 hchosen.2
  | _ :: _ :: _ => exact hprogram

theorem resolveAmong_keeps (fuel : Nat) (call : Call) (arguments : List TypeExpr)
    (candidates : List FunctionDef) :
    Keeps inv (resolveAmong fuel call arguments candidates) := by
  refine (liftProgram_keeps hinv.toStable fun _ => callKey_keeps call arguments).bind fun key => ?_
  refine Keeps.get_bind fun program hprogram => ?_
  cases hlookup : program.memo.calls.lookup key with
  | some known => exact hprogram
  | none =>
    -- The scan enters no answers, so the key is still free when it ends.
    have hscan := liftProgram_keeps (hinv.with_call key)
      fun _ => scanCandidates_keeps fuel call arguments candidates
    exact hscan.after_bind (fun _ h => h.1)
      (fun scan scanned h => settle_keeps hinv key call arguments scan.kept h.1 h.2)
      ⟨hprogram, hlookup⟩

theorem resolve_keeps (fuel : Nat) (call : Call) (arguments : List TypeExpr) :
    Keeps inv (resolve fuel call arguments) := by
  intro program hprogram
  by_cases hlength : arguments.length = call.arguments.length
  · rw [after, resolve_eq_resolveAmong hlength]
    exact resolveAmong_keeps hinv fuel call arguments _ program hprogram
  · rw [after, resolve_of_length_ne hlength]
    exact hprogram

/-! ## Plans -/

theorem splitFrom_keeps (fuel : Nat) (call : Call) (whole : Bool)
    (passed arguments : List TypeExpr) :
    Keeps inv (splitFrom fuel call whole passed arguments) := by
  induction arguments generalizing whole passed with
  | nil => exact Keeps.ite (Keeps.throw _) (Keeps.throw _)
  | cons argument rest ih =>
    rw [splitFrom]
    refine (liftProgram_keeps hinv.toStable fun _ => alternatives_keeps fuel argument).bind
      fun covered => Keeps.ite (ih _ _) ?_
    refine (Keeps.mapM (fun alternative => ?_) covered).bind fun nested => Keeps.pure _
    refine (resolve_keeps hinv fuel call _).bind fun found => ?_
    cases found with
    | some function => exact Keeps.pure _
    | none => exact ih _ _

theorem planOf_keeps (fuel : Nat) (call : Call) (arguments : List TypeExpr) :
    Keeps inv (planOf fuel call arguments) := by
  refine (resolve_keeps hinv fuel call arguments).bind fun found => ?_
  cases found with
  | some function => exact Keeps.pure _
  | none => exact splitFrom_keeps hinv fuel call true [] arguments

end Lasting

section Merging

variable {inv : TypeTable → Prop} [TypeTable.Lasting inv]

theorem mergeTypes_keeps (types : List TypeExpr) : Keeps inv (mergeTypes types) := by
  refine Keeps.bind (Keeps.foldlM (fun gathered type => ?_) _ _) fun gathered => ?_
  · exact (canonicalName_keeps type).bind fun _ => Keeps.pure _
  · split <;> exact Keeps.pure _

theorem mergeReturns_keeps (call : Call) (plan : Plan) : Keeps inv (mergeReturns call plan) := by
  refine Keeps.ite (Keeps.pure _) (Keeps.ite (Keeps.throw _) ?_)
  exact (mergeTypes_keeps _).bind fun _ => Keeps.pure _

end Merging

section Enduring

variable [hinv : Program.Enduring inv]

theorem liftProgram_endures (h : ∀ table : TypeTable, Keeps table.Before query) :
    Keeps inv (liftM query : ProgramQuery α) :=
  liftProgram_keeps hinv.toStable h

theorem planCall_keeps (fuel : Nat) (call : Call) (arguments : List TypeExpr) :
    Keeps inv (planCall fuel call arguments) := by
  refine (liftProgram_endures fun _ => callKey_keeps call arguments).bind fun key => ?_
  refine Keeps.get_bind fun program hprogram => ?_
  cases hlookup : program.memo.plans.lookup key with
  | some known => exact hprogram
  | none =>
    -- Neither the plan nor the merging of types enters a plan.
    have hfree := hinv.with_plan key
    refine (planOf_keeps hfree fuel call arguments).after_bind (fun _ h => h.1)
      (fun plan planned hplanned => ?_) ⟨hprogram, hlookup⟩
    refine (liftProgram_keeps hfree.toStable fun _ => mergeReturns_keeps call plan).after_bind
      (fun _ h => h.1) (fun returnType merged hmerged => ?_) hplanned
    exact hinv.plans merged key _ hmerged.1 hmerged.2

theorem callOutcome_keeps (fuel : Nat) (call : Call) (arguments : List TypeExpr) :
    Keeps inv (callOutcome fuel call arguments) := by
  refine Keeps.ite (Keeps.pure _) ?_
  refine (resolve_keeps hinv.toLasting fuel call arguments).bind fun found => ?_
  cases found with
  | some function => exact Keeps.pure _
  | none => exact (planCall_keeps fuel call arguments).bind fun _ => Keeps.pure _

end Enduring

theorem liftProgram_before {earlier : Program} (h : ∀ table : TypeTable, Keeps table.Before query) :
    Keeps earlier.Before (liftM query : ProgramQuery α) :=
  liftProgram_endures h

end Accord
