import Accord.Proofs.Call.Plans
import Accord.Proofs.Call.Provenance

/-!
# Calls within bounds

A call on ground types leads to a function that mentions ground types only, or to a plan that
returns a ground type.  Candidates may be generic: of these it is asked that their instances
mention ground types only, once every parameter is bound to a ground type
(`FunctionDef.Admissible`).  Arguments that take part in a call bind every parameter that they
have to (`takes_guards`), so no instance is made with a parameter left over.

`Program.Within` is the invariant of the program: answers that are remembered mention ground
types only.
-/

namespace Accord

open Query List TypeExpr Program FunctionDef

variable {function candidate : FunctionDef} {rules : Substitution} {call : Call}
  {arguments : List TypeExpr}

/-- A function that may be called: its instances mention ground types only, and so does the
function itself if it is not generic. -/
structure FunctionDef.Admissible (fair ground : TypeExpr → Prop) (function : FunctionDef) :
    Prop where
  parameters (rules : Substitution) : (∀ entry ∈ rules, ground entry.2) →
    ∀ type ∈ function.parameterTypes, fair (type.substitute rules)
  concrete : function.isGeneric = false → function.All ground
  made {rules : Substitution} : (∀ entry ∈ rules, ground entry.2) → function.BoundBy rules →
    ∀ name, (function.instantiate rules name).All ground

theorem FunctionDef.Admissible.fair {fair ground : TypeExpr → Prop}
    (h : function.Admissible fair ground) : ∀ type ∈ function.parameterTypes, fair type := by
  intro type hmem
  have hfair := h.parameters [] (by simp) type hmem
  rwa [substitute_nil] at hfair

/-- A substitution under which an admissible function may be instantiated. -/
structure FunctionDef.Fills (ground : TypeExpr → Prop) (function : FunctionDef)
    (rules : Substitution) : Prop where
  types : ∀ entry ∈ rules, ground entry.2
  bound : function.BoundBy rules

variable {inv : TypeTable → Prop} {mild : Diagnostic → Prop} {fair ground : TypeExpr → Prop}

/-! ## Candidates -/

section Candidates

/-- If as many parameters are bound as there are, all are. -/
theorem bound_of_countBound {parameters : List String}
    (h : rules.countBound parameters = parameters.length) :
    ∀ parameter ∈ parameters, (rules.find? parameter).isSome := by
  have hall := length_filter_eq_length_iff.1 h
  simpa using hall

/-- The parameters that the type arguments written at a call bind. -/
def FunctionDef.fixedParameters (candidate : FunctionDef) (call : Call) : List String :=
  if call.generics.isEmpty then [] else candidate.generics

theorem fixedBy_binds (candidate : FunctionDef) (hgenerics : ∀ type ∈ call.generics, ground type)
    (hlength : call.generics.isEmpty = false → call.generics.length = candidate.generics.length) :
    Inference.Binds ground (candidate.fixedParameters call)
      { bindings := candidate.fixedBy call } := by
  unfold fixedParameters fixedBy
  cases hempty : call.generics.isEmpty with
  | true => exact ⟨by simp, by simp⟩
  | false =>
    refine ⟨fun entry hentry => ?_, ?_⟩
    · exact hgenerics _ (of_mem_zip hentry).2
    · exact Substitution.find?_ofLists_isSome (hlength hempty).ge

/-- A candidate takes a call under rules that bind each of its parameters to a ground type. -/
theorem takes_guards (h : Regime inv mild fair ground) (fuel : Nat)
    (hcandidate : candidate.Admissible fair ground)
    (hgenerics : ∀ type ∈ call.generics, ground type)
    (harguments : ∀ type ∈ arguments, ground type)
    (hlength : candidate.parameters.length = arguments.length) :
    Guards inv (fun taken => ∀ rules ∈ taken, candidate.Fills ground rules) mild
      (candidate.takes fuel call arguments) := by
  rw [takes_eq]
  have hsame : (candidate.parameters.length != arguments.length) = false := by simp [hlength]
  rw [hsame, if_neg Bool.false_ne_true]
  split
  · exact .pure nofun
  · rename_i hcount
    have hcount : call.generics.isEmpty = false →
        call.generics.length = candidate.generics.length := by
      intro hempty
      simpa [hempty] using hcount
    have hfixed := fixedBy_binds candidate hgenerics hcount
    have hchecked := acceptsArguments_guards h (candidate.fixedParameters call) fuel
      (hcandidate.parameters _ hfixed.types) harguments
    refine (run_guards hfixed hchecked).bind fun result hresult => .pure ?_
    intro rules hrules
    unfold takesUnder at hrules
    split at hrules
    · cases hrules
    · split at hrules
      · cases hrules
      · rename_i hbound
        cases hrules
        refine ⟨hresult.2.types, ?_⟩
        cases hempty : call.generics.isEmpty with
        | true =>
          refine bound_of_countBound ?_
          simpa [hempty] using hbound
        | false =>
          have hneeded := hresult.2.bound
          rw [fixedParameters, hempty] at hneeded
          exact hneeded

end Candidates

/-! ## Scans -/

section Scans

variable (h : Regime inv mild fair ground)

include h

/-- A candidate for a call with so many arguments. -/
structure FunctionDef.Eligible (fair ground : TypeExpr → Prop) (count : Nat)
    (candidate : FunctionDef) : Prop extends candidate.Admissible fair ground where
  count : candidate.parameters.length = count

/-- What a scan keeps may be instantiated. -/
def Scan.Fills (fair ground : TypeExpr → Prop) (scan : Scan) : Prop :=
  ∀ entry ∈ scan.kept, entry.1.Admissible fair ground ∧ entry.1.Fills ground entry.2

omit h in
theorem Scan.Fills.consider {scan : Scan} (hscan : scan.Fills fair ground)
    (hcandidate : candidate.Admissible fair ground) (measure : Specificity)
    {taken : Option Substitution} (htaken : ∀ rules ∈ taken, candidate.Fills ground rules) :
    (scan.consider candidate measure taken).Fills fair ground := by
  cases taken with
  | none => exact hscan
  | some rules =>
    have hnew := htaken rules rfl
    simp only [Scan.consider]
    split
    · exact hscan
    · exact forall_mem_singleton.2 ⟨hcandidate, hnew⟩
    · exact forall_mem_append.2 ⟨hscan, forall_mem_singleton.2 ⟨hcandidate, hnew⟩⟩

theorem scanCandidates_guards (fuel : Nat) (hgenerics : ∀ type ∈ call.generics, ground type)
    (harguments : ∀ type ∈ arguments, ground type) {candidates : List FunctionDef}
    (hcandidates : ∀ candidate ∈ candidates, candidate.Eligible fair ground arguments.length) :
    Guards inv (Scan.Fills fair ground) mild
      (scanCandidates fuel call arguments candidates) := by
  refine .foldlM (fun candidate hmem scan hscan => ?_) (by simp [Scan.Fills])
  have hcandidate := hcandidates candidate hmem
  rw [Scan.offer_eq]
  refine (specificity_guards h fuel hcandidate.fair).bind fun measure _ => ?_
  refine .ite (.pure hscan) ?_
  refine (takes_guards h fuel hcandidate.toAdmissible hgenerics harguments hcandidate.count).bind
    fun taken htaken => ?_
  exact .pure (hscan.consider hcandidate.toAdmissible measure htaken)

theorem callKey_guards (hgenerics : ∀ type ∈ call.generics, ground type)
    (harguments : ∀ type ∈ arguments, ground type) :
    Guards inv (fun _ => True) mild (callKey call arguments) :=
  (canonicalNames_guards h.ofGround hgenerics).bind fun _ _ =>
    (canonicalNames_guards h.ofGround harguments).bind fun _ _ => .pure trivial

theorem boundNames_guards (hrules : ∀ entry ∈ rules, ground entry.2) {generics : List String}
    (hbound : ∀ generic ∈ generics, (rules.find? generic).isSome) :
    Guards inv (fun _ => True) mild (boundNames function rules generics) := by
  induction generics with
  | nil => exact .pure trivial
  | cons generic rest ih =>
    obtain ⟨hfirst, hrest⟩ := forall_mem_cons.1 hbound
    obtain ⟨type, htype⟩ := Option.isSome_iff_exists.1 hfirst
    have hground : ground type := hrules _ (mem_of_lookup htype)
    unfold boundNames
    rw [htype]
    refine .bind (.pure hground) fun type htype => ?_
    refine (h.ofGround.canonicalName htype).bind fun name _ => ?_
    exact (ih hrest).bind fun _ _ => .pure trivial

end Scans

/-! ## Resolution -/

/-- The functions of a program are admissible, and what it remembers mentions ground types
only. -/
structure Program.Within (inv : TypeTable → Prop) (fair ground : TypeExpr → Prop)
    (program : Program) : Prop where
  types : inv program.types
  functions : ∀ function ∈ program.functions.functions, function.Admissible fair ground
  calls : ∀ entry ∈ program.memo.calls, entry.2.All ground
  instances : ∀ entry ∈ program.memo.instances, entry.2.All ground
  plans : ∀ entry ∈ program.memo.plans, ∀ type ∈ entry.2.returnType, ground type

theorem liftProgram_guards {α : Type} {good : α → Prop} {query : TypeQuery α}
    (h : Guards inv good mild query) :
    Guards (Within inv fair ground) good mild (liftM query : ProgramQuery α) :=
  .on (fun _ hs => hs.types)
    (fun _ _ hs ht => ⟨ht, hs.functions, hs.calls, hs.instances, hs.plans⟩) h

theorem remember_guards {change : Memo → Memo}
    (h : ∀ program : Program, program.Within inv fair ground →
      Within inv fair ground { program with memo := change program.memo }) :
    Guards (Within inv fair ground) (fun _ => True) mild (remember change) :=
  fun program hprogram => .ok ⟨h program hprogram, trivial⟩

section Resolution

variable (h : Regime inv mild fair ground)

include h

theorem instantiate_guards (hfunction : function.Admissible fair ground)
    (hrules : function.Fills ground rules) :
    Guards (Within inv fair ground) (All ground) mild
      (instantiate function rules) := by
  rw [instantiate_eq]
  refine (liftProgram_guards (boundNames_guards h hrules.types hrules.bound)).bind fun names _ => ?_
  refine Guards.get.bind fun program hprogram => ?_
  have hmade := hfunction.made hrules.types hrules.bound (function.instanceName names)
  split
  · rename_i known hknown
    exact .pure (hprogram.instances _ (mem_of_lookup hknown))
  · refine (remember_guards fun program hprogram => ?_).bind fun _ _ => .pure hmade
    exact { hprogram with
      instances := forall_mem_cons.2 ⟨hmade, hprogram.instances⟩ }

theorem settle_guards (key : String) (call : Call) (arguments : List TypeExpr)
    {kept : List (FunctionDef × Substitution)}
    (hkept : ∀ entry ∈ kept, entry.1.Admissible fair ground ∧ entry.1.Fills ground entry.2) :
    Guards (Within inv fair ground) (fun found => ∀ function ∈ found, function.All ground)
      mild (settle key call arguments kept) := by
  match kept with
  | [] => exact .pure nofun
  | [(function, rules)] =>
    obtain ⟨hfunction, hrules⟩ := hkept _ mem_cons_self
    rw [settle_single]
    have hchoose : Guards (Within inv fair ground) (All ground) mild
        (choose function rules) := by
      unfold choose
      cases hgeneric : function.isGeneric with
      | true => exact instantiate_guards h hfunction hrules
      | false => exact .pure (hfunction.concrete hgeneric)
    refine hchoose.bind fun found hfound => ?_
    refine (remember_guards fun program hprogram => ?_).bind fun _ _ => .pure ?_
    · exact { hprogram with calls := forall_mem_cons.2 ⟨hfound, hprogram.calls⟩ }
    · rintro _ ⟨⟩
      exact hfound
  | _ :: _ :: _ => exact .throw (h.ordinary trivial)

omit h in
/-- The candidates of a call are functions of the program, with as many parameters as the call
has arguments. -/
theorem Program.Within.eligible {program : Program} (hprogram : program.Within inv fair ground)
    {count : Nat} (hcount : count = call.arguments.length) :
    ∀ candidate ∈ program.candidates call, candidate.Eligible fair ground count :=
  fun candidate hmem =>
    ⟨hprogram.functions candidate (mem_functions_of_candidate hmem),
      (parameters_of_candidate hmem).trans hcount.symm⟩

theorem resolve_guards (fuel : Nat) (hgenerics : ∀ type ∈ call.generics, ground type)
    (harguments : ∀ type ∈ arguments, ground type)
    (hlength : arguments.length = call.arguments.length) :
    Guards (Within inv fair ground) (fun found => ∀ function ∈ found, function.All ground)
      mild (resolve fuel call arguments) := by
  intro program hprogram
  rw [resolve_eq_resolveAmong hlength]
  -- The candidates are read off the program once, before anything is looked up.
  have heligible := hprogram.eligible hlength
  refine Guards.bind (liftProgram_guards (callKey_guards h hgenerics harguments))
    (fun key _ => ?_) program hprogram
  refine Guards.get.bind fun program hprogram => ?_
  split
  · rename_i known hknown
    refine .pure ?_
    rintro _ ⟨⟩
    exact hprogram.calls _ (mem_of_lookup hknown)
  · have hscan := scanCandidates_guards h fuel hgenerics harguments heligible
    exact (liftProgram_guards hscan).bind fun scan hkept => settle_guards h key call arguments hkept

end Resolution

/-! ## Plans -/

section Plans

variable (h : Regime inv mild fair ground)

include h

/-- Splitting goes on as long as the arguments make up those of the call. -/
theorem splitFrom_guards (fuel : Nat) (hgenerics : ∀ type ∈ call.generics, ground type)
    (whole : Bool) {passed : List TypeExpr} (hpassed : ∀ type ∈ passed, ground type)
    (harguments : ∀ type ∈ arguments, ground type)
    (hlength : passed.length + arguments.length = call.arguments.length) :
    Guards (Within inv fair ground)
      (fun plan => ∀ function ∈ plan.leaves, function.All ground) mild
      (splitFrom fuel call whole passed arguments) := by
  induction arguments generalizing whole passed with
  | nil =>
    exact .ite (.throw (h.ordinary trivial)) (.throw (h.ordinary trivial))
  | cons argument rest ih =>
    obtain ⟨hargument, hrest⟩ := forall_mem_cons.1 harguments
    have hcount : ∀ type : TypeExpr,
        (passed ++ [type]).length + rest.length = call.arguments.length := by
      intro type
      simp only [length_append, length_cons, length_nil] at hlength ⊢
      omega
    have hsnoc (type : TypeExpr) (htype : ground type) : ∀ other ∈ passed ++ [type], ground other :=
      forall_mem_append.2 ⟨hpassed, forall_mem_singleton.2 htype⟩
    unfold splitFrom
    refine (liftProgram_guards (alternatives_guards h.ofGround fuel hargument)).bind
      fun covered hcovered => ?_
    refine .ite (ih whole (hsnoc argument hargument) hrest (hcount argument)) ?_
    refine .bind (.mapM fun alternative hmem => ?_) fun nested
      (hnested : ∀ plan ∈ nested, ∀ function ∈ plan.leaves, function.All ground) => .pure ?_
    · have halternative := hcovered alternative hmem
      have hinPlace : ∀ type ∈ passed ++ alternative :: rest, ground type :=
        forall_mem_append.2 ⟨hpassed, forall_mem_cons.2 ⟨halternative, hrest⟩⟩
      have hall : (passed ++ alternative :: rest).length = call.arguments.length := by
        simpa [Nat.add_assoc, Nat.add_comm] using hlength
      refine (resolve_guards h fuel hgenerics hinPlace hall).bind fun found hfound => ?_
      cases found with
      | some function => exact .pure (by simpa [Plan.leaves] using hfound function rfl)
      | none => exact ih false (hsnoc alternative halternative) hrest (hcount alternative)
    · intro function hfunction
      obtain ⟨plan, hplan, hleaf⟩ := Plan.mem_leavesAll.1 hfunction
      exact hnested plan hplan function hleaf

section Calls

variable (fuel : Nat) (hgenerics : ∀ type ∈ call.generics, ground type)
  (harguments : ∀ type ∈ arguments, ground type)
  (hlength : arguments.length = call.arguments.length)

include hgenerics harguments hlength

theorem planOf_guards :
    Guards (Within inv fair ground)
      (fun plan => ∀ function ∈ plan.leaves, function.All ground) mild
      (planOf fuel call arguments) := by
  refine (resolve_guards h fuel hgenerics harguments hlength).bind fun found hfound => ?_
  cases found with
  | some function => exact .pure (by simpa [Plan.leaves] using hfound function rfl)
  | none =>
    exact splitFrom_guards h fuel hgenerics true (by simp) harguments (by simpa using hlength)

theorem planCall_guards :
    Guards (Within inv fair ground)
      (fun planned => ∀ type ∈ planned.returnType, ground type) mild
      (planCall fuel call arguments) := by
  refine (liftProgram_guards (callKey_guards h hgenerics harguments)).bind fun key _ => ?_
  refine Guards.get.bind fun program hprogram => ?_
  split
  · rename_i known hknown
    exact .pure (hprogram.plans _ (mem_of_lookup hknown))
  · refine (planOf_guards h fuel hgenerics harguments hlength).bind fun plan hplan => ?_
    refine (liftProgram_guards (mergeReturns_guards h.ofGround.canonicalName h.union h.ordinary call
      fun leaf hleaf => (hplan leaf hleaf).returns)).bind fun returned hreturned => ?_
    refine (remember_guards fun program hprogram => ?_).bind fun _ _ => .pure hreturned
    exact { hprogram with plans := forall_mem_cons.2 ⟨hreturned, hprogram.plans⟩ }

theorem callOutcome_guards :
    Guards (Within inv fair ground) (CallOutcome.Within ground mild) mild
      (callOutcome fuel call arguments) := by
  unfold callOutcome
  split
  · rename_i hgeneric
    refine .pure fun other span => ?_
    have hsome : ∃ type ∈ arguments, type.isGeneric := by
      by_contra hnone
      have hclosed := anyGeneric_eq_false.2 (by simpa using hnone)
      rw [hclosed] at hgeneric
      cases hgeneric
    obtain ⟨type, hmem, htype⟩ := hsome
    exact h.unresolved (harguments type hmem) htype other span
  · refine (resolve_guards h fuel hgenerics harguments hlength).bind fun found hfound => ?_
    cases found with
    | some function => exact .pure (CallOutcome.within_ofReturn (hfound function rfl).returns)
    | none =>
      exact (planCall_guards h fuel hgenerics harguments hlength).bind fun planned hplanned =>
        .pure (CallOutcome.within_ofReturn hplanned)

end Calls

end Plans

end Accord
