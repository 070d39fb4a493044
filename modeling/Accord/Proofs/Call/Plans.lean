import Accord.Proofs.Program.Built
import Accord.Proofs.Types.Entries

/-!
# Plans are sound, complete and exhaustive

A plan for a call tells the alternatives of some arguments apart and names a function at each
leaf.  What that means is said without the planner:

* `Plan.Sound` says that each leaf is the function that resolution finds once the alternatives
  on the way to it stand in for their arguments, that each branch lists the alternatives of its
  argument, and that positions increase on the way down.
* `Plan.Leads` follows one choice of alternatives through a plan, and `Sound.leads_once` says
  that every choice ends at exactly one leaf.

The answers on which a plan rests are given one after another, while the program learns.  They
last (`resolve_ends`), so the plan is sound in the state in which it is handed out
(`planOf_ends`).  Where planning gets stuck, it has come to a choice of alternatives for which
the call means nothing.
-/

namespace Accord

open Query List Program

variable {cause : Diagnostic} {covered arguments passed original : List TypeExpr}
  {fuel position : Nat} {plan : Plan} {program final : Program} {key : String} {α : Type}
  {type argument : TypeExpr} {table : TypeTable} {query : TypeQuery α}

/-! ## Alternatives -/

section Alternatives

theorem alternatives_replays (fuel : Nat) (hplain : type.plain) :
    Again (fun covered => ∀ alternative ∈ covered, alternative.plain)
      (alternatives fuel type) := by
  have h := alternatives_parallel replaying.toTypeParallel (Nat.le_refl fuel)
    (⟨rfl, hplain⟩ : SamePlain type type)
  exact Holder.Replays.mono h fun _ _ hcovered => samePlain_all.1 hcovered

/-- A question that is answered again leads to a later table. -/
theorem Again.ends {good : α → Prop} (h : Again good query) (htable : table.Spelled) :
    Ends (fun a later => later.Spelled ∧ table.Before later ∧ good a ∧
        query later = .ok a later) tables.Refuses (query table) := by
  refine (h table htable).mono (fun a later hrun => ?_) fun _ _ hrun => hrun
  obtain ⟨_, hagain, rfl, hgood⟩ := hrun.later hrun.good (.refl _)
  exact ⟨hrun.good, hrun.before, hgood, hagain⟩

/-- A later table answers a question in the same way. -/
theorem Again.later {good : α → Prop} (h : Again good query)
    {later : TypeTable} (htable : table.Spelled) (hlater : later.Spelled)
    (hbefore : table.Before later) {a : α} (hrun : query table = .ok a table) :
    query later = .ok a later := by
  obtain ⟨_, hagain, rfl, _⟩ := (h.ok htable hrun).later hlater hbefore
  exact hagain

theorem nodup_of_forall₂ {β : Type} {names : α → β → Prop}
    (hunique : ∀ a b b', names a b → names a b' → b = b') {items : List α} {texts : List β}
    (h : Forall₂ names items texts) (hnodup : texts.Nodup) : items.Nodup := by
  induction h with
  | nil => exact nodup_nil
  | @cons a b items texts hab hrest ih =>
    obtain ⟨hnew, hnodup⟩ := nodup_cons.1 hnodup
    refine nodup_cons.2 ⟨fun hmem => hnew ?_, ih hnodup⟩
    obtain ⟨text, htext, hname⟩ := exists_of_mem_left hrest hmem
    rwa [hunique _ _ _ hab hname]

/-- No alternative is listed twice. -/
theorem alternatives_nodup (hplain : type.plain) {later : TypeTable} (htable : table.Spelled)
    (hrun : alternatives fuel type table = .ok covered later) : covered.Nodup := by
  obtain ⟨gathered, last, hgather, hrun⟩ := bind_eq_ok.1 hrun
  obtain ⟨rfl, rfl⟩ := pure_eq_ok.1 hrun
  have hgood := htable.confines
  have hdirect (fuel : Nat) {type : TypeExpr} (hplain : type.plain) :
      Guards table.PlainlyGrown (fun direct => (direct = none → True) ∧
        ∀ types, direct = some types → ∀ part ∈ types, part.plain) (fun _ => True)
        (directAlternatives fuel type) := by
    refine Guards.mono (directAlternatives_parallel hgood.growth rfl ⟨rfl, hplain⟩)
      fun direct ⟨_, hsame⟩ => ⟨fun _ => trivial, ?_⟩
    rintro types rfl
    cases hsame with
    | some hall => exact (forall₂_eq_and.1 hall).2
  obtain ⟨_, hnames, hnodup⟩ := (gather_guards trivial (fun _ => id) hdirect
    (fun hplain => (canonicalName_spells hgood _ hplain).relax fun _ _ => trivial) fuel [] hplain
    .nil table (htable.grownBy _)).of_run hgather
  refine nodup_of_forall₂ (fun type name name' h h' => ?_) hnames (nodup_reverse.2 hnodup)
  exact Option.some.inj (h.2.2.spelling.symm.trans h'.2.2.spelling)

end Alternatives

/-! ## What a plan says -/

namespace Plan

mutual

/-- Whatever passes from the plans for the alternatives to the whole holds of every plan. -/
@[elab_as_elim]
theorem induct {motive : Plan → Prop} (direct : ∀ function, motive (.direct function))
    (branch : ∀ position covered nested, (∀ plan ∈ nested, motive plan) →
      motive (.branch position covered nested)) : (plan : Plan) → motive plan
  | .direct function => direct function
  | .branch _ _ nested => branch _ _ nested (inductAll direct branch nested)

theorem inductAll {motive : Plan → Prop} (direct : ∀ function, motive (.direct function))
    (branch : ∀ position covered nested, (∀ plan ∈ nested, motive plan) →
      motive (.branch position covered nested)) :
    (plans : List Plan) → ∀ plan ∈ plans, motive plan
  | [] => nofun
  | plan :: rest => forall_mem_cons.2 ⟨induct direct branch plan, inductAll direct branch rest⟩

end

mutual

/-- The plan is right for a call with arguments of the given types, and tells no argument
further left than `start` apart. -/
def Sound (fuel : Nat) (call : Call) (program : Program) :
    Nat → List TypeExpr → Plan → Prop
  | _, arguments, .direct function =>
    resolve fuel call arguments program = .ok (some function) program
  | start, arguments, .branch position covered nested =>
    start ≤ position ∧ covered ≠ [] ∧
      (∃ argument, arguments[position]? = some argument ∧
        alternatives fuel argument program.types = .ok covered program.types) ∧
      SoundEach fuel call program position arguments covered nested

/-- There is one plan for each alternative of the argument at a position, and it is right
where the alternative stands in for the argument. -/
def SoundEach (fuel : Nat) (call : Call) (program : Program) (position : Nat)
    (arguments : List TypeExpr) : List TypeExpr → List Plan → Prop
  | alternative :: covered, plan :: nested =>
    plan.Sound fuel call program (position + 1) (arguments.set position alternative) ∧
      SoundEach fuel call program position arguments covered nested
  | [], [] => True
  | _, _ => False

end

/-- The types chosen for the arguments lead through the plan to a leaf, by the given path. -/
inductive Leads (chosen : List TypeExpr) : Plan → List Nat → FunctionDef → Prop where
  | direct (function : FunctionDef) : Leads chosen (.direct function) [] function
  | branch {position index : Nat} {covered : List TypeExpr} {nested : List Plan}
      {alternative : TypeExpr} {plan : Plan} {path : List Nat} {function : FunctionDef}
      (choice : chosen[position]? = some alternative)
      (listed : covered[index]? = some alternative) (below : nested[index]? = some plan)
      (rest : Leads chosen plan path function) :
      Leads chosen (.branch position covered nested) (index :: path) function

section Sound

variable {call : Call} {later : Program}

theorem soundEach_iff {nested : List Plan} :
    SoundEach fuel call program position arguments covered nested ↔
      Forall₂ (fun alternative plan => plan.Sound fuel call program (position + 1)
        (arguments.set position alternative)) covered nested := by
  induction covered generalizing nested with
  | nil => cases nested <;> simp [SoundEach]
  | cons alternative covered ih => cases nested <;> simp [SoundEach, ih]

/-- What tells no argument left of one position apart tells none left of an earlier one
apart. -/
theorem Sound.from_earlier {start start' : Nat}
    (h : plan.Sound fuel call program start arguments) (hle : start' ≤ start) :
    plan.Sound fuel call program start' arguments := by
  cases plan with
  | direct function => exact h
  | branch position covered nested =>
    obtain ⟨hstart, hrest⟩ := h
    exact ⟨by omega, hrest⟩

/-- A sound plan has a leaf. -/
theorem Sound.leaves_ne_nil (plan : Plan) {start : Nat}
    (h : plan.Sound fuel call program start arguments) : plan.leaves ≠ [] := by
  induction plan using Plan.induct generalizing start arguments with
  | direct => simp [leaves]
  | branch position covered nested ih =>
    obtain ⟨_, hne, _, heach⟩ := h
    cases soundEach_iff.1 heach with
    | nil => exact absurd rfl hne
    | cons hfirst _ => simp [leaves, leavesAll, ih _ (.head _) hfirst]

variable (hprogram : program.Spelled) (hgenerics : ∀ type ∈ call.generics, type.plain = true)

include hprogram

/-- Putting an alternative in the place of its argument keeps names plain. -/
theorem plain_set (harguments : ∀ type ∈ arguments, type.plain)
    (hargument : arguments[position]? = some argument)
    (hcovered : alternatives fuel argument program.types = .ok covered program.types) :
    ∀ alternative ∈ covered, ∀ type ∈ arguments.set position alternative, type.plain := by
  intro alternative hmem type htype
  have hplain := harguments argument (mem_of_getElem? hargument)
  obtain ⟨_, _, _, hall⟩ :=
    ((alternatives_replays fuel hplain).ok hprogram.types hcovered).later hprogram.types
      (.refl _)
  rcases mem_or_eq_of_mem_set htype with hold | rfl
  · exact harguments type hold
  · exact hall type hmem

include hgenerics

variable (hlater : later.Spelled) (hbefore : program.Before later)

include hlater hbefore

/-- A sound plan stays sound. -/
theorem Sound.lasts (plan : Plan) {start : Nat} (harguments : ∀ type ∈ arguments, type.plain)
    (h : plan.Sound fuel call program start arguments) :
    plan.Sound fuel call later start arguments := by
  induction plan using Plan.induct generalizing start arguments with
  | direct function =>
    have hends := resolve_ends hgenerics harguments fuel hprogram
    have hrun : resolve fuel call arguments program = .ok (some function) program := h
    exact (hends.of_run hrun).2.2 later hlater hbefore
  | branch position covered nested ih =>
    obtain ⟨hstart, hne, ⟨argument, hargument, hcovered⟩, heach⟩ := h
    have hplain := harguments argument (mem_of_getElem? hargument)
    refine ⟨hstart, hne, ⟨argument, hargument, ?_⟩, ?_⟩
    · exact (alternatives_replays fuel hplain).later hprogram.types hlater.types hbefore.types
        hcovered
    · have hset := plain_set hprogram harguments hargument hcovered
      have hsound := soundEach_iff.1 heach
      refine soundEach_iff.2 (forall₂_iff_get.2 ⟨hsound.length_eq, fun index hleft hright => ?_⟩)
      exact ih _ (get_mem ..) (hset _ (get_mem ..)) (hsound.get hleft hright)

end Sound

end Plan

/-! ## Choices -/

/-- One of the alternatives of the argument, or the argument itself if it has none. -/
def Chooses (fuel : Nat) (table : TypeTable) (argument choice : TypeExpr) : Prop :=
  match alternatives fuel argument table with
  | .ok [] _ => choice = argument
  | .ok covered _ => choice ∈ covered
  | .error _ _ => choice = argument

theorem chooses_of_ok {later : TypeTable} {choice : TypeExpr}
    (h : alternatives fuel argument table = .ok covered later)
    (hne : covered ≠ []) : Chooses fuel table argument choice ↔ choice ∈ covered := by
  unfold Chooses
  rw [h]
  cases covered with
  | nil => exact absurd rfl hne
  | cons _ _ => rfl

namespace Plan

section Leads

variable {call : Call} {chosen : List TypeExpr} (hprogram : program.Spelled)

/-- From a position on, an alternative is chosen for each argument that has any. -/
def ChosenFrom (fuel : Nat) (table : TypeTable) (chosen : List TypeExpr) (start : Nat)
    (arguments : List TypeExpr) : Prop :=
  ∀ position argument, start ≤ position → arguments[position]? = some argument →
    ∃ choice, chosen[position]? = some choice ∧ Chooses fuel table argument choice

theorem ChosenFrom.set {start : Nat}
    (h : ChosenFrom fuel table chosen start arguments) (hstart : start ≤ position)
    (alternative : TypeExpr) :
    ChosenFrom fuel table chosen (position + 1) (arguments.set position alternative) := by
  intro other argument hother hargument
  rw [getElem?_set_ne (by omega)] at hargument
  exact h other argument (by omega) hargument

include hprogram

/-- A choice of alternatives leads through a sound plan to exactly one leaf. -/
theorem Sound.leads_once (plan : Plan) {start : Nat} (harguments : ∀ type ∈ arguments, type.plain)
    (h : plan.Sound fuel call program start arguments)
    (hchosen : ChosenFrom fuel program.types chosen start arguments) :
    ∃! leaf : List Nat × FunctionDef, plan.Leads chosen leaf.1 leaf.2 := by
  induction plan using Plan.induct generalizing start arguments with
  | direct function =>
    refine ⟨([], function), .direct function, ?_⟩
    rintro ⟨path, other⟩ hleads
    cases hleads
    rfl
  | branch position covered nested ih =>
    obtain ⟨hstart, hne, ⟨argument, hargument, hcovered⟩, heach⟩ := h
    obtain ⟨choice, hchoice, hchooses⟩ := hchosen position argument hstart hargument
    have hplain := harguments argument (mem_of_getElem? hargument)
    have hnodup := alternatives_nodup hplain hprogram.types hcovered
    -- The choice is listed once, and there is one plan below it.
    obtain ⟨index, hindex, hlisted⟩ := mem_iff_getElem.1 ((chooses_of_ok hcovered hne).1 hchooses)
    have hsound := soundEach_iff.1 heach
    have hbelow : index < nested.length := hsound.length_eq ▸ hindex
    obtain ⟨⟨path, function⟩, hleads, hunique⟩ := ih _ (getElem_mem hbelow)
      (plain_set hprogram harguments hargument hcovered _ (getElem_mem hindex))
      (hsound.get hindex hbelow) (hchosen.set hstart _)
    refine ⟨(index :: path, function), ?_, ?_⟩
    · exact .branch hchoice (by rw [getElem?_eq_getElem hindex, hlisted])
        (getElem?_eq_getElem hbelow) hleads
    · rintro ⟨other, found⟩ hother
      cases hother with
      | @branch _ index' _ _ alternative plan path' _ hchoice' hlisted' hbelow' hrest =>
        obtain rfl : choice = alternative := by
          rw [hchoice] at hchoice'
          exact Option.some.inj hchoice'
        obtain ⟨hindex', hsame⟩ := List.getElem?_eq_some_iff.1 hlisted'
        obtain rfl : index = index' := (Nodup.getElem_inj_iff hnodup).1 (hlisted.trans hsame.symm)
        rw [getElem?_eq_getElem hbelow] at hbelow'
        cases hbelow'
        have hsame := hunique (path', found) hrest
        cases hsame
        rfl

end Leads

theorem mem_leavesAll {nested : List Plan} {leaf : FunctionDef} :
    leaf ∈ leavesAll nested ↔ ∃ plan ∈ nested, leaf ∈ plan.leaves := by
  induction nested with
  | nil => simp [leavesAll]
  | cons plan rest ih => simp [leavesAll, ih]

end Plan

/-! ## Planning -/

/-- The refusals for want of a function. -/
def Diagnostic.isMissing : Diagnostic → Bool
  | .noMatchingOverload _ _ _ => true
  | .unsplittableCall _ _ _ => true
  | _ => false

theorem Diagnostic.isMissing_of_unplanned
    (h : cause.isPlanning = false) : cause.isMissing = false := by
  cases cause <;> first | rfl | cases h

/-- A refusal that plans have is one for want of a function, and then the call means nothing
for some choice of alternatives. -/
def Stuck (fuel : Nat) (call : Call) (arguments : List TypeExpr) (cause : Diagnostic)
    (after : Program) : Prop :=
  cause.isPlanning = true → cause.isMissing = true ∧
    ∃ chosen, Forall₂ (Chooses fuel after.types) arguments chosen ∧
      resolve fuel call chosen after = .ok none after

theorem Unplanned.stuck {call : Call} {after : Program} (h : Unplanned cause after) :
    Stuck fuel call arguments cause after := by
  intro hplanning
  rw [Unplanned, hplanning] at h
  cases h

/-- The type picked for an argument, as far as the table knows. -/
structure Picked (fuel : Nat) (table : TypeTable) (argument choice : TypeExpr) : Prop where
  plain : argument.plain = true
  covered : ∃ covered, alternatives fuel argument table = .ok covered table ∧
    (choice ∈ covered ∨ covered = [] ∧ choice = argument)

section Picked

variable {grown : TypeTable} {choice : TypeExpr}

theorem Picked.later (h : Picked fuel table argument choice) (htable : table.Spelled)
    (hlater : grown.Spelled) (hbefore : table.Before grown) :
    Picked fuel grown argument choice := by
  obtain ⟨covered, hrun, hchoice⟩ := h.covered
  exact ⟨h.plain, covered,
    (alternatives_replays fuel h.plain).later htable hlater hbefore hrun, hchoice⟩

theorem Picked.chooses (h : Picked fuel table argument choice) :
    Chooses fuel table argument choice := by
  obtain ⟨covered, hrun, hmem | ⟨rfl, rfl⟩⟩ := h.covered
  · exact (chooses_of_ok hrun (ne_nil_of_mem hmem)).2 hmem
  · unfold Chooses
    rw [hrun]

end Picked

/-- A plan made for a call, and the state in which it is handed out. -/
structure Planned (fuel : Nat) (call : Call) (program : Program) (start : Nat)
    (arguments : List TypeExpr) (plan : Plan) (after : Program) : Prop where
  spelled : after.Spelled
  before : program.Before after
  returns : ∀ leaf ∈ plan.leaves, leaf.PlainReturn
  sound : plan.Sound fuel call after start arguments

theorem Planned.after {start : Nat} {call : Call} {mid last : Program}
    (h : Planned fuel call mid start arguments plan last) (hbefore : program.Before mid) :
    Planned fuel call program start arguments plan last :=
  { h with before := hbefore.trans h.before }

section Planning

variable {call : Call}

/-- What has been learnt by asking about types. -/
theorem Again.lift {good : α → Prop} (h : Again good query) (hprogram : program.Spelled) :
    Ends (fun a after => ∃ types, after = { program with types } ∧ types.Spelled ∧
        program.types.Before types ∧ good a ∧ query types = .ok a types) Unplanned
      ((liftM query : ProgramQuery α) program) :=
  liftProgram_ends ((h.ends hprogram.types).mono (fun _ types hrun => ⟨types, rfl, hrun⟩)
    fun _ _ hrun => hrun.unplanned)

/-- The search for an argument to split, with the arguments in `passed` picked for those in
`original`, ends with a plan or gets stuck. -/
def SplitsFrom (fuel : Nat) (call : Call) (rest : List TypeExpr) : Prop :=
  ∀ (whole : Bool) {original passed : List TypeExpr} {program : Program}, program.Spelled →
    (∀ type ∈ passed, type.plain = true) →
    Forall₂ (Picked fuel program.types) original passed →
    Lasts fuel call (passed ++ rest) program none →
    Ends (Planned fuel call program passed.length (passed ++ rest))
      (Stuck fuel call (original ++ rest))
      (splitFrom fuel call whole passed rest program)

/-- The plan of a call in which an alternative stands in for an argument. -/
def planAlternative (fuel : Nat) (call : Call) (passed rest : List TypeExpr)
    (alternative : TypeExpr) : ProgramQuery Plan := do
  match ← resolve fuel call (passed ++ alternative :: rest) with
  | some function => return Plan.direct function
  | none => splitFrom fuel call false (passed ++ [alternative]) rest

theorem splitFrom_cons (whole : Bool) (passed : List TypeExpr) (argument : TypeExpr)
    (rest : List TypeExpr) :
    splitFrom fuel call whole passed (argument :: rest) =
      liftM (alternatives fuel argument) >>= fun covered =>
        if covered.isEmpty then splitFrom fuel call whole (passed ++ [argument]) rest
        else
          covered.mapM (planAlternative fuel call passed rest) >>= fun nested =>
            pure (.branch passed.length covered nested) :=
  rfl

theorem plain_in_place {rest : List TypeExpr}
    (hpassed : ∀ type ∈ passed, type.plain) (htype : type.plain)
    (hrest : ∀ type ∈ rest, type.plain) : ∀ other ∈ passed ++ type :: rest, other.plain := by
  simpa [or_imp, forall_and] using ⟨hpassed, htype, hrest⟩

theorem splitFrom_nil_ends : SplitsFrom fuel call [] := by
  intro whole original passed program hprogram _ hpicked hmissing
  have hstuck : ∀ cause : Diagnostic, cause.isMissing →
      Stuck fuel call (original ++ []) cause program := by
    intro cause hcause _
    refine ⟨hcause, passed, ?_, ?_⟩
    · rw [append_nil]
      exact hpicked.imp fun _ _ h => h.chooses
    · have hnone := hmissing program.types hprogram.types (.refl _)
      rwa [append_nil] at hnone
  rw [splitFrom]
  cases whole with
  | true | false => exact .error (hstuck _ rfl)

variable (hgenerics : ∀ type ∈ call.generics, type.plain = true)

include hgenerics

/-- A call that means a function is planned for that function, and any other as the rest plans it. -/
theorem resolved_ends (hplain : ∀ type ∈ arguments, type.plain)
    (hprogram : program.Spelled) {start : Nat} {rest : ProgramQuery Plan}
    (hrest : ∀ after, after.Spelled → program.Before after →
      Lasts fuel call arguments after none →
      Ends (Planned fuel call after start arguments) (Stuck fuel call original) (rest after)) :
    Ends (Planned fuel call program start arguments) (Stuck fuel call original)
      ((do
        match ← resolve fuel call arguments with
        | some function => return Plan.direct function
        | none => rest : ProgramQuery Plan) program) := by
  have hresolve := (resolve_ends hgenerics hplain fuel hprogram).keeping
    (resolve_keeps (before_lasting program) fuel call _) (.refl program)
  refine (hresolve.mono (fun _ _ h => h) fun _ _ h => Unplanned.stuck h).bind
    fun found after ⟨hbefore, hspelled, hlasts⟩ => ?_
  cases found with
  | some function =>
    refine .ok ⟨hspelled, hbefore, ?_, hlasts.2 after hspelled (.refl after)⟩
    simpa [Plan.leaves] using hlasts.1
  | none =>
    exact (hrest after hspelled hbefore hlasts).mono (fun _ _ h => h.after hbefore) fun _ _ h => h

theorem planAlternative_ends {rest : List TypeExpr} (hsplits : SplitsFrom fuel call rest)
    (hrest : ∀ type ∈ rest, type.plain)
    (hpassed : ∀ type ∈ passed, type.plain) {alternative : TypeExpr}
    (halternative : alternative.plain) (hprogram : program.Spelled)
    (hpicked : Forall₂ (Picked fuel program.types) original passed)
    (hpick : Picked fuel program.types argument alternative) :
    Ends (Planned fuel call program (passed.length + 1) (passed ++ alternative :: rest))
      (Stuck fuel call (original ++ argument :: rest))
      (planAlternative fuel call passed rest alternative program) := by
  refine resolved_ends hgenerics (plain_in_place hpassed halternative hrest) hprogram
    fun after hspelled hbefore hlasts => ?_
  have hlater {argument choice : TypeExpr} (h : Picked fuel program.types argument choice) :=
    h.later hprogram.types hspelled.types hbefore.types
  rw [append_cons] at hlasts
  have hends := hsplits false hspelled (plain_in_place hpassed halternative (by simp))
    (rel_append (hpicked.imp fun _ _ => hlater) (.cons (hlater hpick) .nil)) hlasts
  rwa [← append_cons, ← append_cons, length_append] at hends

/-- Telling the alternatives of an argument apart. -/
theorem branch_ends {rest : List TypeExpr} (hsplits : SplitsFrom fuel call rest)
    (hrest : ∀ type ∈ rest, type.plain) (hpassed : ∀ type ∈ passed, type.plain)
    (hargument : argument.plain) (hprogram : program.Spelled)
    (hpicked : Forall₂ (Picked fuel program.types) original passed) (hne : covered ≠ [])
    (hcovered : ∀ alternative ∈ covered, alternative.plain)
    (hrun : alternatives fuel argument program.types = .ok covered program.types) :
    Ends (Planned fuel call program passed.length (passed ++ argument :: rest))
      (Stuck fuel call (original ++ argument :: rest))
      ((covered.mapM (planAlternative fuel call passed rest) >>= fun nested =>
        pure (.branch passed.length covered nested)) program) := by
  have hset : ∀ alternative, (passed ++ argument :: rest).set passed.length alternative =
      passed ++ alternative :: rest := by simp
  have hmap : Ends (fun nested after => (after.Spelled ∧ program.Before after) ∧
        program.Before after ∧ Forall₂ (fun alternative plan =>
          (∀ leaf ∈ plan.leaves, leaf.PlainReturn) ∧
            plan.Sound fuel call after (passed.length + 1) (passed ++ alternative :: rest))
          covered nested)
      (Stuck fuel call (original ++ argument :: rest))
      (covered.mapM (planAlternative fuel call passed rest) program) := by
    refine Ends.mapM (fun s => .refl s) (fun _ _ _ h h' => h.trans h')
      (fun alternative hmem plan s t hs ht hst hplan => ?_)
      (fun alternative hmem s hs => ?_) ⟨hprogram, .refl program⟩
    · have hplain := plain_in_place hpassed (hcovered alternative hmem) hrest
      exact ⟨hplan.1, Plan.Sound.lasts hs.1 hgenerics ht.1 hst plan hplain hplan.2⟩
    · have hlater {argument choice : TypeExpr} (h : Picked fuel program.types argument choice) :=
        h.later hprogram.types hs.1.types hs.2.types
      have hpick : Picked fuel program.types argument alternative :=
        ⟨hargument, covered, hrun, Or.inl hmem⟩
      refine (planAlternative_ends hgenerics hsplits hrest hpassed (hcovered alternative hmem) hs.1
        (hpicked.imp fun _ _ => hlater) (hlater hpick)).mono (fun plan t hplan => ?_)
        fun _ _ h => h
      exact ⟨⟨hplan.spelled, hs.2.trans hplan.before⟩, hplan.before, hplan.returns, hplan.sound⟩
  refine hmap.bind fun nested after hafter => .ok ?_
  obtain ⟨⟨hspelled, hbefore⟩, _, hnested⟩ := hafter
  refine ⟨hspelled, hbefore, fun leaf hleaf => ?_, le_refl _, hne, ⟨argument, by simp, ?_⟩, ?_⟩
  · obtain ⟨plan, hmem, hleaf⟩ := Plan.mem_leavesAll.1 hleaf
    obtain ⟨_, _, hplan⟩ := exists_of_mem_left hnested.flip hmem
    exact hplan.1 leaf hleaf
  · exact (alternatives_replays fuel hargument).later hprogram.types hspelled.types hbefore.types
      hrun
  · refine Plan.soundEach_iff.2 (hnested.imp fun alternative plan hplan => ?_)
    rw [hset]
    exact hplan.2

theorem splitFrom_ends (rest : List TypeExpr) (hrest : ∀ type ∈ rest, type.plain) :
    SplitsFrom fuel call rest := by
  induction rest with
  | nil => exact splitFrom_nil_ends
  | cons argument rest ih =>
    obtain ⟨hargument, hrest⟩ := forall_mem_cons.1 hrest
    have hsplits := ih hrest
    intro whole original passed program hprogram hpassed hpicked hmissing
    rw [splitFrom_cons]
    refine (((alternatives_replays fuel hargument).lift hprogram).mono (fun _ _ h => h)
      fun _ _ h => Unplanned.stuck h).bind fun covered after hafter => ?_
    obtain ⟨types, rfl, htypes, hbefore, hcovered, hrun⟩ := hafter
    have hgrown := hprogram.withTypes htypes
    have hlater := (before_lasting program).types program types (.refl _) hbefore
    have hpicked' : Forall₂ (Picked fuel types) original passed :=
      hpicked.imp fun _ _ h => h.later hprogram.types htypes hbefore
    cases hempty : covered.isEmpty with
    | true =>
      -- The argument has no alternatives; it is kept, and the search goes on to its right.
      have hnil : covered = [] := by simpa using hempty
      have hpick : Picked fuel types argument argument :=
        ⟨hargument, covered, hrun, Or.inr ⟨hnil, rfl⟩⟩
      have hlasts : Lasts fuel call (passed ++ [argument] ++ rest) { program with types } none := by
        rw [← append_cons]
        exact fun types' htypes' hbefore' => hmissing types' htypes' (hbefore.trans hbefore')
      have hends := hsplits whole hgrown (plain_in_place hpassed hargument (by simp))
        (rel_append hpicked' (.cons hpick .nil)) hlasts
      rw [← append_cons, ← append_cons, length_append] at hends
      refine hends.mono (fun plan last hplan => ?_) fun _ _ h => h
      exact { hplan.after hlater with sound := hplan.sound.from_earlier (Nat.le_add_right _ _) }
    | false =>
      have hne : covered ≠ [] := by simpa using hempty
      exact branch_ends hgenerics hsplits hrest hpassed hargument hgrown hpicked' hne hcovered
        hrun |>.mono (fun plan last hplan => hplan.after hlater) fun _ _ h => h

theorem planOf_ends (harguments : ∀ type ∈ arguments, type.plain) (hprogram : program.Spelled) :
    Ends (Planned fuel call program 0 arguments) (Stuck fuel call arguments)
      (planOf fuel call arguments program) :=
  resolved_ends hgenerics harguments hprogram fun after hspelled _ hlasts =>
    splitFrom_ends hgenerics arguments harguments true hspelled (by simp) .nil hlasts

/-- Naming a call beforehand changes nothing about its plan. -/
theorem planOf_after_key (harguments : ∀ type ∈ arguments, type.plain)
    (hprogram : program.Spelled) {types : TypeTable}
    (hkey : callKey call arguments program.types = .ok key types) {after : Program}
    (hrun : planOf fuel call arguments { program with types } = .ok plan after) :
    planOf fuel call arguments program = .ok plan after := by
  have hrepeats := (callKey_replays hgenerics harguments).ok hprogram.types hkey
  obtain ⟨_, hagain, rfl, _⟩ := hrepeats.later hrepeats.good (.refl _)
  obtain ⟨found, mid, hresolve, hrest⟩ := bind_eq_ok.1 hrun
  refine bind_eq_ok.2 ⟨found, mid, ?_, hrest⟩
  have hlength := length_of_resolve hresolve
  have hcandidates : ({ program with types } : Program).candidates call =
      program.candidates call := candidates_congr call hrepeats.before.project rfl
  have hlift : (liftM (callKey call arguments) : ProgramQuery String) { program with types } =
      .ok key { program with types } := liftProgram_of_ok hagain
  rw [resolve_eq_resolveAmong hlength, hcandidates, resolveAmong, bind_of_ok hlift] at hresolve
  rwa [resolve_eq_resolveAmong hlength, resolveAmong, bind_of_ok (liftProgram_of_ok hkey)]

end Planning

/-! ## What a plan returns -/

section Returns

theorem Plan.mem_returns :
    type ∈ (plan.leaves.map (·.returnType)).filterMap id ↔
      ∃ leaf ∈ plan.leaves, type ∈ leaf.returnType := by
  simp [mem_filterMap]

section Within

variable {inv : TypeTable → Prop} {mild : Diagnostic → Prop} {good : TypeExpr → Prop}
  (hname : ∀ {type}, good type → Guards inv (fun _ => True) mild (canonicalName type))
  (hunion : ∀ {types}, (∀ type ∈ types, good type) → good (.union types))

include hname hunion

/-- One type made of several is one of them or their sum. -/
theorem mergeTypes_guards {types : List TypeExpr} (htypes : ∀ type ∈ types, good type) :
    Guards inv good mild (mergeTypes types) := by
  have hgather : Guards inv (fun gathered : Gathered => ∀ type ∈ gathered.types, good type) mild
      (types.foldlM (fun (gathered : Gathered) type => do
        return gathered.add (← canonicalName type) type) {}) := by
    refine .foldlM (fun type hmem gathered hgathered => ?_) (by simp)
    refine (hname (htypes type hmem)).bind fun name _ => ?_
    exact .pure (Gathered.add_good hgathered name (htypes type hmem))
  refine hgather.bind fun gathered hgathered => ?_
  split
  · rename_i type hsingle
    refine .pure (hgathered type ?_)
    simp [hsingle]
  · exact .pure (hunion hgathered)

theorem mergeReturns_guards (hmixed : ∀ {cause : Diagnostic}, cause.Ordinary → mild cause)
    (call : Call) (hplan : ∀ leaf ∈ plan.leaves, ∀ type ∈ leaf.returnType, good type) :
    Guards inv (fun returned => ∀ type ∈ returned, good type) mild (mergeReturns call plan) := by
  unfold mergeReturns
  refine .ite (.pure nofun) (.ite (.throw (hmixed trivial)) ?_)
  refine (mergeTypes_guards hname hunion fun type hmem => ?_).bind fun merged hmerged => .pure ?_
  · obtain ⟨leaf, hleaf, hsome⟩ := Plan.mem_returns.1 hmem
    exact hplan leaf hleaf type hsome
  · rintro _ ⟨⟩
    exact hmerged

end Within

theorem mergeTypes_ends {types : List TypeExpr} (hplain : ∀ type ∈ types, type.plain)
    (htable : table.Spelled) :
    Ends (fun _ later => later.Spelled ∧ table.Before later) tables.Refuses
      (mergeTypes types table) := by
  unfold mergeTypes
  have hfold : Ends (fun (_ : Gathered) later => later.Spelled ∧ table.Before later)
      tables.Refuses ((types.foldlM (fun (gathered : Gathered) type => do
        return gathered.add (← canonicalName type) type) {} : TypeQuery Gathered) table) := by
    refine Ends.foldlM (fun type hmem gathered s hs => ?_) ⟨htable, .refl table⟩
    refine ((canonicalName_replays type (hplain type hmem)).ends hs.1).bind fun name t ht => ?_
    exact .ok ⟨ht.1, hs.2.trans ht.2.1⟩
  refine hfold.bind fun gathered later hlater => ?_
  rcases gathered.types with _ | ⟨_, _ | _⟩ <;> exact .ok hlater

/-- Some function of the plan returns nothing, and some function returns something. -/
def Plan.Mixed (plan : Plan) : Prop :=
  (∃ leaf ∈ plan.leaves, leaf.returnType = none) ∧ ∃ leaf ∈ plan.leaves, leaf.returnType ≠ none

/-- What is returned is put together, or functions that return nothing are mixed with
others. -/
theorem mergeReturns_ends (call : Call) (hreturns : ∀ leaf ∈ plan.leaves, leaf.PlainReturn)
    (htable : table.Spelled) :
    Ends (fun returned later => later.Spelled ∧ table.Before later ∧
        (returned = none ↔ ∀ leaf ∈ plan.leaves, leaf.returnType = none))
      (fun cause later => cause.isMissing = false ∧
        (cause.isPlanning → later = table ∧ plan.Mixed))
      (mergeReturns call plan table) := by
  have hall : (plan.leaves.map (·.returnType)).all (·.isNone) ↔
      ∀ leaf ∈ plan.leaves, leaf.returnType = none := by
    simp
  unfold mergeReturns
  by_cases hvoid : (plan.leaves.map (·.returnType)).all (·.isNone)
  · rw [if_pos hvoid]
    exact .ok ⟨htable, .refl table, by simpa using hall.1 hvoid⟩
  · rw [if_neg hvoid]
    rw [hall] at hvoid
    by_cases hany : (plan.leaves.map (·.returnType)).any (·.isNone)
    · rw [if_pos hany]
      refine .error ⟨rfl, fun _ => ⟨rfl, ?_, ?_⟩⟩
      · simpa using hany
      · simpa using hvoid
    · rw [if_neg hany]
      have hplain : ∀ type ∈ (plan.leaves.map (·.returnType)).filterMap id, type.plain := by
        intro type hmem
        obtain ⟨leaf, hleaf, hsome⟩ := Plan.mem_returns.1 hmem
        exact hreturns leaf hleaf type hsome
      refine ((mergeTypes_ends hplain htable).mono (fun _ _ h => h) fun cause later h => ?_).bind
        fun merged later hlater => ?_
      · exact ⟨Diagnostic.isMissing_of_unplanned h.unplanned, by simp [h.unplanned]⟩
      · exact .ok ⟨hlater.1, hlater.2, by simpa using hvoid⟩

end Returns

/-! ## Every choice is planned for -/

section Plans

variable {call : Call}

/-- A plan that is right for every choice of alternatives. -/
structure PlannedCall.Complete (fuel : Nat) (call : Call) (arguments : List TypeExpr)
    (planned : PlannedCall) (final : Program) : Prop where
  sound : planned.plan.Sound fuel call final 0 arguments
  leaves : planned.plan.leaves ≠ []
  choices : ∀ chosen, Forall₂ (Chooses fuel final.types) arguments chosen →
    ∃! leaf : List Nat × FunctionDef, planned.plan.Leads chosen leaf.1 leaf.2
  returns : planned.returnType = none ↔ ∀ leaf ∈ planned.plan.leaves, leaf.returnType = none

/-- A refusal to plan that tells what is wrong: the call means nothing for some choice of
alternatives, or some functions of the plan return something and others do not. -/
structure Diagnostic.Justified (fuel : Nat) (call : Call) (arguments : List TypeExpr)
    (program : Program) (cause : Diagnostic) (final : Program) : Prop where
  missing : cause.isMissing = true →
    ∃ chosen, Forall₂ (Chooses fuel final.types) arguments chosen ∧
      resolve fuel call chosen final = .ok none final
  mixed : (∃ name span, cause = .mixedVoidness name span) →
    ∃ plan, (planOf fuel call arguments).answer program = .ok plan ∧
      plan.Sound fuel call final 0 arguments ∧ plan.Mixed

theorem Unplanned.justified
    (h : cause.isPlanning = false) : cause.Justified fuel call arguments program final := by
  refine ⟨fun hmissing => ?_, fun hmixed => ?_⟩
  · rw [Diagnostic.isMissing_of_unplanned h] at hmissing
    cases hmissing
  · obtain ⟨name, span, rfl⟩ := hmixed
    cases h

theorem Stuck.justified (h : Stuck fuel call arguments cause final) :
    cause.Justified fuel call arguments program final := by
  cases hplanning : cause.isPlanning with
  | false => exact Unplanned.justified hplanning
  | true =>
    obtain ⟨hmissing, hchosen⟩ := h hplanning
    refine ⟨fun _ => hchosen, fun hmixed => ?_⟩
    obtain ⟨name, span, rfl⟩ := hmixed
    cases hmissing

variable (hgenerics : ∀ type ∈ call.generics, type.plain = true)
  (harguments : ∀ type ∈ arguments, type.plain = true)

include hgenerics harguments

/-- A sound plan is complete, with what is returned. -/
theorem Planned.complete {start : Program}
    (h : Planned fuel call start 0 arguments plan final) {later : Program}
    (hlater : later.Spelled) (hbefore : final.Before later) {returnType : Option TypeExpr}
    (hreturns : returnType = none ↔ ∀ leaf ∈ plan.leaves, leaf.returnType = none) :
    PlannedCall.Complete fuel call arguments { plan, returnType } later := by
  have hsound := Plan.Sound.lasts h.spelled hgenerics hlater hbefore plan harguments h.sound
  refine ⟨hsound, Plan.Sound.leaves_ne_nil plan hsound, fun chosen hchosen => ?_, hreturns⟩
  refine Plan.Sound.leads_once hlater plan harguments hsound fun position argument _ hargument => ?_
  obtain ⟨hposition, hget⟩ := List.getElem?_eq_some_iff.1 hargument
  have hposition' : position < chosen.length := hchosen.length_eq ▸ hposition
  refine ⟨_, getElem?_eq_getElem hposition', ?_⟩
  rw [← hget]
  exact hchosen.get hposition hposition'

/-- Makes a plan and remembers it. -/
def makePlan (fuel : Nat) (call : Call) (arguments : List TypeExpr) (key : String) :
    ProgramQuery PlannedCall := do
  let plan ← planOf fuel call arguments
  let returnType ← mergeReturns call plan
  let made : PlannedCall := { plan, returnType }
  remember fun memo => { memo with plans := (key, made) :: memo.plans }
  return made

omit hgenerics harguments in
theorem planCall_of_unknown {types : TypeTable}
    (hkey : callKey call arguments program.types = .ok key types)
    (hunknown : program.memo.plans.lookup key = none) :
    planCall fuel call arguments program =
      makePlan fuel call arguments key { program with types } := by
  rw [planCall, bind_of_ok (liftProgram_of_ok hkey), get_bind, hunknown]
  rfl

theorem makePlan_ends (hprogram : program.Spelled)
    (hunknown : program.memo.plans.lookup key = none) :
    Ends (PlannedCall.Complete fuel call arguments)
      (fun cause final => Stuck fuel call arguments cause final ∨ cause.isMissing = false ∧
        (cause.isPlanning → ∃ plan, planOf fuel call arguments program = .ok plan final ∧
          plan.Sound fuel call final 0 arguments ∧ plan.Mixed))
      (makePlan fuel call arguments key program) := by
  have hplan : Ends _ _ (planOf fuel call arguments program) :=
    planOf_ends hgenerics harguments hprogram
  unfold makePlan
  cases hrun : planOf fuel call arguments program with
  | error cause final =>
    rw [bind_of_error hrun]
    exact .error (Or.inl (hplan.of_refusal hrun))
  | ok plan planned =>
    rw [bind_of_ok hrun]
    have hplanned := hplan.of_run hrun
    have hmerge := mergeReturns_ends call hplanned.returns hplanned.spelled.types
    cases hmerged : mergeReturns call plan planned.types with
    | error cause later =>
      rw [bind_of_error (liftProgram_of_error hmerged)]
      obtain ⟨hmissing, hmixed⟩ := hmerge.of_refusal hmerged
      refine .error (Or.inr ⟨hmissing, fun hplanning => ?_⟩)
      obtain ⟨rfl, hboth⟩ := hmixed hplanning
      exact ⟨plan, rfl, hplanned.sound, hboth⟩
    | ok returned later =>
      rw [bind_of_ok (liftProgram_of_ok hmerged)]
      obtain ⟨hlater, hbefore, hreturns⟩ := hmerge.of_run hmerged
      refine .ok (hplanned.complete hgenerics harguments ?_ ?_ hreturns)
      · exact ⟨hlater, hplanned.spelled.functions, hplanned.spelled.calls,
          hplanned.spelled.instances⟩
      · -- Making the plan has entered no plan under the key.
        have hkeeps := planOf_keeps ((before_lasting program).with_plan key)
          fuel call arguments program ⟨.refl _, hunknown⟩
        rw [after_of_ok hrun] at hkeeps
        exact ⟨hbefore, rfl, .refl _, .refl _, (Retains.refl _).cons _ hkeeps.2⟩

/-- A plan that is made for a call is right for every choice of alternatives, and a refusal to
plan tells what is wrong. -/
theorem planCall_covers_every_choice (hprogram : program.Spelled)
    (hfresh : program.memo.plans = []) :
    Ends (PlannedCall.Complete fuel call arguments)
      (Diagnostic.Justified fuel call arguments program)
      (planCall fuel call arguments program) := by
  cases hkey : callKey call arguments program.types with
  | error cause types =>
    rw [planCall, bind_of_error (liftProgram_of_error hkey)]
    exact .error (Unplanned.justified
      ((callKey_replays hgenerics harguments).error hprogram.types hkey).unplanned)
  | ok key types =>
    have htypes := ((callKey_replays hgenerics harguments).ok hprogram.types hkey).good
    have hunknown : program.memo.plans.lookup key = none := by simp [hfresh]
    rw [planCall_of_unknown hkey hunknown]
    refine (makePlan_ends hgenerics harguments (hprogram.withTypes htypes) hunknown).mono
      (fun _ _ h => h) fun cause final hcause => ?_
    rcases hcause with hstuck | ⟨hmissing, hmixed⟩
    · exact hstuck.justified
    · refine ⟨by simp [hmissing], fun hcause => ?_⟩
      obtain ⟨name, span, rfl⟩ := hcause
      obtain ⟨plan, hrun, hsound, hboth⟩ := hmixed rfl
      refine ⟨plan, ?_, hsound, hboth⟩
      rw [answer, planOf_after_key hgenerics harguments hprogram hkey hrun]

end Plans

/-- The function `f` that takes two values of the given types and returns an integer. -/
def ofTwo (first second : TypeExpr) : FunctionDef :=
  { name := "f"
    parameters := [{ name := "x", type := first }, { name := "y", type := second }]
    returnType := some .int
    origin := "main.mer" }

/-- Functions for all four combinations of an integer and a number with fractions. -/
def fourOverloads : List FunctionDef :=
  [ofTwo .int .int, ofTwo .int .float, ofTwo .float .int, ofTwo .float .float]

/-- Two types with two alternatives each. -/
def twoUnions : List TypeExpr :=
  [.union [.int, .float], .union [.int, .float]]

/-- Two arguments with two alternatives each are planned for with four leaves. -/
theorem planCall_covers_two_unions :
    ∃ program, build 8 (oneFile fourOverloads) = .ok program ∧
      ∃ planned final,
        planCall 8 (callWith 2) twoUnions program = .ok planned final ∧
        planned.plan.leaves.length = 4 ∧
        PlannedCall.Complete 8 (callWith 2) twoUnions planned final := by
  have hbuild : build 8 (oneFile fourOverloads) = .ok (ofOneFile fourOverloads) := rfl
  have hplain : (oneFile fourOverloads).Plain := by
    refine ⟨by decide, by simp [oneFile], ?_⟩
    show ∀ function ∈ fourOverloads ++ [], (∀ type ∈ function.parameterTypes, type.plain = true) ∧
      ∀ type ∈ function.returnType, type.plain = true
    decide
  obtain ⟨hspelled, hmemo⟩ := spelled_of_build hbuild hplain
  have hplanned : Ends (PlannedCall.Complete 8 (callWith 2) twoUnions) _
      (planCall 8 (callWith 2) twoUnions (ofOneFile fourOverloads)) :=
    planCall_covers_every_choice (by simp [callWith]) (by decide) hspelled (by rw [hmemo])
  have hleaves : ((planCall 8 (callWith 2) twoUnions).answer (ofOneFile fourOverloads)).toOption.any
      (·.plan.leaves.length == 4) = true := by decide +kernel
  refine ⟨_, hbuild, ?_⟩
  cases hrun : planCall 8 (callWith 2) twoUnions (ofOneFile fourOverloads) with
  | error cause final =>
    rw [answer, hrun] at hleaves
    cases hleaves
  | ok planned final =>
    rw [answer, hrun] at hleaves
    rw [hrun] at hplanned
    exact ⟨planned, final, rfl, beq_iff_eq.1 hleaves, hplanned.of_ok⟩

end Accord
