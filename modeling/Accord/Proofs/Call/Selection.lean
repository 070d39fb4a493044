import Accord.Proofs.Assign.Steady

/-!
# A resolution selects the most specific candidate

A scan goes through the candidates once.  It measures each, skips those that are less
specific than what it has kept, and starts afresh at one that is more specific.
`considered_kept` says what that comes to: the candidates kept at the end are those that
take the call and have the least measure among all that take it.  A scan that starts from
the worst measure keeps the same ones (`considered_from_worst`).

Whether a candidate takes the call, and its measure, do not depend on what was asked
before (`takes_steady`, `specificity_steady`), so the outcome does not depend on the
order of the candidates either.  `resolve_selects_most_specific` puts this together.
-/

namespace Accord

open Query List TypeExpr Program

variable {functions candidates : List FunctionDef} {least last candidate : FunctionDef}
  {rules : Substitution} {types base : TypeTable} {other : Program}

/-! ## The order of measures -/

theorem Specificity.compare_eq_lex : Specificity.compare =
    compareLex (compareOn (·.generic)) (compareLex (compareOn (·.weight.paramUses))
      (compareLex (fun left right => compareOn (·.weight.complexity) right left)
        (compareLex (compareOn (·.weight.unions))
          (compareLex (compareOn (·.weight.cases)) (compareOn (·.weight.conversions)))))) :=
  rfl

instance : Std.TransCmp Specificity.compare := by
  rw [Specificity.compare_eq_lex]
  have hcomplexity : Std.TransCmp fun left right : Specificity =>
      compareOn (·.weight.complexity) right left := Std.TransCmp.opposite
  infer_instance

/-- The first measure is at most the second. -/
def Specificity.atMost (left right : Specificity) : Bool :=
  (left.compare right).isLE

section Order

variable {a b c : Specificity}

theorem Specificity.atMost_refl (a : Specificity) : a.atMost a :=
  Std.ReflCmp.isLE_rfl

theorem Specificity.atMost_trans (hab : a.atMost b) (hbc : b.atMost c) : a.atMost c :=
  Std.TransCmp.isLE_trans hab hbc

theorem Specificity.compare_swap (a b : Specificity) : b.compare a = (a.compare b).swap :=
  Std.OrientedCmp.eq_swap

theorem Specificity.atMost_of_compare_lt (h : a.compare b = .lt) : a.atMost b := by
  simp [atMost, h]

theorem Specificity.not_atMost_of_compare_lt (h : a.compare b = .lt) : b.atMost a = false := by
  simp [atMost, compare_swap a b, h]

theorem Specificity.atMost_of_compare_gt (h : a.compare b = .gt) : b.atMost a := by
  simp [atMost, compare_swap a b, h]

theorem Specificity.atMost_of_compare_eq (h : a.compare b = .eq) : a.atMost b ∧ b.atMost a := by
  simp [atMost, compare_swap a b, h]

/-- Every measure of a sensible size is better than the worst one. -/
theorem Specificity.compare_worst (h : a.weight.paramUses < UInt64.size - 1) :
    a.compare .worst = .lt := by
  have huses : Ord.compare a.weight.paramUses (UInt64.size - 1) = .lt := Nat.compare_eq_lt.2 h
  simp only [compare, worst, huses]
  cases a.generic <;> rfl

end Order

/-! ## What a scan keeps -/

section Scan

variable (measure : FunctionDef → Specificity) (taken : FunctionDef → Option Substitution)

/-- The candidates that take the call. -/
def compatible (candidates : List FunctionDef) : List FunctionDef :=
  candidates.filter fun candidate => (taken candidate).isSome

/-- The functions of least measure. -/
def mostSpecific (functions : List FunctionDef) : List FunctionDef :=
  functions.filter fun function =>
    functions.all fun other => (measure function).atMost (measure other)

/-- The scan after every candidate of a list, with known measures and rules. -/
def considered (candidates : List FunctionDef) : Scan :=
  candidates.foldl (fun scan candidate =>
    scan.consider candidate (measure candidate) (taken candidate)) {}

/-- A function with the rules under which it takes the call. -/
def withRules (functions : List FunctionDef) : List (FunctionDef × Substitution) :=
  functions.filterMap fun function => (taken function).map (function, ·)

variable {measure taken}

theorem mem_mostSpecific {function : FunctionDef} :
    function ∈ mostSpecific measure functions ↔ function ∈ functions ∧
      ∀ other ∈ functions, (measure function).atMost (measure other) := by
  simp [mostSpecific]

/-- One more function that is less specific than one of the others. -/
theorem mostSpecific_append_of_gt (hleast : least ∈ mostSpecific measure functions)
    (hlast : (measure last).compare (measure least) = .gt) :
    mostSpecific measure (functions ++ [last]) = mostSpecific measure functions := by
  obtain ⟨hmem, hmin⟩ := mem_mostSpecific.1 hleast
  have hbelow := Specificity.atMost_of_compare_gt hlast
  have habove : (measure last).atMost (measure least) = false := by
    simp [Specificity.atMost, hlast]
  unfold mostSpecific
  rw [filter_append]
  have hnew : [last].filter (fun function => (functions ++ [last]).all fun other =>
      (measure function).atMost (measure other)) = [] := by
    simp only [filter_eq_nil_iff, mem_singleton, forall_eq, all_eq_true]
    intro hall
    have := hall least (by simp [hmem])
    rw [habove] at this
    cases this
  rw [hnew, append_nil]
  refine filter_congr fun function hfunction => ?_
  rw [all_append, Bool.and_eq_left_iff_imp]
  intro hall
  have hle : (measure function).atMost (measure least) := by
    rw [all_eq_true] at hall
    exact hall least hmem
  simpa using Specificity.atMost_trans hle hbelow

theorem filter_last_of_atMost (hmin : ∀ other ∈ functions, (measure least).atMost (measure other))
    (hbelow : (measure last).atMost (measure least)) :
    [last].filter (fun function => (functions ++ [last]).all fun other =>
      (measure function).atMost (measure other)) = [last] := by
  rw [filter_eq_self, forall_mem_singleton, all_eq_true, forall_mem_append, forall_mem_singleton]
  exact ⟨fun other hother => Specificity.atMost_trans hbelow (hmin other hother),
    Specificity.atMost_refl _⟩

/-- One more function that is more specific than the least of the others. -/
theorem mostSpecific_append_of_lt (hleast : least ∈ mostSpecific measure functions)
    (hlast : (measure last).compare (measure least) = .lt) :
    mostSpecific measure (functions ++ [last]) = [last] := by
  obtain ⟨_, hmin⟩ := mem_mostSpecific.1 hleast
  have hbelow := Specificity.atMost_of_compare_lt hlast
  unfold mostSpecific
  rw [filter_append]
  have hold : functions.filter (fun function => (functions ++ [last]).all fun other =>
      (measure function).atMost (measure other)) = [] := by
    rw [filter_eq_nil_iff]
    intro function hfunction hall
    rw [all_eq_true] at hall
    have hle := Specificity.atMost_trans (hmin function hfunction) (hall last (by simp))
    rw [Specificity.not_atMost_of_compare_lt hlast] at hle
    cases hle
  rw [hold, filter_last_of_atMost hmin hbelow, nil_append]

/-- One more function that is just as specific as the least of the others. -/
theorem mostSpecific_append_of_eq (hleast : least ∈ mostSpecific measure functions)
    (hlast : (measure last).compare (measure least) = .eq) :
    mostSpecific measure (functions ++ [last]) = mostSpecific measure functions ++ [last] := by
  obtain ⟨hmem, hmin⟩ := mem_mostSpecific.1 hleast
  obtain ⟨hbelow, habove⟩ := Specificity.atMost_of_compare_eq hlast
  unfold mostSpecific
  rw [filter_append]
  congr 1
  · refine filter_congr fun function hfunction => ?_
    rw [all_append, Bool.and_eq_left_iff_imp]
    intro hall
    rw [all_eq_true] at hall
    simpa using Specificity.atMost_trans (hall least hmem) habove
  · exact filter_last_of_atMost hmin hbelow

/-- What is known after a scan: the best measure is that of a most specific candidate, and
exactly the most specific candidates are kept. -/
structure Summarises (measure : FunctionDef → Specificity)
    (taken : FunctionDef → Option Substitution) (scan : Scan) (found : List FunctionDef) :
    Prop where
  best : (scan.best = none ∧ found = []) ∨
    ∃ least ∈ mostSpecific measure found, scan.best = some (measure least)
  kept : scan.kept = withRules taken (mostSpecific measure found)

theorem Summarises.consider {scan : Scan} {found : List FunctionDef}
    (h : Summarises measure taken scan found) (hlast : taken last = some rules) :
    Summarises measure taken (scan.consider last (measure last) (some rules))
      (found ++ [last]) := by
  have hself : last ∈ mostSpecific measure [last] := by
    simp [mem_mostSpecific, Specificity.atMost_refl]
  rcases h.best with ⟨hnone, rfl⟩ | ⟨least, hleast, hbest⟩
  · have hsingle : mostSpecific measure [last] = [last] := by
      simp [mostSpecific, Specificity.atMost_refl]
    have hscan : scan.consider last (measure last) (some rules) =
        { best := some (measure last), kept := [(last, rules)] } := by
      simp [Scan.consider, Scan.compare, hnone]
    rw [hscan, nil_append]
    exact ⟨Or.inr ⟨last, hself, rfl⟩, by simp [hsingle, withRules, hlast]⟩
  · have hcompare : scan.compare (measure last) = (measure last).compare (measure least) := by
      simp [Scan.compare, hbest]
    cases horder : (measure last).compare (measure least) with
    | gt =>
      have hscan : scan.consider last (measure last) (some rules) = scan := by
        simp [Scan.consider, hcompare, horder]
      have hsame := mostSpecific_append_of_gt hleast horder
      rw [hscan]
      exact ⟨Or.inr ⟨least, by rw [hsame]; exact hleast, hbest⟩, by rw [hsame]; exact h.kept⟩
    | lt =>
      have hscan : scan.consider last (measure last) (some rules) =
          { best := some (measure last), kept := [(last, rules)] } := by
        simp [Scan.consider, hcompare, horder]
      have hsingle := mostSpecific_append_of_lt hleast horder
      rw [hscan]
      exact ⟨Or.inr ⟨last, by simp [hsingle], rfl⟩, by simp [hsingle, withRules, hlast]⟩
    | eq =>
      have hscan : scan.consider last (measure last) (some rules) =
          { scan with kept := scan.kept ++ [(last, rules)] } := by
        simp [Scan.consider, hcompare, horder]
      have hgrown := mostSpecific_append_of_eq hleast horder
      rw [hscan]
      refine ⟨Or.inr ⟨least, by simp [hgrown, hleast], hbest⟩, ?_⟩
      simp [hgrown, withRules, hlast, h.kept]

/-- The scan of a list keeps the most specific of the candidates that take the call. -/
theorem considered_summarises (candidates : List FunctionDef) :
    Summarises measure taken (considered measure taken candidates)
      (compatible taken candidates) := by
  induction candidates using reverseRecOn with
  | nil => exact ⟨Or.inl ⟨rfl, rfl⟩, rfl⟩
  | append_singleton candidates last ih =>
    have hscan : considered measure taken (candidates ++ [last]) =
        (considered measure taken candidates).consider last (measure last) (taken last) := by
      simp [considered]
    rw [hscan]
    cases hlast : taken last with
    | none =>
      have hsame : compatible taken (candidates ++ [last]) = compatible taken candidates := by
        simp [compatible, hlast]
      rw [hsame]
      exact ih
    | some rules =>
      have hgrown : compatible taken (candidates ++ [last]) =
          compatible taken candidates ++ [last] := by
        simp [compatible, hlast]
      rw [hgrown]
      exact ih.consider hlast

theorem considered_kept (candidates : List FunctionDef) :
    (considered measure taken candidates).kept =
      withRules taken (mostSpecific measure (compatible taken candidates)) :=
  (considered_summarises candidates).kept

/-- A scan that starts from the worst measure keeps the same candidates. -/
theorem considered_from_worst
    (hsmall : ∀ function ∈ candidates, (measure function).weight.paramUses < UInt64.size - 1) :
    let step (scan : Scan) candidate := scan.consider candidate (measure candidate) (taken candidate)
    (candidates.foldl step { best := some .worst }).kept = (candidates.foldl step {}).kept := by
  intro step
  induction candidates with
  | nil => rfl
  | cons first rest ih =>
    obtain ⟨hfirst, hrest⟩ := forall_mem_cons.1 hsmall
    rw [foldl_cons, foldl_cons]
    cases htaken : taken first with
    | none => simpa [step, htaken, Scan.consider] using ih hrest
    | some rules =>
      simp [step, htaken, Scan.consider, Scan.compare, Specificity.compare_worst hfirst]

/-- Functions of a finite list have a least measure. -/
theorem mostSpecific_ne_nil (h : compatible taken candidates ≠ []) :
    mostSpecific measure (compatible taken candidates) ≠ [] := by
  have hscan : Summarises measure taken _ _ := considered_summarises candidates
  rcases hscan.best with ⟨_, hnil⟩ | ⟨least, hleast, _⟩
  · exact absurd hnil h
  · exact ne_nil_of_mem hleast

/-- Functions that take the call keep their rules. -/
theorem length_withRules (h : ∀ function ∈ functions, (taken function).isSome) :
    (withRules taken functions).length = functions.length := by
  induction functions with
  | nil => rfl
  | cons function rest ih =>
    obtain ⟨rules, hrules⟩ := Option.isSome_iff_exists.1 (h function (by simp))
    have hrest := ih fun other hother => h other (by simp [hother])
    simpa [withRules, hrules] using hrest

theorem perm_mostSpecific {left right : List FunctionDef} (h : left.Perm right) :
    (mostSpecific measure (compatible taken left)).Perm
      (mostSpecific measure (compatible taken right)) := by
  have hcompatible : (compatible taken left).Perm (compatible taken right) := h.filter _
  unfold mostSpecific
  have hsame : (fun function => (compatible taken left).all fun other =>
      (measure function).atMost (measure other)) =
      fun function => (compatible taken right).all fun other =>
        (measure function).atMost (measure other) := by
    funext function
    rw [Bool.eq_iff_iff, List.all_eq_true, List.all_eq_true]
    exact forall_congr' fun other => by rw [hcompatible.mem_iff]
  rw [hsame]
  exact hcompatible.filter _

end Scan

/-! ## Runs of the scan -/

section Run

variable {fuel : Nat} {call : Call} {arguments : List TypeExpr}

/-- The measure of every candidate, and whether and how it takes the call, as asked of the
table `base`. -/
structure Assessed (base : TypeTable) (fuel : Nat) (call : Call) (arguments : List TypeExpr)
    (candidates : List FunctionDef) (measure : FunctionDef → Specificity)
    (taken : FunctionDef → Option Substitution) : Prop where
  specificity : ∀ candidate ∈ candidates,
    ∃ types, candidate.specificity fuel base = .ok (measure candidate) types
  takes : ∀ candidate ∈ candidates,
    ∃ types, candidate.takes fuel call arguments base = .ok (taken candidate) types

/-- The names in a call, in the types of its arguments and in its candidates are plain. -/
structure PlainCall (call : Call) (arguments : List TypeExpr) (candidates : List FunctionDef) :
    Prop where
  generics : ∀ type ∈ call.generics, type.plain = true
  arguments : ∀ type ∈ arguments, type.plain = true
  candidates : ∀ candidate ∈ candidates, candidate.Plain

variable {measure : FunctionDef → Specificity} {taken : FunctionDef → Option Substitution}

/-- One offer, in any table with the definitions that the candidate was assessed in. -/
theorem offer_of_assessed (hbase : base.Variant base)
    (hnames : PlainCall call arguments [candidate])
    (hassessed : Assessed base fuel call arguments [candidate] measure taken) (scan : Scan)
    (htypes : base.Variant types) :
    ∃ after, base.Variant after ∧
      scan.offer fuel call arguments candidate types =
        .ok (scan.consider candidate (measure candidate) (taken candidate)) after := by
  have hcandidate := hnames.candidates candidate (by simp)
  obtain ⟨u, hspecificity⟩ := hassessed.specificity candidate (by simp)
  obtain ⟨_, mid, hmeasure, htwins⟩ :=
    (specificity_steady hbase.plain fuel hcandidate).ok ⟨hbase, htypes⟩ hspecificity
  rw [Scan.offer_eq, bind_of_ok hmeasure]
  by_cases horder : scan.compare (measure candidate) = .gt
  · refine ⟨mid, htwins.2, ?_⟩
    have hskip : scan.consider candidate (measure candidate) (taken candidate) = scan := by
      cases taken candidate <;> simp [Scan.consider, horder]
    rw [if_pos horder, hskip]
    rfl
  · obtain ⟨v, htakes⟩ := hassessed.takes candidate (by simp)
    obtain ⟨_, after, htaken, htwins'⟩ :=
      (takes_steady hbase.plain fuel hcandidate hnames.generics hnames.arguments).ok
        ⟨hbase, htwins.2⟩ htakes
    refine ⟨after, htwins'.2, ?_⟩
    rw [if_neg horder, bind_of_ok htaken]
    rfl

theorem scanCandidates_of_assessed (hbase : base.Variant base)
    (hnames : PlainCall call arguments candidates)
    (hassessed : Assessed base fuel call arguments candidates measure taken)
    (htypes : base.Variant types) :
    ∃ after, base.Variant after ∧
      scanCandidates fuel call arguments candidates types =
        .ok (considered measure taken candidates) after := by
  -- The fold starts from any scan, so that the induction goes through.
  suffices hfold : ∀ (offered : List FunctionDef) (start : Scan) (types : TypeTable),
      offered ⊆ candidates → base.Variant types →
      ∃ after, base.Variant after ∧
        offered.foldlM (Scan.offer fuel call arguments) start types =
          .ok (offered.foldl (fun scan candidate =>
            scan.consider candidate (measure candidate) (taken candidate)) start) after from
    hfold candidates {} types (fun _ h => h) htypes
  intro offered
  induction offered with
  | nil => exact fun start types _ htypes => ⟨types, htypes, rfl⟩
  | cons candidate rest ih =>
    intro start types hsub htypes
    have hmem : candidate ∈ candidates := hsub (by simp)
    have hone : PlainCall call arguments [candidate] :=
      ⟨hnames.generics, hnames.arguments, by simpa using hnames.candidates candidate hmem⟩
    have hassess : Assessed base fuel call arguments [candidate] measure taken :=
      ⟨by simpa using hassessed.specificity candidate hmem,
        by simpa using hassessed.takes candidate hmem⟩
    obtain ⟨mid, hmid, hoffer⟩ := offer_of_assessed hbase hone hassess start htypes
    obtain ⟨after, hafter, hrest⟩ := ih _ mid (fun c hc => hsub (by simp [hc])) hmid
    refine ⟨after, hafter, ?_⟩
    rw [foldlM_cons, bind_of_ok hoffer, hrest, foldl_cons]

theorem callKey_steady (hgenerics : ∀ type ∈ call.generics, type.plain)
    (harguments : ∀ type ∈ arguments, type.plain) :
    Steady base.Twins (fun _ => True) (callKey call arguments) :=
  (canonicalNames_steady call.generics (plainAll_iff.2 hgenerics)).bind fun _ _ =>
    (canonicalNames_steady arguments (plainAll_iff.2 harguments)).bind fun _ _ =>
      .pure trivial

/-- A resolution that finds no remembered answer settles on what the scan keeps. -/
theorem resolve_eq_settle {program : Program} (hbase : program.types.Variant program.types)
    (hlength : arguments.length = call.arguments.length)
    (hnames : PlainCall call arguments (program.candidates call)) {key : String}
    (hkey : callKey call arguments program.types = .ok key types)
    (hmiss : program.memo.calls.lookup key = none)
    (hassessed : Assessed program.types fuel call arguments (program.candidates call) measure
      taken) :
    ∃ after, program.types.Variant after ∧
      resolve fuel call arguments program =
        settle key call arguments
          (withRules taken (mostSpecific measure (compatible taken (program.candidates call))))
          { program with types := after } := by
  obtain ⟨_, types', hkey', htwins⟩ := (callKey_steady hnames.generics hnames.arguments).ok
    ⟨hbase, hbase⟩ hkey
  obtain ⟨after, hafter, hscan⟩ := scanCandidates_of_assessed hbase hnames hassessed htwins.1
  refine ⟨after, hafter, ?_⟩
  rw [resolve_of_scanned hlength hkey hmiss hscan, considered_kept]

end Run

/-! ## Outcomes -/

section Outcome

variable {key : String} {call : Call} {arguments : List TypeExpr} {program : Program}

/-- Two programs that remember the same, in orderly tables with the same definitions. -/
structure Program.Twins (base : TypeTable) (left right : Program) : Prop where
  types : base.Twins left.types right.types
  memo : left.memo = right.memo

theorem liftProgram_steady {α : Type} {good : α → Prop} {query : TypeQuery α}
    (h : Steady base.Twins good query) :
    Steady (Twins base) good (liftM query : ProgramQuery α) :=
  .on (fun _ _ hst => hst.types) (fun _ _ _ _ hst huv => ⟨huv, hst.memo⟩) h

theorem boundNames_steady (function : FunctionDef)
    (hrules : ∀ entry ∈ rules, entry.2.plain) (generics : List String) :
    Steady base.Twins (fun _ => True) (boundNames function rules generics) := by
  induction generics with
  | nil => exact .pure trivial
  | cons generic rest ih =>
    have hdemand : Steady base.Twins (fun type : TypeExpr => type.plain)
        (demand (.inconsistent (.unboundGeneric generic function.name))
          (rules.find? generic)) := by
      cases hfind : rules.find? generic with
      | none => exact .throw _
      | some type => exact .pure (hrules _ (mem_of_lookup hfind))
    refine hdemand.bind fun type htype => ?_
    exact (canonicalName_steady type htype).bind fun _ _ => ih.bind fun _ _ => .pure trivial

/-- What a chosen candidate stands for depends on the memory and the definitions only. -/
theorem choose_steady (function : FunctionDef) (hrules : ∀ entry ∈ rules, entry.2.plain) :
    Steady (Twins base) (fun _ => True) (choose function rules) := by
  unfold choose
  refine .ite ?_ (.pure trivial)
  rw [instantiate_eq]
  refine (liftProgram_steady (boundNames_steady function hrules _)).bind fun names _ => ?_
  intro left right htwins
  have hget : ∀ program : Program, (get : ProgramQuery Program) program = .ok program program :=
    fun _ => rfl
  rw [bind_of_ok (hget left), bind_of_ok (hget right), ← htwins.memo]
  cases left.memo.instances.lookup (function.instanceKey names) with
  | some known => exact .ok ⟨rfl, trivial⟩ htwins
  | none => exact .ok ⟨rfl, trivial⟩ ⟨htwins.types, by simp [htwins.memo]⟩

theorem answer_settle_single (function : FunctionDef) (rules : Substitution) :
    (settle key call arguments [(function, rules)]).answer program =
      ((choose function rules).answer program).map some := by
  rw [settle_single, answer, answer]
  cases hchoose : choose function rules program with
  | ok found after =>
    rw [bind_of_ok hchoose]
    rfl
  | error cause after =>
    rw [bind_of_error hchoose]
    rfl

theorem answer_settle_of_lt {kept : List (FunctionDef × Substitution)} (h : 1 < kept.length) :
    (settle key call arguments kept).answer program =
      .error (.ambiguousCall call.render (renderList arguments) kept.length
        call.span) := by
  match kept with
  | first :: second :: rest => rfl

end Outcome

/-! ## The whole resolution -/

/-- A call that has no remembered answer and whose candidates could all be assessed, in a
program with plain names whose generic types are records. -/
structure FreshCall (program : Program) (fuel : Nat) (call : Call) (arguments : List TypeExpr)
    (measure : FunctionDef → Specificity) (taken : FunctionDef → Option Substitution) :
    Prop where
  reached : program.types.Reached
  plain : program.types.Plain
  records : program.types.OnlyRecordsGeneric
  names : PlainCall call arguments (program.candidates call)
  length : arguments.length = call.arguments.length
  miss : ∃ key types, callKey call arguments program.types = .ok key types ∧
    program.memo.calls.lookup key = none
  assessed : Assessed program.types fuel call arguments (program.candidates call) measure taken

namespace FreshCall

variable {program : Program} {fuel : Nat} {call : Call} {arguments : List TypeExpr}
  {measure : FunctionDef → Specificity} {taken : FunctionDef → Option Substitution}
  (h : FreshCall program fuel call arguments measure taken)

include h

theorem stable : program.types.Stable :=
  ⟨h.plain, h.records⟩

theorem answer_eq_settle : ∃ key after, program.types.Variant after ∧
      (resolve fuel call arguments).answer program =
        answer (settle key call arguments
          (withRules taken (mostSpecific measure (compatible taken (program.candidates call)))))
          { program with types := after } := by
  obtain ⟨key, types, hkey, hmiss⟩ := h.miss
  obtain ⟨after, hafter, hresolve⟩ := resolve_eq_settle (h.reached.variant h.stable) h.length
    h.names hkey hmiss h.assessed
  refine ⟨key, after, hafter, ?_⟩
  rw [answer, answer, hresolve]

theorem answer_of_none
    (hnone : mostSpecific measure (compatible taken (program.candidates call)) = []) :
    (resolve fuel call arguments).answer program = .ok none := by
  obtain ⟨key, after, _, hanswer⟩ := h.answer_eq_settle
  rw [hanswer, hnone]
  rfl

theorem answer_of_many
    (hmany : 1 < (mostSpecific measure (compatible taken (program.candidates call))).length) :
    (resolve fuel call arguments).answer program =
      .error (.ambiguousCall call.render (renderList arguments)
        (mostSpecific measure (compatible taken (program.candidates call))).length call.span) := by
  obtain ⟨key, after, _, hanswer⟩ := h.answer_eq_settle
  have hlength : (withRules taken
      (mostSpecific measure (compatible taken (program.candidates call)))).length =
      (mostSpecific measure (compatible taken (program.candidates call))).length := by
    refine length_withRules fun function hfunction => ?_
    have hcompatible := (mem_mostSpecific.1 hfunction).1
    exact (mem_filter.1 hcompatible).2
  rw [hanswer, answer_settle_of_lt (by rwa [hlength]), hlength]

theorem answer_of_single
    (hsingle : mostSpecific measure (compatible taken (program.candidates call)) = [candidate]) :
    ∃ rules, taken candidate = some rules ∧ (∀ entry ∈ rules, entry.2.plain) ∧
      (resolve fuel call arguments).answer program =
        ((choose candidate rules).answer program).map some := by
  have hmem : candidate ∈ mostSpecific measure (compatible taken (program.candidates call)) := by
    simp [hsingle]
  have hcompatible := (mem_mostSpecific.1 hmem).1
  obtain ⟨hcandidate, hsome⟩ := mem_filter.1 hcompatible
  obtain ⟨rules, hrules⟩ := Option.isSome_iff_exists.1 hsome
  have hvariant := h.reached.variant h.stable
  obtain ⟨types, htakes⟩ := h.assessed.takes candidate hcandidate
  have hplain : ∀ entry ∈ rules, entry.2.plain :=
    ((takes_steady h.stable fuel (h.names.candidates candidate hcandidate) h.names.generics
      h.names.arguments).ok ⟨hvariant, hvariant⟩ htakes).1 rules hrules
  obtain ⟨key, after, hafter, hanswer⟩ := h.answer_eq_settle
  refine ⟨rules, hrules, hplain, ?_⟩
  have hkept : withRules taken [candidate] = [(candidate, rules)] := by
    simp [withRules, hrules]
  have htwins : Twins program.types { program with types := after } program :=
    ⟨⟨hafter, hvariant⟩, rfl⟩
  rw [hanswer, hsingle, hkept, answer_settle_single,
    (choose_steady candidate hplain).answer_eq htwins]

/-- The same call in a program whose candidates stand in another order. -/
theorem reordered (htypes : other.types = program.types) (hmemo : other.memo = program.memo)
    (hperm : (other.candidates call).Perm (program.candidates call)) :
    FreshCall other fuel call arguments measure taken where
  reached := htypes ▸ h.reached
  plain := htypes ▸ h.plain
  records := htypes ▸ h.records
  names := ⟨h.names.generics, h.names.arguments,
    fun candidate hmem => h.names.candidates candidate (hperm.mem_iff.1 hmem)⟩
  length := h.length
  miss := by
    rw [htypes, hmemo]
    exact h.miss
  assessed := by
    rw [htypes]
    exact ⟨fun candidate hmem => h.assessed.specificity candidate (hperm.mem_iff.1 hmem),
      fun candidate hmem => h.assessed.takes candidate (hperm.mem_iff.1 hmem)⟩

theorem answer_reordered (htypes : other.types = program.types) (hmemo : other.memo = program.memo)
    (hperm : (other.candidates call).Perm (program.candidates call)) :
    (resolve fuel call arguments).answer other = (resolve fuel call arguments).answer program := by
  have hother := h.reordered htypes hmemo hperm
  have hbest : (mostSpecific measure (compatible taken (other.candidates call))).Perm
      (mostSpecific measure (compatible taken (program.candidates call))) :=
    perm_mostSpecific hperm
  match hcase : mostSpecific measure (compatible taken (program.candidates call)) with
  | [] =>
    rw [hcase] at hbest
    rw [h.answer_of_none hcase, hother.answer_of_none hbest.eq_nil]
  | [candidate] =>
    rw [hcase] at hbest
    obtain ⟨rules, hrules, hplain, hanswer⟩ := h.answer_of_single hcase
    obtain ⟨rules', hrules', _, hanswer'⟩ := hother.answer_of_single (perm_singleton.1 hbest)
    rw [hrules] at hrules'
    cases hrules'
    have hvariant := h.reached.variant h.stable
    have htwins : Twins program.types other program := ⟨⟨htypes ▸ hvariant, hvariant⟩, hmemo⟩
    rw [hanswer, hanswer', (choose_steady candidate hplain).answer_eq htwins]
  | first :: second :: rest =>
    have hmany : 1 < (mostSpecific measure
        (compatible taken (program.candidates call))).length := by
      simp [hcase]
    have hlength := hbest.length_eq
    rw [h.answer_of_many hmany, hother.answer_of_many (by rwa [hlength]), hlength]

end FreshCall

/-- A resolution answers nothing exactly if no candidate takes the call.  Otherwise it
selects the candidate of least measure among those that take it, and finds the call
ambiguous if there are several.  The outcome does not depend on the order of the
candidates. -/
theorem resolve_selects_most_specific {program : Program} {fuel : Nat} {call : Call}
    {arguments : List TypeExpr} {measure : FunctionDef → Specificity}
    {taken : FunctionDef → Option Substitution}
    (h : FreshCall program fuel call arguments measure taken) :
    ((resolve fuel call arguments).answer program = .ok none ↔
        compatible taken (program.candidates call) = []) ∧
      (1 < (mostSpecific measure (compatible taken (program.candidates call))).length →
        (resolve fuel call arguments).answer program =
          .error (.ambiguousCall call.render (renderList arguments)
            (mostSpecific measure (compatible taken (program.candidates call))).length
            call.span)) ∧
      (∀ candidate,
        mostSpecific measure (compatible taken (program.candidates call)) = [candidate] →
        ∃ rules, taken candidate = some rules ∧
          (resolve fuel call arguments).answer program =
            ((choose candidate rules).answer program).map some) ∧
      (∀ other : Program, other.types = program.types → other.memo = program.memo →
        (other.candidates call).Perm (program.candidates call) →
        (resolve fuel call arguments).answer other =
          (resolve fuel call arguments).answer program) := by
  refine ⟨⟨?_, ?_⟩, h.answer_of_many, ?_, fun other => h.answer_reordered⟩
  · intro hanswer
    by_contra hcompatible
    match hcase : mostSpecific measure (compatible taken (program.candidates call)) with
    | [] => exact mostSpecific_ne_nil hcompatible hcase
    | [candidate] =>
      obtain ⟨rules, _, _, hsingle⟩ := h.answer_of_single hcase
      rw [hanswer] at hsingle
      cases hchoose : (choose candidate rules).answer program <;>
        simp [hchoose, Except.map] at hsingle
    | first :: second :: rest =>
      rw [h.answer_of_many (by simp [hcase])] at hanswer
      cases hanswer
  · intro hcompatible
    exact h.answer_of_none (by rw [hcompatible]; rfl)
  · intro candidate hsingle
    obtain ⟨rules, hrules, _, hanswer⟩ := h.answer_of_single hsingle
    exact ⟨rules, hrules, hanswer⟩

/-- The function `f` that takes an integer. -/
def ofInteger : FunctionDef :=
  { name := "f", parameters := [{ name := "x", type := .int }], origin := "main.mer" }

/-- Of a generic function and one for integers, a call with an integer selects the latter. -/
theorem resolve_selects_ofInteger :
    ∃ measure taken,
      FreshCall (ofOneFile [manyOf 1, ofInteger]) 8 (callWith 1) [.int] measure taken ∧
        compatible taken ((ofOneFile [manyOf 1, ofInteger]).candidates (callWith 1)) =
          [manyOf 1, ofInteger] ∧
        (resolve 8 (callWith 1) [.int]).answer (ofOneFile [manyOf 1, ofInteger]) =
          .ok (some ofInteger) := by
  let program := ofOneFile [manyOf 1, ofInteger]
  let measure : FunctionDef → Specificity := fun candidate =>
    { generic := candidate.isGeneric
      weight := { paramUses := if candidate.isGeneric then 1 else 0 } }
  let taken : FunctionDef → Option Substitution := fun candidate =>
    some (if candidate.isGeneric then [("T", .int)] else [])
  have hcandidates : program.candidates (callWith 1) = [manyOf 1, ofInteger] := rfl
  have hfresh : FreshCall program 8 (callWith 1) [.int] measure taken := by
    refine ⟨.empty _, ⟨by decide, by decide⟩, by decide, ⟨by decide, by decide, ?_⟩, rfl,
      ⟨_, _, rfl, rfl⟩, ⟨?_, ?_⟩⟩ <;> rw [hcandidates] <;> simp only [forall_mem_cons]
    · exact ⟨by unfold FunctionDef.Plain; decide, by unfold FunctionDef.Plain; decide, by simp⟩
    · exact ⟨⟨_, rfl⟩, ⟨_, rfl⟩, by simp⟩
    · exact ⟨⟨_, rfl⟩, ⟨_, rfl⟩, by simp⟩
  have hbest : mostSpecific measure (compatible taken [manyOf 1, ofInteger]) = [ofInteger] := rfl
  obtain ⟨rules, _, hanswer⟩ :=
    (resolve_selects_most_specific hfresh).2.2.1 ofInteger (hcandidates ▸ hbest)
  refine ⟨measure, taken, hfresh, ?_, hanswer⟩
  rw [show (ofOneFile [manyOf 1, ofInteger]).candidates (callWith 1) = [manyOf 1, ofInteger]
    from hcandidates]
  rfl

end Accord
