import Accord.Proofs.Call.Keys
import Accord.Proofs.Call.Provenance
import Accord.Proofs.Types.History

/-!
# What memory adds to the answers

A program of functions that are not generic remembers the answers it has given and gives them
again under the same key.  Such a program answers as it would with an empty memory, if the
calls it is asked about can be read back from their keys.

* `finds_of_scan` compares two calls of one key: what a scan keeps for the first, every later
  scan keeps for the second.
* `asked_cases` says what a request does to a program that is not generic.
* `Recalls` is the invariant of the memory, as seen from a request that is still to come: an
  answer remembered under the key of that request is what a scan would find for it.
* `asked_recalls` is the step of the invariant and `askedAll_recalls` the run.
-/

namespace Accord

open Query TypeExpr Program

variable {kept : List (FunctionDef × Substitution)} {types : TypeTable} {key : String}
  {found : Option FunctionDef}

/-! ## Answers -/

/-- What a program answers to a request. -/
def Request.answer (request : Request) (program : Program) :
    Except Diagnostic (Option FunctionDef) :=
  (resolve request.fuel request.call request.arguments).answer program

/-- The program with an empty memory. -/
def Program.forget (program : Program) : Program :=
  { program with memo := {} }

/-- The answer to a call for which a scan has kept the given functions. -/
def verdict (call : Call) (arguments : List TypeExpr) :
    List FunctionDef → Except Diagnostic (Option FunctionDef)
  | [] => .ok none
  | [function] => .ok (some function)
  | functions => .error
      (.ambiguousCall call.render (renderList arguments) functions.length call.span)

theorem verdict_toList (call : Call) (arguments : List TypeExpr) (found : Option FunctionDef) :
    verdict call arguments found.toList = .ok found := by
  cases found with
  | none => rfl
  | some function => rfl

/-- Functions that are not generic are answered as they are kept. -/
theorem settle_answer (key : String) (call : Call) (arguments : List TypeExpr)
    (hconcrete : ∀ entry ∈ kept, entry.1.isGeneric = false) (program : Program) :
    (settle key call arguments kept).answer program = verdict call arguments (kept.map (·.1)) := by
  match kept with
  | [] => rfl
  | [(function, rules)] =>
    have hfunction := hconcrete (function, rules) List.mem_cons_self
    rw [settle_single, choose, hfunction]
    rfl
  | first :: second :: rest =>
    have hlength : (first :: second :: rest).length =
        ((first :: second :: rest).map (·.1)).length := (List.length_map _).symm
    exact congrArg (fun count => Except.error (Diagnostic.ambiguousCall call.render
      (renderList arguments) count call.span)) hlength

/-- What is found is remembered. -/
theorem settle_remembers (key : String) (call : Call) (arguments : List TypeExpr)
    (hconcrete : ∀ entry ∈ kept, entry.1.isGeneric = false) (program : Program) :
    Ends (fun found after => after.types = program.types ∧ kept.map (·.1) = found.toList ∧
        after.memo.calls = found.toList.map (key, ·) ++ program.memo.calls)
      (fun _ after => after = program) (settle key call arguments kept program) := by
  match kept with
  | [] => exact .ok ⟨rfl, rfl, rfl⟩
  | [(function, rules)] =>
    have hfunction := hconcrete (function, rules) List.mem_cons_self
    rw [settle_single, choose, hfunction]
    exact .ok ⟨rfl, rfl, rfl⟩
  | first :: second :: rest => exact .error rfl

/-! ## Programs without generic functions -/

/-- Every function is concrete, and the names in the program can be read back from keys. -/
structure Program.Concrete (program : Program) : Prop extends program.Spelled where
  packages : program.types.Identified
  concrete : ∀ function ∈ program.functions.functions, function.isGeneric = false

section Candidates

variable {program : Program} {call call' : Call}

theorem Program.Concrete.candidate (h : program.Concrete) {candidate : FunctionDef}
    (hmem : candidate ∈ program.candidates call) : candidate.isGeneric = false :=
  h.concrete candidate (mem_functions_of_candidate hmem)

/-- A call with type arguments has no candidates. -/
theorem Program.Concrete.candidates_eq_nil (h : program.Concrete) (hgenerics : call.generics ≠ []) :
    program.candidates call = [] := by
  refine List.eq_nil_iff_forall_not_mem.2 fun candidate hmem => hgenerics ?_
  exact generics_of_candidate hmem (h.candidate hmem)

/-- The place of a call, if it is known to be a package or to be a file, and its counts
determine its candidates. -/
theorem Program.candidates_of_place (program : Program) (hplace : call.place = call'.place)
    (hqualified : call.qualifier.isSome = call'.qualifier.isSome) (hname : call.name = call'.name)
    (hgenerics : call.generics.length = call'.generics.length)
    (harguments : call.arguments.length = call'.arguments.length) :
    program.candidates call = program.candidates call' := by
  have hpackages : program.project.visiblePackages call.qualifier call.origin =
      program.project.visiblePackages call'.qualifier call'.origin := by
    unfold Call.place at hplace
    cases hleft : call.qualifier with
    | none =>
      cases hright : call'.qualifier with
      | none =>
        rw [hleft, hright] at hplace
        rw [show call.origin = call'.origin from hplace]
      | some package =>
        rw [hleft, hright] at hqualified
        cases hqualified
    | some package =>
      cases hright : call'.qualifier with
      | none =>
        rw [hleft, hright] at hqualified
        cases hqualified
      | some package' =>
        rw [hleft, hright] at hplace
        rw [show package = package' from hplace]
        rfl
  unfold candidates Call.candidateKeys
  rw [hpackages, hname, hgenerics, harguments]

end Candidates

/-! ## Calls of one key -/

/-- The request can be read back from its key. -/
def Request.Legible (parameters : List String) (request : Request) : Prop :=
  request.call.Legible parameters request.arguments

/-- The key spells the request. -/
def Request.SpelledAs (program : Program) (request : Request) (key : String) : Prop :=
  request.call.SpelledAs program.types request.arguments key

/-- The answer to the first request may serve for the second, if they have one key. -/
structure Request.Serves (parameters : List String) (earlier request : Request) : Prop where
  legible : earlier.Legible parameters
  /-- With less fuel than before, a scan might not come to an end. -/
  fuel : earlier.fuel ≤ request.fuel
  /-- A package and a file of one name are not both called from. -/
  place : earlier.call.place = request.call.place →
    earlier.call.qualifier.isSome = request.call.qualifier.isSome

/-- From the given types on, a scan for the request keeps the given functions. -/
def Request.Finds (request : Request) (program : Program) (types : TypeTable)
    (functions : List FunctionDef) : Prop :=
  ∀ later, program.types.SpelledOver later → types.Before later →
    ∃ scan, scanCandidates request.fuel request.call request.arguments
      (program.candidates request.call) later = .ok scan later ∧ scan.kept.map (·.1) = functions

theorem Request.Finds.mono {request : Request} {program : Program} {types' : TypeTable}
    {functions : List FunctionDef} (h : request.Finds program types functions)
    (hbefore : types.Before types') : request.Finds program types' functions :=
  fun later hlater hgrown => h later hlater (hbefore.trans hgrown)

section OneKey

variable {program : Program} {parameters : List String} {earlier request : Request}

/-- A scan for matching types keeps the same functions. -/
theorem scan_matches (hprogram : program.Concrete) (offered : Call) {fuel fuel' : Nat}
    (hfuel : fuel ≤ fuel') {call call' : Call}
    (hgenerics : List.Forall₂ program.types.Matches call.generics call'.generics)
    {arguments arguments' : List TypeExpr}
    (harguments : List.Forall₂ program.types.Matches arguments arguments') :
    program.types.kind.held.Replays (fun scan scan' => scan.kept.map (·.1) = scan'.kept.map (·.1))
      (scanCandidates fuel call arguments (program.candidates offered))
      (scanCandidates fuel' call' arguments' (program.candidates offered)) := by
  have hcandidates : ∀ candidate ∈ program.candidates offered,
      candidate.Related (replayingOf (matches_replaying program.types)) := by
    intro candidate hmem type htype
    have hplain := hprogram.functions candidate (mem_functions_of_candidate hmem)
    exact matches_self type (hplain.1 type htype)
  have hscans := scanCandidates_parallel (replayingOf (matches_replaying program.types)) hfuel
    hgenerics harguments hcandidates
  refine Holder.Replays.mono hscans fun scan scan' hsame => ?_
  rw [← List.forall₂_eq_eq_eq, List.forall₂_map_left_iff, List.forall₂_map_right_iff]
  exact hsame.kept.imp fun _ _ hentry => hentry.1

/-- What a scan keeps for a request, every later scan keeps for another of the same key. -/
theorem finds_of_scan (hprogram : program.Concrete) (hserves : earlier.Serves parameters request)
    (hlegible : request.Legible parameters)
    (hlength : earlier.arguments.length = earlier.call.arguments.length)
    (hlength' : request.arguments.length = request.call.arguments.length)
    (hkey : earlier.SpelledAs program key) (hkey' : request.SpelledAs program key)
    {scanned : TypeTable} (htypes : program.types.SpelledOver types) {scan : Scan}
    (hscan : scanCandidates earlier.fuel earlier.call earlier.arguments
      (program.candidates earlier.call) types = .ok scan scanned) :
    request.Finds program scanned (scan.kept.map (·.1)) := by
  have hkeyed := hprogram.types.toKeyed
  intro later hlater hbefore
  by_cases hgenerics : earlier.call.generics = []
  · obtain ⟨hplace, hname, hgenerics', hmatches⟩ :=
      hserves.legible.matches_of_key hkeyed hprogram.packages hlegible hkey hkey' hgenerics
    have hcandidates : program.candidates earlier.call = program.candidates request.call := by
      refine program.candidates_of_place hplace (hserves.place hplace) hname ?_ ?_
      · rw [hgenerics, hgenerics']
      · rw [← hlength, ← hlength', hmatches.length_eq]
    have hnone : List.Forall₂ program.types.Matches earlier.call.generics
        request.call.generics := by
      rw [hgenerics, hgenerics']
      exact .nil
    rw [hcandidates] at hscan
    have hscans := scan_matches hprogram request.call hserves.fuel hnone hmatches
    obtain ⟨scan', hscan', hsame⟩ := (hscans.ok htypes hscan).later hlater.spelled hbefore
    exact ⟨scan', hscan', hsame.symm⟩
  · -- With type arguments neither request has candidates.
    have hgenerics' : request.call.generics ≠ [] := by
      intro hnone
      obtain ⟨_, _, hnone', _⟩ :=
        hlegible.matches_of_key hkeyed hprogram.packages hserves.legible hkey' hkey hnone
      exact hgenerics hnone'
    rw [hprogram.candidates_eq_nil hgenerics] at hscan
    rw [hprogram.candidates_eq_nil hgenerics']
    cases hscan
    exact ⟨{}, rfl, rfl⟩

end OneKey

/-! ## One request -/

/-- What the memory holds, as seen from a request that is still to come: an answer that is
remembered under the key of the request is what a scan finds for it. -/
structure Recalls (program : Program) (request : Request) (state : Program) : Prop where
  functions : state.functions = program.functions
  types : program.types.SpelledOver state.types
  calls : ∀ key function, (key, function) ∈ state.memo.calls → request.SpelledAs program key →
    request.Finds program state.types [function]

/-- What has become of a program that answered a request. -/
inductive Answered (program : Program) (request : Request) (state : Program) :
    Option FunctionDef → Program → Prop where
  /-- The answer was remembered. -/
  | known {key : String} {function : FunctionDef} {types : TypeTable}
      (spelled : request.SpelledAs program key) (mem : (key, function) ∈ state.memo.calls) :
      Answered program request state (some function) { state with types }
  /-- The candidates were scanned, and what was found is remembered. -/
  | scanned {key : String} {found : Option FunctionDef} {types : TypeTable} {scan : Scan}
      {after : Program} (spelled : request.SpelledAs program key)
      (good : program.types.SpelledOver types)
      (run : scanCandidates request.fuel request.call request.arguments
        (program.candidates request.call) types = .ok scan after.types)
      (kept : scan.kept.map (·.1) = found.toList)
      (calls : after.memo.calls = found.toList.map (key, ·) ++ state.memo.calls) :
      Answered program request state found after

section OneRequest

variable {program : Program} {parameters : List String} {request : Request} {state : Program}

theorem callKey_of_key? (h : request.key? state = some key) :
    ∃ types, callKey request.call request.arguments state.types = .ok key types := by
  rw [Request.key?] at h
  cases hrun : callKey request.call request.arguments state.types with
  | error cause types =>
    rw [hrun] at h
    cases h
  | ok other types =>
    rw [hrun] at h
    cases h
    exact ⟨types, rfl⟩

/-- The key that is made for a request spells it. -/
theorem Request.Legible.spelledAs (h : request.Legible parameters) {named : TypeTable}
    (htypes : program.types.SpelledOver types)
    (hkey : callKey request.call request.arguments types = .ok key named) :
    program.types.SpelledOver named ∧ types.Before named ∧ request.SpelledAs program key := by
  have hrun := Call.Legible.spells h |>.ok htypes hkey
  obtain ⟨_, _, _, hspelled⟩ := hrun.later hrun.good.spelled (.refl _)
  exact ⟨hrun.good, hrun.before, hspelled⟩

/-- A request is answered, or refused without a trace in the memory. -/
theorem resolve_answers (hprogram : program.Concrete) (hlegible : request.Legible parameters)
    (hfunctions : state.functions = program.functions)
    (htypes : program.types.SpelledOver state.types) :
    Ends (fun found after => program.types.SpelledOver after.types ∧
        Answered program request state found after ∧
        request.arguments.length = request.call.arguments.length)
      (fun _ after => program.types.SpelledOver after.types ∧
        after.memo.calls = state.memo.calls)
      (resolve request.fuel request.call request.arguments state) := by
  by_cases hlength : request.arguments.length = request.call.arguments.length
  · cases hkey : callKey request.call request.arguments state.types with
    | error cause types =>
      rw [resolve_of_unnamed hlength hkey]
      exact .error ⟨(Call.Legible.spells hlegible |>.error htypes hkey).good, rfl⟩
    | ok key types =>
      obtain ⟨hnamed, _, hspelled⟩ := hlegible.spelledAs htypes hkey
      cases hlookup : state.memo.calls.lookup key with
      | some function =>
        rw [resolve_of_known hlength hkey hlookup]
        exact .ok ⟨hnamed, .known hspelled (mem_of_lookup hlookup), hlength⟩
      | none =>
        have hcandidates : state.candidates request.call = program.candidates request.call :=
          candidates_congr _ htypes.project hfunctions
        have hscans := scan_matches hprogram request.call (Nat.le_refl request.fuel)
          (matches_of_legible hlegible.generics) (matches_of_legible hlegible.arguments)
        cases hscan : scanCandidates request.fuel request.call request.arguments
            (program.candidates request.call) types with
        | error cause scanned =>
          rw [resolve_of_unscanned hlength hkey hlookup (hcandidates ▸ hscan)]
          exact .error ⟨(hscans.error hnamed hscan).good, rfl⟩
        | ok scan scanned =>
          rw [resolve_of_scanned hlength hkey hlookup (hcandidates ▸ hscan)]
          have hscanned := (hscans.ok hnamed hscan).good
          have hconcrete : ∀ entry ∈ scan.kept, entry.1.isGeneric = false := fun entry hentry =>
            hprogram.candidate (mem_of_kept hscan entry hentry)
          refine (settle_remembers key _ _ hconcrete _).mono (fun found after h => ?_)
            fun cause after h => ?_
          · obtain ⟨hafter, hkept, hcalls⟩ := h
            refine ⟨hafter ▸ hscanned, ?_, hlength⟩
            exact .scanned hspelled hnamed (hafter ▸ hscan) hkept hcalls
          · rw [h]
            exact ⟨hscanned, rfl⟩
  · rw [resolve_of_length_ne hlength]
    exact .error ⟨htypes, rfl⟩

/-- What a request does to a program, and what it is answered. -/
theorem asked_cases (hprogram : program.Concrete) (hlegible : request.Legible parameters)
    (hfunctions : state.functions = program.functions)
    (htypes : program.types.SpelledOver state.types) :
    program.types.SpelledOver (state.asked request).types ∧
      ((∃ cause, request.answer state = .error cause ∧
          (state.asked request).memo.calls = state.memo.calls) ∨
        ∃ found, request.answer state = .ok found ∧
          Answered program request state found (state.asked request) ∧
          request.arguments.length = request.call.arguments.length) := by
  have hends := resolve_answers hprogram hlegible hfunctions htypes
  rw [Request.answer, Program.asked, answer, after]
  generalize resolve request.fuel request.call request.arguments state = result at hends ⊢
  cases hends with
  | error h => exact ⟨h.1, Or.inl ⟨_, rfl, h.2⟩⟩
  | ok h => exact ⟨h.1, Or.inr ⟨_, rfl, h.2⟩⟩

theorem asked_before (state : Program) (request : Request) : state.Before (state.asked request) :=
  resolve_keeps (before_lasting state) request.fuel request.call request.arguments state
    (.refl state)

end OneRequest

/-! ## Every history -/

section Histories

variable {program : Program} {parameters : List String} {earlier request : Request}
  {state : Program} (hprogram : program.Concrete) (hlegible : request.Legible parameters)
  (hlength : request.arguments.length = request.call.arguments.length)

include hprogram hlegible hlength

/-- What one request has been answered, a scan finds for the other. -/
theorem finds_of_answered (h : Recalls program request state)
    (hserves : earlier.Serves parameters request)
    (hanswered : Answered program earlier state found (state.asked earlier))
    (hlength' : earlier.arguments.length = earlier.call.arguments.length)
    (hkey : earlier.SpelledAs program key) (hkey' : request.SpelledAs program key) :
    request.Finds program (state.asked earlier).types found.toList := by
  have hbefore := (asked_before state earlier).types
  generalize state.asked earlier = after at hanswered hbefore ⊢
  cases hanswered with
  | known hspelled hmem =>
    rw [hspelled.unique hkey] at hmem
    exact (h.calls key _ hmem hkey').mono hbefore
  | scanned _ htypes hscan hkept _ =>
    rw [← hkept]
    exact finds_of_scan hprogram hserves hlegible hlength' hlength hkey hkey' htypes hscan

/-- A request leaves nothing behind that would not be found for another. -/
theorem asked_recalls (h : Recalls program request state)
    (hserves : earlier.Serves parameters request) :
    Recalls program request (state.asked earlier) := by
  have hbefore := asked_before state earlier
  have hold : ∀ key function, (key, function) ∈ state.memo.calls →
      request.SpelledAs program key →
        request.Finds program (state.asked earlier).types [function] :=
    fun key function hmem hkey' => (h.calls key function hmem hkey').mono hbefore.types
  obtain ⟨htypes, ⟨_, _, hcalls⟩ | ⟨found, _, hanswered, hlength'⟩⟩ :=
    asked_cases hprogram hserves.legible h.functions h.types
  · refine ⟨hbefore.functions.trans h.functions, htypes, ?_⟩
    rw [hcalls]
    exact hold
  · refine ⟨hbefore.functions.trans h.functions, htypes, fun key function hmem hkey' => ?_⟩
    have hfinds := fun hkey =>
      finds_of_answered hprogram hlegible hlength h hserves hanswered hlength' hkey hkey'
    generalize state.asked earlier = after at hanswered hmem hold hfinds ⊢
    cases hanswered with
    | known _ _ => exact hold key function hmem hkey'
    | scanned hspelled _ _ _ hcalls =>
      rw [hcalls] at hmem
      rcases List.mem_append.1 hmem with hnew | hmem
      · obtain ⟨_, hfound, heq⟩ := List.mem_map.1 hnew
        cases heq
        cases Option.mem_toList.1 hfound
        exact hfinds hspelled
      · exact hold key function hmem hkey'

theorem askedAll_recalls (h : Recalls program request state) {history : List Request}
    (hserves : ∀ earlier ∈ history, earlier.Serves parameters request) :
    Recalls program request (state.askedAll history) := by
  induction history generalizing state with
  | nil => exact h
  | cons earlier rest ih =>
    obtain ⟨hfirst, hrest⟩ := List.forall_mem_cons.1 hserves
    exact ih (asked_recalls hprogram hlegible hlength h hfirst) hrest

omit hprogram hlegible hlength

theorem askedAll_before (state : Program) (history : List Request) :
    state.Before (state.askedAll history) := by
  induction history generalizing state with
  | nil => exact .refl state
  | cons earlier rest ih => exact (asked_before state earlier).trans (ih (state.asked earlier))

theorem recalls_of_fresh (hprogram : program.Concrete) (hfresh : program.memo = {}) :
    Recalls program request program := by
  refine ⟨rfl, ⟨.refl _, hprogram.types⟩, fun key function hmem => ?_⟩
  rw [hfresh] at hmem
  cases hmem

end Histories

/-! ## Answers without memory -/

section Answers

variable {program : Program} {parameters : List String} {request : Request}
  (hprogram : program.Concrete)
  (hlength : request.arguments.length = request.call.arguments.length)

include hprogram hlength

/-- A request that is not remembered is answered as the scan of its candidates has it. -/
theorem answer_of_unknown (state : Program) (hfunctions : state.functions = program.functions)
    (hproject : state.types.project = program.types.project)
    (hkey : callKey request.call request.arguments state.types = .ok key types)
    (hunknown : state.memo.calls.lookup key = none) :
    request.answer state =
      match scanCandidates request.fuel request.call request.arguments
        (program.candidates request.call) types with
      | .ok scan _ => verdict request.call request.arguments (scan.kept.map (·.1))
      | .error cause _ => .error cause := by
  have hcandidates : state.candidates request.call = program.candidates request.call :=
    candidates_congr _ hproject hfunctions
  rw [Request.answer, answer]
  cases hscan : scanCandidates request.fuel request.call request.arguments
      (program.candidates request.call) types with
  | error cause scanned => rw [resolve_of_unscanned hlength hkey hunknown (hcandidates ▸ hscan)]
  | ok scan scanned =>
    rw [resolve_of_scanned hlength hkey hunknown (hcandidates ▸ hscan)]
    exact settle_answer key _ _ (fun entry hentry =>
      hprogram.candidate (mem_of_kept hscan entry hentry)) _

variable {state : Program} (hlegible : request.Legible parameters)

include hlegible

/-- Without memory, the answer is what a scan finds. -/
theorem answer_of_finds (h : Recalls program request state)
    (hkey : callKey request.call request.arguments state.types = .ok key types)
    (hfinds : request.Finds program state.types found.toList) :
    request.answer state.forget = .ok found := by
  obtain ⟨hnamed, hbefore, _⟩ := hlegible.spelledAs h.types hkey
  obtain ⟨scan, hscan, hkept⟩ := hfinds types hnamed hbefore
  have hkey' : callKey request.call request.arguments state.forget.types = .ok key types := hkey
  rw [answer_of_unknown hprogram hlength state.forget h.functions h.types.project hkey' rfl, hscan]
  dsimp only
  rw [hkept, verdict_toList]

/-- Whatever is remembered, the answer is the one that is found without memory. -/
theorem answer_forget (h : Recalls program request state) :
    request.answer state = request.answer state.forget := by
  cases hkey : callKey request.call request.arguments state.types with
  | error cause types =>
    have hkey' : callKey request.call request.arguments state.forget.types = .error cause types :=
      hkey
    rw [Request.answer, Request.answer, answer, answer, resolve_of_unnamed hlength hkey,
      resolve_of_unnamed hlength hkey']
  | ok key types =>
    cases hlookup : state.memo.calls.lookup key with
    | none =>
      have hkey' : callKey request.call request.arguments state.forget.types = .ok key types := hkey
      rw [answer_of_unknown hprogram hlength state h.functions h.types.project hkey hlookup,
        answer_of_unknown hprogram hlength state.forget h.functions h.types.project hkey' rfl]
    | some function =>
      have hspelled := (hlegible.spelledAs h.types hkey).2.2
      have hfinds : request.Finds program state.types (some function).toList :=
        h.calls key function (mem_of_lookup hlookup) hspelled
      rw [Request.answer, answer, resolve_of_known hlength hkey hlookup]
      exact (answer_of_finds hprogram hlength hlegible h hkey hfinds).symm

end Answers

/-- Answers do not depend on what is remembered.  In a program without generic functions, a
request that can be read back from its key is answered, after any history of such requests, as
it would be with an empty memory, and as every earlier request of the same key was answered. -/
theorem answers_need_no_memory {buildFuel : Nat} {project : Project} {program : Program}
    (hbuild : build buildFuel project = .ok program) (hplain : project.Plain)
    (hpackages : program.types.Identified)
    (hconcrete : ∀ function ∈ program.functions.functions, function.isGeneric = false)
    {parameters : List String} {history : List Request} {request : Request}
    (hlegible : request.Legible parameters)
    (hserves : ∀ earlier ∈ history, earlier.Serves parameters request)
    (hlength : request.arguments.length = request.call.arguments.length) :
    request.answer (program.askedAll history) = request.answer (program.askedAll history).forget ∧
      ∀ before earlier later, history = before ++ earlier :: later →
        ∀ key, earlier.key? (program.askedAll before) = some key →
          request.key? (program.askedAll history) = some key →
          ∀ found, earlier.answer (program.askedAll before) = .ok found →
            request.answer (program.askedAll history) = .ok found := by
  obtain ⟨hspelled, hfresh⟩ := spelled_of_build hbuild hplain
  have hprogram : program.Concrete := ⟨hspelled, hpackages, hconcrete⟩
  have hstart : Recalls program request program := recalls_of_fresh hprogram hfresh
  have hrecalls := askedAll_recalls hprogram hlegible hlength hstart hserves
  have hforget := answer_forget hprogram hlength hlegible hrecalls
  refine ⟨hforget, ?_⟩
  intro before earlier later hhistory key hkey hkey' found hfound
  subst hhistory
  have hearlier := hserves earlier (by simp)
  have hbefore : Recalls program request (program.askedAll before) :=
    askedAll_recalls hprogram hlegible hlength hstart
      fun asked hmem => hserves asked (by simp [hmem])
  obtain ⟨_, hrun⟩ := callKey_of_key? hkey
  obtain ⟨_, hrun'⟩ := callKey_of_key? hkey'
  have hspelled := (hearlier.legible.spelledAs hbefore.types hrun).2.2
  have hspelled' := (hlegible.spelledAs hrecalls.types hrun').2.2
  -- What the earlier request was answered, a scan for this one finds ever since.
  obtain ⟨_, ⟨_, hrefused, _⟩ | ⟨_, hanswer, hanswered, hlength'⟩⟩ :=
    asked_cases hprogram hearlier.legible hbefore.functions hbefore.types
  · rw [hfound] at hrefused
    cases hrefused
  · rw [hfound] at hanswer
    cases hanswer
    have hfinds := finds_of_answered hprogram hlegible hlength hbefore hearlier hanswered hlength'
      hspelled hspelled'
    have hgrown : ((program.askedAll before).asked earlier).Before
        (program.askedAll (before ++ earlier :: later)) := by
      have hsplit : program.askedAll (before ++ earlier :: later) =
          ((program.askedAll before).asked earlier).askedAll later := List.foldl_append
      rw [hsplit]
      exact askedAll_before _ later
    rw [hforget]
    exact answer_of_finds hprogram hlength hlegible hrecalls hrun' (hfinds.mono hgrown.types)

/-! ## Two programs of one file -/

/-- A function `f` with one parameter of the given type. -/
def functionOn (type : TypeExpr) : FunctionDef :=
  { name := "f"
    parameters := [{ name := "x", type }]
    origin := "main.mer" }

/-- A request for a call of `f` with one argument of the given type. -/
def requestOn (type : TypeExpr) : Request :=
  { fuel := 8, call := callWith 1, arguments := [type] }

/-- A reference to boxes of integers, with or without a package in front. -/
def integerBox (qualifier : Option String) : TypeExpr :=
  .named "Box" qualifier [.int] "main.mer"

/-- A file with boxes and a function that takes boxes of integers. -/
def boxFile : Project :=
  { files := [{
      name := "main.mer"
      package := "app"
      types := [boxDef]
      functions := [functionOn (integerBox none)] }] }

/-- Boxes of integers are referred to in two ways.  Calls with either have one key, and the
second is answered as it would be if the first had not been asked. -/
theorem box_answers_need_no_memory :
    ∃ program function, build 8 boxFile = .ok program ∧ function.name = "f" ∧
      (requestOn (integerBox none)).answer program = .ok (some function) ∧
      (requestOn (integerBox (some "app"))).answer
        (program.askedAll [requestOn (integerBox none)]) = .ok (some function) ∧
      (requestOn (integerBox (some "app"))).answer
        (program.askedAll [requestOn (integerBox none)]).forget = .ok (some function) := by
  have hruns : ((build 8 boxFile).toOption.any fun program =>
      (program.types.project.files.all fun file =>
        isIdentifier file.package && file.imports.all isIdentifier) &&
      (program.functions.functions.all fun function => !function.isGeneric) &&
      (requestOn (integerBox none)).key? program == some "main.mer::f<>(app::Box<Int>;)" &&
      (requestOn (integerBox (some "app"))).key? (program.askedAll [requestOn (integerBox none)])
        == some "main.mer::f<>(app::Box<Int>;)" &&
      ((requestOn (integerBox none)).answer program).toOption.any fun found =>
        found.any (·.name == "f")) = true := by
    decide +kernel
  have hplain : boxFile.Plain := by
    refine ⟨by decide, by decide, ?_⟩
    show ∀ function ∈ [functionOn (integerBox none)],
      (∀ type ∈ function.parameterTypes, type.plain = true) ∧
        ∀ type ∈ function.returnType, type.plain = true
    decide
  have hlegible : ∀ qualifier ∈ [none, some "app"],
      (requestOn (integerBox qualifier)).Legible [] := by
    intro qualifier hmem
    have hname : isIdentifier "f" = true := by decide
    refine ⟨hname, by simp [requestOn, callWith], ?_⟩
    revert qualifier
    decide
  have hserves : ∀ earlier ∈ [requestOn (integerBox none)],
      earlier.Serves [] (requestOn (integerBox (some "app"))) := by
    intro earlier hmem
    rw [List.mem_singleton.1 hmem]
    exact ⟨hlegible none (by simp), Nat.le_refl _, fun _ => rfl⟩
  cases hbuild : build 8 boxFile with
  | error cause => simp [hbuild, Except.toOption] at hruns
  | ok program =>
    simp only [hbuild, Except.toOption, Option.any_some, Bool.and_eq_true, beq_iff_eq] at hruns
    obtain ⟨⟨⟨⟨hfiles, hconcrete⟩, hkey⟩, hkey'⟩, hanswer⟩ := hruns
    have hpackages : program.types.Identified := by
      simpa only [TypeTable.Identified, List.all_eq_true, Bool.and_eq_true] using hfiles
    have hconcrete : ∀ function ∈ program.functions.functions, function.isGeneric = false := by
      simpa using hconcrete
    obtain ⟨hforget, hsame⟩ := answers_need_no_memory hbuild hplain hpackages hconcrete
      (hlegible (some "app") (by simp)) hserves rfl
    rcases hfound : (requestOn (integerBox none)).answer program with cause | (_ | function)
    · simp [hfound] at hanswer
    · simp [hfound] at hanswer
    · have hnamed : function.name = "f" := by simpa [hfound] using hanswer
      have hsecond := hsame [] _ [] rfl _ hkey hkey' _ hfound
      exact ⟨program, function, rfl, hnamed, hfound, hsecond, hforget.symm.trans hsecond⟩

/-- A pointer to a sum. -/
def pointerToSum : TypeExpr :=
  .pointer (.union [.int, .float])

/-- A sum that begins with a pointer. -/
def sumWithPointer : TypeExpr :=
  .union [.pointer .int, .float]

/-- The two types are named alike.  Once a call with the pointer has been answered, a call with
the sum is answered with the same function; without memory there is none that takes it. -/
theorem sum_answered_for_pointer :
    build 8 (oneFile [functionOn pointerToSum]) =
        .ok (ofOneFile [functionOn pointerToSum]) ∧
      ((requestOn sumWithPointer).answer
        ((ofOneFile [functionOn pointerToSum]).askedAll
          [requestOn pointerToSum])).toOption.map (·.isSome) = some true ∧
      ((requestOn sumWithPointer).answer
        ((ofOneFile [functionOn pointerToSum]).askedAll
          [requestOn pointerToSum]).forget).toOption.map (·.isSome) = some false :=
  ⟨rfl, by decide +kernel, by decide +kernel⟩

end Accord
