import Accord.Proofs.Program.Built

/-!
# Where an answer comes from

A program remembers the answers it has given and the instances it has made, and
gives them again under the same key.  This module follows an answer back to the
function it was made from, through every history of requests.

* `Answers` says that a function is an answer from a list of candidates: it is one
  of them and not generic, or an instance of a generic one with every type parameter
  bound.
* `Remembers` is the invariant of the memory.  Every remembered answer was selected
  for a call that was asked under the same key, and every remembered instance was
  made from a generic function of the program with the same instance key.
* `resolve_remembers` is the step of the invariant and `askedAll_remembers` the run.

An instance key spells the file and the name of the function and the names of its
type arguments, and nothing else.  Two generic functions of one file with one name
share their keys, so one of them may be answered where the other is meant.  A call key
begins with the package in front of the call or else with its file, and the two may be
spelled alike.  `resolve_answer_origin` states what holds in every program, and what
holds where keys tell functions and calls apart.
-/

namespace Accord

open Query List Program

variable {types : TypeTable} {key : String} {call : Call} {history : List Request}
  {answer : FunctionDef}

/-! ## Requests and answers -/

/-- A call with arguments of given types, as it is put to a program. -/
structure Request where
  fuel : Nat
  call : Call
  arguments : List TypeExpr

/-- The key under which a program looks for the answer, if the types have names. -/
def Request.key? (request : Request) (program : Program) : Option String :=
  match callKey request.call request.arguments program.types with
  | .ok key _ => some key
  | .error _ _ => none

/-- The program after a request, answered or refused. -/
def Program.asked (program : Program) (request : Request) : Program :=
  (resolve request.fuel request.call request.arguments).after program

/-- The program after several requests. -/
def Program.askedAll (program : Program) (history : List Request) : Program :=
  history.foldl asked program

/-- The substitution has a replacement for every type parameter of the function. -/
def FunctionDef.BoundBy (function : FunctionDef) (rules : Substitution) : Prop :=
  ∀ parameter ∈ function.generics, (rules.find? parameter).isSome

/-- An answer that comes from one of the candidates. -/
inductive Answers (candidates : List FunctionDef) (answer : FunctionDef) : Prop where
  /-- A candidate that is not generic is the answer itself. -/
  | stored (mem : answer ∈ candidates) (concrete : answer.isGeneric = false)
  /-- The answer is an instance of a generic candidate. -/
  | made (generic : FunctionDef) (mem : generic ∈ candidates)
      (isGeneric : generic.isGeneric = true) (rules : Substitution)
      (bound : generic.BoundBy rules) (name : String)
      (eq : answer = generic.instantiate rules name)

/-- Generic functions that may share an instance key are candidates of the same calls. -/
def Program.InstanceKeysApart (program : Program) : Prop :=
  ∀ function ∈ program.functions.functions, ∀ other ∈ program.functions.functions,
    function.isGeneric = true → other.isGeneric = true →
    ∀ names names', function.instanceKey names = other.instanceKey names' →
      ∀ call, function ∈ program.candidates call → other ∈ program.candidates call

/-- Every earlier request of the history that was asked under the key of this one has
no other candidates. -/
def Program.CallKeysApart (program : Program) (history : List Request) (request : Request) :
    Prop :=
  ∀ before earlier later, history = before ++ earlier :: later →
    ∀ key, earlier.key? (program.askedAll before) = some key →
      request.key? (program.askedAll history) = some key →
      program.candidates earlier.call ⊆ program.candidates request.call

/-! ## The memory -/

/-- The function is an instance of a generic function of the program that has this
instance key. -/
def MadeUnder (program : Program) (key : String) (made : FunctionDef) : Prop :=
  ∃ generic ∈ program.functions.functions, generic.isGeneric = true ∧
    ∃ rules names, generic.BoundBy rules ∧ key = generic.instanceKey names ∧
      made = generic.instantiate rules (generic.instanceName names)

/-- The function was found for a call: a candidate itself, or what is remembered under
the instance key of a generic candidate. -/
inductive SelectedFor (program : Program) (call : Call) (answer : FunctionDef) : Prop where
  | stored (mem : answer ∈ program.candidates call) (concrete : answer.isGeneric = false)
  | made (generic : FunctionDef) (mem : generic ∈ program.candidates call)
      (isGeneric : generic.isGeneric = true) (names : List String)
      (made : MadeUnder program (generic.instanceKey names) answer)

/-- What the memory of a program holds, `asked` being the calls asked so far with their
keys. -/
structure Remembers (program : Program) (asked : String → Call → Prop) (state : Program) :
    Prop where
  functions : state.functions = program.functions
  types : program.types.Over state.types
  calls : ∀ key answer, (key, answer) ∈ state.memo.calls →
    ∃ call, asked key call ∧ SelectedFor program call answer
  instances : ∀ key made, (key, made) ∈ state.memo.instances → MadeUnder program key made

variable {program : Program} {asked : String → Call → Prop} {state : Program}

section

variable (h : Remembers program asked state)

include h

theorem Remembers.candidates_eq (call : Call) : state.candidates call = program.candidates call :=
  candidates_congr call h.types.project h.functions

theorem Remembers.withTypes
    (htypes : program.types.Over types) : Remembers program asked { state with types } :=
  ⟨h.functions, htypes, h.calls, h.instances⟩

theorem Remembers.mono {asked' : String → Call → Prop}
    (hasked : ∀ key call, asked key call → asked' key call) :
    Remembers program asked' state where
  functions := h.functions
  types := h.types
  calls := by
    intro key answer hmem
    obtain ⟨call, hcall, hselected⟩ := h.calls key answer hmem
    exact ⟨call, hasked key call hcall, hselected⟩
  instances := h.instances

/-- Remembering the answer to a call that was asked. -/
theorem Remembers.withAnswer (hasked : asked key call)
    {found : FunctionDef} (hfound : SelectedFor program call found) :
    Remembers program asked
      { state with memo := { state.memo with calls := (key, found) :: state.memo.calls } } where
  functions := h.functions
  types := h.types
  calls := by
    intro other answer hentry
    rcases mem_cons.1 hentry with heq | hentry
    · cases heq
      exact ⟨call, hasked, hfound⟩
    · exact h.calls other answer hentry
  instances := h.instances

/-- Remembering an instance under its key. -/
theorem Remembers.withInstance {made : FunctionDef} (hmade : MadeUnder program key made) :
    Remembers program asked
      { state with memo := { state.memo with instances := (key, made) :: state.memo.instances } }
    where
  functions := h.functions
  types := h.types
  calls := h.calls
  instances := by
    intro other value hentry
    rcases mem_cons.1 hentry with heq | hentry
    · cases heq
      exact hmade
    · exact h.instances other value hentry

end

/-! ## One resolution -/

/-- Naming the types bound to parameters finds each of them bound. -/
theorem bound_of_boundNames {function : FunctionDef} {rules : Substitution}
    {generics : List String} {names : List String} {types' : TypeTable}
    (h : boundNames function rules generics types = .ok names types') :
    ∀ parameter ∈ generics, (rules.find? parameter).isSome := by
  induction generics generalizing names types types' with
  | nil => simp
  | cons generic rest ih =>
    rw [boundNames, bind_eq_ok] at h
    obtain ⟨type, mid, hdemand, h⟩ := h
    rw [bind_eq_ok] at h
    obtain ⟨name, mid', _, h⟩ := h
    rw [bind_eq_ok] at h
    obtain ⟨names', mid'', hrest, _⟩ := h
    have hfound : (rules.find? generic).isSome := by
      cases hfind : rules.find? generic with
      | none =>
        rw [hfind] at hdemand
        exact absurd hdemand throw_ne_ok
      | some type => rfl
    intro parameter hmem
    rcases mem_cons.1 hmem with rfl | hmem
    · exact hfound
    · exact ih hrest parameter hmem

section

variable (h : Remembers program asked state)

include h

/-- A query on types leaves the memory alone. -/
theorem Remembers.lift {α : Type} {query : TypeQuery α} (hkeeps : Keeps program.types.Over query) :
    Ends (fun value after => Remembers program asked after ∧
        ∃ types, query state.types = .ok value types)
      (fun _ => Remembers program asked) ((liftM query : ProgramQuery α) state) :=
  .on (((ends_iff_after.2 (hkeeps _ h.types)).and (ends_self _)).mono
    (fun _ _ hrun => ⟨h.withTypes hrun.1, _, hrun.2⟩) fun _ _ hrun => h.withTypes hrun.1)

/-- An instance is taken from the memory, or made and remembered. -/
theorem instantiate_ensures {generic : FunctionDef}
    (hmem : generic ∈ program.functions.functions) (hgeneric : generic.isGeneric)
    (rules : Substitution) :
    Ends (fun found after => Remembers program asked after ∧
        ∃ names, MadeUnder program (generic.instanceKey names) found)
      (fun _ => Remembers program asked) (instantiate generic rules state) := by
  rw [instantiate_eq]
  refine (h.lift (boundNames_keeps generic rules _)).bind fun names mid ⟨hmid, types, hnames⟩ => ?_
  rw [get_bind]
  cases hknown : mid.memo.instances.lookup (generic.instanceKey names) with
  | some known => exact .ok ⟨hmid, names, hmid.instances _ _ (mem_of_lookup hknown)⟩
  | none =>
    have hmade : MadeUnder program (generic.instanceKey names)
        (generic.instantiate rules (generic.instanceName names)) :=
      ⟨generic, hmem, hgeneric, rules, names, bound_of_boundNames hnames, rfl, rfl⟩
    exact .ok ⟨hmid.withInstance hmade, names, hmade⟩

/-- Settling on what a scan has kept. -/
theorem settle_ensures (hasked : asked key call)
    (arguments : List TypeExpr) {kept : List (FunctionDef × Substitution)}
    (hkept : ∀ entry ∈ kept, entry.1 ∈ program.candidates call) :
    Ends (fun answer after => Remembers program asked after ∧
        ∀ found, answer = some found → SelectedFor program call found)
      (fun _ => Remembers program asked) (settle key call arguments kept state) := by
  match kept with
  | [] => exact .ok ⟨h, by simp⟩
  | first :: second :: rest => exact .error h
  | [(function, rules)] =>
    have hmem : function ∈ program.candidates call := hkept (function, rules) (by simp)
    -- Whatever is found is selected for the call; then it is remembered.
    have hfind : Ends (fun found after => Remembers program asked after ∧
        SelectedFor program call found) (fun _ => Remembers program asked)
        (choose function rules state) := by
      unfold choose
      cases hgeneric : function.isGeneric with
      | false => exact .ok ⟨h, .stored hmem hgeneric⟩
      | true =>
        refine (instantiate_ensures h (mem_functions_of_candidate hmem) hgeneric rules).mono
          (fun found after ⟨hafter, names, hmade⟩ => ?_) fun _ _ h => h
        exact ⟨hafter, .made function hmem hgeneric names hmade⟩
    rw [settle_single]
    refine hfind.bind fun found mid ⟨hmid, hfound⟩ => .ok ⟨hmid.withAnswer hasked hfound, ?_⟩
    rintro _ ⟨⟩
    exact hfound

/-- One resolution among the candidates of a call. -/
theorem resolveAmong_ensures (fuel : Nat) (call : Call) (arguments : List TypeExpr)
    (hasked : ∀ key types, callKey call arguments state.types = .ok key types → asked key call) :
    Ends (fun answer after => Remembers program asked after ∧
        ∀ found, answer = some found →
          ∃ key types other, callKey call arguments state.types = .ok key types ∧
            asked key other ∧ SelectedFor program other found)
      (fun _ => Remembers program asked)
      (resolveAmong fuel call arguments (program.candidates call) state) := by
  refine (h.lift (callKey_keeps call arguments)).bind fun key mid ⟨hmid, types, hrun⟩ => ?_
  rw [get_bind]
  cases hknown : mid.memo.calls.lookup key with
  | some known =>
    refine .ok ⟨hmid, ?_⟩
    rintro _ ⟨⟩
    obtain ⟨other, hother, hselected⟩ := hmid.calls key known (mem_of_lookup hknown)
    exact ⟨key, types, other, hrun, hother, hselected⟩
  | none =>
    have hkey := hasked key types hrun
    refine (hmid.lift (scanCandidates_keeps fuel call arguments _)).bind
      fun scan after ⟨hafter, _, hkept⟩ => ?_
    refine (settle_ensures hafter hkey arguments (mem_of_kept hkept)).mono
      (fun answer last ⟨hlast, hselected⟩ => ⟨hlast, fun found hfound => ?_⟩) fun _ _ h => h
    exact ⟨key, types, call, hrun, hkey, hselected found hfound⟩

/-- A request with as many types as the call has arguments is resolved among the candidates
of the program; any other is refused at once. -/
theorem resolve_remembers (request : Request)
    (hasked : ∀ key, request.key? state = some key → asked key request.call) :
    Ends (fun answer after => Remembers program asked after ∧
        ∀ found, answer = some found →
          ∃ key other, request.key? state = some key ∧ asked key other ∧
            SelectedFor program other found)
      (fun _ => Remembers program asked)
      (resolve request.fuel request.call request.arguments state) := by
  by_cases hlength : request.arguments.length = request.call.arguments.length
  · rw [resolve_eq_resolveAmong hlength, h.candidates_eq]
    refine (resolveAmong_ensures h request.fuel request.call request.arguments
      (fun key types hkey => hasked key (by rw [Request.key?, hkey]))).mono
      (fun answer after ⟨hafter, horigin⟩ => ⟨hafter, fun found hfound => ?_⟩) fun _ _ h => h
    obtain ⟨key, types, other, hkey, hother, hselected⟩ := horigin found hfound
    exact ⟨key, other, by rw [Request.key?, hkey], hother, hselected⟩
  · rw [resolve_of_length_ne hlength]
    exact .error h

end

/-! ## Every history -/

/-- The history has a request for this call that was asked under this key. -/
def Program.WasAsked (program : Program) (history : List Request) (key : String) (call : Call) :
    Prop :=
  ∃ before earlier later, history = before ++ earlier :: later ∧
    earlier.key? (program.askedAll before) = some key ∧ earlier.call = call

theorem Program.WasAsked.append (h : program.WasAsked history key call) (more : List Request) :
    program.WasAsked (history ++ more) key call := by
  obtain ⟨before, earlier, later, rfl, hkey, hcall⟩ := h
  exact ⟨before, earlier, later ++ more, by simp, hkey, hcall⟩

theorem Program.wasAsked_last {request : Request}
    (h : request.key? (program.askedAll history) = some key) :
    program.WasAsked (history ++ [request]) key request.call :=
  ⟨history, request, [], rfl, h, rfl⟩

/-- The last request of a history is asked of the program that the others left behind. -/
theorem askedAll_remembers (hfresh : program.memo = {}) (history : List Request) :
    Remembers program (program.WasAsked history) (program.askedAll history) := by
  induction history using reverseRecOn with
  | nil =>
    refine ⟨rfl, TypeTable.Over.refl _, ?_, ?_⟩
    · intro key answer hentry
      simp [askedAll, hfresh] at hentry
    · intro key made hentry
      simp [askedAll, hfresh] at hentry
  | append_singleton history request ih =>
    have hstep := resolve_remembers
      (ih.mono fun key call hasked => hasked.append [request]) request
      (fun key hkey => wasAsked_last hkey)
    have hlast : program.askedAll (history ++ [request]) =
        (program.askedAll history).asked request := by
      simp [askedAll]
    rw [hlast, Program.asked]
    exact ends_iff_after.1 (hstep.mono (fun _ _ h => h.1) fun _ _ h => h)

/-- A program that has just been built remembers nothing. -/
theorem memo_of_build {fuel : Nat} {project : Project}
    (h : build fuel project = .ok program) : program.memo = {} := by
  obtain ⟨_, _, _, _, _, _, hprogram⟩ := build_eq_ok h
  rw [hprogram]

/-! ## Answers and candidates -/

theorem SelectedFor.answers (h : SelectedFor program call answer) :
    Answers program.functions.functions answer := by
  cases h with
  | stored hmem hconcrete =>
    exact .stored (mem_functions_of_candidate hmem) hconcrete
  | made generic _ _ names hmade =>
    obtain ⟨source, hsource, hgeneric, rules, names', hbound, _, heq⟩ := hmade
    exact .made source hsource hgeneric rules hbound _ heq

/-- Where instance keys tell functions apart, an instance found for a call is made from a
candidate of that call. -/
theorem SelectedFor.answers_candidates (hapart : program.InstanceKeysApart)
    (h : SelectedFor program call answer) : Answers (program.candidates call) answer := by
  cases h with
  | stored hmem hconcrete => exact .stored hmem hconcrete
  | made generic hmem hgeneric names hmade =>
    obtain ⟨source, hsource, hsourceGeneric, rules, names', hbound, hkey, heq⟩ := hmade
    have hcandidate : source ∈ program.candidates call :=
      hapart generic (mem_functions_of_candidate hmem) source hsource hgeneric
        hsourceGeneric names names' hkey call hmem
    exact .made source hcandidate hsourceGeneric rules hbound _ heq

theorem Answers.mono {candidates candidates' : List FunctionDef} (h : Answers candidates answer)
    (hsub : candidates ⊆ candidates') : Answers candidates' answer := by
  cases h with
  | stored hmem hconcrete => exact .stored (hsub hmem) hconcrete
  | made generic hmem hgeneric rules hbound name heq =>
    exact .made generic (hsub hmem) hgeneric rules hbound name heq

/-- An instance takes as many parameters as the function it is made from. -/
theorem Answers.parameters (h : Answers (program.candidates call) answer) :
    answer.parameters.length = call.arguments.length := by
  cases h with
  | stored hmem _ => exact parameters_of_candidate hmem
  | made generic hmem _ rules _ name heq =>
    rw [heq]
    simpa [FunctionDef.instantiate] using Program.parameters_of_candidate hmem

/-- After any history of requests, an answer was found for a call of the same key: it is a
candidate of that call that is not generic, or an instance remembered under the instance key
of a generic candidate.  In every program it comes from a function of the program.  Where
keys tell functions and calls apart, it comes from a candidate of the call itself, and takes
as many parameters as the call has arguments. -/
theorem resolve_answer_origin {fuel : Nat} {project : Project} {program : Program}
    (hbuild : build fuel project = .ok program) (history : List Request)
    (request : Request) {answer : FunctionDef} {after : Program}
    (hresolve : resolve request.fuel request.call request.arguments (program.askedAll history) =
      .ok (some answer) after) :
    (∃ key other, request.key? (program.askedAll history) = some key ∧
        program.WasAsked (history ++ [request]) key other ∧ SelectedFor program other answer) ∧
      Answers program.functions.functions answer ∧
      (program.InstanceKeysApart → program.CallKeysApart history request →
        Answers (program.candidates request.call) answer ∧
          answer.parameters.length = request.call.arguments.length) := by
  have hmemory := (askedAll_remembers (memo_of_build hbuild) history).mono
    fun key call hasked => hasked.append [request]
  have hrun := resolve_remembers hmemory request fun key hkey => wasAsked_last hkey
  obtain ⟨key, other, hkey, hother, hselected⟩ := (hrun.of_run hresolve).2 answer rfl
  refine ⟨⟨key, other, hkey, hother, hselected⟩, hselected.answers, ?_⟩
  intro hinstances hcalls
  have hsub : program.candidates other ⊆ program.candidates request.call := by
    obtain ⟨before, earlier, later, hhistory, hearlier, rfl⟩ := hother
    rcases eq_nil_or_concat later with rfl | ⟨front, last, rfl⟩
    · -- The call was asked by the request itself.
      have hlast := append_inj' hhistory (by simp)
      have hsame : request = earlier := by simpa using hlast.2
      rw [hsame]
      exact fun _ h => h
    · have hfront : history = before ++ earlier :: front := by
        have hsplit : history ++ [request] = (before ++ earlier :: front) ++ [last] := by
          simpa using hhistory
        exact (append_inj' hsplit rfl).1
      exact hcalls before earlier front hfront key hearlier hkey
  have hanswers := (hselected.answers_candidates hinstances).mono hsub
  exact ⟨hanswers, hanswers.parameters⟩

/-! ## Two programs of one file -/

/-- A request for a call of `f` with the given number of integers. -/
def integersTo (count : Nat) : Request :=
  { fuel := 8, call := callWith count, arguments := replicate count .int }

/-- A call asked twice, of a program whose only function is generic. -/
theorem resolve_answer_origin_repeated :
    build 8 (oneFile [manyOf 2]) = .ok (ofOneFile [manyOf 2]) ∧
      ∃ answer after,
        resolve 8 (integersTo 2).call (integersTo 2).arguments
            ((ofOneFile [manyOf 2]).askedAll [integersTo 2]) = .ok (some answer) after ∧
          Answers ((ofOneFile [manyOf 2]).candidates (integersTo 2).call) answer ∧
          answer.parameters.length = 2 := by
  have hbuild : build 8 (oneFile [manyOf 2]) = .ok (ofOneFile [manyOf 2]) := rfl
  have hresolve : ∃ after, resolve 8 (integersTo 2).call (integersTo 2).arguments
      ((ofOneFile [manyOf 2]).askedAll [integersTo 2]) =
        .ok (some ((manyOf 2).instantiate [("T", .int)] "f<Int>")) after := ⟨_, rfl⟩
  obtain ⟨after, hresolve⟩ := hresolve
  have hinstances : (ofOneFile [manyOf 2]).InstanceKeysApart := by
    intro function hfunction other hother _ _ _ _ _ call hmem
    have hfunctions : (ofOneFile [manyOf 2]).functions.functions = [manyOf 2] := rfl
    rw [hfunctions, mem_singleton] at hfunction hother
    have hsame : other = function := hother.trans hfunction.symm
    rwa [hsame]
  have hcalls : (ofOneFile [manyOf 2]).CallKeysApart [integersTo 2] (integersTo 2) := by
    intro before earlier later hhistory _ _ _
    have hmem : earlier ∈ [integersTo 2] := by simp [hhistory]
    rw [mem_singleton.1 hmem]
    exact fun _ h => h
  have horigin := resolve_answer_origin hbuild [integersTo 2] (integersTo 2) hresolve
  obtain ⟨hanswers, hparameters⟩ := horigin.2.2 hinstances hcalls
  exact ⟨hbuild, _, after, hresolve, hanswers, hparameters⟩

/-- Two generic functions of one name share the key of their instances at integers.  After
a call with one integer, a call with two is answered with the instance for one. -/
theorem resolve_answers_other_overload :
    build 8 (oneFile [manyOf 1, manyOf 2]) = .ok (ofOneFile [manyOf 1, manyOf 2]) ∧
      ∃ answer after,
        resolve 8 (integersTo 2).call (integersTo 2).arguments
            ((ofOneFile [manyOf 1, manyOf 2]).askedAll [integersTo 1]) =
          .ok (some answer) after ∧
        ¬ Answers ((ofOneFile [manyOf 1, manyOf 2]).candidates (integersTo 2).call) answer ∧
        answer.parameters.length = 1 := by
  refine ⟨rfl, (manyOf 1).instantiate [("T", .int)] "f<Int>", _, rfl, ?_, rfl⟩
  intro hanswers
  have hparameters := hanswers.parameters
  simp [FunctionDef.instantiate, manyOf, integersTo, callWith] at hparameters

end Accord
