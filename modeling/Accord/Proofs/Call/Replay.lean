import Accord.Proofs.Assign.Steady
import Accord.Proofs.Call.Overloads
import Accord.Proofs.Types.Spelling

/-!
# Calls resolved again

Comparing types, trying candidates and scanning them give the same answer when they are done
again (`replaying`).  So does resolving a call (`resolve_ends`): a call that means a function
means it in every later state of the program, and one that means none still means none as
long as only questions about types are asked (`Lasts`).
-/

namespace Accord

open Query List Program

variable {function : FunctionDef} {rules : Substitution} {program : Program} {key : String}

/-! ## Comparisons -/

theorem samePlain_replaying : Replaying spelledTables SamePlain where
  self _ _ h := ⟨rfl, h.2⟩
  shape := SamePlain.shape
  union := SamePlain.union
  substitute := SamePlain.substitute
  name := by
    rintro type _ ⟨rfl, hplain⟩
    exact (canonicalName_replays type hplain).mono fun _ _ hname => hname.1
  locate := by
    rintro left right ⟨hsame, hplain⟩
    obtain rfl := TypeRef.toType_inj hsame
    refine (locate_replays hplain).mono fun answer answer' hanswer => ?_
    obtain ⟨rfl, hbody⟩ := hanswer
    exact ⟨rfl, .refl hbody⟩

/-- The comparison of a run on plainly named types with a later run of the same. -/
def replaying : CheckParallel :=
  replayingOf samePlain_replaying

/-! ## Programs -/

/-- The names in the type that the function returns are plain. -/
def FunctionDef.PlainReturn (function : FunctionDef) : Prop :=
  ∀ type ∈ function.returnType, type.plain = true

theorem FunctionDef.PlainReturn.instantiate (h : function.PlainReturn)
    (hrules : SameRules SamePlain rules rules) (name : String) :
    (function.instantiate rules name).PlainReturn := by
  intro type htype
  obtain ⟨declared, hdeclared, rfl⟩ := Option.map_eq_some_iff.1 htype
  exact TypeExpr.plain_substitute (samePlain_rules.1 hrules).2 declared (h declared hdeclared)

/-- The names in the program and in what it remembers are plain, and the keys of its types
say what they stand for. -/
structure Program.Spelled (program : Program) : Prop where
  types : program.types.Spelled
  functions : ∀ function ∈ program.functions.functions, function.Plain ∧ function.PlainReturn
  calls : ∀ entry ∈ program.memo.calls, entry.2.PlainReturn
  instances : ∀ entry ∈ program.memo.instances, entry.2.PlainReturn

theorem Program.Spelled.withTypes (h : program.Spelled) {types : TypeTable}
    (htypes : types.Spelled) : Spelled { program with types } :=
  ⟨htypes, h.functions, h.calls, h.instances⟩

/-- A query on the types of a program ends as it does on the types alone. -/
theorem liftProgram_ends {α : Type} {query : TypeQuery α} {post : α → Program → Prop}
    {failed : Diagnostic → Program → Prop}
    (h : Ends (fun a types => post a { program with types })
      (fun cause types => failed cause { program with types }) (query program.types)) :
    Ends post failed ((liftM query : ProgramQuery α) program) := by
  change Ends post failed
    (on (·.types) (fun program types => { program with types }) query program)
  rw [on]
  generalize query program.types = result at h ⊢
  cases h with
  | ok h => exact .ok h
  | error h => exact .error h

/-- A refusal that not only plans have. -/
def Unplanned (cause : Diagnostic) (_ : Program) : Prop :=
  cause.isPlanning = false

theorem choose_ends (hreturn : function.PlainReturn) (hrules : SameRules SamePlain rules rules)
    (hprogram : program.Spelled) :
    Ends (fun found after => after.Spelled ∧ found.PlainReturn) Unplanned
      (choose function rules program) := by
  cases hgeneric : function.isGeneric with
  | false =>
    simp only [choose, hgeneric]
    exact .ok ⟨hprogram, hreturn⟩
  | true =>
    simp only [choose, hgeneric, ↓reduceIte, instantiate_eq]
    have hnames := boundNames_parallel replaying function hrules function.generics
    have hlift : Ends (fun _ after => Spelled after) Unplanned
        ((liftM (boundNames function rules function.generics) : ProgramQuery _) program) :=
      liftProgram_ends ((hnames program.types hprogram.types).mono
        (fun _ _ hrun => hprogram.withTypes hrun.good) fun _ _ hrun => hrun.unplanned)
    refine hlift.bind fun names after hafter => ?_
    have hget : (get : ProgramQuery Program) after = .ok after after := rfl
    rw [bind_of_ok hget]
    cases hlookup : after.memo.instances.lookup (function.instanceKey names) with
    | some known => exact .ok ⟨hafter, hafter.instances _ (mem_of_lookup hlookup)⟩
    | none =>
      have hmade := hreturn.instantiate hrules (function.instanceName names)
      exact .ok ⟨⟨hafter.types, hafter.functions, hafter.calls,
        forall_mem_cons.2 ⟨hmade, hafter.instances⟩⟩, hmade⟩

/-! ## Resolutions -/

/-- The answer to a call lasts: a function stays what the call means, and the want of one
lasts as long as only questions about types are asked. -/
def Lasts (fuel : Nat) (call : Call) (arguments : List TypeExpr) (after : Program) :
    Option FunctionDef → Prop
  | some function => function.PlainReturn ∧ ∀ later : Program, later.Spelled →
      after.Before later → resolve fuel call arguments later = .ok (some function) later
  | none => ∀ types : TypeTable, types.Spelled → after.types.Before types →
      resolve fuel call arguments { after with types } = .ok none { after with types }

section Resolutions

variable {fuel : Nat} {call : Call} {arguments : List TypeExpr}

theorem length_of_resolve {found : Option FunctionDef} {after : Program}
    (h : resolve fuel call arguments program = .ok found after) :
    arguments.length = call.arguments.length := by
  by_contra hlength
  rw [resolve_of_length_ne hlength] at h
  cases h

variable (hlength : arguments.length = call.arguments.length)
  (hkeys : Again (fun _ => True) (callKey call arguments))

include hlength hkeys

/-- A call whose key is known means the function that is known for it. -/
theorem lasts_of_known (hprogram : program.Spelled)
    (hkey : callKey call arguments program.types = .ok key program.types)
    (hknown : program.memo.calls.lookup key = some function) :
    Lasts fuel call arguments program (some function) := by
  refine ⟨hprogram.calls _ (mem_of_lookup hknown), fun later hlater hbefore => ?_⟩
  obtain ⟨_, hagain, rfl, _⟩ := (hkeys.ok hprogram.types hkey).later hlater.types hbefore.types
  exact resolve_of_known hlength hagain (hbefore.calls _ _ hknown)

/-- What a resolution settles on lasts, if a scan that keeps nothing would not keep anything
later either. -/
theorem settle_ends (hprogram : program.Spelled)
    (hkey : callKey call arguments program.types = .ok key program.types)
    (hunknown : program.memo.calls.lookup key = none) {kept : List (FunctionDef × Substitution)}
    (hkept : ∀ entry ∈ kept, entry.1.PlainReturn ∧ SameRules SamePlain entry.2 entry.2)
    (hscans : kept = [] → ∀ types : TypeTable, types.Spelled → program.types.Before types →
      ∃ scan, scanCandidates fuel call arguments (program.candidates call) types = .ok scan types ∧
      scan.kept = []) :
    Ends (fun found after => after.Spelled ∧ Lasts fuel call arguments after found) Unplanned
      (settle key call arguments kept program) := by
  match kept with
  | [] =>
    refine .ok ⟨hprogram, fun types htypes hbefore => ?_⟩
    obtain ⟨_, hagain, rfl, _⟩ := (hkeys.ok hprogram.types hkey).later htypes hbefore
    obtain ⟨scan, hscan, hnil⟩ := hscans rfl types htypes hbefore
    have hcandidates : ({ program with types } : Program).candidates call =
        program.candidates call := candidates_congr call hbefore.project rfl
    have hsettle : resolve fuel call arguments { program with types } =
        settle key call arguments scan.kept { program with types } := by
      apply resolve_of_scanned hlength
      · exact hagain
      · exact hunknown
      · rw [hcandidates]
        exact hscan
    rw [hsettle, hnil]
    rfl
  | [(function, rules)] =>
    obtain ⟨hreturn, hrules⟩ := hkept _ mem_cons_self
    rw [settle_single]
    cases hchoose : choose function rules program with
    | error cause chosen =>
      rw [bind_of_error hchoose]
      exact .error ((choose_ends hreturn hrules hprogram).of_refusal hchoose)
    | ok found chosen =>
      rw [bind_of_ok hchoose]
      obtain ⟨hchosen, hfound⟩ := (choose_ends hreturn hrules hprogram).of_run hchoose
      have hbefore := before_of_ok
        (choose_keeps (before_lasting program).toStable function rules) hchoose
      obtain ⟨_, hagain, rfl, _⟩ := (hkeys.ok hprogram.types hkey).later hchosen.types hbefore.types
      have hlater : Spelled { chosen with
          memo := { chosen.memo with calls := (key, found) :: chosen.memo.calls } } :=
        ⟨hchosen.types, hchosen.functions, forall_mem_cons.2 ⟨hfound, hchosen.calls⟩,
          hchosen.instances⟩
      refine .ok ⟨hlater, ?_⟩
      apply lasts_of_known hlength hkeys hlater
      · exact hagain
      · exact lookup_cons_self
  | _ :: _ :: _ => exact .error rfl

end Resolutions

/-- The rules that a scan of plainly named types keeps have plain names. -/
theorem SameScan.rules_self {left right : Scan} (h : SameScan replaying left right)
    {entry : FunctionDef × Substitution} (hentry : entry ∈ left.kept) :
    SameRules SamePlain entry.2 entry.2 := by
  obtain ⟨_, _, hsame⟩ := exists_of_mem_left h.kept hentry
  exact samePlain_rules.2 ⟨rfl, (samePlain_rules.1 hsame.2).2⟩

section Resolve

variable {call : Call} {arguments : List TypeExpr}
  (hgenerics : ∀ type ∈ call.generics, type.plain = true)
  (harguments : ∀ type ∈ arguments, type.plain = true)

include hgenerics harguments

theorem callKey_replays : Again (fun _ => True) (callKey call arguments) := by
  have hkeys := callKey_parallel replaying (samePlain_all.2 ⟨rfl, hgenerics⟩)
    (samePlain_all.2 ⟨rfl, harguments⟩)
  exact Holder.Replays.mono hkeys fun _ _ hkey => ⟨hkey, trivial⟩

theorem scanCandidates_replays (fuel : Nat) (hprogram : program.Spelled) :
    tables.Replays (SameScan replaying)
      (scanCandidates fuel call arguments (program.candidates call))
      (scanCandidates fuel call arguments (program.candidates call)) := by
  refine scanCandidates_parallel replaying (Nat.le_refl fuel) (samePlain_all.2 ⟨rfl, hgenerics⟩)
    (samePlain_all.2 ⟨rfl, harguments⟩) fun candidate hmem type htype => ⟨rfl, ?_⟩
  exact (hprogram.functions candidate (mem_functions_of_candidate hmem)).1 type htype

/-- The answer to a call lasts. -/
theorem resolve_ends (fuel : Nat) (hprogram : program.Spelled) :
    Ends (fun found after => after.Spelled ∧ Lasts fuel call arguments after found) Unplanned
      (resolve fuel call arguments program) := by
  by_cases hlength : arguments.length = call.arguments.length
  · have hkeys := callKey_replays hgenerics harguments
    cases hkey : callKey call arguments program.types with
    | error cause types =>
      rw [resolve_of_unnamed hlength hkey]
      exact .error (hkeys.error hprogram.types hkey).unplanned
    | ok key types =>
      have hrepeats := hkeys.ok hprogram.types hkey
      have htypes := hrepeats.good
      have hkeyed := hprogram.withTypes htypes
      obtain ⟨_, hagain, rfl, _⟩ := hrepeats.later htypes (.refl _)
      cases hlookup : program.memo.calls.lookup key with
      | some function =>
        rw [resolve_of_known hlength hkey hlookup]
        exact .ok ⟨hkeyed, lasts_of_known hlength hkeys hkeyed hagain hlookup⟩
      | none =>
        have hscans := scanCandidates_replays hgenerics harguments fuel hprogram
        cases hscan : scanCandidates fuel call arguments (program.candidates call) types with
        | error cause scanned =>
          rw [resolve_of_unscanned hlength hkey hlookup hscan]
          exact .error (hscans.error htypes hscan).unplanned
        | ok scan scanned =>
          have hagain' := hscans.ok htypes hscan
          have hscanned := hagain'.good
          have hgrown := hagain'.before
          obtain ⟨_, hkey', rfl, _⟩ := hrepeats.later hscanned hgrown
          rw [resolve_of_scanned hlength hkey hlookup hscan]
          refine settle_ends hlength hkeys (hprogram.withTypes hscanned) hkey' hlookup
            (fun entry hentry => ?_) fun hnil types' htypes' hbefore' => ?_
          · obtain ⟨scan', _, hsame⟩ := hagain'.later hscanned (.refl _)
            have hfunction := hprogram.functions _
              (mem_functions_of_candidate (mem_of_kept hscan entry hentry))
            exact ⟨hfunction.2, hsame.rules_self hentry⟩
          · obtain ⟨scan', hscan', hsame⟩ := hagain'.later htypes' hbefore'
            have hall := hsame.kept
            rw [hnil, forall₂_nil_left_iff] at hall
            have hcandidates : ({ program with types := scanned } : Program).candidates call =
                program.candidates call :=
              candidates_congr call (hrepeats.before.trans hgrown).project rfl
            refine ⟨scan', ?_, hall⟩
            rw [hcandidates]
            exact hscan'
  · rw [resolve_of_length_ne hlength]
    exact .error rfl

end Resolve

end Accord
