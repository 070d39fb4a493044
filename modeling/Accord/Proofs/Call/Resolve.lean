import Accord.Proofs.Assign.Frame

/-!
# Resolution in steps

`resolve` reads the candidates of a call off the program it runs on.  Here the same
computation takes the candidates as an argument (`resolveAmong`), and what follows the
scan is a function of its own (`settle`), so that proofs can speak about the order of
candidates and about the end of a resolution.  `resolve_eq_resolveAmong` says that
nothing else changes, and from it follows how a resolution ends in each case
(`resolve_of_known` and the like).

The file also says what resolution leaves alone: the functions of the program, its
project and its stored definitions.
-/

namespace Accord

open Query List TypeTable Program

variable {scan : Scan} {candidate : FunctionDef} {fuel : Nat} {call : Call}
  {arguments : List TypeExpr} {types types' scanned : TypeTable} {program : Program} {α : Type}
  {query : TypeQuery α} {cause : Diagnostic} {key : String}

/-! ## Steps -/

/-- A scan after one more candidate, whose measure is known and which takes the call under
the given rules if at all. -/
def Scan.consider (scan : Scan) (candidate : FunctionDef) (measure : Specificity) :
    Option Substitution → Scan
  | none => scan
  | some rules =>
    match scan.compare measure with
    | .gt => scan
    | .lt => { best := some measure, kept := [(candidate, rules)] }
    | .eq => { scan with kept := scan.kept ++ [(candidate, rules)] }

/-- An offer measures the candidate, and tries it unless it is less specific. -/
theorem Scan.offer_eq (fuel : Nat) (call : Call) (arguments : List TypeExpr) (scan : Scan)
    (candidate : FunctionDef) :
    scan.offer fuel call arguments candidate =
      candidate.specificity fuel >>= fun measure =>
        if scan.compare measure = .gt then pure scan
        else
          candidate.takes fuel call arguments >>= fun taken =>
            pure (scan.consider candidate measure taken) := by
  unfold Scan.offer
  congr 1
  funext measure
  cases horder : scan.compare measure with
  | gt => rfl
  | lt | eq =>
    simp only [reduceCtorEq, ↓reduceIte]
    congr 1
    funext taken
    cases taken <;> simp [Scan.consider, horder]

/-- A scan that has considered a candidate keeps nothing new but that candidate. -/
theorem kept_of_consider {measure : Specificity} {taken : Option Substitution}
    {entry : FunctionDef × Substitution}
    (h : entry ∈ (scan.consider candidate measure taken).kept) :
    entry ∈ scan.kept ∨ entry.1 = candidate := by
  cases taken with
  | none => exact Or.inl h
  | some rules =>
    simp only [Scan.consider] at h
    split at h
    · exact Or.inl h
    · exact Or.inr (by simp_all)
    · rcases mem_append.1 h with hold | hnew
      · exact Or.inl hold
      · exact Or.inr (by simp_all)

theorem kept_of_offer {next : Scan}
    (h : scan.offer fuel call arguments candidate types = .ok next types') :
    ∀ entry ∈ next.kept, entry ∈ scan.kept ∨ entry.1 = candidate := by
  rw [Scan.offer_eq, bind_eq_ok] at h
  obtain ⟨measure, mid, _, h⟩ := h
  intro entry hmem
  split at h
  · rw [pure_eq_ok] at h
    exact Or.inl (h.1 ▸ hmem)
  · rw [bind_eq_ok] at h
    obtain ⟨taken, mid', _, h⟩ := h
    rw [pure_eq_ok] at h
    exact kept_of_consider (h.1 ▸ hmem)

/-- The candidates that a scan keeps are among those it was offered. -/
theorem mem_of_kept {candidates : List FunctionDef}
    (h : scanCandidates fuel call arguments candidates types = .ok scan types') :
    ∀ entry ∈ scan.kept, entry.1 ∈ candidates := by
  have hkept : Yields (fun _ => True) (fun scan : Scan => ∀ entry ∈ scan.kept,
      entry.1 ∈ candidates) (scanCandidates fuel call arguments candidates) := by
    refine Yields.foldlM (fun candidate hmem start hstart s next t _ hoffer =>
      ⟨trivial, fun entry hentry => ?_⟩) nofun
    exact (kept_of_offer hoffer entry hentry).elim (hstart entry) (· ▸ hmem)
  exact (hkept _ _ _ trivial h).2

/-- The name of the instance whose type arguments have the given names. -/
def FunctionDef.instanceName (function : FunctionDef) (names : List String) : String :=
  function.name ++ "<" ++ joinWith "," names ++ ">"

/-- The key under which that instance is remembered. -/
def FunctionDef.instanceKey (function : FunctionDef) (names : List String) : String :=
  function.origin ++ "::" ++ function.instanceName names

theorem instantiate_eq (function : FunctionDef) (rules : Substitution) :
    instantiate function rules =
      liftM (boundNames function rules function.generics) >>= fun names =>
        get >>= fun program : Program =>
          match program.memo.instances.lookup (function.instanceKey names) with
          | some known => pure known
          | none =>
            remember (fun memo =>
              { memo with instances := (function.instanceKey names,
                  function.instantiate rules (function.instanceName names)) ::
                memo.instances }) >>= fun _ =>
            pure (function.instantiate rules (function.instanceName names)) :=
  rfl

/-- What is done with the candidates that a scan has kept. -/
def settle (key : String) (call : Call) (arguments : List TypeExpr) :
    List (FunctionDef × Substitution) → ProgramQuery (Option FunctionDef)
  | [] => return none
  | [(function, rules)] => do
    let found ← if function.isGeneric then instantiate function rules else pure function
    remember fun memo => { memo with calls := (key, found) :: memo.calls }
    return some found
  | kept =>
    throw (.ambiguousCall call.render (TypeExpr.renderList arguments) kept.length call.span)

/-- The function that a chosen candidate stands for under the rules found. -/
def choose (function : FunctionDef) (rules : Substitution) : ProgramQuery FunctionDef :=
  if function.isGeneric then instantiate function rules else pure function

/-- A single candidate is chosen, and the answer remembered. -/
theorem settle_single (key : String) (call : Call) (arguments : List TypeExpr)
    (function : FunctionDef) (rules : Substitution) :
    settle key call arguments [(function, rules)] =
      choose function rules >>= fun found =>
        remember (fun memo => { memo with calls := (key, found) :: memo.calls }) >>= fun _ =>
          pure (some found) := by
  unfold settle choose
  cases h : function.isGeneric <;> simp only [Bool.false_eq_true, ↓reduceIte, h]

/-- Resolution of a call among given candidates, in a given order. -/
def resolveAmong (fuel : Nat) (call : Call) (arguments : List TypeExpr)
    (candidates : List FunctionDef) : ProgramQuery (Option FunctionDef) := do
  let key ← callKey call arguments
  match (← get).memo.calls.lookup key with
  | some known => return some known
  | none =>
    let scan ← scanCandidates fuel call arguments candidates
    settle key call arguments scan.kept

/-- The candidates of a call depend on the project and the functions only. -/
theorem Program.candidates_congr {other : Program} (call : Call)
    (hproject : other.types.project = program.types.project)
    (hfunctions : other.functions = program.functions) :
    other.candidates call = program.candidates call := by
  unfold candidates project
  rw [hproject, hfunctions]

/-! ## What resolution leaves alone -/

section Keeps

variable {inv : TypeTable → Prop} [Lasting inv]

theorem callKey_keeps (call : Call) (arguments : List TypeExpr) :
    Keeps inv (callKey call arguments) :=
  (canonicalNames_keeps call.generics).bind fun _ =>
    (canonicalNames_keeps arguments).bind fun _ => .pure _

theorem offer_keeps (fuel : Nat) (call : Call) (arguments : List TypeExpr) (scan : Scan)
    (candidate : FunctionDef) :
    Keeps inv (scan.offer fuel call arguments candidate) := by
  rw [Scan.offer_eq]
  refine (specificity_keeps fuel candidate).bind fun measure => ?_
  refine .ite (.pure _) ?_
  exact (takes_keeps fuel candidate call arguments).bind fun taken => .pure _

theorem scanCandidates_keeps (fuel : Nat) (call : Call) (arguments : List TypeExpr)
    (candidates : List FunctionDef) :
    Keeps inv (scanCandidates fuel call arguments candidates) :=
  .foldlM (fun scan candidate => offer_keeps fuel call arguments scan candidate) _ _

theorem boundNames_keeps (function : FunctionDef) (rules : Substitution)
    (generics : List String) : Keeps inv (boundNames function rules generics) := by
  induction generics with
  | nil => exact .pure _
  | cons generic rest ih =>
    refine (Keeps.demand _ _).bind fun type => ?_
    exact (canonicalName_keeps type).bind fun name => ih.bind fun names => Keeps.pure _

end Keeps

/-! ## Queries on the types of a program -/

theorem liftProgram_of_ok {value : α} (h : query program.types = .ok value types) :
    (liftM query : ProgramQuery α) program = .ok value { program with types } := by
  change on _ _ query program = _
  rw [on, h]

theorem liftProgram_of_error (h : query program.types = .error cause types) :
    (liftM query : ProgramQuery α) program = .error cause { program with types } := by
  change on _ _ query program = _
  rw [on, h]

/-- Resolution is resolution among the candidates of the program. -/
theorem resolve_eq_resolveAmong (hlength : arguments.length = call.arguments.length)
    (program : Program) :
    resolve fuel call arguments program =
      resolveAmong fuel call arguments (program.candidates call) program := by
  have hne : (arguments.length != call.arguments.length) = false := by simp [hlength]
  unfold resolve resolveAmong
  rw [hne]
  simp only [Bool.false_eq_true, ↓reduceIte]
  have hover := callKey_keeps call arguments program.types (Over.refl _)
  cases hkey : callKey call arguments program.types with
  | error cause types =>
    rw [bind_of_error (liftProgram_of_error hkey), bind_of_error (liftProgram_of_error hkey)]
  | ok key types =>
    rw [after_of_ok hkey] at hover
    rw [bind_of_ok (liftProgram_of_ok hkey), bind_of_ok (liftProgram_of_ok hkey), get_bind,
      get_bind]
    -- The look-up of the key has changed the table of types, but not the candidates.
    have hcandidates : ({ program with types } : Program).candidates call =
        program.candidates call :=
      candidates_congr call hover.project rfl
    cases program.memo.calls.lookup key with
    | some known => rfl
    | none =>
      simp only
      rw [get_bind, hcandidates]
      rfl

/-! ## How a resolution ends -/

section Ends

theorem resolve_of_length_ne (hlength : arguments.length ≠ call.arguments.length)
    (program : Program) :
    resolve fuel call arguments program = .error (.inconsistent
      (.argumentCount call.render call.arguments.length arguments.length)) program := by
  have hne : (arguments.length != call.arguments.length) := by simp [hlength]
  unfold resolve
  rw [hne]
  rfl

section

variable (hlength : arguments.length = call.arguments.length)

include hlength

theorem resolve_of_unnamed (hkey : callKey call arguments program.types = .error cause types) :
    resolve fuel call arguments program = .error cause { program with types } := by
  rw [resolve_eq_resolveAmong hlength, resolveAmong]
  exact bind_of_error (liftProgram_of_error hkey)

theorem resolve_of_known
    (hkey : callKey call arguments program.types = .ok key types) {function : FunctionDef}
    (hknown : program.memo.calls.lookup key = some function) :
    resolve fuel call arguments program = .ok (some function) { program with types } := by
  rw [resolve_eq_resolveAmong hlength, resolveAmong, bind_of_ok (liftProgram_of_ok hkey), get_bind,
    hknown]
  rfl

theorem resolve_of_unknown (hkey : callKey call arguments program.types = .ok key types)
    (hunknown : program.memo.calls.lookup key = none) :
    resolve fuel call arguments program =
      (liftM (scanCandidates fuel call arguments (program.candidates call)) >>= fun scan : Scan =>
        settle key call arguments scan.kept : ProgramQuery (Option FunctionDef))
          { program with types } := by
  rw [resolve_eq_resolveAmong hlength, resolveAmong, bind_of_ok (liftProgram_of_ok hkey), get_bind,
    hunknown]

theorem resolve_of_unscanned (hkey : callKey call arguments program.types = .ok key types)
    (hunknown : program.memo.calls.lookup key = none)
    (hscan : scanCandidates fuel call arguments (program.candidates call) types =
      .error cause scanned) :
    resolve fuel call arguments program = .error cause { program with types := scanned } := by
  rw [resolve_of_unknown hlength hkey hunknown]
  exact bind_of_error (liftProgram_of_error hscan)

theorem resolve_of_scanned (hkey : callKey call arguments program.types = .ok key types)
    (hunknown : program.memo.calls.lookup key = none)
    (hscan : scanCandidates fuel call arguments (program.candidates call) types =
      .ok scan scanned) :
    resolve fuel call arguments program =
      settle key call arguments scan.kept { program with types := scanned } := by
  rw [resolve_of_unknown hlength hkey hunknown]
  exact bind_of_ok (liftProgram_of_ok hscan)

end

end Ends

/-! ## Programs of one file -/

/-- The function `f<T>` that takes the given number of values of type `T`. -/
def manyOf (count : Nat) : FunctionDef :=
  { name := "f"
    generics := ["T"]
    parameters := replicate count { name := "x", type := .param "T" }
    origin := "main.mer" }

/-- A project of one file without types. -/
def oneFile (functions : List FunctionDef) : Project :=
  { files := [{ name := "main.mer", package := "app", functions }] }

/-- The program of such a project. -/
def ofOneFile (functions : List FunctionDef) : Program :=
  { types := { project := oneFile functions }
    functions := { entries := functions.map fun function => { package := "app", function } } }

/-- A call of `f` with the given number of arguments. -/
def callWith (count : Nat) : Call :=
  { name := "f"
    arguments := replicate count (.intLit 0 {})
    origin := "main.mer" }

end Accord
