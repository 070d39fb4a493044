import Accord.Proofs.Body.Execution
import Accord.Proofs.Query.Logic
import Accord.Proofs.Source.Induction

/-!
# The check of exits is exact

The check of exits accepts a function exactly if every jump is in a loop, every statement is
reached by some execution, and, in a function with a return type, no execution falls off the
end.

* `Stmt.Tidy` says the first two of a block, through its positions, and `Stmt.tidy_cons`
  takes it apart in the way in which the check does.
* `Stmt.blockExit_ok_iff` says that the check accepts exactly the tidy blocks.
* `Stmt.blockExit_tells` says that the exit it finds tells whether control gets past the block.
-/

namespace Accord

open List Stmt

variable {exit : Exit} {block body : List Stmt} {inLoop : Bool}

/-! ## Exits -/

namespace Exit

@[simp] theorem terminates_join (first second : Exit) :
    (first.join second).terminates = (first.terminates && second.terminates) := by
  cases first <;> cases second <;> rfl

theorem join_ne_jumps {first second : Exit} (hfirst : first ≠ .jumps) (hsecond : second ≠ .jumps) :
    first.join second ≠ .jumps := by
  cases first <;> cases second <;> simp_all [join]

theorem terminates_of_ne_jumps (h : exit ≠ .jumps) : exit = .returns ↔ exit.terminates := by
  cases exit <;> simp_all [terminates]

/-- What an exit tells: whether control gets past, and outside loops nothing jumps. -/
def Tells (exit : Exit) (inLoop completes : Bool) : Prop :=
  exit.terminates = !completes ∧ (inLoop = false → exit ≠ .jumps)

end Exit

namespace Stmt

variable {function : String}

theorem blockExit_tells_of_mem (hall : ∀ statement ∈ block, ∀ {inLoop exit}, statement.exit
      function inLoop = .ok exit → exit.Tells inLoop statement.completes)
    (h : blockExit function inLoop block = .ok exit) : exit.Tells inLoop (allComplete block) := by
  induction block with
  | nil =>
    cases h
    exact ⟨rfl, nofun⟩
  | cons statement rest ih =>
    cases rest with
    | nil =>
      rw [Stmt.allComplete, Stmt.allComplete, Bool.and_true]
      exact hall statement (.head _) h
    | cons next rest =>
      rw [Stmt.blockExit, Except.bind_eq_ok] at h
      obtain ⟨first, hfirst, h⟩ := h
      have hstatement := (hall statement (.head _) hfirst).1
      split at h
      · cases h
      · obtain ⟨hrest, hjumps⟩ := ih (fun other hmem => hall other (.tail _ hmem)) h
        rw [allComplete]
        exact ⟨by simp_all, hjumps⟩

theorem exit_tells (statement : Stmt) {inLoop : Bool} {exit : Exit}
    (h : statement.exit function inLoop = .ok exit) : exit.Tells inLoop statement.completes := by
  induction statement using induct generalizing inLoop exit with
  | step statement ih =>
    cases statement with
    | conditional _ thenBranch elseBranch _ =>
      rw [Stmt.exit, Except.bind_eq_ok] at h
      obtain ⟨thenExit, hthen, h⟩ := h
      obtain ⟨elseExit, helse, h⟩ := Except.bind_eq_ok.1 h
      cases h
      have hinner := forall_mem_append.1 ih
      obtain ⟨hthen, hjumps⟩ := blockExit_tells_of_mem hinner.1 hthen
      obtain ⟨helse, hjumps'⟩ := blockExit_tells_of_mem hinner.2 helse
      exact ⟨by rw [Exit.terminates_join, hthen, helse, Stmt.completes, Bool.not_or],
        fun hloop => Exit.join_ne_jumps (hjumps hloop) (hjumps' hloop)⟩
    | whileLoop | untilLoop =>
      obtain ⟨_, _, h⟩ := Except.bind_eq_ok.1 h
      cases h
      exact ⟨rfl, nofun⟩
    | breakLoop | continueLoop =>
      cases inLoop <;> cases h
      exact ⟨rfl, nofun⟩
    | _ =>
      cases h
      exact ⟨rfl, nofun⟩

theorem blockExit_tells (block : List Stmt) (h : blockExit function inLoop block = .ok exit) :
    exit.Tells inLoop (allComplete block) :=
  blockExit_tells_of_mem (fun statement _ => exit_tells statement) h

end Stmt

/-! ## Tidy blocks -/

namespace Stmt

/-- At every statement, at any depth, control arrives, and jumps are in loops.  The block
itself may be in a loop. -/
def Tidy (inLoop : Bool) (block : List Stmt) : Prop :=
  ∀ position : Position, position.block = block →
    ∀ statement, position.statement? = some statement →
      (statement.isJump = true → (inLoop || position.inLoop) = true) ∧ position.isOpen = true

/-- The blocks of a statement are tidy, and if it is a jump it is in a loop. -/
def TidyInside (inLoop : Bool) (statement : Stmt) : Prop :=
  (statement.isJump = true → inLoop = true) ∧
    ∀ (hole : Hole) (block : List Stmt), hole.fill block = statement →
      Tidy (inLoop || hole.isLoop) block

variable {statement : Stmt} {rest : List Stmt}

theorem tidy_nil : Tidy inLoop [] := by
  intro position hblock statement hstatement
  cases position with
  | here before rest =>
    obtain ⟨rfl, rfl⟩ := append_eq_nil_iff.1 hblock
    cases hstatement
  | inside before hole rest inner => simp [Position.block] at hblock

theorem tidyInside_of_tidy (h : Tidy inLoop (statement :: rest)) : TidyInside inLoop statement := by
  constructor
  · intro hjump
    simpa [Position.inLoop] using (h (.here [] (statement :: rest)) rfl statement rfl).1 hjump
  · rintro hole block rfl position rfl other hother
    have hinside := h (.inside [] hole rest position) rfl other hother
    simpa [Position.inLoop, Position.isOpen, Stmt.allComplete, Bool.or_assoc] using hinside

theorem completes_of_tidy {next : Stmt} (h : Tidy inLoop (statement :: next :: rest)) :
    statement.completes := by
  have hopen := (h (.here [statement] (next :: rest)) rfl next rfl).2
  simpa [Position.isOpen, allComplete] using hopen

theorem tidy_tail (h : Tidy inLoop (statement :: rest)) : Tidy inLoop rest := by
  rintro position rfl other hother
  cases position with
  | here before after =>
    have hshift := h (.here (statement :: before) after) rfl other hother
    simp only [Position.isOpen, allComplete, Bool.and_eq_true] at hshift ⊢
    exact ⟨hshift.1, hshift.2.2⟩
  | inside before hole after inner =>
    have hshift := h (.inside (statement :: before) hole after inner) rfl other hother
    simp only [Position.isOpen, allComplete, Bool.and_eq_true] at hshift ⊢
    exact ⟨hshift.1, hshift.2.1.2, hshift.2.2⟩

theorem tidy_of_parts (hinside : TidyInside inLoop statement)
    (hcompletes : rest ≠ [] → statement.completes) (hrest : Tidy inLoop rest) :
    Tidy inLoop (statement :: rest) := by
  intro position hblock other hother
  cases position with
  | here before after =>
    cases before with
    | nil =>
      obtain rfl : after = statement :: rest := hblock
      obtain rfl : statement = other := Option.some.inj hother
      exact ⟨fun hjump => by simp [hinside.1 hjump], rfl⟩
    | cons first before =>
      obtain ⟨rfl, rfl⟩ := cons.inj hblock
      have hne : before ++ after ≠ [] := by
        rintro hnil
        obtain ⟨rfl, rfl⟩ := append_eq_nil_iff.1 hnil
        cases hother
      have hlater := hrest (.here before after) rfl other hother
      exact ⟨hlater.1, by simpa [Position.isOpen, allComplete, hcompletes hne] using hlater.2⟩
  | inside before hole after inner =>
    cases before with
    | nil =>
      obtain ⟨hfill, rfl⟩ := cons.inj hblock
      have hinner := hinside.2 hole inner.block hfill inner rfl other hother
      simpa [Position.inLoop, Position.isOpen, Stmt.allComplete, Bool.or_assoc] using hinner
    | cons first before =>
      obtain ⟨rfl, rfl⟩ := cons.inj hblock
      have hlater := hrest (.inside before hole after inner) rfl other hother
      have hcompletes := hcompletes (by simp)
      exact ⟨hlater.1, by simpa [Position.isOpen, allComplete, hcompletes] using hlater.2⟩

/-- A block is tidy if its first statement is, and if control gets from there to the others
and these are. -/
theorem tidy_cons : Tidy inLoop (statement :: rest) ↔
    TidyInside inLoop statement ∧ (rest ≠ [] → statement.completes) ∧ Tidy inLoop rest := by
  constructor
  · intro h
    refine ⟨tidyInside_of_tidy h, fun hne => ?_, tidy_tail h⟩
    cases rest with
    | nil => exact absurd rfl hne
    | cons next rest => exact completes_of_tidy h
  · rintro ⟨hinside, hcompletes, hrest⟩
    exact tidy_of_parts hinside hcompletes hrest

/-- Whether a statement has no blocks. -/
def isBlockless : Stmt → Bool
  | .conditional _ _ _ _ => false
  | .whileLoop _ _ _ => false
  | .untilLoop _ _ _ => false
  | _ => true

theorem tidyInside_blockless (h : statement.isBlockless) :
    TidyInside inLoop statement ↔ (statement.isJump → inLoop) := by
  refine ⟨And.left, fun hjump => ⟨hjump, ?_⟩⟩
  rintro hole block rfl
  cases hole <;> cases h

theorem tidyInside_conditional {condition : Expr} {thenBranch elseBranch : List Stmt}
    {span : Span} :
    TidyInside inLoop (.conditional condition thenBranch elseBranch span) ↔
      Tidy inLoop thenBranch ∧ Tidy inLoop elseBranch := by
  constructor
  · rintro ⟨-, h⟩
    have hthen := h (.thenOf condition elseBranch span) thenBranch rfl
    have helse := h (.elseOf condition thenBranch span) elseBranch rfl
    simp only [Hole.isLoop, Bool.or_false] at hthen helse
    exact ⟨hthen, helse⟩
  · rintro ⟨hthen, helse⟩
    refine ⟨nofun, fun hole block hfill => ?_⟩
    cases hole with
    | thenOf =>
      cases hfill
      simpa [Hole.isLoop] using hthen
    | elseOf =>
      cases hfill
      simpa [Hole.isLoop] using helse
    | whileOf | untilOf => cases hfill

theorem tidyInside_loop (hole : Hole) (hloop : hole.isLoop) :
    TidyInside inLoop (hole.fill body) ↔ Tidy true body := by
  constructor
  · rintro ⟨-, h⟩
    simpa [hloop] using h hole body rfl
  · intro hbody
    constructor
    · cases hole <;> nofun
    · intro other block hfill
      have hother : other.isLoop ∧ block = body := by
        cases hole <;> cases hloop <;> cases other <;> cases hfill <;> exact ⟨rfl, rfl⟩
      simpa [hother] using hbody

/-! ## The check -/

variable (function : String)

theorem blockExit_ok_iff_of_mem (hall : ∀ statement ∈ block, ∀ inLoop, (∃ exit, statement.exit
      function inLoop = .ok exit) ↔ TidyInside inLoop statement) (inLoop : Bool) :
    (∃ exit, blockExit function inLoop block = .ok exit) ↔ Tidy inLoop block := by
  induction block with
  | nil => exact ⟨fun _ => tidy_nil, fun _ => ⟨.fallsThrough, rfl⟩⟩
  | cons statement rest ih =>
    obtain ⟨hstatement, hrest⟩ := forall_mem_cons.1 hall
    rw [tidy_cons, ← hstatement, ← ih hrest]
    cases rest with
    | nil => simp [blockExit]
    | cons next rest =>
      rw [blockExit]
      constructor
      · rintro ⟨exit, h⟩
        obtain ⟨first, hfirst, h⟩ := Except.bind_eq_ok.1 h
        have hterminates := (exit_tells statement hfirst).1
        split at h
        · cases h
        · exact ⟨⟨first, hfirst⟩, fun _ => by simp_all, exit, h⟩
      · rintro ⟨⟨first, hfirst⟩, hcompletes, exit, hexit⟩
        have hterminates := (exit_tells statement hfirst).1
        rw [hcompletes (List.cons_ne_nil next rest), Bool.not_true] at hterminates
        refine ⟨exit, Except.bind_eq_ok.2 ⟨first, hfirst, ?_⟩⟩
        rw [hterminates]
        exact hexit

theorem exit_ok_iff (statement : Stmt) (inLoop : Bool) :
    (∃ exit, statement.exit function inLoop = .ok exit) ↔ TidyInside inLoop statement := by
  induction statement using induct generalizing inLoop with
  | step statement ih =>
    have hloop (hole : Hole) (hhole : hole.isLoop) {body : List Stmt}
        (hbody : body ⊆ statement.inner) : (∃ exit, (do
        let _ ← blockExit function true body
        return Exit.fallsThrough : Except Diagnostic Exit) = .ok exit) ↔
          TidyInside inLoop (hole.fill body) := by
      rw [tidyInside_loop hole hhole,
        ← blockExit_ok_iff_of_mem function fun inner hmem => ih inner (hbody hmem)]
      simp [Except.bind_eq_ok, pure, Except.pure]
    cases statement with
    | conditional condition thenBranch elseBranch span =>
      have hinner := forall_mem_append.1 ih
      rw [tidyInside_conditional, ← blockExit_ok_iff_of_mem function hinner.1,
        ← blockExit_ok_iff_of_mem function hinner.2, exit]
      simp [Except.bind_eq_ok, pure, Except.pure]
    | whileLoop condition body span =>
      exact hloop (.whileOf condition span) rfl (Subset.refl body)
    | untilLoop condition body span =>
      exact hloop (.untilOf condition span) rfl (Subset.refl body)
    | breakLoop | continueLoop =>
      rw [tidyInside_blockless rfl]
      cases inLoop <;> simp [exit, jumpExit, isJump]
    | _ =>
      rw [tidyInside_blockless rfl]
      exact ⟨fun _ => nofun, fun _ => ⟨_, rfl⟩⟩

theorem blockExit_ok_iff (block : List Stmt) (inLoop : Bool) :
    (∃ exit, blockExit function inLoop block = .ok exit) ↔ Tidy inLoop block :=
  blockExit_ok_iff_of_mem function (fun statement _ => exit_ok_iff function statement) inLoop

end Stmt

/-- A body that passes falls off its end exactly if the exit found for it is not a return. -/
theorem Stmt.returns_iff_not_reaches {function : String}
    (h : blockExit function false body = .ok exit) :
    exit = .returns ↔ ¬ Position.Reaches (.start body) (.finish body) := by
  have hfinish : Position.Reaches (.start body) (.finish body) ↔ allComplete body := by
    rw [Position.reaches_iff]
    simp [Position.finish, Position.block, Position.isOpen]
  obtain ⟨hterminates, hjumps⟩ := blockExit_tells body h
  rw [hfinish, Exit.terminates_of_ne_jumps (hjumps rfl), hterminates]
  simp

/-- The check accepts a function if it finds an exit for the body, and the right one. -/
theorem FunctionDef.checkExits_ok_iff (function : FunctionDef) :
    function.checkExits = .ok () ↔
      ∃ exit, Stmt.blockExit function.name false function.body = .ok exit ∧
        (function.returnType.isSome → exit = .returns) := by
  rw [FunctionDef.checkExits, Except.bind_eq_ok]
  refine exists_congr fun exit => and_congr_right fun _ => ?_
  by_cases hmissing : (function.returnType.isSome && exit != .returns)
  · rw [if_pos hmissing]
    simp only [Bool.and_eq_true, bne_iff_ne] at hmissing
    exact ⟨nofun, fun h => absurd (h hmissing.1) hmissing.2⟩
  · rw [if_neg hmissing]
    simp only [Bool.and_eq_true, bne_iff_ne, not_and, not_not] at hmissing
    exact ⟨fun _ => hmissing, fun _ => rfl⟩

/-- A tidy body has its jumps in loops, and all its statements are reached. -/
theorem Stmt.tidy_iff_reaches (body : List Stmt) :
    Tidy false body ↔
      (∀ position : Position, position.block = body →
        ∀ statement, position.statement? = some statement → statement.isJump →
          position.inLoop) ∧
      (∀ position : Position, position.block = body →
        position.statement?.isSome → Position.Reaches (.start body) position) := by
  constructor
  · intro h
    refine ⟨fun position hblock statement hstatement hjump => ?_, fun position hblock hsome => ?_⟩
    · simpa using (h position hblock statement hstatement).1 hjump
    · obtain ⟨statement, hstatement⟩ := Option.isSome_iff_exists.1 hsome
      exact (Position.reaches_iff body position).2
        ⟨hblock, (h position hblock statement hstatement).2⟩
  · rintro ⟨hjumps, hreached⟩ position hblock statement hstatement
    have hsome : position.statement?.isSome := by rw [hstatement]; rfl
    refine ⟨fun hjump => ?_, ?_⟩
    · simpa using hjumps position hblock statement hstatement hjump
    · exact ((Position.reaches_iff body position).1 (hreached position hblock hsome)).2

/-- The check of exits accepts a function exactly if every jump is in a loop, every statement
at any depth is reached by some execution, and no execution falls off the end of a function
that has a return type. -/
theorem checkExits_exact (function : FunctionDef) :
    function.checkExits = .ok () ↔
      (∀ position : Position, position.block = function.body →
        ∀ statement, position.statement? = some statement → statement.isJump = true →
          position.inLoop = true) ∧
      (∀ position : Position, position.block = function.body →
        position.statement?.isSome = true →
          Position.Reaches (.start function.body) position) ∧
      (function.returnType.isSome = true →
        ¬ Position.Reaches (.start function.body) (.finish function.body)) := by
  rw [FunctionDef.checkExits_ok_iff, ← and_assoc, ← Stmt.tidy_iff_reaches,
    ← Stmt.blockExit_ok_iff function.name]
  constructor
  · rintro ⟨exit, hexit, hreturns⟩
    exact ⟨⟨exit, hexit⟩, fun hreturn =>
      (Stmt.returns_iff_not_reaches hexit).1 (hreturns hreturn)⟩
  · rintro ⟨⟨exit, hexit⟩, hfalls⟩
    exact ⟨exit, hexit, fun hreturn =>
      (Stmt.returns_iff_not_reaches hexit).2 (hfalls hreturn)⟩

end Accord
