import Accord.Body.Exit
import Mathlib.Logic.Relation
import Mathlib.Tactic.Common

/-!
# How control moves through a body

No condition is looked at here: a conditional may take either branch, and a loop may run its
body any number of times, or not at all.  A jump leaves or repeats the innermost loop around
it, and nothing follows a return.

* `Position` is a place in a block at any depth: between two statements, or at either end.
  It is a block with that place marked, so `Position.block` gives the block back.
* `Position.Step` is one move of control, and `Position.Reaches` any number of them.
* `Position.isOpen` says that control gets past everything that stands before a position, in
  the position's own block and in the blocks around it.
* `Position.reaches_iff` says that these are the positions that are reached from the start.
-/

namespace Accord

open Relation Bool

variable {first second : Position}

/-! ## Positions -/

/-- A statement with one of its blocks taken out. -/
inductive Hole where
  | thenOf (condition : Expr) (elseBranch : List Stmt) (span : Span)
  | elseOf (condition : Expr) (thenBranch : List Stmt) (span : Span)
  | whileOf (condition : Expr) (span : Span)
  | untilOf (condition : Expr) (span : Span)

namespace Hole

/-- The statement with the block put in. -/
def fill (block : List Stmt) : Hole → Stmt
  | .thenOf condition elseBranch span => .conditional condition block elseBranch span
  | .elseOf condition thenBranch span => .conditional condition thenBranch block span
  | .whileOf condition span => .whileLoop condition block span
  | .untilOf condition span => .untilLoop condition block span

/-- Whether the block is the body of a loop. -/
def isLoop : Hole → Bool
  | .thenOf _ _ _ => false
  | .elseOf _ _ _ => false
  | .whileOf _ _ => true
  | .untilOf _ _ => true

end Hole

/-- A place in a block, or in a block inside it. -/
inductive Position where
  /-- Behind some statements of the block, and before the others. -/
  | here (before rest : List Stmt)
  /-- In a block of one of the statements. -/
  | inside (before : List Stmt) (hole : Hole) (rest : List Stmt) (inner : Position)

namespace Position

/-- The block that the position is a place in. -/
def block : Position → List Stmt
  | .here before rest => before ++ rest
  | .inside before hole rest inner => before ++ hole.fill inner.block :: rest

/-- The statement right behind the position. -/
def statement? : Position → Option Stmt
  | .here _ rest => rest.head?
  | .inside _ _ _ inner => inner.statement?

/-- Whether a loop stands around the position. -/
def inLoop : Position → Bool
  | .here _ _ => false
  | .inside _ hole _ inner => hole.isLoop || inner.inLoop

/-- The statement behind the position, unless a loop stands around it. -/
def outsideLoops? : Position → Option Stmt
  | .here _ rest => rest.head?
  | .inside _ hole _ inner => if hole.isLoop then none else inner.outsideLoops?

end Position

/-- The statement goes straight on to the next one. -/
def Stmt.isPlain : Stmt → Bool
  | .declareVar _ _ _ _ => true
  | .declareConst _ _ _ _ => true
  | .assign _ _ _ => true
  | .call _ => true
  | _ => false

/-- The statement leaves or repeats the innermost loop. -/
def Stmt.isJump : Stmt → Bool
  | .breakLoop _ => true
  | .continueLoop _ => true
  | _ => false

/-! ## Steps -/

namespace Position

/-- One move of control. -/
inductive Step : Position → Position → Prop where
  /-- A plain statement is done. -/
  | plain {before rest : List Stmt} {statement : Stmt} (h : statement.isPlain = true) :
      Step (.here before (statement :: rest)) (.here (before ++ [statement]) rest)
  /-- A branch of a conditional is taken, or the body of a loop is run. -/
  | enter {before rest block : List Stmt} {hole : Hole} :
      Step (.here before (hole.fill block :: rest)) (.inside before hole rest (.here [] block))
  /-- The body of a loop is run no more. -/
  | skip {before rest block : List Stmt} (hole : Hole) (h : hole.isLoop = true) :
      Step (.here before (hole.fill block :: rest)) (.here (before ++ [hole.fill block]) rest)
  /-- A branch has been run to its end. -/
  | leave {before rest block : List Stmt} {hole : Hole} (h : hole.isLoop = false) :
      Step (.inside before hole rest (.here block [])) (.here (before ++ [hole.fill block]) rest)
  /-- The body of a loop has been run to its end. -/
  | again {before rest block : List Stmt} {hole : Hole} (h : hole.isLoop = true) :
      Step (.inside before hole rest (.here block [])) (.here before (hole.fill block :: rest))
  /-- The innermost loop is left. -/
  | breakLoop {before rest : List Stmt} {hole : Hole} {inner : Position} {span : Span}
      (h : hole.isLoop = true) (hjump : inner.outsideLoops? = some (.breakLoop span)) :
      Step (.inside before hole rest inner) (.here (before ++ [hole.fill inner.block]) rest)
  /-- The innermost loop is repeated. -/
  | continueLoop {before rest : List Stmt} {hole : Hole} {inner : Position} {span : Span}
      (h : hole.isLoop = true) (hjump : inner.outsideLoops? = some (.continueLoop span)) :
      Step (.inside before hole rest inner) (.here before (hole.fill inner.block :: rest))
  /-- Control moves within a block of a statement. -/
  | inside {before rest : List Stmt} {hole : Hole} {first second : Position}
      (h : Step first second) :
      Step (.inside before hole rest first) (.inside before hole rest second)

/-- Some execution leads from one position to the other. -/
def Reaches : Position → Position → Prop :=
  ReflTransGen Step

/-- Control starts before the first statement. -/
def start (block : List Stmt) : Position :=
  .here [] block

/-- Control has fallen off the end of the block. -/
def finish (block : List Stmt) : Position :=
  .here block []

/-- Control stays in one block. -/
theorem Step.block_eq (h : Step first second) : second.block = first.block := by
  induction h with
  | inside _ ih => simp only [block, ih]
  | _ => simp [block]

theorem Reaches.inside (h : Reaches first second) (before rest : List Stmt) (hole : Hole) :
    Reaches (.inside before hole rest first) (.inside before hole rest second) := by
  induction h with
  | refl => exact .refl
  | tail _ hstep ih => exact ih.tail (.inside hstep)

end Position

/-! ## What control gets past -/

mutual

/-- Whether control may get past a statement. -/
def Stmt.completes : Stmt → Bool
  | .ret _ _ => false
  | .breakLoop _ => false
  | .continueLoop _ => false
  | .conditional _ thenBranch elseBranch _ =>
    Stmt.allComplete thenBranch || Stmt.allComplete elseBranch
  | .whileLoop _ _ _ => true
  | .untilLoop _ _ _ => true
  | .declareVar _ _ _ _ => true
  | .declareConst _ _ _ _ => true
  | .assign _ _ _ => true
  | .call _ => true

/-- Whether control may get past every statement of a list. -/
def Stmt.allComplete : List Stmt → Bool
  | [] => true
  | statement :: rest => statement.completes && Stmt.allComplete rest

end

@[simp] theorem Stmt.allComplete_append (first second : List Stmt) :
    Stmt.allComplete (first ++ second) = (Stmt.allComplete first && Stmt.allComplete second) := by
  induction first with
  | nil => rfl
  | cons statement rest ih => simp [Stmt.allComplete, ih, Bool.and_assoc]

theorem Stmt.completes_of_isPlain {statement : Stmt} (h : statement.isPlain) :
    statement.completes := by
  cases statement with
  | declareVar | declareConst | assign | call => rfl
  | _ => cases h

theorem Hole.completes_of_isLoop {hole : Hole} (h : hole.isLoop) (block : List Stmt) :
    (hole.fill block).completes := by
  cases hole with
  | thenOf | elseOf => cases h
  | whileOf | untilOf => simp [Hole.fill, Stmt.completes]

/-- A statement is got past if one of its blocks is. -/
theorem Hole.completes_of_allComplete (hole : Hole) {block : List Stmt}
    (h : Stmt.allComplete block) : (hole.fill block).completes := by
  cases hole <;> simp [Hole.fill, Stmt.completes, h]

namespace Position

/-- Whether control may get past everything before the position. -/
def isOpen : Position → Bool
  | .here before _ => Stmt.allComplete before
  | .inside before _ _ inner => Stmt.allComplete before && inner.isOpen

theorem Step.isOpen (h : Step first second) (hopen : first.isOpen) : second.isOpen := by
  induction h with
  | plain hplain =>
    simpa [Position.isOpen, Stmt.allComplete, Stmt.completes_of_isPlain hplain] using hopen
  | enter => simpa [Position.isOpen, Stmt.allComplete] using hopen
  | skip _ hloop | breakLoop hloop =>
    simp only [Position.isOpen, and_eq_true] at hopen
    simp [Position.isOpen, Stmt.allComplete, Hole.completes_of_isLoop hloop, hopen]
  | @leave before rest block hole _ =>
    simp only [Position.isOpen, and_eq_true] at hopen
    simp [Position.isOpen, Stmt.allComplete, hole.completes_of_allComplete hopen.2, hopen.1]
  | again | continueLoop =>
    simp only [Position.isOpen, and_eq_true] at hopen
    simp [Position.isOpen, hopen.1]
  | inside _ ih =>
    simp only [Position.isOpen, and_eq_true] at hopen ⊢
    exact ⟨hopen.1, ih hopen.2⟩

/-- What is reached from an open position is an open position in the same block. -/
theorem Reaches.open_of_open (h : Reaches first second)
    (hopen : first.isOpen) : second.isOpen ∧ second.block = first.block := by
  induction h with
  | refl => exact ⟨hopen, rfl⟩
  | tail _ hstep ih => exact ⟨hstep.isOpen ih.1, hstep.block_eq.trans ih.2⟩

/-- A branch that control gets past leads past its conditional. -/
theorem Reaches.through (before rest : List Stmt) {block : List Stmt} (hole : Hole)
    (hbranch : hole.isLoop = false) (h : Reaches (.here [] block) (.here block [])) :
    Reaches (.here before (hole.fill block :: rest))
      (.here (before ++ [hole.fill block]) rest) :=
  ReflTransGen.head .enter ((h.inside before rest hole).tail (.leave hbranch))

mutual

/-- Control gets past a statement that it may get past. -/
theorem reaches_of_completes : (statement : Stmt) → statement.completes →
    ∀ before rest,
      Reaches (.here before (statement :: rest)) (.here (before ++ [statement]) rest)
  | .conditional condition thenBranch elseBranch span, h => by
    intro before rest
    simp only [Stmt.completes, Bool.or_eq_true] at h
    cases h with
    | inl hthen =>
      have hblock := reaches_of_allComplete thenBranch hthen [] []
      rw [List.append_nil] at hblock
      exact Reaches.through before rest (.thenOf condition elseBranch span) rfl hblock
    | inr helse =>
      have hblock := reaches_of_allComplete elseBranch helse [] []
      rw [List.append_nil] at hblock
      exact Reaches.through before rest (.elseOf condition thenBranch span) rfl hblock
  | .whileLoop condition body span, _ => fun _ _ =>
    .single (.skip (.whileOf condition span) rfl)
  | .untilLoop condition body span, _ => fun _ _ =>
    .single (.skip (.untilOf condition span) rfl)
  | .declareVar _ _ _ _, _ | .declareConst _ _ _ _, _ | .assign _ _ _, _ | .call _, _ =>
    fun _ _ => .single (.plain rfl)
  | .ret _ _, h => nomatch h
  | .breakLoop _, h => nomatch h
  | .continueLoop _, h => nomatch h

theorem reaches_of_allComplete : (statements : List Stmt) →
    Stmt.allComplete statements → ∀ before rest,
      Reaches (.here before (statements ++ rest)) (.here (before ++ statements) rest)
  | [], _ => by
    intro before rest
    rw [List.nil_append, List.append_nil]
    exact .refl
  | statement :: statements, h => by
    intro before rest
    rw [Stmt.allComplete, and_eq_true] at h
    have hfirst := reaches_of_completes statement h.1 before (statements ++ rest)
    have hothers := reaches_of_allComplete statements h.2 (before ++ [statement]) rest
    rw [List.append_assoc] at hothers
    exact hfirst.trans hothers

end

/-- An open position is reached from the start of its block. -/
theorem reaches_of_isOpen : (position : Position) → position.isOpen →
    Reaches (start position.block) position
  | .here before rest, h => reaches_of_allComplete before h [] rest
  | .inside before hole rest inner, h => by
    rw [isOpen, and_eq_true] at h
    have hstatement := reaches_of_allComplete before h.1 [] (hole.fill inner.block :: rest)
    have hinner := (reaches_of_isOpen inner h.2).inside before rest hole
    exact (hstatement.tail .enter).trans hinner

/-- The positions reached from the start of a block are its open ones. -/
theorem reaches_iff (block : List Stmt) (position : Position) :
    Reaches (start block) position ↔ position.block = block ∧ position.isOpen := by
  constructor
  · intro h
    obtain ⟨hopen, hblock⟩ := h.open_of_open rfl
    exact ⟨hblock, hopen⟩
  · rintro ⟨rfl, hopen⟩
    exact reaches_of_isOpen position hopen

end Position

end Accord
