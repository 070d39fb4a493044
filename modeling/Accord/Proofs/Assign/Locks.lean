import Accord.Proofs.Assign.Order

/-!
# What comparisons do to what is known

Assignments made one after another share what is known about parameters.  A
comparison may bind a parameter, widen a binding or lock it, deep inside and
before it fails, and parts of it are tried and taken back.

* `Inference.Sound`: every parameter is bound once, and only bound ones are locked.
* `Inference.Extends`: parameters are added at the end and locks are added; a locked
  parameter keeps its binding.

One comparison keeps the first and leads to the second, whether it accepts, refuses or
breaks off (`accepts_advances`), so any number of them do (`checkAll_inference`).
-/

namespace Accord

open Query Substitution

variable {mode : Mode} {source : TypeExpr} {name : String} {state : CheckState}

namespace Inference

/-- The bound parameters, in the order in which they were bound. -/
def parameters (inference : Inference) : List String :=
  inference.bindings.map (·.1)

/-- Every parameter is bound once, and only bound parameters are locked. -/
structure Sound (inference : Inference) : Prop where
  distinct : inference.parameters.Nodup
  bound : ∀ name ∈ inference.locked, name ∈ inference.parameters

/-- Parameters and locks are only added, the parameters at the end, and what was locked
keeps its binding. -/
structure Extends (earlier later : Inference) : Prop where
  parameters : earlier.parameters <+: later.parameters
  locked : earlier.locked ⊆ later.locked
  bindings : ∀ name ∈ earlier.locked, later.bindings.find? name = earlier.bindings.find? name

variable {inference : Inference} {type : TypeExpr}

theorem Extends.refl (inference : Inference) : inference.Extends inference where
  parameters := List.prefix_rfl
  locked := List.Subset.refl _
  bindings := fun _ _ => rfl

theorem Extends.trans {first second third : Inference} (hfirst : first.Extends second)
    (hsecond : second.Extends third) : first.Extends third where
  parameters := hfirst.parameters.trans hsecond.parameters
  locked := fun _ hname => hsecond.locked (hfirst.locked hname)
  bindings := fun name hname =>
    (hsecond.bindings name (hfirst.locked hname)).trans (hfirst.bindings name hname)

/-! ## Locking, binding and widening -/

theorem mem_parameters_iff :
    name ∈ inference.parameters ↔ (inference.bindings.find? name).isSome := by
  simp only [parameters, Substitution.find?, List.lookup_isSome_iff, List.mem_map, beq_iff_eq,
    @eq_comm _ name]

theorem parameters_lock (inference : Inference) (name : String) :
    (inference.lock name).parameters = inference.parameters := by
  rw [parameters, bindings_lock, parameters]

theorem mem_locked_lock {other : String} :
    other ∈ (inference.lock name).locked ↔ other = name ∨ other ∈ inference.locked := by
  unfold lock
  split
  · rename_i hlocked
    have hname : name ∈ inference.locked := by simpa using hlocked
    exact ⟨.inr, fun h => h.elim (fun heq => heq ▸ hname) id⟩
  · exact List.mem_cons

theorem parameters_bind (inference : Inference) (name : String) (type : TypeExpr) :
    (inference.bind name type).parameters = inference.parameters ++ [name] := by
  simp [parameters, Inference.bind]

theorem parameters_rebind (inference : Inference) (name : String) (type : TypeExpr) :
    (inference.rebind name type).parameters = inference.parameters := by
  rw [parameters, rebind, parameters]
  induction inference.bindings with
  | nil => rfl
  | cons entry rest ih =>
    unfold Substitution.replace
    split
    · rfl
    · rw [List.map_cons, ih, List.map_cons]

theorem Sound.lock (h : inference.Sound) (hbound : name ∈ inference.parameters) :
    (inference.lock name).Sound where
  distinct := by
    rw [parameters_lock]
    exact h.distinct
  bound := by
    intro other hother
    rw [parameters_lock]
    rcases mem_locked_lock.1 hother with rfl | hlocked
    · exact hbound
    · exact h.bound other hlocked

theorem extends_lock (inference : Inference) (name : String) :
    inference.Extends (inference.lock name) where
  parameters := by rw [parameters_lock]
  locked := (locked_lock inference name).1
  bindings := fun _ _ => by rw [bindings_lock]

theorem Sound.bind (h : inference.Sound) (hfree : name ∉ inference.parameters) :
    (inference.bind name type).Sound where
  distinct := by
    rw [parameters_bind]
    exact h.distinct.append (List.nodup_singleton name) (List.disjoint_singleton.2 hfree)
  bound := by
    intro other hother
    rw [parameters_bind]
    exact List.mem_append_left _ (h.bound other hother)

theorem Sound.extends_bind (h : inference.Sound) (hfree : name ∉ inference.parameters) :
    inference.Extends (inference.bind name type) where
  parameters := by
    rw [parameters_bind]
    exact List.prefix_append _ _
  locked := List.Subset.refl _
  bindings := by
    intro other hother
    have hne : other ≠ name := fun heq => hfree (heq ▸ h.bound other hother)
    exact find?_append_of_ne hne

/-- A new parameter may be locked along with being bound. -/
theorem Sound.lock_bind (h : inference.Sound) (hfree : name ∉ inference.parameters) :
    ((inference.lock name).bind name type).Sound where
  distinct := by
    rw [parameters_bind, parameters_lock, ← parameters_bind inference name type]
    exact (h.bind hfree).distinct
  bound := by
    intro other hother
    rw [parameters_bind, parameters_lock]
    rcases mem_locked_lock.1 hother with rfl | hlocked
    · exact List.mem_append_right _ (List.mem_singleton_self _)
    · exact List.mem_append_left _ (h.bound other hlocked)

theorem Sound.extends_lock_bind (h : inference.Sound) (hfree : name ∉ inference.parameters) :
    inference.Extends ((inference.lock name).bind name type) where
  parameters := by
    rw [parameters_bind, parameters_lock]
    exact List.prefix_append _ _
  locked := (locked_lock inference name).1
  bindings := by
    intro other hother
    have hbind : inference.Extends (inference.bind name type) := h.extends_bind hfree
    rw [← hbind.bindings other hother, Inference.bind, Inference.bind, bindings_lock]

theorem Sound.rebind (h : inference.Sound) : (inference.rebind name type).Sound where
  distinct := by
    rw [parameters_rebind]
    exact h.distinct
  bound := by
    rw [parameters_rebind]
    exact h.bound

/-- Only a parameter that is not locked may be widened. -/
theorem extends_rebind (hfree : name ∉ inference.locked) :
    inference.Extends (inference.rebind name type) where
  parameters := by rw [parameters_rebind]
  locked := List.Subset.refl _
  bindings := by
    intro other hother
    have hne : other ≠ name := fun heq => hfree (heq ▸ hother)
    exact find?_replace_of_ne hne

end Inference

/-! ## One comparison -/

/-- What is known has only been added to since the start. -/
structure Inference.Since (start inference : Inference) : Prop where
  sound : inference.Sound
  grown : start.Extends inference

/-- What is known in a comparison has only been added to since the start. -/
abbrev CheckState.Since (start : Inference) : CheckState → Prop :=
  CheckState.Within (fun _ => True) (Inference.Since start)

variable {start : Inference}

theorem CheckState.Since.advance {before after : CheckState} (h : before.Since start)
    (hsound : after.inference.Sound) (hgrown : before.inference.Extends after.inference) :
    after.Since start :=
  ⟨trivial, hsound, h.inference.grown.trans hgrown⟩

theorem isolated_inference {α : Type} (check : Check α) (state : CheckState) :
    (check.isolated.after state).inference = state.inference := by
  rw [after, Check.isolated]
  cases check state <;> rfl

/-- A comparison that only adds to what is known, for all types and in both modes. -/
def Judge.Advances (start : Inference) (judge : Judge) : Prop :=
  ∀ mode source dest, Keeps (CheckState.Since start) (judge mode source dest)

section Rules

variable {judge : Judge}

/-- A parameter without a binding gets one, together with its lock. -/
theorem meetBinding_since_of_unbound (hfree : state.inference.bindings.find? name = none)
    (h : state.Since start) :
    ((lockIfStrict mode name >>= fun _ =>
      meetBinding judge mode source name state.inference).after state).Since start := by
  have hnew : name ∉ state.inference.parameters := by
    rw [Inference.mem_parameters_iff, hfree]
    simp
  rw [meetBinding, hfree]
  cases mode with
  | lenient => exact h.advance (h.inference.sound.bind hnew) (h.inference.sound.extends_bind hnew)
  | strict => exact h.advance (h.inference.sound.lock_bind hnew) (h.inference.sound.extends_lock_bind hnew)

variable (hjudge : judge.Advances start)

include hjudge

/-- A binding is changed only in a lenient comparison and only if the parameter is not
locked. -/
theorem meetBinding_since_of_bound {bound : TypeExpr}
    (hbound : state.inference.bindings.find? name = some bound) (h : state.Since start) :
    ((lockIfStrict mode name >>= fun _ =>
      meetBinding judge mode source name state.inference).after state).Since start := by
  have hold : name ∈ state.inference.parameters := by
    rw [Inference.mem_parameters_iff, hbound]
    rfl
  rw [meetBinding, hbound]
  cases mode with
  | strict =>
    have hlocked : CheckState.Since start { state with inference := state.inference.lock name } :=
      h.advance (h.inference.sound.lock hold) (Inference.extends_lock _ _)
    exact hjudge .strict source bound _ hlocked
  | lenient =>
    simp only [reduceCtorEq, false_or]
    split
    · exact hjudge .strict source bound _ h
    · rename_i hfree
      have hfree : name ∉ state.inference.locked := by simpa using hfree
      -- both attempts are taken back, so it is the binding read at the start that changes
      let same (t : CheckState) : Prop := t.inference = state.inference
      have hsame {check : Check Bool} : Keeps same check.isolated :=
        fun t ht => (isolated_inference check t).trans ht
      have hsince (t : CheckState) (ht : same t) : t.Since start := ⟨trivial, ht.symm ▸ h.inference⟩
      refine hsame.after_bind hsince (fun accepted t ht => ?_) rfl
      split
      · exact hsince t ht
      · refine hsame.after_bind hsince (fun fits u hu => ?_) ht
        have hunlocked : name ∉ u.inference.locked := by
          rw [show u.inference = state.inference from hu]
          exact hfree
        exact (hsince u hu).advance (hsince u hu).inference.sound.rebind
          (Inference.extends_rebind hunlocked)

theorem meetParam_since (mode : Mode) (source : TypeExpr) (name : String) :
    Keeps (CheckState.Since start) (meetParam judge mode source name) := by
  rw [meetParam_eq]
  refine .ite (.pure _) (.get_bind fun state h => ?_)
  cases hfound : state.inference.bindings.find? name with
  | none => exact meetBinding_since_of_unbound hfound h
  | some bound => exact meetBinding_since_of_bound hjudge hfound h

theorem acceptsBare_since {fuel : Nat} {dest : TypeExpr}
    (hshape : Keeps (CheckState.Since start) (acceptsShape fuel judge mode source dest)) :
    Keeps (CheckState.Since start) (acceptsBare fuel judge mode source dest) := by
  refine Keeps.get.bind fun state => ?_
  split
  · exact hjudge _ _ _
  · exact hshape

end Rules

/-- Comparisons of any types, each compared with itself. -/
def advancing (start : Inference) : JudgeParallel Unit where
  toCheckLogic := @CheckLogic.within (fun _ => True) (fun _ => True) Unit (fun _ _ => True)
    (fun _ _ => True) (Inference.Since start) (fun _ => trivial)
    (fun _ => TypeTable.Lasting.enclosed) id
  meet hjudge mode _ _ source _ name _ _ _ :=
    (Guards.of_keeps (meetParam_since (fun mode _ _ =>
      (@hjudge mode () () _ _ _ _ trivial ⟨rfl, trivial⟩ ⟨rfl, trivial⟩).keeps) mode source
        name)).mono fun a _ => ⟨a, rfl⟩
  stand hjudge _ _ _ _ _ _ _ _ _ _ _ _ hshape :=
    (Guards.of_keeps (acceptsBare_since (fun mode _ _ =>
      (@hjudge mode () () _ _ _ _ trivial ⟨rfl, trivial⟩ ⟨rfl, trivial⟩).keeps)
        hshape.keeps)).mono fun a _ => ⟨a, rfl⟩

/-- A comparison only adds to what is known, also when it refuses or breaks off. -/
theorem accepts_advances (fuel : Nat) : (accepts fuel).Advances start := fun mode _ _ =>
  (@accepts_parallel Unit (advancing start) fuel fuel rfl mode () () _ _ _ _ trivial
    ⟨rfl, trivial⟩ ⟨rfl, trivial⟩).keeps

/-! ## One comparison after another -/

/-- A value of one type that is to go into a slot of another. -/
structure Assignment where
  fuel : Nat
  mode : Mode
  source : TypeExpr
  dest : TypeExpr

/-- Whether the value may go there. -/
def Assignment.check (assignment : Assignment) : Check Bool :=
  accepts assignment.fuel assignment.mode assignment.source assignment.dest

/-- Checks assignments one after another, whatever their outcomes. -/
def checkAll (assignments : List Assignment) (state : CheckState) : CheckState :=
  assignments.foldl (fun state assignment => assignment.check.after state) state

theorem checkAll_append (earlier later : List Assignment) (state : CheckState) :
    checkAll (earlier ++ later) state = checkAll later (checkAll earlier state) :=
  List.foldl_append

theorem checkAll_since (assignments : List Assignment) (h : state.Since start) :
    (checkAll assignments state).Since start := by
  induction assignments generalizing state with
  | nil => exact h
  | cons assignment rest ih => exact ih (accepts_advances _ _ _ _ state h)

/-- If parameters are bound once each and none is locked at first, then after any
comparisons they still are bound once each and every locked one is bound, and whatever
comparisons follow only add parameters at the end, keep every lock and leave the binding of
a locked parameter as it is. -/
theorem checkAll_inference {state : CheckState}
    (hdistinct : state.inference.parameters.Nodup) (hunlocked : state.inference.locked = [])
    (earlier later : List Assignment) :
    (checkAll earlier state).inference.Sound ∧
      (checkAll earlier state).inference.Extends
        (checkAll (earlier ++ later) state).inference := by
  have hstart : state.Since state.inference :=
    ⟨trivial, ⟨hdistinct, fun name hname => by simp [hunlocked] at hname⟩, .refl _⟩
  have hmid := checkAll_since earlier hstart
  refine ⟨hmid.inference.sound, ?_⟩
  rw [checkAll_append]
  exact (checkAll_since later ⟨trivial, hmid.inference.sound, .refl _⟩).inference.grown

/-- Behind a pointer an integer locks the parameter it meets, which a real number then
cannot widen; met directly, the parameter is widened. -/
theorem pointer_locks_parameter :
    let state : CheckState := { types := { project := {} } }
    let pointer : Assignment :=
      ⟨4, .lenient, .pointer (.primitive "Int"), .pointer (.param "T")⟩
    let direct : Assignment := ⟨4, .lenient, .primitive "Int", .param "T"⟩
    let number : Assignment := ⟨4, .lenient, .primitive "Float", .param "T"⟩
    state.inference.parameters.Nodup ∧ state.inference.locked = [] ∧
      (checkAll [pointer] state).inference.locked = ["T"] ∧
      (checkAll ([pointer] ++ [number]) state).inference.bindings.find? "T" =
        some (.primitive "Int") ∧
      (checkAll ([direct] ++ [number]) state).inference.bindings.find? "T" =
        some (.union [.primitive "Int", .primitive "Float"]) := by
  intro state pointer direct number
  have hdistinct : state.inference.parameters.Nodup := List.nodup_nil
  have hlocked : (checkAll [pointer] state).inference.locked = ["T"] := by cbv
  have hbound : (checkAll [pointer] state).inference.bindings.find? "T" =
      some (.primitive "Int") := by cbv
  have hgrown := (checkAll_inference hdistinct rfl [pointer] [number]).2
  refine ⟨hdistinct, rfl, hlocked, ?_, by cbv⟩
  rw [hgrown.bindings "T" (by rw [hlocked]; exact List.mem_singleton_self _), hbound]

end Accord
