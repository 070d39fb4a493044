import Accord.Proofs.Assign.Parallel
import Accord.Proofs.Generic.Mentions

/-!
# Comparisons within bounds

A comparison meets types with parameters, and binds parameters to types.  Two kinds of types
keep the two apart: `fair` types may be compared, and `ground` types are fair types that may be
bound to parameters.  `Regime` says what is asked of the two kinds.

A parameter is bound to what it is compared with.  So one of the two types in a comparison has
to be ground, and then it is the same in every comparison that follows from it: with their
parts, with the binding of a parameter, and the other way round (`Regime.judging`).  What is
bound is ground therefore, and what has been bound stays bound (`Inference.Binds`).
-/

namespace Accord

open Query List Substitution

variable {type source dest : TypeExpr}

/-- Two kinds of types within which questions about a program stay. -/
structure Regime (inv : TypeTable → Prop) (mild : Diagnostic → Prop)
    (fair ground : TypeExpr → Prop) : Prop where
  ofFair : Enclosed inv mild fair
  ofGround : Enclosed inv mild ground
  fair_of_ground {type : TypeExpr} : ground type → fair type
  /-- Parameters are ground only where everything is. -/
  param {name : String} : ground (.param name) → ∀ type, ground type
  literal {name : String} : name ∈ literalTypes → ground (.primitive name)
  pointer {target : TypeExpr} : ground target → ground (.pointer target)
  array {length : UInt64} {element : TypeExpr} : ground element → ground (.array length element)
  union {alternatives : List TypeExpr} :
    (∀ type ∈ alternatives, ground type) → ground (.union alternatives)
  /-- Calls on types with parameters are refused only where they are ground. -/
  unresolved {type : TypeExpr} : ground type → type.isGeneric = true →
    ∀ call span, mild (.unresolvedGeneric call span)

theorem Regime.ordinary {inv : TypeTable → Prop} {mild : Diagnostic → Prop}
    {fair ground : TypeExpr → Prop} (h : Regime inv mild fair ground) {cause : Diagnostic}
    (hcause : cause.Ordinary) : mild cause :=
  h.ofFair.ordinary hcause

/-- All types may be compared and bound if questions about types stay within bounds. -/
theorem Enclosed.regime {inv : TypeTable → Prop} {mild : Diagnostic → Prop}
    (h : Enclosed inv mild fun _ => True)
    (hunresolved : ∀ call span, mild (.unresolvedGeneric call span)) :
    Regime inv mild (fun _ => True) (fun _ => True) where
  ofFair := h
  ofGround := h
  fair_of_ground := id
  param _ _ := trivial
  literal _ := trivial
  pointer _ := trivial
  array _ := trivial
  union _ := trivial
  unresolved _ _ := hunresolved

/-! ## Bindings -/

/-- Parameters are bound to ground types, and certain ones are bound. -/
structure Inference.Binds (ground : TypeExpr → Prop) (needed : List String)
    (inference : Inference) : Prop where
  types : ∀ entry ∈ inference.bindings, ground entry.2
  bound : ∀ parameter ∈ needed, (inference.bindings.find? parameter).isSome

namespace Inference.Binds

variable {ground : TypeExpr → Prop} {needed : List String} {inference : Inference}
  (h : inference.Binds ground needed)

include h

theorem lock (parameter : String) : (inference.lock parameter).Binds ground needed := by
  unfold Inference.lock
  split
  · exact h
  · exact ⟨h.types, h.bound⟩

theorem bind {parameter : String} (htype : ground type) :
    (inference.bind parameter type).Binds ground needed where
  types := forall_mem_append.2 ⟨h.types, forall_mem_singleton.2 htype⟩
  bound := by
    intro other hother
    rw [Inference.bind, Substitution.find?, List.lookup_append]
    have hsome : (inference.bindings.lookup other).isSome := h.bound other hother
    simp [hsome]

theorem rebind {parameter : String} (htype : ground type) :
    (inference.rebind parameter type).Binds ground needed where
  types := by
    have hreplace : ∀ {rules : Substitution}, (∀ entry ∈ rules, ground entry.2) →
        ∀ entry ∈ rules.replace parameter type, ground entry.2 := by
      intro rules hrules
      induction rules with
      | nil => exact hrules
      | cons first rest ih =>
        obtain ⟨hfirst, hrest⟩ := forall_mem_cons.1 hrules
        unfold Substitution.replace
        split
        · exact forall_mem_cons.2 ⟨htype, hrest⟩
        · exact forall_mem_cons.2 ⟨hfirst, ih hrest⟩
    exact hreplace h.types
  bound := by
    intro other hother
    have hsome := h.bound other hother
    obtain ⟨old, hold⟩ := Option.isSome_iff_exists.1 hsome
    by_cases hsame : other = parameter
    · subst hsame
      simp [Inference.rebind, find?_replace_self hold]
    · simp [Inference.rebind, find?_replace_of_ne hsame, hsome]

end Inference.Binds

/-- The table has a property, and what is known about parameters has another. -/
structure CheckState.Within (inv : TypeTable → Prop) (known : Inference → Prop)
    (state : CheckState) : Prop where
  types : inv state.types
  inference : known state.inference

section Steps

variable {α : Type} {inv : TypeTable → Prop} {mild : Diagnostic → Prop}
  {known : Inference → Prop} {good : α → Prop}

theorem liftCheck_guards {query : TypeQuery α} (h : Guards inv good mild query) :
    Guards (CheckState.Within inv known) good mild (liftM query : Check α) :=
  .on (fun _ hs => hs.types) (fun _ _ hs ht => ⟨ht, hs.inference⟩) h

theorem infer_guards {change : Inference → Inference}
    (h : ∀ inference, known inference → known (change inference)) :
    Guards (CheckState.Within inv known) (fun _ => True) mild (Check.infer change) :=
  fun state hs => .ok ⟨⟨hs.types, h state.inference hs.inference⟩, trivial⟩

theorem isolated_guards {check : Check α}
    (h : Guards (CheckState.Within inv known) good mild check) :
    Guards (CheckState.Within inv known) good mild check.isolated := by
  intro state hs
  have hrun := h state hs
  rw [Check.isolated]
  generalize check state = result at hrun ⊢
  cases hrun with
  | ok ha => exact .ok ⟨⟨ha.1.types, hs.inference⟩, ha.2⟩
  | error he => exact .error ⟨⟨he.1.types, hs.inference⟩, he.2⟩

theorem onTrial_guards {good : Bool → Prop} {check : Check Bool}
    (h : Guards (CheckState.Within inv known) good mild check) :
    Guards (CheckState.Within inv known) good mild check.onTrial := by
  intro state hs
  have hrun := h state hs
  rw [Check.onTrial]
  generalize check state = result at hrun ⊢
  cases hrun with
  | @ok accepted _ ha =>
    cases accepted with
    | true => exact .ok ha
    | false => exact .ok ⟨⟨ha.1.types, hs.inference⟩, ha.2⟩
  | error he => exact .error ⟨⟨he.1.types, hs.inference⟩, he.2⟩

theorem run_guards {check : Check α} {inference : Inference} (hinference : known inference)
    (h : Guards (CheckState.Within inv known) good mild check) :
    Guards inv (fun result => good result.1 ∧ known result.2) mild
      (check.run inference) := by
  intro types htypes
  have hrun := h { types, inference } ⟨htypes, hinference⟩
  rw [Check.run]
  generalize check { types, inference } = result at hrun ⊢
  cases hrun with
  | ok ha => exact .ok ⟨ha.1.types, ha.2, ha.1.inference⟩
  | error he => exact .error ⟨he.1.types, he.2⟩

theorem liftCheck_of_ok {α : Type} {query : TypeQuery α} {state : CheckState} {a : α}
    {types : TypeTable} (h : query state.types = .ok a types) :
    (liftM query : Check α) state = .ok a { state with types } := by
  change on _ _ query state = _
  rw [on, h]

theorem liftCheck_of_error {α : Type} {query : TypeQuery α} {state : CheckState}
    {cause : Diagnostic} {types : TypeTable} (h : query state.types = .error cause types) :
    (liftM query : Check α) state = .error cause { state with types } := by
  change on _ _ query state = _
  rw [on, h]

/-- Comparisons of types of several kinds, each compared with itself: what the table and what is
known about parameters have, they keep. -/
def CheckLogic.within {κ : Type} {good : κ → TypeExpr → Prop} {pairs : κ → κ → Prop}
    (known : Inference → Prop) (ordinary : ∀ {cause : Diagnostic}, cause.Ordinary → mild cause)
    (enclosed : ∀ kind, Enclosed inv mild (good kind))
    (symm : ∀ {kind kind'}, pairs kind kind' → pairs kind' kind) : CheckLogic κ where
  types kind := (enclosed kind).parallel
  pairs := pairs
  fuels := Eq
  checks same left _ := Guards (CheckState.Within inv known) (fun a => ∃ b, same a b) mild left
  symm := symm
  fuels_succ := exists_succ_of_eq
  ofFuels h _ := h
  shape := (enclosed _).toInherited.shape
  pure h := .pure ⟨_, h⟩
  bind h hrest := .bind h fun a ⟨b, hab⟩ => hrest a b hab
  exhausted _ _ := .throw (ordinary trivial)
  lift := liftCheck_guards
  isolated := isolated_guards
  onTrial := onTrial_guards

end Steps

/-! ## Comparisons -/

variable {inv : TypeTable → Prop} {mild : Diagnostic → Prop} {fair ground : TypeExpr → Prop}
  (h : Regime inv mild fair ground)

include h

theorem merge_ground {bound : TypeExpr} (hbound : ground bound) (htype : ground type) :
    ground (bound.merge type) := by
  unfold TypeExpr.merge
  split
  · exact h.union (forall_mem_append.2
      ⟨h.ofGround.alternatives hbound, forall_mem_singleton.2 htype⟩)
  · exact h.union (by simp [hbound, htype])

/-- Ground types are compared with fair ones, whichever is the source. -/
def Regime.logic (needed : List String) : CheckLogic Bool :=
  @CheckLogic.within inv mild Bool (fun isGround => if isGround then ground else fair)
    (fun one other => one = true ∨ other = true) (Inference.Binds ground needed)
    h.ordinary (fun | true => h.ofGround | false => h.ofFair) Or.symm

section Rules

variable {needed : List String} {judge judge' : Judge}
  (hjudge : judge.Parallel (h.logic needed) judge')

include hjudge

theorem meetBinding_guards (mode : Mode) (hsource : ground source)
    (name : String) {before : Inference} (hbefore : before.Binds ground needed) :
    Guards (CheckState.Within inv (Inference.Binds ground needed)) (fun _ => True) mild
      (meetBinding judge mode source name before) := by
  unfold meetBinding
  split
  · exact (infer_guards fun _ hknown => hknown.bind hsource).bind fun _ _ => .pure trivial
  · rename_i bound hbound
    have hground : ground bound := hbefore.types _ (mem_of_lookup hbound)
    have hforth mode := @hjudge mode true true _ _ _ _ (.inl rfl) ⟨rfl, hsource⟩ ⟨rfl, hground⟩
    have hback mode := @hjudge mode true true _ _ _ _ (.inl rfl) ⟨rfl, hground⟩ ⟨rfl, hsource⟩
    refine .ite (.mono (hforth _) fun _ _ => trivial) ?_
    refine (isolated_guards (hforth _)).bind fun accepted _ => ?_
    refine .ite (.pure trivial) ?_
    refine (isolated_guards (hback _)).bind fun fits _ => ?_
    refine (infer_guards fun _ hknown => hknown.rebind ?_).bind fun _ _ => .pure trivial
    split
    · exact hsource
    · exact merge_ground h hground hsource

theorem meetParam_guards (mode : Mode) (hsource : ground source) (name : String) :
    Guards (CheckState.Within inv (Inference.Binds ground needed)) (fun _ => True) mild
      (meetParam judge mode source name) := by
  rw [meetParam_eq]
  refine Guards.ite (Guards.pure trivial) (Guards.get.bind fun state hstate => ?_)
  have hlock : Guards (CheckState.Within inv (Inference.Binds ground needed)) (fun _ => True)
      mild (lockIfStrict mode name) :=
    .ite (infer_guards fun _ hknown => hknown.lock name) (.pure trivial)
  exact hlock.bind fun _ _ => meetBinding_guards h hjudge mode hsource name hstate.inference

/-- A parameter that is the source stands for its binding, which is ground. -/
theorem acceptsBare_guards (fuel : Nat) (mode : Mode) {kind : Bool}
    (hdest : ((h.logic needed).types kind).related dest dest)
    (hshape : Guards (CheckState.Within inv (Inference.Binds ground needed)) (fun _ => True) mild
      (acceptsShape fuel judge mode source dest)) :
    Guards (CheckState.Within inv (Inference.Binds ground needed)) (fun _ => True) mild
      (acceptsBare fuel judge mode source dest) := by
  rw [acceptsBare_eq]
  refine Guards.get.bind fun state hstate => ?_
  unfold acceptsKnowing
  split
  · rename_i bound hbound
    have hground : ground bound := by
      unfold standsFor? at hbound
      split at hbound
      · split at hbound
        · cases hbound
        · exact hstate.inference.types _ (mem_of_lookup hbound)
      · cases hbound
    have hbinding := @hjudge mode true kind _ _ _ _ (.inl rfl) ⟨rfl, hground⟩ hdest
    exact .mono hbinding fun _ _ => trivial
  · exact hshape

end Rules

/-- Comparisons of ground types with fair ones, each compared with itself. -/
def Regime.judging (needed : List String) : JudgeParallel Bool where
  toCheckLogic := h.logic needed
  meet {_ _} hjudge mode kind kind' source _ name hpair hsource hdest := by
    have hground : ground source := by
      cases kind with
      | true => exact hsource.2
      | false => exact h.param ((hpair.resolve_left Bool.false_ne_true) ▸ hdest).2 source
    exact (meetParam_guards h hjudge mode hground name).mono fun a _ => ⟨a, rfl⟩
  stand {_ _} hjudge mode _ kind _ _ dest dest' fuel _ _ _ hdest hshape := by
    obtain rfl : dest = dest' := hdest.1
    exact (acceptsBare_guards h hjudge fuel mode hdest
      (.mono hshape fun _ _ => trivial)).mono fun a _ => ⟨a, rfl⟩

theorem accepts_guards (needed : List String) (fuel : Nat) (mode : Mode)
    (hsource : ground source) (hdest : fair dest) :
    Guards (CheckState.Within inv (Inference.Binds ground needed)) (fun _ => True) mild
      (accepts fuel mode source dest) :=
  .mono (@accepts_parallel Bool (h.judging needed) fuel fuel rfl mode true false _ _ _ _
    (.inl rfl) ⟨rfl, hsource⟩ ⟨rfl, hdest⟩) fun _ _ => trivial

theorem acceptsArguments_guards (needed : List String) (fuel : Nat) {rules : Substitution}
    {parameters arguments : List TypeExpr}
    (hparameters : ∀ type ∈ parameters, fair (type.substitute rules))
    (harguments : ∀ type ∈ arguments, ground type) :
    Guards (CheckState.Within inv (Inference.Binds ground needed)) (fun _ => True) mild
      (acceptsArguments fuel rules parameters arguments) :=
  .mono (@acceptsArguments_parallel fuel fuel Bool (h.judging needed) rfl true false
    (.inl rfl) _ _ _ _ _ _ (List.forall₂_same.2 fun type hmem => ⟨rfl, hparameters type hmem⟩)
    (forall₂_eq_and.2 ⟨rfl, harguments⟩)) fun _ _ => trivial

theorem assignable_guards (fuel : Nat) (mode : Mode) (hsource : ground source) (hdest : fair dest) :
    Guards inv (fun _ => True) mild (assignable fuel mode source dest) := by
  have hempty : Inference.Binds ground [] {} := ⟨by simp, by simp⟩
  exact (run_guards hempty (accepts_guards h [] fuel mode hsource hdest)).bind fun _ _ =>
    .pure trivial

theorem specificity_guards (fuel : Nat) {function : FunctionDef}
    (hfunction : ∀ type ∈ function.parameterTypes, fair type) :
    Guards inv (fun _ => True) mild (function.specificity fuel) :=
  .mono (specificity_parallel h.ofFair.parallel h.ofFair.toInherited.shape rfl
    fun type hmem => ⟨rfl, hfunction type hmem⟩) fun _ _ => trivial

end Accord
