import Accord.Proofs.Types.History

/-!
# Comparisons that have nothing to do with parameters

One state of inference serves many comparisons: the arguments of a call are compared one after
another, and each may bind parameters that the next one meets.  A comparison of two types
without parameters should stay out of this.  It copies what is known, tries alternatives and
takes back what they inferred like any other comparison, and it looks definitions up that may
be generic.

* `TypeTable.OpensClosed`: unions and aliases, stored or instantiated, lead to types without
  parameters.  Look-ups keep this, and questions about types without parameters are answered
  by types without parameters (`closedQuestions`).
* `Check.Detached`: from every such table a comparison has one outcome, whatever is known about
  parameters, and leaves what is known as it is (`accepts_detached`).
-/

namespace Accord

open TypeExpr TypeBody

variable {definition : TypeDef}

open TypeTable

open Query

/-! ## What definitions lead to -/

/-- What questions go on to from a definition or an instance has no parameters. -/
def TypeTable.OpensClosed (table : TypeTable) : Prop :=
  ∀ definition, table.Has definition → ∀ part ∈ definition.body.opened, part.isGeneric = false

namespace TypeTable

variable {table grown : TypeTable}

/-- Only records may be generic, and parameters stand in generic definitions only. -/
theorem OpensClosed.stored (hrecords : ∀ entry ∈ table.stored, entry.2.isGeneric →
      entry.2.body.isRecord) (hclosed : table.Closed) {entry : String × TypeDef}
    (hentry : entry ∈ table.stored) :
    ∀ part ∈ entry.2.body.opened, part.isGeneric = false := by
  cases hgeneric : entry.2.isGeneric with
  | false =>
    exact fun part hpart => hclosed entry hentry hgeneric part (opened_subset _ hpart)
  | true =>
    have hrecord := hrecords entry hentry hgeneric
    cases hbody : entry.2.body with
    | record fields => simp [opened]
    | union _ | «alias» _ => rw [hbody] at hrecord; cases hrecord

/-- An instance leads where its definition does, as there is nothing to replace. -/
theorem OpensClosed.instantiate (h : ∀ part ∈ definition.body.opened, part.isGeneric = false)
    (rules : Substitution) :
    ∀ part ∈ (definition.instantiate rules).body.opened, part.isGeneric = false := by
  intro part hpart
  rw [TypeDef.instantiate, opened_substitute] at hpart
  obtain ⟨original, horiginal, rfl⟩ := List.mem_map.1 hpart
  have hclosed := h original horiginal
  rwa [substitute_of_closed rules original hclosed]

theorem OpensClosed.handed {ref : TypeRef} (h : table.OpensClosed)
    (hhanded : table.Handed ref definition grown) :
    ∀ part ∈ definition.body.opened, part.isGeneric = false := by
  rcases hhanded.origin with hhas | ⟨generic, hhas, rfl⟩
  · exact h definition hhas
  · exact OpensClosed.instantiate (h generic hhas) _

theorem OpensClosed.locateNamed (ref : TypeRef) (names : List String) :
    Guards OpensClosed (fun answer => ∀ part ∈ answer.2.body.opened, part.isGeneric = false)
      (fun _ => True) (Accord.locateNamed ref names) := by
  intro table h
  have hover := locateNamed_keeps ref names table (.refl table)
  cases hrun : Accord.locateNamed ref names table with
  | error cause grown =>
    rw [Accord.locateNamed] at hrun
    split at hrun
    · cases hrun
    · cases hrun
      exact .error ⟨h, trivial⟩
  | ok answer grown =>
    rw [after_of_ok hrun] at hover
    have hhanded := handed_of_locateNamed hrun
    have hanswer := h.handed hhanded
    refine .ok ⟨?_, hanswer⟩
    rintro definition ⟨key, hstored | hinstance⟩
    · exact h definition ⟨key, .inl (hover.stored ▸ hstored)⟩
    · rcases hhanded.instances with hsub | ⟨new, hcons⟩
      · exact h definition ⟨key, .inr (hsub hinstance)⟩
      · rw [hcons] at hinstance
        rcases List.mem_cons.1 hinstance with heq | hold
        · cases heq
          exact hanswer
        · exact h definition ⟨key, .inr hold⟩

instance : Lasting OpensClosed :=
  ⟨fun ref names => (OpensClosed.locateNamed ref names).keeps⟩

theorem OpensClosed.locate (ref : TypeRef) :
    Guards OpensClosed (fun answer => ∀ part ∈ answer.2.body.opened, part.isGeneric = false)
      (fun _ => True) (Accord.locate ref) :=
  (Guards.of_keeps (canonicalNames_keeps ref.arguments)).bind fun names _ =>
    OpensClosed.locateNamed ref names

/-- Storing a definition adds what it leads to and nothing else. -/
theorem OpensClosed.store (h : table.OpensClosed)
    (hnew : ∀ part ∈ definition.body.opened, part.isGeneric = false)
    (hstore : table.store definition = .ok grown) : grown.OpensClosed := by
  obtain ⟨package, _, rfl⟩ := store_eq_ok hstore
  rintro other ⟨key, hstored | hinstance⟩
  · rcases List.mem_append.1 hstored with hold | hlast
    · exact h other ⟨key, .inl hold⟩
    · cases List.mem_singleton.1 hlast
      exact hnew
  · exact h other ⟨key, .inr hinstance⟩

end TypeTable

theorem TableStep.stored_subset (step : TableStep) (table : TypeTable) :
    table.stored ⊆ (step.take table).stored := by
  cases step with
  | ask question =>
    have hover : table.Over (question.ask table) := question.ask_keeps (.refl table)
    rw [take, hover.stored]
    exact List.Subset.refl _
  | store definition =>
    cases hstore : table.store definition with
    | error cause => rw [take_of_error hstore]; exact List.Subset.refl _
    | ok grown =>
      rw [take_of_ok hstore]
      obtain ⟨package, _, rfl⟩ := store_eq_ok hstore
      exact List.subset_append_left _ _

/-- If this holds of what is stored in the end, it holds of everything that was entered on the
way. -/
theorem Project.opensClosed_tableAfter {project : Project} {steps : List TableStep}
    (h : ∀ entry ∈ (project.tableAfter steps).stored, ∀ part ∈ entry.2.body.opened,
      part.isGeneric = false) : (project.tableAfter steps).OpensClosed := by
  induction steps using List.reverseRecOn with
  | nil =>
    rintro definition ⟨key, hstored | hinstance⟩
    · cases hstored
    · cases hinstance
  | append_singleton steps step ih =>
    rw [tableAfter_concat] at h ⊢
    have hbefore := ih fun entry hentry => h entry (step.stored_subset _ hentry)
    cases step with
    | ask question => exact question.ask_keeps hbefore
    | store definition =>
      cases hstore : (project.tableAfter steps).store definition with
      | error cause => rwa [TableStep.take_of_error hstore]
      | ok grown =>
        rw [TableStep.take_of_ok hstore] at h ⊢
        refine hbefore.store ?_ hstore
        obtain ⟨package, _, rfl⟩ := store_eq_ok hstore
        exact h _ (List.mem_append_right _ List.mem_cons_self)

/-! ## Questions about types without parameters -/

theorem inherited_closed : Inherited fun type => type.isGeneric = false where
  target := id
  held := id
  element := id
  alternatives := anyGeneric_eq_false.1
  arguments := anyGeneric_eq_false.1

/-- Questions about types without parameters, each compared with itself: they are answered by
types without parameters. -/
def closedQuestions : TypeParallel :=
  @TypeParallel.within OpensClosed (fun _ => True) (fun type => type.isGeneric = false)
    (fun _ => trivial) inherited_closed (fun _ => .of_keeps (canonicalName_keeps _))
    fun _ => OpensClosed.locate _

/-! ## Comparisons -/

/-- An outcome on a table, with what is known about parameters put beside the table. -/
def Inference.beside {α : Type} (inference : Inference) :
    EStateM.Result Diagnostic TypeTable α → EStateM.Result Diagnostic CheckState α
  | .ok a types => .ok a { types, inference }
  | .error cause types => .error cause { types, inference }

namespace Check

variable {α β : Type}

/-- From a table that leads to types without parameters, the comparison has one outcome,
whatever is known about parameters, and leaves what is known as it is. -/
def Detached (good : α → Prop) (check : Check α) : Prop :=
  ∀ types : TypeTable, types.OpensClosed → ∃ result,
    Ends (fun a t => t.OpensClosed ∧ good a) (fun _ t => t.OpensClosed) result ∧
      ∀ inference, check { types, inference } = inference.beside result

namespace Detached

variable {good : α → Prop}

theorem pure {a : α} (h : good a) : Detached good (Pure.pure a : Check α) :=
  fun types htypes => ⟨.ok a types, .ok ⟨htypes, h⟩, fun _ => rfl⟩

theorem throw (cause : Diagnostic) : Detached good (MonadExcept.throw cause : Check α) :=
  fun types htypes => ⟨.error cause types, .error htypes, fun _ => rfl⟩

/-- Questions about types do not touch what is known about parameters. -/
theorem lift {query : TypeQuery α} (h : Guards OpensClosed good (fun _ => True) query) :
    Detached good (liftM query : Check α) := by
  intro types htypes
  refine ⟨query types, (h types htypes).mono (fun _ _ ha => ha) fun _ _ he => he.1, ?_⟩
  intro inference
  let state : CheckState := { types, inference }
  cases hrun : query state.types with
  | ok a t => exact liftCheck_of_ok hrun
  | error cause t => exact liftCheck_of_error hrun

theorem bind {next : β → Prop} {check : Check α} {rest : α → Check β} (h : Detached good check)
    (hrest : ∀ a, good a → Detached next (rest a)) : Detached next (check >>= rest) := by
  intro types htypes
  obtain ⟨result, hends, hrun⟩ := h types htypes
  cases result with
  | error cause t =>
    exact ⟨.error cause t, .error hends.of_error, fun inference => bind_of_error (hrun inference)⟩
  | ok a t =>
    obtain ⟨last, hlast, hrun'⟩ := hrest a hends.of_ok.2 t hends.of_ok.1
    exact ⟨last, hlast, fun inference => (bind_of_ok (hrun inference)).trans (hrun' inference)⟩

/-- Where nothing is inferred there is nothing to forget. -/
theorem isolated {check : Check α} (h : Detached good check) : Detached good check.isolated := by
  intro types htypes
  obtain ⟨result, hends, hrun⟩ := h types htypes
  refine ⟨result, hends, fun inference => ?_⟩
  rw [Check.isolated, hrun]
  cases result <;> rfl

/-- Where nothing is inferred there is nothing to take back. -/
theorem onTrial {good : Bool → Prop} {check : Check Bool} (h : Detached good check) :
    Detached good check.onTrial := by
  intro types htypes
  obtain ⟨result, hends, hrun⟩ := h types htypes
  refine ⟨result, hends, fun inference => ?_⟩
  rw [Check.onTrial, hrun]
  cases result with
  | ok accepted t => cases accepted <;> rfl
  | error cause t => rfl

end Detached

end Check

open Check (Detached)

/-- Comparisons of types without parameters, each compared with itself.  Such a type is no
parameter, neither one that is met nor one that could stand for its binding. -/
def closedComparisons : JudgeParallel Unit where
  types _ := closedQuestions
  pairs _ _ := True
  fuels := Eq
  checks same left _ := Detached (fun a => ∃ b, same a b) left
  symm h := h
  fuels_succ := exists_succ_of_eq
  ofFuels h _ := h
  shape := inherited_closed.shape
  pure h := Detached.pure ⟨_, h⟩
  bind h hrest := Detached.bind h fun a ⟨b, hab⟩ => hrest a b hab
  exhausted _ _ := Detached.throw _
  lift := Detached.lift
  isolated := Detached.isolated
  onTrial := Detached.onTrial
  meet _ _ _ _ _ _ _ _ _ hdest := nomatch hdest.2
  stand _ _ _ _ source _ _ _ _ _ _ hsource _ hshape := by
    cases source with
    | param name => cases hsource.2
    | _ => exact hshape

theorem accepts_detached (fuel : Nat) (mode : Mode) {source dest : TypeExpr}
    (hsource : source.isGeneric = false) (hdest : dest.isGeneric = false) :
    Detached (fun accepted => ∃ other, accepted = other) (accepts fuel mode source dest) :=
  @accepts_parallel Unit closedComparisons fuel fuel rfl mode () () _ _ _ _ trivial
    ⟨rfl, hsource⟩ ⟨rfl, hdest⟩

/-- With definitions of any kind stored and any questions asked before, as long as only
records are generic and parameters stand in generic definitions only: a comparison of two types
without parameters leaves what is known about parameters as it is, and whatever is known it
ends like a comparison that starts with nothing known, on the same table. -/
theorem closed_comparison_ignores_bindings {project : Project} {steps : List TableStep}
    (hrecords : ∀ entry ∈ (project.tableAfter steps).stored, entry.2.isGeneric = true →
      entry.2.body.isRecord = true)
    (hclosed : (project.tableAfter steps).Closed) {source dest : TypeExpr}
    (hsource : source.isGeneric = false) (hdest : dest.isGeneric = false) (fuel : Nat)
    (mode : Mode) (inference : Inference) :
    let types := project.tableAfter steps
    let after := (accepts fuel mode source dest).after { types, inference }
    after.inference = inference ∧
      (accepts fuel mode source dest).answer { types, inference } =
        (assignable fuel mode source dest).answer types ∧
      after.types = (assignable fuel mode source dest).after types := by
  intro types
  have htypes : types.OpensClosed := Project.opensClosed_tableAfter fun _ hentry =>
    OpensClosed.stored hrecords hclosed hentry
  obtain ⟨result, _, hrun⟩ := accepts_detached fuel mode hsource hdest types htypes
  have hfresh : (Check.run {} (accepts fuel mode source dest)) types =
      match result with
      | .ok accepted t => .ok (accepted, {}) t
      | .error cause t => .error cause t := by
    rw [Check.run, hrun]
    cases result <;> rfl
  rw [after, answer, hrun]
  cases result with
  | ok accepted t =>
    have hanswer : assignable fuel mode source dest types = .ok accepted t := bind_of_ok hfresh
    rw [answer, hanswer, after_of_ok hanswer]
    exact ⟨rfl, rfl, rfl⟩
  | error cause t =>
    have hanswer : assignable fuel mode source dest types = .error cause t := bind_of_error hfresh
    rw [answer, hanswer, after_of_error hanswer]
    exact ⟨rfl, rfl, rfl⟩

/-- A box of integers, or a real number. -/
def boxOrFloat : TypeDef :=
  { name := "Shape", origin := "main.mer",
    body := .union [(boxOf (.primitive "Int")).toType, .primitive "Float"] }

/-- A reference to the union. -/
def shape : TypeExpr :=
  .named "Shape" none [] "main.mer"

/-- A parameter that is bound and locked. -/
def lockedFloat : Inference :=
  { bindings := [("T", .primitive "Float")], locked := ["T"] }

/-- Boxes and the union of one of them with another type. -/
def boxSteps : List TableStep :=
  [.store boxDef, .store boxOrFloat, .ask (.retrieve (boxOf (.primitive "Float")))]

theorem tableAfter_boxSteps : twoPackages.tableAfter boxSteps =
    { project := twoPackages
      stored := [("app::Box<1>", boxDef), ("app::Shape", boxOrFloat)]
      instances := [("app::Box<Float>", boxHolding (.primitive "Float"))] } :=
  rfl

/-- A parameter bound and locked on the way does not matter where a box goes into a union. -/
theorem box_compared_without_bindings :
    (∀ entry ∈ (twoPackages.tableAfter boxSteps).stored, entry.2.isGeneric = true →
        entry.2.body.isRecord = true) ∧
      (twoPackages.tableAfter boxSteps).Closed ∧
      (boxOf (.primitive "Int")).toType.isGeneric = false ∧ shape.isGeneric = false ∧
      ((accepts 5 .lenient (boxOf (.primitive "Int")).toType shape).after
        ⟨twoPackages.tableAfter boxSteps, lockedFloat⟩).inference = lockedFloat ∧
      (accepts 5 .lenient (boxOf (.primitive "Int")).toType shape).answer
        ⟨twoPackages.tableAfter boxSteps, lockedFloat⟩ = .ok true := by
  have hrecords : ∀ entry ∈ (twoPackages.tableAfter boxSteps).stored,
      entry.2.isGeneric = true → entry.2.body.isRecord = true := by
    rw [tableAfter_boxSteps]
    decide
  have hclosed : (twoPackages.tableAfter boxSteps).Closed := by
    rw [tableAfter_boxSteps, Closed]
    decide
  have hfresh : (assignable 5 .lenient (boxOf (.primitive "Int")).toType shape).answer
      (twoPackages.tableAfter boxSteps) = .ok true := by
    rw [tableAfter_boxSteps]
    cbv
  have hsource : (boxOf (.primitive "Int")).toType.isGeneric = false := rfl
  have hdest : shape.isGeneric = false := rfl
  obtain ⟨hknown, hanswer, _⟩ :=
    closed_comparison_ignores_bindings hrecords hclosed hsource hdest 5 .lenient lockedFloat
  exact ⟨hrecords, hclosed, hsource, hdest, hknown, hanswer.trans hfresh⟩

end Accord
