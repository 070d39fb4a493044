import Accord.Proofs.Types.Chains

/-!
# Comparisons that are taken back

Where the destination is a named type or a union, what a comparison infers is inferred on trial.
If it is refused, whether after one alternative or many, and if it breaks off, what is known about
parameters is as it was before (`Check.TakesBack`).

This is decided by what stands behind the destination when the comparison comes to it, and the
comparison comes to the source first.  A source that is a parameter gives way to its binding and
the comparison starts again, so what stands behind the destination has to stand for itself from
then on (`unaliasFrom_leaves`).
-/

namespace Accord

open Query Relation

/-! ## Rules -/

namespace Check

/-- If the comparison does not accept, it leaves what is known about parameters as it is. -/
def TakesBack (check : Check Bool) (state : CheckState) : Prop :=
  Ends (fun accepted after => accepted = false → after.inference = state.inference)
    (fun _ after => after.inference = state.inference) (check state)

namespace TakesBack

variable {state : CheckState}

theorem pure (accepted : Bool) : TakesBack (Pure.pure accepted) state :=
  .ok fun _ => rfl

/-- What is tried is taken back, whatever it does. -/
theorem onTrial (check : Check Bool) : check.onTrial.TakesBack state := by
  rw [TakesBack, Check.onTrial]
  cases check state with
  | ok accepted after => cases accepted <;> exact .ok (by simp)
  | error cause after => exact .error rfl

theorem ite {c : Prop} [Decidable c] {left right : Check Bool} (hleft : left.TakesBack state)
    (hright : right.TakesBack state) : TakesBack (if c then left else right) state := by
  split
  · exact hleft
  · exact hright

/-- Questions about types do not touch what is known about parameters. -/
theorem lift {α : Type} {query : TypeQuery α} {rest : α → Check Bool}
    (h : ∀ a types, query state.types = .ok a types → (rest a).TakesBack { state with types }) :
    TakesBack (liftM query >>= rest) state := by
  rw [TakesBack]
  cases hrun : query state.types with
  | ok a types =>
    rw [bind_of_ok (liftCheck_of_ok hrun)]
    exact h a types hrun
  | error cause types =>
    rw [bind_of_error (liftCheck_of_error hrun)]
    exact .error rfl

/-- A second comparison that is made if the first does not accept. -/
theorem orElse {first rest : Check Bool} (hfirst : first.TakesBack state)
    (hrest : ∀ later, rest.TakesBack later) :
    TakesBack (first >>= fun accepted => if accepted then Pure.pure true else rest) state := by
  refine Ends.bind hfirst fun accepted after hafter => ?_
  cases accepted with
  | true => exact .ok nofun
  | false =>
    have hsame : after.inference = state.inference := hafter rfl
    exact (hrest after).mono (fun _ _ h hrefused => (h hrefused).trans hsame)
      fun _ _ h => h.trans hsame

end TakesBack

end Check

/-! ## Destinations -/

/-- Whether what is inferred from a comparison with the type is inferred on trial. -/
def TypeExpr.onTrial : TypeExpr → Bool
  | .named _ _ _ _ => true
  | .union _ => true
  | _ => false

section Rules

open Check (TakesBack)

variable (judge : Judge) (fuel : Nat) (mode : Mode) (source : TypeExpr) (state : CheckState)

theorem sameDefinition_takesBack (given dest : TypeRef) :
    (sameDefinition judge given dest).TakesBack state := by
  rw [sameDefinition]
  exact .ite (.pure _) (.lift fun _ _ _ => .lift fun _ _ _ => .ite (.pure _) (.onTrial _))

theorem someAccepts_takesBack (accepted : List TypeExpr) :
    (someAccepts judge mode source accepted).TakesBack state := by
  induction accepted generalizing state with
  | nil => exact .pure false
  | cons alternative rest ih => exact .orElse (.onTrial _) ih

theorem memberOf_takesBack (dest : TypeExpr) :
    (memberOf fuel judge mode source dest).TakesBack state := by
  rw [memberOf]
  refine .lift fun accepted _ _ => .ite (.pure _) ?_
  refine .orElse (someAccepts_takesBack judge mode source _ accepted) fun later => ?_
  exact .lift fun offered _ _ => .ite (.pure _) (.onTrial _)

theorem acceptsShape_takesBack {dest : TypeExpr} (hdest : dest.onTrial) :
    (acceptsShape fuel judge mode source dest).TakesBack state := by
  cases dest with
  | named name qualifier arguments origin =>
    have hsame : (sameNamed judge source ⟨name, qualifier, arguments, origin⟩).TakesBack state := by
      rw [sameNamed]
      split
      · exact sameDefinition_takesBack judge state _ _
      · exact .pure false
    rw [acceptsShape_named]
    exact .orElse hsame fun later => memberOf_takesBack judge fuel mode source later _
  | union alternatives => exact memberOf_takesBack judge fuel mode source state _
  | _ => cases hdest

end Rules

/-! ## What stands for itself -/

/-- What stands behind a type stands for itself, in the table that is left behind and in all
later ones. -/
theorem unaliasFrom_leaves (fuel : Nat) (seen : List String) {type : TypeExpr}
    (hplain : type.plain) :
    Leaves (fun bare t => bare.plain ∧ t.Bare bare) (unaliasFrom fuel seen type) := by
  induction fuel generalizing seen type with
  | zero => exact .throw _
  | succ fuel ih =>
    rw [unaliasFrom]
    cases href : type.ref? with
    | none =>
      exact .pure fun t => ⟨hplain, by simp [TypeTable.Bare, href]⟩
    | some ref =>
      obtain rfl := TypeExpr.eq_of_ref? href
      have hbare (definition : TypeDef) (hother : definition.body.isAlias = false) :
          Leaves (fun bare t => retrieve ref t = .ok definition t ∧ definition.PlainBody →
            bare.plain ∧ t.Bare bare) (pure ref.toType) := by
        refine .pure fun t hfound => ⟨hplain, fun again heq => ?_⟩
        cases href.symm.trans heq
        exact ⟨definition, hfound.1, hother⟩
      refine (retrieve_leaves hplain).bind fun definition hfound => ?_
      cases hbody : definition.body with
      | «alias» target =>
        obtain ⟨_, _, hparts⟩ := hfound
        have htarget : target.plain := hparts target (by simp [hbody, TypeBody.components])
        refine (canonicalName_leaves hplain).bind fun name _ => ?_
        split
        · exact .throw _
        · exact (ih _ htarget).mono fun _ _ h _ _ => h
      | _ => exact hbare definition (by simp [hbody, TypeBody.isAlias])

/-! ## Whole comparisons -/

/-- A source that is a parameter gives way to its binding, as often as it takes, and then the
destination decides. -/
theorem acceptsBare_takesBack (fuel : Nat) {source dest : TypeExpr} (hdest : dest.onTrial)
    (hplain : dest.plain) {state : CheckState} (hspelled : state.types.Spelled)
    (hknown : state.inference.Plain)
    (hbare : ∀ later : TypeTable, later.Spelled → state.types.Before later → later.Bare dest) :
    (acceptsBare fuel (accepts fuel) .lenient source dest).TakesBack state := by
  induction fuel generalizing source state with
  | zero =>
    rw [acceptsBare_eq, Check.TakesBack]
    change Check.TakesBack (acceptsKnowing 0 _ _ _ _ _) state
    rw [acceptsKnowing]
    split
    · exact .error rfl
    · exact acceptsShape_takesBack _ _ _ _ _ hdest
  | succ fuel ih =>
    rw [acceptsBare_eq, Check.TakesBack]
    change Check.TakesBack (acceptsKnowing _ _ _ _ _ _) state
    rw [acceptsKnowing]
    cases hstands : standsFor? state.inference source dest with
    | none => exact acceptsShape_takesBack _ _ _ _ _ hdest
    | some bound =>
      have hbound : bound.plain := by
        unfold standsFor? at hstands
        split at hstands
        · split at hstands
          · cases hstands
          · exact hknown _ (mem_of_lookup hstands)
        · cases hstands
      change Check.TakesBack (accepts (fuel + 1) .lenient bound dest) state
      rw [accepts_lenient]
      refine .lift fun bare types hsource => ?_
      obtain ⟨htypes, hbefore, _⟩ := unaliasFrom_leaves fuel [] hbound _ _ _ hspelled hsource
      refine .lift fun bareDest types' hrun => ?_
      obtain ⟨htypes', hbefore', _⟩ := unaliasFrom_leaves fuel [] hplain _ _ _ htypes hrun
      obtain rfl := (hbare types htypes hbefore).unaliases_eq ⟨_, _, hrun⟩
      exact ih htypes' hknown fun later hlater hlast =>
        hbare later hlater ((hbefore.trans hbefore').trans hlast)

/-- Behind the destination, looked at after the source, stands a type that is tried. -/
def TypeTable.Tries (table : TypeTable) (source dest : TypeExpr) : Prop :=
  ∀ fuel bareSource after bare, unalias fuel source table = .ok bareSource after →
    (unalias fuel dest).answer after = .ok bare → bare.onTrial = true

/-- Where no alias takes type arguments, it does not matter what is looked at before. -/
theorem TypeTable.FixedAliases.tries {table : TypeTable} (h : table.FixedAliases)
    (hspelled : table.Spelled) {source dest : TypeExpr} (hsource : source.plain)
    (hdest : dest.plain)
    (hbare : ∃ fuel bare, (unalias fuel dest).answer table = .ok bare ∧ bare.onTrial) :
    table.Tries source dest := by
  intro fuel bareSource after bare hrun hlast
  obtain ⟨fuel', bare', hfirst, htrial⟩ := hbare
  obtain ⟨_, hfirst⟩ := answer_eq_ok.1 hfirst
  obtain ⟨_, hlast⟩ := answer_eq_ok.1 hlast
  have hgrown := unalias_follows hspelled h fuel hsource table (hspelled.grownBy _)
  have hends := unalias_follows hspelled h fuel hdest after (hgrown.of_run hrun).1
  have hends' := unalias_follows hspelled h fuel' hdest table (hspelled.grownBy _)
  rw [hfirst] at hends'
  obtain ⟨_, hreaches, hrests⟩ := hends.of_run hlast
  obtain ⟨_, hreaches', hrests'⟩ := hends'.of_ok
  rw [TypeTable.Follows.ends_unique hreaches hrests.last hreaches' hrests'.last]
  exact htrial

theorem accepts_takesBack (fuel : Nat) {source dest : TypeExpr} (hsource : source.plain)
    (hdest : dest.plain) {state : CheckState} (hspelled : state.types.Spelled)
    (hknown : state.inference.Plain) (htries : state.types.Tries source dest) :
    (accepts fuel .lenient source dest).TakesBack state := by
  cases fuel with
  | zero => exact .error rfl
  | succ fuel =>
    rw [accepts_lenient]
    refine .lift fun bareSource types hrun => ?_
    obtain ⟨htypes, _, _⟩ := unaliasFrom_leaves fuel [] hsource _ _ _ hspelled hrun
    refine .lift fun bare types' hlast => ?_
    obtain ⟨htypes', _, hbare⟩ := unaliasFrom_leaves fuel [] hdest _ _ _ htypes hlast
    have htrial := htries fuel bareSource types bare hrun (answer_eq_ok.2 ⟨_, hlast⟩)
    exact acceptsBare_takesBack fuel htrial (hbare types' htypes' (.refl _)).1 htypes' hknown
      fun later hlater hbefore => (hbare later hlater hbefore).2

/-- If a lenient comparison with a named type or a union does not accept, nothing is known about
parameters that was not known before.  What counts is what stands behind the destination once the
source has been looked at; without generic aliases it is what stands there from the beginning. -/
theorem refused_comparison_taken_back {project : Project} {steps : List TableStep}
    (hfiles : ∀ file ∈ project.files, file.plain = true)
    (hsteps : ∀ step ∈ steps, step.plain = true) {source dest : TypeExpr}
    (hsource : source.plain = true) (hdest : dest.plain = true) {inference : Inference}
    (hknown : inference.Plain)
    (htrial : (project.tableAfter steps).Tries source dest ∨
      (∀ entry ∈ (project.tableAfter steps).stored, entry.2.isGeneric = true →
        entry.2.body.isAlias = false) ∧
      ∃ fuel bare, (unalias fuel dest).answer (project.tableAfter steps) = .ok bare ∧
        bare.onTrial = true) (fuel : Nat)
    (hrefused : (accepts fuel .lenient source dest).answer ⟨project.tableAfter steps, inference⟩ ≠
      .ok true) :
    ((accepts fuel .lenient source dest).after
      ⟨project.tableAfter steps, inference⟩).inference = inference := by
  have hspelled := (Project.recorded_of_plain hfiles hsteps).spelled
  have htries : (project.tableAfter steps).Tries source dest := by
    rcases htrial with htries | ⟨hfixed, hbare⟩
    · exact htries
    · exact (Project.fixedAliases_tableAfter hfiles hsteps hfixed).tries hspelled hsource hdest hbare
  have htaken : (accepts fuel .lenient source dest).TakesBack
      ⟨project.tableAfter steps, inference⟩ :=
    accepts_takesBack fuel hsource hdest hspelled hknown htries
  rw [Check.TakesBack] at htaken
  cases hrun : accepts fuel .lenient source dest ⟨project.tableAfter steps, inference⟩ with
  | ok accepted after =>
    rw [after_of_ok hrun]
    cases accepted with
    | true => exact absurd (answer_eq_ok.2 ⟨after, hrun⟩) hrefused
    | false => exact (htaken.of_run hrun) rfl
  | error cause after =>
    rw [after_of_error hrun]
    exact htaken.of_refusal hrun

/-- A pointer to an integer, or a truth value. -/
def pointerOrTruth : TypeExpr :=
  .union [.pointer .int, .bool]

/-- A pointer to what the parameter stands for, or two such values. -/
def pointerOrPair : TypeExpr :=
  .union [.pointer (.param "T"), .array 2 (.param "T")]

/-- Another parameter is bound. -/
def knownBool : Inference :=
  { bindings := [("U", .bool)] }

/-- The pointer goes in and would bind the parameter, but the truth value does not. -/
theorem pointerOrTruth_taken_back :
    (∀ file ∈ renamedItems.files, file.plain = true) ∧ (∀ step ∈ pingPong, step.plain = true) ∧
      knownBool.Plain ∧
      (accepts 5 .lenient (.pointer .int) pointerOrPair).answer
        ⟨renamedItems.tableAfter pingPong, knownBool⟩ = .ok true ∧
      (accepts 5 .lenient pointerOrTruth pointerOrPair).answer
        ⟨renamedItems.tableAfter pingPong, knownBool⟩ = .ok false ∧
      ((accepts 5 .lenient pointerOrTruth pointerOrPair).after
        ⟨renamedItems.tableAfter pingPong, knownBool⟩).inference = knownBool := by
  have hfiles : ∀ file ∈ renamedItems.files, file.plain = true := by decide
  have hsteps : ∀ step ∈ pingPong, step.plain = true := by decide
  have hknown : knownBool.Plain := by
    rw [Inference.Plain]
    decide
  have haccepted : (accepts 5 .lenient (.pointer .int) pointerOrPair).answer
      ⟨renamedItems.tableAfter pingPong, knownBool⟩ = .ok true := by
    rw [tableAfter_pingPong]
    cbv
  have hrefused : (accepts 5 .lenient pointerOrTruth pointerOrPair).answer
      ⟨renamedItems.tableAfter pingPong, knownBool⟩ = .ok false := by
    rw [tableAfter_pingPong]
    cbv
  refine ⟨hfiles, hsteps, hknown, haccepted, hrefused, ?_⟩
  refine refused_comparison_taken_back hfiles hsteps (by decide) (by decide) hknown
    (.inr ⟨?_, 1, pointerOrPair, rfl, rfl⟩) 5 (by simp [hrefused])
  rw [tableAfter_pingPong]
  decide

/-- A name for what it is given. -/
def sameDef : TypeDef :=
  { name := "Same", generics := ["X"], origin := "main.mer", body := .alias (.param "X") }

/-- A name for a pointer to two integers, whatever it is given. -/
def integersDef : TypeDef :=
  { name := "Integers", generics := ["X"], origin := "main.mer"
    body := .alias (.pointer (.array 2 .int)) }

/-- A reference to what is the same as a type. -/
def sameAs (type : TypeExpr) : TypeRef :=
  ⟨"Same", none, [type], "main.mer"⟩

/-- Two integers, with a pointer to a sum in what the name is given. -/
def givenIntegers : TypeExpr :=
  .named "Integers" none
    [(sameAs (.pointer (.union [.bool, .array 2 (.param "T")]))).toType] "main.mer"

/-- A sum that begins with a pointer. -/
def givenSum : TypeExpr :=
  (sameAs (.union [.pointer .bool, .array 2 (.param "T")])).toType

/-- Behind the destination stands a sum, as long as nobody has looked at the source.  Its type
argument has the name of the one in the source, which is a pointer, and so the comparison is one
of pointers, which is refused after the parameter has been bound. -/
theorem binding_left_by_refused_comparison :
    (unalias 3 givenSum).answer (renamedItems.tableAfter [.store sameDef, .store integersDef]) =
        .ok (.union [.pointer .bool, .array 2 (.param "T")]) ∧
      (accepts 6 .lenient givenIntegers givenSum).answer
        ⟨renamedItems.tableAfter [.store sameDef, .store integersDef], {}⟩ = .ok false ∧
      ((accepts 6 .lenient givenIntegers givenSum).after
        ⟨renamedItems.tableAfter [.store sameDef, .store integersDef], {}⟩).inference =
          { bindings := [("T", .int)], locked := ["T"] } := by
  refine ⟨rfl, ?_, ?_⟩
  · cbv
  · cbv

end Accord
