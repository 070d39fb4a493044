import Accord.Proofs.Assign.Fits
import Accord.Proofs.Assign.Rules

/-!
# What a comparison decides

On ground types a comparison binds nothing, and its two answers mean what they say: it
accepts only what fits, and refuses only what does not (`accepts_decides`).  It may also
give no answer, for want of fuel or because an alias leads nowhere.  The two answers are kept
apart: any relation that takes in what satisfies the rules has what is accepted, and any relation
whose pairs satisfy the rules has nothing that is refused (`accepts_separates`).

There is one lemma for each rule of comparison.  The positive half of each reads what
stands behind a type by `Reading.some`, the negative half by `Reading.all`; where a query
has found it, the two readings agree.
-/

namespace Accord

open Query TypeExpr List TypeRef TypeTable

variable {bare source type dest : TypeExpr} {holds : List TypeExpr → Prop}
  {types accepted : List TypeExpr} {check : Check Bool} {base table after : TypeTable}
  {inference : Inference} {taken spared : Comparison} {judge : Judge} {answer : Bool}

/-! ## The two readings -/

section Readings

theorem TypeTable.Unaliases.some_iff (h : base.Unaliases type bare) {holds : TypeExpr → Prop} :
    (Reading.some base).bare type holds ↔ holds bare := by
  constructor
  · rintro ⟨bare', hbare', hholds⟩
    rwa [h.unique hbare']
  · exact fun hholds => ⟨bare, h, hholds⟩

theorem TypeTable.Unaliases.all_iff (h : base.Unaliases type bare) {holds : TypeExpr → Prop} :
    (Reading.all base).bare type holds ↔ holds bare := by
  constructor
  · exact fun hall => hall bare h
  · intro hholds bare' hbare'
    rwa [← h.unique hbare']

theorem TypeTable.Flattens.some_iff (h : base.Flattens type types) :
    (Reading.some base).listed type holds ↔ holds types := by
  constructor
  · rintro ⟨types', htypes', hholds⟩
    rwa [h.unique htypes']
  · exact fun hholds => ⟨types, h, hholds⟩

theorem TypeTable.Flattens.all_iff (h : base.Flattens type types) :
    (Reading.all base).listed type holds ↔ holds types := by
  constructor
  · exact fun hall => hall types h
  · intro hholds types' htypes'
    rwa [← h.unique htypes']

end Readings

/-! ## Queries about ground types -/

/-- The state of a comparison that binds nothing: a variant of the table, and what was
known about parameters. -/
structure CheckState.Calm (base : TypeTable) (inference : Inference) (state : CheckState) :
    Prop where
  types : base.Variant state.types
  inference : state.inference = inference

section Calm

theorem liftCheck_yields {α : Type} {good : α → Prop} {query : TypeQuery α}
    (h : Yields base.Variant good query) :
    Yields (CheckState.Calm base inference) good (liftM query : Check α) :=
  .on (fun _ hs => hs.types) (fun _ _ hs ht => ⟨ht, hs.inference⟩) h

variable {yes no : Prop}

theorem isolated_decides (h : Decides (CheckState.Calm base inference) yes no check) :
    Decides (CheckState.Calm base inference) yes no check.isolated := by
  intro s answer t hs hrun
  rw [Check.isolated] at hrun
  cases hcheck : check s with
  | ok value after =>
    rw [hcheck] at hrun
    cases hrun
    obtain ⟨hafter, hvalue⟩ := h s _ _ hs hcheck
    exact ⟨⟨hafter.types, hs.inference⟩, hvalue⟩
  | error cause after =>
    rw [hcheck] at hrun
    cases hrun

theorem onTrial_decides (h : Decides (CheckState.Calm base inference) yes no check) :
    Decides (CheckState.Calm base inference) yes no check.onTrial := by
  intro s answer t hs hrun
  rw [Check.onTrial] at hrun
  cases hcheck : check s with
  | ok value after =>
    obtain ⟨hafter, hvalue⟩ := h s _ _ hs hcheck
    rw [hcheck] at hrun
    cases value with
    | true =>
      cases hrun
      exact ⟨hafter, hvalue⟩
    | false =>
      cases hrun
      exact ⟨⟨hafter.types, hs.inference⟩, hvalue⟩
  | error cause after =>
    rw [hcheck] at hrun
    cases hrun

end Calm

/-- A comparison of ground types that accepts what fits and refuses what does not. -/
def Judge.Decides (base : TypeTable) (judge : Judge) : Prop :=
  ∀ mode {source dest : TypeExpr}, source.Ground → dest.Ground → ∀ inference,
    Query.Decides (CheckState.Calm base inference) (Fits base mode source dest)
      (¬ Fits base mode source dest) (judge mode source dest)

/-- A comparison of ground types that accepts only what is in the first relation, and refuses
nothing that is in the second. -/
def Judge.Separates (base : TypeTable) (taken spared : Comparison) (judge : Judge) : Prop :=
  ∀ mode {source dest : TypeExpr}, source.Ground → dest.Ground → ∀ inference,
    Query.Decides (CheckState.Calm base inference) (taken mode source dest)
      (¬ spared mode source dest) (judge mode source dest)

/-! ## Lists of types -/

section Lists

variable (hjudge : judge.Separates base taken spared)

include hjudge

theorem sameArguments_decides {sources dests : List TypeExpr}
    (hlength : sources.length = dests.length) (hsources : ∀ type ∈ sources, type.Ground)
    (hdests : ∀ type ∈ dests, type.Ground) :
    Decides (CheckState.Calm base inference)
      (Forall₂ (taken .strict) sources dests)
      (¬ Forall₂ (spared .strict) sources dests) (sameArguments judge sources dests) := by
  induction sources generalizing dests with
  | nil =>
    rw [eq_nil_of_length_eq_zero hlength.symm]
    exact Decides.true .nil
  | cons source sources ih =>
    cases dests with
    | nil => simp at hlength
    | cons dest dests =>
      obtain ⟨hsource, hsources⟩ := forall_mem_cons.1 hsources
      obtain ⟨hdest, hdests⟩ := forall_mem_cons.1 hdests
      refine Decides.cond (hjudge .strict hsource hdest inference) (fun hfits => ?_) fun hnot => ?_
      · refine (ih (by simpa using hlength) hsources hdests).imp (.cons hfits) fun hnot hall => ?_
        exact hnot (forall₂_cons.1 hall).2
      · exact Decides.false fun hall => hnot (forall₂_cons.1 hall).1

theorem someAccepts_decides (mode : Mode) (hsource : source.Ground)
    (haccepted : ∀ type ∈ accepted, type.Ground) :
    Decides (CheckState.Calm base inference)
      (∃ alternative ∈ accepted, taken mode source alternative)
      (¬ ∃ alternative ∈ accepted, spared mode source alternative)
      (someAccepts judge mode source accepted) := by
  induction accepted with
  | nil => exact Decides.false (by simp)
  | cons alternative rest ih =>
    obtain ⟨halternative, hrest⟩ := forall_mem_cons.1 haccepted
    refine Decides.cond (onTrial_decides (hjudge mode hsource halternative inference))
      (fun hfits => Decides.true ⟨alternative, by simp, hfits⟩) fun hnot => ?_
    refine (ih hrest).imp ?_ ?_
    · rintro ⟨found, hmem, hfits⟩
      exact ⟨found, mem_cons_of_mem _ hmem, hfits⟩
    · rintro hnone ⟨found, hmem, hfits⟩
      rcases mem_cons.1 hmem with rfl | hmem
      · exact hnot hfits
      · exact hnone ⟨found, hmem, hfits⟩

theorem allAccepted_decides (mode : Mode) {offered : List TypeExpr}
    (haccepted : ∀ type ∈ accepted, type.Ground) (hoffered : ∀ type ∈ offered, type.Ground) :
    Decides (CheckState.Calm base inference)
      (∀ part ∈ offered, ∃ alternative ∈ accepted, taken mode part alternative)
      (¬ ∀ part ∈ offered, ∃ alternative ∈ accepted, spared mode part alternative)
      (allAccepted judge mode accepted offered) := by
  induction offered with
  | nil => exact Decides.true (by simp)
  | cons source rest ih =>
    obtain ⟨hsource, hrest⟩ := forall_mem_cons.1 hoffered
    refine Decides.cond (someAccepts_decides hjudge mode hsource haccepted)
      (fun htaken => ?_) fun hnot => Decides.false fun hall => hnot (hall source (by simp))
    refine (ih hrest).imp (fun hall => forall_mem_cons.2 ⟨htaken, hall⟩) fun hnot hall => ?_
    exact hnot (forall_mem_cons.1 hall).2

end Lists

/-! ## References and unions -/

theorem locate_yields {ref : TypeRef} (hplain : ref.plain) :
    Yields base.Variant (base.Located ref) (locate ref) := by
  intro s answer t hs hrun
  obtain ⟨_, _, _, hlocated, ht⟩ := (locate_agree hplain).ok_right ⟨hs, hs⟩ hrun
  exact ⟨ht.1, hlocated.1⟩

theorem sameDefinition_decides (hjudge : judge.Separates base taken spared)
    {source dest : TypeRef} (hsource : source.toType.Ground) (hdest : dest.toType.Ground) :
    Decides (CheckState.Calm base inference)
      (SameDefinition base taken source.toType dest.toType)
      (¬ SameDefinition base spared source.toType dest.toType)
      (sameDefinition judge source dest) := by
  -- What the two references have in common, if they name one definition.
  have hinvert : SameDefinition base spared source.toType dest.toType →
      source.name = dest.name ∧ base.declaration? source = base.declaration? dest ∧
        Forall₂ (spared .strict) source.arguments dest.arguments := by
    rintro ⟨left, right, hleft, hright, hrest⟩
    obtain rfl := toType_inj hleft
    obtain rfl := toType_inj hright
    exact hrest
  unfold sameDefinition
  split
  · rename_i hdiffer
    refine Decides.false fun hsame => ?_
    obtain ⟨hname, _, harguments⟩ := hinvert hsame
    simp [hname, harguments.length_eq] at hdiffer
  · rename_i hagree
    obtain ⟨hname, hlength⟩ : source.name = dest.name ∧
        source.arguments.length = dest.arguments.length := by
      simpa using hagree
    refine .bind (liftCheck_yields (locate_yields hsource.plain)) fun answer hlocated => ?_
    refine .bind (liftCheck_yields (locate_yields hdest.plain)) fun answer' hlocated' => ?_
    obtain ⟨package, found⟩ := answer
    obtain ⟨package', found'⟩ := answer'
    dsimp only
    split
    · rename_i hpackage
      refine Decides.false fun hsame => ?_
      obtain ⟨_, declared, hdeclared, _⟩ := hlocated
      obtain ⟨_, declared', hdeclared', _⟩ := hlocated'
      have hboth := hdeclared.symm.trans ((hinvert hsame).2.1.trans hdeclared')
      cases hboth
      simp at hpackage
    · rename_i hpackage
      obtain rfl : package = package' := by simpa using hpackage
      have hdeclared : base.declaration? source = base.declaration? dest := by
        obtain ⟨_, declared, hleft, _⟩ := hlocated
        obtain ⟨_, declared', hright, _⟩ := hlocated'
        rw [hleft, hright, declaration_unique hleft hright hname hlength]
      refine (onTrial_decides (sameArguments_decides hjudge hlength hsource.arguments
        hdest.arguments)).imp (fun hall => ?_) fun hnot hsame => hnot (hinvert hsame).2.2
      exact ⟨source, dest, rfl, rfl, hname, hdeclared, hall⟩

section Closed

variable (hbase : base.Variant base) (hclosed : base.Closed)

include hbase hclosed

theorem unalias_yields (fuel : Nat) (h : type.Ground) :
    Yields base.Variant (fun bare => base.Unaliases type bare ∧ bare.Ground)
      (unalias fuel type) := by
  intro s bare t hs hrun
  obtain ⟨hbare, hground, ht⟩ := Unaliases.of_run hbase (hclosed.hereditary hbase) h hs hrun
  exact ⟨ht, hbare, hground⟩

theorem alternatives_yields (fuel : Nat) (h : type.Ground) :
    Yields base.Variant (fun types => base.Flattens type types ∧ ∀ t ∈ types, t.Ground)
      (alternatives fuel type) := by
  intro s types t hs hrun
  obtain ⟨htypes, hground, ht⟩ := Flattens.of_run hbase (hclosed.hereditary hbase) h hs hrun
  exact ⟨ht, htypes, hground⟩

theorem memberOf_decides (hjudge : judge.Separates base taken spared) (fuel : Nat) (mode : Mode)
    (hsource : source.Ground) (hdest : dest.Ground) :
    Decides (CheckState.Calm base inference)
      (Member (.some base) taken mode source dest)
      (¬ Member (.all base) spared mode source dest)
      (memberOf fuel judge mode source dest) := by
  unfold memberOf
  refine .bind (liftCheck_yields (alternatives_yields hbase hclosed fuel hdest))
    fun accepted ⟨haccepted, hground⟩ => ?_
  simp only [Member, haccepted.some_iff, haccepted.all_iff]
  split
  · rename_i hempty
    exact Decides.false fun h => h.1 (isEmpty_iff.1 hempty)
  · rename_i hempty
    have hne : accepted ≠ [] := by simpa using hempty
    refine Decides.cond (someAccepts_decides hjudge mode hsource hground)
      (fun htaken => Decides.true ⟨hne, Or.inl htaken⟩) fun hnot => ?_
    refine .bind (liftCheck_yields (alternatives_yields hbase hclosed fuel hsource))
      fun offered ⟨hoffered, hground'⟩ => ?_
    simp only [hoffered.some_iff, hoffered.all_iff]
    split
    · rename_i hempty'
      refine Decides.false ?_
      rintro ⟨_, htaken | ⟨hne', _⟩⟩
      · exact hnot htaken
      · exact hne' (isEmpty_iff.1 hempty')
    · rename_i hempty'
      have hne' : offered ≠ [] := by simpa using hempty'
      refine (onTrial_decides (allAccepted_decides hjudge mode hground hground')).imp
        (fun hall => ⟨hne, Or.inr ⟨hne', hall⟩⟩) ?_
      rintro hrefused ⟨_, htaken | ⟨_, hall⟩⟩
      · exact hnot htaken
      · exact hrefused hall

/-! ## Text -/

/-- The element of an array, or nothing for another type. -/
def TypeExpr.held? : TypeExpr → Option TypeExpr
  | .array _ element => some element
  | _ => none

omit hbase hclosed in
theorem TypeExpr.held?_eq_some {element : TypeExpr} :
    type.held? = some element ↔ ∃ length, type = .array length element := by
  cases type <;> simp [held?]

omit hbase hclosed in
theorem TypeExpr.isPrimitive_iff {name : String} :
    type.isPrimitive name ↔ type = .primitive name := by
  cases type <;> simp [isPrimitive]

theorem pointedElement_yields (fuel : Nat) {target : TypeExpr} (h : target.Ground) :
    Yields base.Variant
      (fun found => ∃ bare, base.Unaliases target bare ∧ bare.Ground ∧ found = bare.held?)
      (pointedElement fuel target) := by
  refine .bind (unalias_yields hbase hclosed fuel h) fun bare ⟨hbare, hground⟩ => ?_
  cases bare <;> exact .pure ⟨_, hbare, hground, rfl⟩

theorem isChar_decides (fuel : Nat) (h : type.Ground) :
    Decides base.Variant ((Reading.some base).bare type (· = .primitive "Char"))
      (¬ (Reading.all base).bare type (· = .primitive "Char"))
      (unalias fuel type >>= fun bare => pure (bare.isPrimitive "Char")) := by
  refine .bind (unalias_yields hbase hclosed fuel h) fun bare ⟨hbare, _⟩ => ?_
  rw [hbare.some_iff, hbare.all_iff, ← isPrimitive_iff]
  exact .pure ⟨id, by simp⟩

theorem textAccepts_decides (fuel : Nat) (hsource : source.Ground) (dest : String) :
    Decides base.Variant (IsText (.some base) source dest) (¬ IsText (.all base) source dest)
      (textAccepts fuel source dest) := by
  unfold textAccepts
  cases source with
  | primitive name => exact .pure ⟨id, fun h => by simp [IsText, h]⟩
  | slice element => exact isChar_decides hbase hclosed fuel hsource.element
  | pointer target =>
    refine .bind (pointedElement_yields hbase hclosed fuel hsource.target) fun found hpointed => ?_
    obtain ⟨bare, hbare, hground, hfound⟩ := hpointed
    simp only [IsText, hbare.some_iff, hbare.all_iff]
    cases found with
    | none =>
      refine Decides.false ?_
      rintro ⟨length, element, rfl, _⟩
      cases hfound
    | some element =>
      obtain ⟨length, rfl⟩ := held?_eq_some.1 hfound.symm
      refine (isChar_decides hbase hclosed fuel hground.held).imp
        (fun hchar => ⟨length, element, rfl, hchar⟩) ?_
      rintro hnot ⟨_, _, ⟨⟩, hchar⟩
      exact hnot hchar
  | _ => exact Decides.false id

/-! ## Whole comparisons -/

section Whole

variable (hjudge : judge.Separates base taken spared) (fuel : Nat) (mode : Mode)
  (hsource : source.Ground) (hdest : dest.Ground) (inference : Inference)

include hjudge hsource hdest

theorem acceptsShape_decides :
    Decides (CheckState.Calm base inference)
      (FitsBare base (.some base) taken mode source dest)
      (¬ FitsBare base (.all base) spared mode source dest)
      (acceptsShape fuel judge mode source dest) := by
  cases dest with
  | param name => cases hdest.closed
  | named name qualifier arguments origin =>
    have hsame : Decides (CheckState.Calm base inference)
        (SameDefinition base taken source (.named name qualifier arguments origin))
        (¬ SameDefinition base spared source (.named name qualifier arguments origin))
        (sameNamed judge source ⟨name, qualifier, arguments, origin⟩) := by
      cases source with
      | named name' qualifier' arguments' origin' =>
        exact sameDefinition_decides hjudge hsource hdest
      | _ =>
        refine Decides.false ?_
        rintro ⟨left, right, hleft, _⟩
        cases hleft
    rw [acceptsShape_named]
    refine hsame.cond (fun h => Decides.true (Or.inl h)) fun hnot => ?_
    refine (memberOf_decides hbase hclosed hjudge fuel mode hsource hdest).imp Or.inr ?_
    rintro hrefused (h | h)
    · exact hnot h
    · exact hrefused h
  | union alternatives => exact memberOf_decides hbase hclosed hjudge fuel mode hsource hdest
  | pointer target =>
    cases source with
    | pointer pointed =>
      refine (hjudge .strict hsource.target hdest.target inference).imp (fun h => ⟨pointed, rfl, h⟩) ?_
      rintro hnot ⟨_, ⟨⟩, h⟩
      exact hnot h
    | _ =>
      refine Decides.false ?_
      rintro ⟨pointed, hpointer, _⟩
      cases hpointer
  | array length element =>
    cases source with
    | array given held =>
      rw [acceptsShape_array]
      dsimp only
      split
      · rename_i hlength
        subst hlength
        refine (hjudge mode hsource.held hdest.held inference).imp (fun h => ⟨held, rfl, h⟩) ?_
        rintro hnot ⟨_, ⟨⟩, h⟩
        exact hnot h
      · rename_i hlength
        refine Decides.false ?_
        rintro ⟨_, ⟨⟩, _⟩
        exact hlength rfl
    | _ =>
      refine Decides.false ?_
      rintro ⟨held, harray, _⟩
      cases harray
  | slice element =>
    cases source with
    | slice held =>
      refine (hjudge .strict hsource.element hdest.element inference).imp
        (fun h => Or.inl ⟨held, rfl, h⟩) ?_
      rintro hnot (⟨_, ⟨⟩, h⟩ | ⟨_, hpointer, _⟩)
      · exact hnot h
      · cases hpointer
    | pointer pointed =>
      rw [acceptsShape_slice]
      refine .bind (liftCheck_yields (pointedElement_yields hbase hclosed fuel
        hsource.target)) fun found ⟨bare, hbare, hground, hfound⟩ => ?_
      cases found with
      | none =>
        refine Decides.false ?_
        rintro (⟨_, hslice, _⟩ | ⟨_, ⟨⟩, hpointed⟩)
        · cases hslice
        · obtain ⟨length, held, rfl, _⟩ := hbare.all_iff.1 hpointed
          cases hfound
      | some held =>
        obtain ⟨length, rfl⟩ := held?_eq_some.1 hfound.symm
        refine (hjudge .strict hground.held hdest.element inference).imp
          (fun h => Or.inr ⟨pointed, rfl, _, hbare, length, held, rfl, h⟩) ?_
        rintro hnot (⟨_, hslice, _⟩ | ⟨_, ⟨⟩, hpointed⟩)
        · cases hslice
        · obtain ⟨_, _, ⟨⟩, h⟩ := hbare.all_iff.1 hpointed
          exact hnot h
    | _ =>
      refine Decides.false ?_
      rintro (⟨_, hslice, _⟩ | ⟨_, hpointer, _⟩)
      · cases hslice
      · cases hpointer
  | primitive name =>
    rw [acceptsShape_primitive]
    split
    · rename_i htext
      refine .mono (liftCheck_yields (textAccepts_decides hbase hclosed fuel hsource name)) ?_
      refine fun answer h => ⟨fun hyes => Or.inl ⟨htext, h.1 hyes⟩, fun hno => ?_⟩
      rintro (⟨_, h'⟩ | ⟨htext', _⟩)
      · exact h.2 hno h'
      · rw [htext] at htext'
        cases htext'
    · rename_i htext
      have htext' : isTextName name = false := by simpa using htext
      refine .pure ⟨fun h => Or.inr ⟨htext', isPrimitive_iff.1 h⟩, fun h => ?_⟩
      rintro (⟨h', _⟩ | ⟨_, rfl⟩)
      · exact htext h'
      · simp [isPrimitive] at h

/-- A ground source stands for nothing but itself. -/
theorem acceptsBare_decides :
    Decides (CheckState.Calm base inference)
      (FitsBare base (.some base) taken mode source dest)
      (¬ FitsBare base (.all base) spared mode source dest)
      (acceptsBare fuel judge mode source dest) := by
  have hshape := acceptsShape_decides hbase hclosed hjudge fuel mode hsource hdest inference
  cases source with
  | param name => cases hsource.closed
  | _ => exact hshape

end Whole

/-- A comparison of ground types accepts only what a relation has that takes in whatever
satisfies the rules, and refuses nothing that a relation has whose pairs satisfy the rules. -/
theorem accepts_separates (htaken : ∀ m s d, FitsStep base (.some base) taken m s d → taken m s d)
    (hspared : ∀ m s d, spared m s d → FitsStep base (.all base) spared m s d) (fuel : Nat) :
    (accepts fuel).Separates base taken spared := by
  induction fuel with
  | zero => exact fun _ _ _ _ _ _ => .throw _
  | succ fuel ih =>
    intro mode source dest hsource hdest inference
    have hfold := htaken mode source dest
    have hunfold := hspared mode source dest
    refine .bind (liftCheck_yields (unalias_yields hbase hclosed fuel hsource))
      fun bare ⟨hbare, hground⟩ => ?_
    refine Yields.bind (liftCheck_yields (unalias_yields hbase hclosed fuel hdest))
      fun bareDest ⟨hbareDest, hgroundDest⟩ => ?_
    simp only [FitsStep, hbare.some_iff, hbareDest.some_iff] at hfold
    simp only [FitsStep, hbare.all_iff, hbareDest.all_iff] at hunfold
    have hforth := acceptsBare_decides hbase hclosed ih fuel mode hground hgroundDest inference
    cases mode with
    | lenient => exact hforth.imp (fun h => hfold ⟨h, by simp⟩) fun hnot h => hnot (hunfold h).1
    | strict =>
      have hback := acceptsBare_decides hbase hclosed ih fuel .strict hgroundDest hground inference
      refine hforth.cond (fun hyes => ?_) fun hnot => Decides.false fun h => hnot (hunfold h).1
      refine (isolated_decides hback).cond (fun hyes' => ?_)
        fun hnot => Decides.false fun h => hnot ((hunfold h).2 rfl).1
      refine .pure ⟨fun hsame => hfold ⟨hyes, fun _ => ⟨hyes', hsame⟩⟩, fun hdiffer h => ?_⟩
      rw [((hunfold h).2 rfl).2] at hdiffer
      cases hdiffer

/-- A comparison of ground types accepts only what fits and refuses only what does not. -/
theorem accepts_decides (fuel : Nat) : (accepts fuel).Decides base :=
  accepts_separates hbase hclosed (fun _ _ _ => .of_step)
    (fun _ _ _ => Fits.unrefused hbase hclosed) fuel

omit hbase hclosed in
theorem accepts_of_assignable {fuel : Nat} {mode : Mode}
    (hrun : assignable fuel mode source dest table = .ok answer after) :
    ∃ state, accepts fuel mode source dest { types := table } = .ok answer state := by
  obtain ⟨⟨_, inference⟩, mid, hcheck, hpure⟩ := bind_eq_ok.1 hrun
  obtain ⟨rfl, _⟩ := pure_eq_ok.1 hpure
  obtain ⟨state, haccepts, _⟩ := run_eq_ok hcheck
  exact ⟨state, haccepts⟩

/-- An answer about assignability says whether the source fits the destination. -/
theorem fits_iff_of_assignable {fuel : Nat} {mode : Mode} (hsource : source.Ground)
    (hdest : dest.Ground) (htable : base.Variant table)
    (hrun : assignable fuel mode source dest table = .ok answer after) :
    answer ↔ Fits base mode source dest := by
  obtain ⟨state, haccepts⟩ := accepts_of_assignable hrun
  obtain ⟨_, hyes, hno⟩ :=
    accepts_decides hbase hclosed fuel mode hsource hdest {} _ _ _ ⟨htable, rfl⟩ haccepts
  refine ⟨hyes, fun h => ?_⟩
  by_contra hne
  exact hno (by simpa using hne) h

end Closed

end Accord
