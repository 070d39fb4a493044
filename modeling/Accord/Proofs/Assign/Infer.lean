import Accord.Proofs.Assign.Decide
import Accord.Proofs.Assign.Order

/-!
# What a check infers

A check of a simple type against a type with parameters that accepts leaves bindings under
which the simple type fits, now and after every later check (`accepts_infers`).

There is one lemma for each rule by which a type with parameters may accept.  Each of them
says what one step does to the bindings; `accepts_infers` is their induction on fuel.
-/

namespace Accord

open Query TypeTable TypeExpr List TypeRef Substitution TypeBody

variable {judge : Judge} {bare : TypeExpr} {fuel : Nat}

namespace TypeExpr.Pattern

theorem target {target : TypeExpr} (h : (TypeExpr.pointer target).Pattern) : target.Pattern :=
  ⟨h.plain, h.sumless⟩

theorem held {length : UInt64} {element : TypeExpr}
    (h : (TypeExpr.array length element).Pattern) : element.Pattern :=
  ⟨h.plain, h.sumless⟩

theorem element {element : TypeExpr} (h : (TypeExpr.slice element).Pattern) : element.Pattern :=
  ⟨h.plain, h.sumless⟩

theorem arguments {ref : TypeRef} (h : ref.toType.Pattern) : ∀ type ∈ ref.arguments, type.Pattern :=
  fun type hmem => ⟨plainAll_iff.1 (plain_iff.1 h.plain).2.2 type hmem,
    anySum_eq_false.1 h.sumless type hmem⟩

end TypeExpr.Pattern

/-- The state of a check that infers. -/
structure CheckState.Sound (base : TypeTable) (state : CheckState) : Prop where
  types : base.Variant state.types
  inference : state.inference.Valid base

/-- What a check that accepts leaves behind. -/
structure Inferred (base : TypeTable) (mode : Mode) (source dest : TypeExpr)
    (before after : CheckState) : Prop where
  sound : after.Sound base
  before : before.inference.Before base after.inference
  holds : Holds base mode source dest after.inference

/-- A comparison that accepts only under bindings that make the source fit. -/
def Judge.Infers (base : TypeTable) (judge : Judge) : Prop :=
  ∀ mode {source dest : TypeExpr}, base.Simple source → dest.Pattern →
    ∀ {before after : CheckState}, before.Sound base →
      judge mode source dest before = .ok true after →
      Inferred base mode source dest before after

section Steps

variable {base : TypeTable} (hbase : base.Variant base) (hnominal : base.Nominal)
  {mode : Mode} {source dest : TypeExpr} {s t : CheckState}

theorem CheckState.Sound.twins (h : s.Sound base) : CheckState.Twins base s s :=
  ⟨⟨h.types, h.types⟩, rfl, h.inference.plain⟩

theorem onTrial_eq_ok_true {check : Check Bool} (h : check.onTrial s = .ok true t) :
    check s = .ok true t := by
  rw [Check.onTrial] at h
  cases hcheck : check s with
  | ok accepted after =>
    rw [hcheck] at h
    cases accepted with
    | true => exact h
    | false => cases h
  | error cause after =>
    rw [hcheck] at h
    cases h

theorem inference_of_isolated {α : Type} {check : Check α} {a : α}
    (h : check.isolated s = .ok a t) : t.inference = s.inference := by
  rw [Check.isolated] at h
  cases hcheck : check s with
  | ok value after =>
    rw [hcheck] at h
    cases h
    rfl
  | error cause after =>
    rw [hcheck] at h
    cases h

include hbase hnominal

omit hbase hnominal in
/-- What holds only depends on what is inferred. -/
theorem Inferred.of_same {u : CheckState} (h : Inferred base mode source dest s t)
    (htypes : base.Variant u.types) (hsame : u.inference = t.inference) :
    Inferred base mode source dest s u := by
  obtain ⟨types, inference⟩ := u
  obtain rfl : inference = t.inference := hsame
  exact ⟨⟨htypes, h.sound.inference⟩, h.before, h.holds⟩

/-- Where nothing is bound, what held before holds after. -/
theorem Inferred.of_calm (hs : s.Sound base) (hcalm : CheckState.Calm base s.inference t)
    (h : Holds base mode source dest s.inference) : Inferred base mode source dest s t := by
  have hself : Inferred base mode source dest s s :=
    ⟨hs, Inference.Before.refl hbase hnominal hs.inference, h⟩
  exact hself.of_same hcalm.types hcalm.inference

/-- A comparison of ground types binds nothing. -/
theorem Judge.Decides.inferred (hjudge : judge.Decides base)
    (hsource : source.Ground) (hdest : dest.Ground) (hs : s.Sound base)
    (hrun : judge mode source dest s = .ok true t) : Inferred base mode source dest s t := by
  obtain ⟨hcalm, hanswer⟩ := hjudge mode hsource hdest s.inference s true t ⟨hs.types, rfl⟩ hrun
  exact .of_calm hbase hnominal hs hcalm (Holds.of_ground hdest (hanswer.1 rfl))

/-- What holds of a type holds of its aliases. -/
theorem Inferred.of_unaliases (hbare : base.Unaliases source bare) (hdirect : base.Direct bare)
    (h : Inferred base mode bare dest s t) :
    Inferred base mode source dest s t where
  sound := h.sound
  before := h.before
  holds := fun hvalid hbefore => (h.holds hvalid hbefore).imp_right
    (Fits.of_unaliases hbase hnominal hbare hdirect)

/-! ## Parameters -/

section Params

variable (hjudge : judge.Decides base) (hdirect : base.Direct source) {name : String}

include hjudge hdirect

/-- A value meets the binding of a parameter.  The parameter is locked in the state if the
comparison is strict or has found it so. -/
theorem meetBinding_infers {known : Inference} (hs : s.Sound base)
    (hbindings : s.inference.bindings = known.bindings)
    (hlocked : name ∈ s.inference.locked ↔ mode = .strict ∨ known.locked.contains name)
    (hrun : meetBinding judge mode source name known s = .ok true t) :
    Inferred base mode source (.param name) s t := by
  have hplain := hdirect.simple.ground.plain
  have hself : ∀ m, Fits base m source source := fun _ =>
    .of_alike (hdirect.simple.tame hbase hnominal).alike
  unfold meetBinding at hrun
  cases hfind : known.bindings.find? name with
  | none =>
    rw [hfind] at hrun
    obtain ⟨_, mid, hinfer, hrun⟩ := bind_eq_ok.1 hrun
    cases hinfer
    obtain ⟨_, rfl⟩ := pure_eq_ok.1 hrun
    have hnone : s.inference.bindings.find? name = none := by rw [hbindings, hfind]
    have hvalid := hs.inference.bind hbase hnominal hnone (.single hdirect)
    exact
      { sound := ⟨hs.types, hvalid⟩
        before := hs.inference.before_bind hbase hnominal hnone
        holds := Holds.param hbase hnominal hplain hvalid (find?_append_self hnone)
          (hself mode) fun hstrict => hlocked.2 (Or.inl hstrict) }
  | some bound =>
    have hsome : s.inference.bindings.find? name = some bound := by rw [hbindings, hfind]
    have hbound := hs.inference.bound hsome
    have hground := (hbound.tame hbase hnominal).ground
    rw [hfind] at hrun
    dsimp only at hrun
    split at hrun
    · -- The binding stays, and the value has to be of that very type.
      rename_i hfixed
      obtain ⟨hcalm, hanswer⟩ := hjudge .strict hdirect.simple.ground hground s.inference s true t
        ⟨hs.types, rfl⟩ hrun
      have hfits : Fits base mode source bound := by
        cases mode with
        | strict => exact hanswer.1 rfl
        | lenient => exact (hanswer.1 rfl).lenient
      exact .of_calm hbase hnominal hs hcalm (Holds.param hbase hnominal hplain hs.inference
        hsome hfits fun _ => hlocked.2 hfixed)
    · rename_i hfree
      obtain rfl : mode = .lenient := by
        cases mode with
        | lenient => rfl
        | strict => exact absurd (Or.inl rfl) hfree
      obtain ⟨fits, mid, hforth, hrun⟩ := bind_eq_ok.1 hrun
      obtain ⟨hcalm, hanswer⟩ := isolated_decides (hjudge .lenient hdirect.simple.ground hground
        s.inference) s fits mid ⟨hs.types, rfl⟩ hforth
      cases fits with
      | true =>
        obtain ⟨_, rfl⟩ := pure_eq_ok.1 hrun
        exact .of_calm hbase hnominal hs hcalm (Holds.param hbase hnominal hplain hs.inference
          hsome (hanswer.1 rfl) (by simp))
      | false =>
        obtain ⟨back, last, hback, hrun⟩ := bind_eq_ok.1 hrun
        obtain ⟨hcalm', hanswer'⟩ := isolated_decides (hjudge .lenient hground
          hdirect.simple.ground s.inference) mid back last hcalm hback
        obtain ⟨_, final, hinfer, hrun⟩ := bind_eq_ok.1 hrun
        cases hinfer
        obtain ⟨_, rfl⟩ := pure_eq_ok.1 hrun
        -- The value takes the binding in, or a sum takes both.
        obtain ⟨hwider, hold, hnew⟩ : base.Bound (if back then source else bound.merge source) ∧
            Fits base .lenient bound (if back then source else bound.merge source) ∧
            Fits base .lenient source (if back then source else bound.merge source) := by
          cases back with
          | true => exact ⟨.single hdirect, hanswer'.1 rfl, hself _⟩
          | false => exact hbound.merge hbase hnominal hdirect
        have hunlocked : name ∉ s.inference.locked := fun h => hfree (hlocked.1 h)
        have hvalid := hs.inference.rebind hbase hnominal hsome hwider
        obtain ⟨types, inference⟩ := last
        obtain rfl : inference = s.inference := hcalm'.inference
        exact
          { sound := ⟨hcalm'.types, hvalid⟩
            before := hs.inference.before_rebind hbase hnominal hsome hold hunlocked
            holds := Holds.param hbase hnominal hplain hvalid
              (find?_replace_self hsome) hnew (by simp) }

theorem meetParam_infers (hs : s.Sound base)
    (hrun : meetParam judge mode source name s = .ok true t) :
    Inferred base mode source (.param name) s t := by
  have hother : source.isParam name = false := by
    cases source with
    | param other => cases hdirect.simple.ground.closed
    | _ => rfl
  rw [meetParam_eq, hother] at hrun
  obtain ⟨state, _, hget, hrun⟩ := bind_eq_ok.1 hrun
  cases hget
  obtain ⟨_, mid, hlock, hrun⟩ := bind_eq_ok.1 hrun
  cases mode with
  | lenient =>
    cases hlock
    exact meetBinding_infers hbase hnominal hjudge hdirect hs rfl (by simp) hrun
  | strict =>
    cases hlock
    have hlocked := s.inference.locked_lock name
    have hinferred := meetBinding_infers hbase hnominal hjudge hdirect
      (s := { s with inference := s.inference.lock name })
      ⟨hs.types, hs.inference.lock name⟩ (s.inference.bindings_lock name)
      (by simp [hlocked.2]) hrun
    exact { hinferred with
      before := .trans hbase hnominal hs.inference (hs.inference.lock name)
        hinferred.sound.inference (hs.inference.before_lock hbase hnominal name)
        hinferred.before }

end Params

/-! ## References -/

section References

variable (hjudge : judge.Infers base)

include hjudge

omit hjudge in
theorem sameArguments_infers (hjudge : ∀ {source dest}, base.Simple source → dest.Pattern →
      ∀ {before after : CheckState}, before.Sound base →
        judge .strict source dest before = .ok true after →
        Inferred base mode source dest before after) {sources dests : List TypeExpr}
    (hlength : sources.length = dests.length) (hsources : ∀ type ∈ sources, base.Simple type)
    (hdests : ∀ type ∈ dests, type.Pattern) (hs : s.Sound base)
    (hrun : sameArguments judge sources dests s = .ok true t) :
    t.Sound base ∧ s.inference.Before base t.inference ∧
      Forall₂ (fun left right => Holds base mode left right t.inference) sources dests := by
  induction sources generalizing dests s with
  | nil =>
    obtain rfl := eq_nil_of_length_eq_zero hlength.symm
    obtain ⟨_, rfl⟩ := pure_eq_ok.1 hrun
    exact ⟨hs, Inference.Before.refl hbase hnominal hs.inference, .nil⟩
  | cons source sources ih =>
    cases dests with
    | nil => simp at hlength
    | cons dest dests =>
      obtain ⟨hsource, hsources⟩ := forall_mem_cons.1 hsources
      obtain ⟨hdest, hdests⟩ := forall_mem_cons.1 hdests
      rw [sameArguments] at hrun
      obtain ⟨same, mid, hfirst, hrun⟩ := bind_eq_ok.1 hrun
      cases same with
      | false => cases (pure_eq_ok.1 hrun).1
      | true =>
        have hinferred := hjudge hsource hdest hs hfirst
        obtain ⟨hsound, hbefore, hall⟩ :=
          ih (by simpa using hlength) hsources hdests hinferred.sound hrun
        refine ⟨hsound, ?_, .cons ?_ hall⟩
        · exact .trans hbase hnominal hs.inference hinferred.sound.inference hsound.inference
            hinferred.before hbefore
        · exact Holds.mono hbase hnominal hinferred.sound.inference hsound.inference hbefore
            hinferred.holds

omit hnominal hjudge in
/-- References to one generic definition fit each other if their arguments do. -/
theorem Holds.ref {source dest : TypeRef} {inference : Inference}
    (hsource : base.Simple source.toType) (hdest : dest.toType.Pattern)
    (hne : dest.arguments ≠ []) (hname : source.name = dest.name)
    (hdeclared : base.declaration? source = base.declaration? dest) {text : String}
    (hnames : base.Names dest.toType text)
    (hall : Forall₂ (fun left right => Holds base .strict left right inference)
      source.arguments dest.arguments) :
    Holds base mode source.toType dest.toType inference := by
  intro later hvalid hbefore
  have hparts : Forall₂ (fun left right => right.Ground ∧ Fits base .strict left right)
      source.arguments (dest.substitute later.bindings).arguments := by
    rw [TypeRef.substitute, TypeExpr.substituteAll_eq_map, List.forall₂_map_right_iff]
    exact hall.imp fun _ _ hholds => hholds hvalid hbefore
  have hplain : (dest.substitute later.bindings).plain :=
    plain_substitute hvalid.plain _ hdest.plain
  have hground : ((dest.substitute later.bindings).toType).Ground := by
    refine ⟨hplain, anyGeneric_eq_false.2 fun type hmem => ?_⟩
    obtain ⟨i, hi, rfl⟩ := mem_iff_getElem.1 hmem
    exact (Forall₂.get hparts (hparts.length_eq ▸ hi) hi).1.closed
  have hsourceNe : source.arguments ≠ [] := by
    intro hnil
    rw [hnil] at hall
    exact hne (forall₂_nil_left_iff.1 hall)
  have hdestNe : (dest.substitute later.bindings).arguments ≠ [] := by
    intro hnil
    rw [hnil] at hparts
    exact hsourceNe (forall₂_nil_right_iff.1 hparts)
  obtain ⟨_, hsourceName⟩ := hsource.named
  obtain ⟨_, hdestName⟩ := exists_names_substitute hbase hvalid.plain
    (fun hfind => (hvalid.bound hfind).named hbase) dest.toType hdest.plain hdest.sumless hnames
  have hdestName' : base.Names (dest.substitute later.bindings).toType _ := hdestName
  refine ⟨hground, Fits.ref_congr (hsourceName.unaliases hbase hsource.ground.plain hsourceNe)
    (hdestName'.unaliases hbase hplain hdestNe) ?_⟩
  refine ⟨source, dest.substitute later.bindings, rfl, rfl, hname, ?_, ?_⟩
  · rw [declaration?_substitute, hdeclared]
  · exact hparts.imp fun _ _ h => h.2

theorem sameDefinition_infers {source dest : TypeRef} (hsource : base.Simple source.toType)
    (hdest : dest.toType.Pattern) (hne : dest.arguments ≠ []) (hs : s.Sound base)
    (hrun : sameDefinition judge source dest s = .ok true t) :
    Inferred base mode source.toType dest.toType s t := by
  unfold sameDefinition at hrun
  split at hrun
  · cases (pure_eq_ok.1 hrun).1
  · rename_i hagree
    obtain ⟨hname, hlength⟩ : source.name = dest.name ∧
        source.arguments.length = dest.arguments.length := by
      simpa using hagree
    obtain ⟨⟨package, found⟩, mid, hfirst, hrun⟩ := bind_eq_ok.1 hrun
    obtain ⟨⟨package', found'⟩, last, hsecond, hrun⟩ := bind_eq_ok.1 hrun
    obtain ⟨types, hlocate, rfl⟩ := on_eq_ok.1 hfirst
    obtain ⟨types', hlocate', rfl⟩ := on_eq_ok.1 hsecond
    obtain ⟨htypes, _, declared, hdeclared, _⟩ :=
      locate_yields hsource.ground.plain _ _ _ hs.types hlocate
    obtain ⟨htypes', _, declared', hdeclared', _⟩ := locate_yields hdest.plain _ _ _ htypes hlocate'
    dsimp only at hrun
    split at hrun
    · cases (pure_eq_ok.1 hrun).1
    · rename_i hpackage
      obtain rfl : package = package' := by simpa using hpackage
      obtain rfl := declaration_unique hdeclared hdeclared' hname hlength
      have hmid : CheckState.Sound base { s with types := types' } := ⟨htypes', hs.inference⟩
      obtain ⟨hsound, hbefore, hall⟩ := sameArguments_infers hbase hnominal (hjudge .strict) hlength
        (fun type hmem => hsource.mentioned hbase hnominal (.argument hmem))
        hdest.arguments hmid (onTrial_eq_ok_true hrun)
      -- The look-up of the destination has named its arguments.
      obtain ⟨names, _, hnames, _⟩ := bind_eq_ok.1 hlocate'
      obtain ⟨hforall, _⟩ := forall₂_names_of_run hbase
        (fun type hmem => (hdest.arguments type hmem).plain) htypes hnames
      obtain ⟨text, htext⟩ := Names.of_declaration hbase hdest.plain hforall hdeclared'
      exact ⟨hsound, hbefore, Holds.ref hbase hsource hdest hne hname
        (hdeclared.trans hdeclared'.symm) htext hall⟩

end References

/-! ## Parts of types -/

section Parts

variable {inference : Inference}

omit hbase hnominal in
theorem Holds.pointer {pointed target : TypeExpr}
    (h : Holds base .strict pointed target inference) :
    Holds base mode (.pointer pointed) (.pointer target) inference := by
  intro later hvalid hbefore
  obtain ⟨hground, hfits⟩ := h hvalid hbefore
  exact ⟨⟨hground.plain, hground.closed⟩, hfits.pointer_congr⟩

omit hbase hnominal in
theorem Holds.slice {held element : TypeExpr} (h : Holds base .strict held element inference) :
    Holds base mode (.slice held) (.slice element) inference := by
  intro later hvalid hbefore
  obtain ⟨hground, hfits⟩ := h hvalid hbefore
  exact ⟨⟨hground.plain, hground.closed⟩, hfits.slice_congr⟩

omit hbase hnominal in
theorem Holds.array {length : UInt64} {held element : TypeExpr}
    (h : Holds base mode held element inference) :
    Holds base mode (.array length held) (.array length element) inference := by
  intro later hvalid hbefore
  obtain ⟨hground, hfits⟩ := h hvalid hbefore
  exact ⟨⟨hground.plain, hground.closed⟩, hfits.array_congr⟩

omit hbase hnominal in
/-- A pointer to an array counts as a slice. -/
theorem Holds.decay {pointed held element : TypeExpr} {length : UInt64}
    (hpointed : base.Unaliases pointed (.array length held))
    (h : Holds base .strict held element inference) :
    Holds base .lenient (.pointer pointed) (.slice element) inference := by
  intro later hvalid hbefore
  obtain ⟨hground, hfits⟩ := h hvalid hbefore
  refine ⟨⟨hground.plain, hground.closed⟩, .of_step ⟨_, .self rfl, _, .self rfl, ?_, by simp⟩⟩
  exact Or.inr ⟨pointed, rfl, _, hpointed, length, held, rfl, hfits⟩

end Parts

/-! ## Shapes of types -/

section Shapes

omit hnominal in
/-- What mentions a parameter is no alias. -/
theorem unalias_of_generic (hdest : dest.Pattern) (hgeneric : dest.isGeneric)
    {table after : TypeTable} (htable : base.Variant table)
    (hrun : unalias fuel dest table = .ok bare after) :
    bare = dest ∧ base.Unaliases dest dest ∧ base.Variant after := by
  obtain ⟨hbare, _, hafter⟩ := Unaliases.of_run hbase hbase.plain.hereditary hdest.plain htable hrun
  suffices heq : bare = dest from ⟨heq, heq ▸ hbare, hafter⟩
  cases fuel with
  | zero => exact absurd hrun throw_ne_ok
  | succ fuel =>
    rw [unalias, unaliasFrom] at hrun
    cases href : dest.ref? with
    | none =>
      rw [href] at hrun
      exact (pure_eq_ok.1 hrun).1.symm
    | some ref =>
      obtain rfl := eq_of_ref? href
      rw [href] at hrun
      obtain ⟨found, mid, hretrieve, hrun⟩ := bind_eq_ok.1 hrun
      have hfound := (Retrieved.of_run hdest.plain htable hretrieve).1
      rcases hfound.declared_or_record with ⟨hnil, _⟩ | hrecord
      · rw [toType, hnil] at hgeneric
        cases hgeneric
      · cases hbody : found.body with
        | record fields =>
          rw [hbody] at hrun
          exact (pure_eq_ok.1 hrun).1.symm
        | union _ | «alias» _ => simp [hbody, isRecord] at hrecord

omit hnominal in
/-- A reference with type arguments has no alternatives. -/
theorem memberOf_ne_true {ref : TypeRef} (hplain : ref.plain)
    (hbare : base.Unaliases ref.toType ref.toType) (hne : ref.arguments ≠ []) {fuel : Nat}
    (hs : base.Variant s.types) :
    ¬ memberOf fuel judge mode source ref.toType s = .ok true t := by
  intro hrun
  unfold memberOf at hrun
  obtain ⟨accepted, mid, hfirst, hrun⟩ := bind_eq_ok.1 hrun
  obtain ⟨types, halternatives, rfl⟩ := on_eq_ok.1 hfirst
  obtain ⟨hflattens, _, _⟩ := Flattens.of_run hbase hbase.plain.hereditary hplain hs halternatives
  have hnil : accepted = [] := by
    by_contra hsome
    rcases hflattens.shape hbase hplain hbare hsome with ⟨_, hunion⟩ | ⟨other, heq, hnone⟩
    · cases hunion
    · rw [toType_inj heq] at hne
      exact hne hnone
  rw [hnil] at hrun
  cases (pure_eq_ok.1 hrun).1

/-- The rule for each shape that mentions a parameter.  A pointer to an array counts as a
slice in lenient mode only, where the comparison need not hold both ways. -/
theorem acceptsShape_infers (hinfers : judge.Infers base)
    (hdecides : judge.Decides base) (hsteady : judge.Steady base) {fuel : Nat}
    (hdirect : base.Direct source) (hdest : dest.Pattern) (hgeneric : dest.isGeneric)
    (hbare : base.Unaliases dest dest)
    (hdecay : mode = .strict → ∀ pointed element, source = .pointer pointed →
      dest ≠ .slice element)
    (hs : s.Sound base) (hrun : acceptsShape fuel judge mode source dest s = .ok true t) :
    Inferred base mode source dest s t := by
  have hsimple := hdirect.simple
  cases dest with
  | primitive name => cases hgeneric
  | union alternatives => cases hdest.sumless
  | param name => exact meetParam_infers hbase hnominal hdecides hdirect hs hrun
  | pointer target =>
    rw [acceptsShape_pointer] at hrun
    cases source with
    | pointer pointed =>
      have h := hinfers .strict (hsimple.mentioned hbase hnominal .target) hdest.target hs hrun
      exact ⟨h.sound, h.before, Holds.pointer h.holds⟩
    | _ => cases (pure_eq_ok.1 hrun).1
  | array length element =>
    rw [acceptsShape_array] at hrun
    cases source with
    | array given held =>
      dsimp only at hrun
      split at hrun
      · rename_i hlength
        subst hlength
        have h := hinfers mode (hsimple.mentioned hbase hnominal .held) hdest.held hs hrun
        exact ⟨h.sound, h.before, Holds.array h.holds⟩
      · cases (pure_eq_ok.1 hrun).1
    | _ => cases (pure_eq_ok.1 hrun).1
  | slice element =>
    rw [acceptsShape_slice] at hrun
    cases source with
    | slice held =>
      have h := hinfers .strict (hsimple.mentioned hbase hnominal .element) hdest.element hs hrun
      exact ⟨h.sound, h.before, Holds.slice h.holds⟩
    | pointer pointed =>
      obtain rfl : mode = .lenient := by
        cases mode with
        | lenient => rfl
        | strict => exact absurd rfl (hdecay rfl pointed element rfl)
      have hpointed := hsimple.mentioned hbase hnominal .target
      dsimp only at hrun
      obtain ⟨found, mid, hfirst, hrun⟩ := bind_eq_ok.1 hrun
      obtain ⟨types, helement, rfl⟩ := on_eq_ok.1 hfirst
      obtain ⟨htypes, bare, hunaliases, _, hfound⟩ :=
        pointedElement_yields hbase hnominal.closed fuel hpointed.ground _ _ _ hs.types helement
      cases found with
      | none => cases (pure_eq_ok.1 hrun).1
      | some held =>
        obtain ⟨length, rfl⟩ := held?_eq_some.1 hfound.symm
        have harray := hunaliases.inherits hbase (Simple.hereditary hbase hnominal) hpointed
        have hmid : CheckState.Sound base { s with types } := ⟨htypes, hs.inference⟩
        have h := hinfers .strict (harray.mentioned hbase hnominal .held) hdest.element hmid hrun
        exact ⟨h.sound, h.before, Holds.decay hunaliases h.holds⟩
    | _ => cases (pure_eq_ok.1 hrun).1
  | named name qualifier arguments origin =>
    rw [acceptsShape_named] at hrun
    obtain ⟨same, mid, hsame, hrun⟩ := bind_eq_ok.1 hrun
    have hplain : (⟨name, qualifier, arguments, origin⟩ : TypeRef).plain := hdest.plain
    have hne : arguments ≠ [] := by
      rintro rfl
      cases hgeneric
    have hmember : ∀ {u : CheckState}, base.Variant u.types →
        ¬ memberOf fuel judge mode source (.named name qualifier arguments origin) u = .ok true t :=
      fun {u} => @memberOf_ne_true judge base hbase mode source u t
        ⟨name, qualifier, arguments, origin⟩ hplain hbare hne fuel
    cases href : source.ref? with
    | none =>
      rw [sameNamed, href] at hsame
      obtain ⟨rfl, rfl⟩ := pure_eq_ok.1 hsame
      exact absurd hrun (hmember hs.types)
    | some ref =>
      obtain rfl := eq_of_ref? href
      rw [sameNamed, href] at hsame
      cases same with
      | true =>
        obtain ⟨_, rfl⟩ := pure_eq_ok.1 hrun
        exact @sameDefinition_infers judge base hbase hnominal mode s mid hinfers ref
          ⟨name, qualifier, arguments, origin⟩ hsimple hdest hne hs hsame
      | false =>
        obtain ⟨_, _, _, htwins⟩ :=
          (sameDefinition_steady hbase.plain hsteady hsimple.ground.plain hplain).ok hs.twins hsame
        exact absurd hrun (hmember htwins.types.1)

end Shapes

/-! ## Whole comparisons -/

omit hbase hnominal in
/-- A source without parameters stands for itself. -/
theorem acceptsBare_of_ground (fuel : Nat) (judge : Judge) (hsource : source.Ground) :
    acceptsBare fuel judge mode source dest s = acceptsShape fuel judge mode source dest s := by
  have hnone : standsFor? s.inference source dest = none := by
    cases source with
    | param name => cases hsource.closed
    | _ => rfl
  change acceptsKnowing fuel judge mode source dest s.inference s = _
  rw [acceptsKnowing, hnone]

/-- Both modes first remove aliases; what mentions a parameter is none. -/
theorem exists_bare_of_run (hsource : base.Simple source) (hdest : dest.Pattern)
    (hgeneric : dest.isGeneric) (hs : s.Sound base)
    {rest : TypeExpr → TypeExpr → Check Bool}
    (hrun : (liftM (unalias fuel source) >>= fun bare =>
      liftM (unalias fuel dest) >>= fun bareDest => rest bare bareDest) s = .ok true t) :
    ∃ bare types, base.Unaliases source bare ∧ base.Direct bare ∧ base.Unaliases dest dest ∧
      base.Variant types ∧ rest bare dest { s with types } = .ok true t := by
  obtain ⟨bare, first, hfirst, hrun⟩ := bind_eq_ok.1 hrun
  obtain ⟨bareDest, second, hsecond, hlast⟩ := bind_eq_ok.1 hrun
  obtain ⟨types, hunalias, rfl⟩ := on_eq_ok.1 hfirst
  obtain ⟨types', hunalias', rfl⟩ := on_eq_ok.1 hsecond
  obtain ⟨hbare, hsimple, htypes⟩ := Unaliases.of_run hbase
    (Simple.hereditary hbase hnominal) hsource hs.types hunalias
  obtain ⟨heq, hself, htypes'⟩ := unalias_of_generic hbase hdest hgeneric htypes hunalias'
  rw [heq] at hlast
  exact ⟨bare, types', hbare, ⟨hsimple, hbare.bare hbase hsource.ground.plain⟩, hself, htypes',
    hlast⟩

/-- A check that accepts leaves bindings under which the source fits. -/
theorem accepts_infers (fuel : Nat) : (accepts fuel).Infers base := by
  induction fuel with
  | zero => exact fun _ _ _ _ _ _ _ _ hrun => absurd hrun throw_ne_ok
  | succ fuel ih =>
    intro mode source dest hsource hdest s t hs hrun
    have hdecides := accepts_decides hbase hnominal.closed
    have hsteady := accepts_steady hbase.plain fuel
    by_cases hclosed : dest.isGeneric = false
    · exact (hdecides (fuel + 1)).inferred hbase hnominal hsource.ground ⟨hdest.plain, hclosed⟩
        hs hrun
    have hgeneric : dest.isGeneric := by simpa using hclosed
    cases mode with
    | lenient =>
      rw [accepts_lenient] at hrun
      obtain ⟨bare, types, hbare, hdirect, hself, htypes, hrun⟩ :=
        exists_bare_of_run hbase hnominal hsource hdest hgeneric hs hrun
      have hmid : CheckState.Sound base { s with types } := ⟨htypes, hs.inference⟩
      rw [acceptsBare_of_ground fuel _ hdirect.simple.ground] at hrun
      have h := acceptsShape_infers hbase hnominal ih (hdecides fuel) hsteady hdirect hdest
        hgeneric hself (by simp) hmid hrun
      exact .of_unaliases hbase hnominal hbare hdirect ⟨h.sound, h.before, h.holds⟩
    | strict =>
      rw [accepts_strict] at hrun
      obtain ⟨bare, types, hbare, hdirect, hself, htypes, hrun⟩ :=
        exists_bare_of_run hbase hnominal hsource hdest hgeneric hs hrun
      have hmid : CheckState.Sound base { s with types } := ⟨htypes, hs.inference⟩
      obtain ⟨forth, last, hforth, hrun⟩ := bind_eq_ok.1 hrun
      cases forth with
      | false => cases (pure_eq_ok.1 hrun).1
      | true =>
        obtain ⟨back, final, hback, hrun⟩ := bind_eq_ok.1 hrun
        cases back with
        | false => cases (pure_eq_ok.1 hrun).1
        | true =>
          obtain ⟨_, rfl⟩ := pure_eq_ok.1 hrun
          rw [acceptsBare_of_ground fuel _ hdirect.simple.ground] at hforth
          -- The way back refuses a slice where a pointer is asked for.
          have hdecay : Mode.strict = .strict → ∀ pointed element, bare = .pointer pointed →
              dest ≠ .slice element := by
            rintro _ pointed element rfl rfl
            cases hback
          have h := acceptsShape_infers hbase hnominal ih (hdecides fuel) hsteady hdirect hdest
            hgeneric hself hdecay hmid hforth
          -- Otherwise the way back leaves nothing but instances.
          obtain ⟨_, _, _, htwins⟩ := (isolated_steady (acceptsBare_steady hbase.plain hsteady
            fuel .strict hdest.plain hdirect.simple.ground.plain)).ok h.sound.twins hback
          have h' := h.of_same htwins.types.1 (inference_of_isolated hback)
          exact .of_unaliases hbase hnominal hbare hdirect ⟨h'.sound, h'.before, h'.holds⟩

end Steps

end Accord
