import Accord.Proofs.Assign.Widen

/-!
# How inference proceeds

While arguments are checked, bindings are made, widened and locked.

* `Inference.Valid` says that parameters are bound to simple types or sums of them.
* `Inference.Before` orders what is known about parameters: bindings are kept or widened,
  and locked ones stay as they are.  Locking, binding a parameter that has no binding, and
  widening a binding that is not locked lead from earlier to later.
* `Holds` is what a successful check leaves behind: the source fits the destination under
  the bindings made so far and under all that may come after them.
-/

namespace Accord

open Query List TypeExpr Substitution

variable {inference : Inference} {mode : Mode} {source dest : TypeExpr}

/-! ## What is known about parameters -/

/-- Parameters are bound to simple types or sums of them. -/
structure Inference.Valid (base : TypeTable) (inference : Inference) : Prop where
  plain : inference.Plain
  bound : ∀ {name : String} {type : TypeExpr},
    inference.bindings.find? name = some type → base.Bound type

/-- Bindings are kept or widened, and locked ones are kept. -/
structure Inference.Before (base : TypeTable) (earlier later : Inference) : Prop where
  bindings : ∀ {name : String} {type : TypeExpr}, earlier.bindings.find? name = some type →
    ∃ wider, later.bindings.find? name = some wider ∧ Fits base .lenient type wider ∧
      (name ∈ earlier.locked → wider = type)
  locked : earlier.locked ⊆ later.locked

/-- The source fits the destination under the bindings, and under all later ones. -/
def Holds (base : TypeTable) (mode : Mode) (source dest : TypeExpr) (inference : Inference) :
    Prop :=
  ∀ {later : Inference}, later.Valid base → inference.Before base later →
    (dest.substitute later.bindings).Ground ∧
      Fits base mode source (dest.substitute later.bindings)

section Order

variable {base : TypeTable} (hbase : base.Variant base) (hnominal : base.Nominal)

include hbase hnominal

theorem Inference.Before.refl (h : inference.Valid base) :
    inference.Before base inference where
  bindings := fun hfind =>
    ⟨_, hfind, .of_alike ((h.bound hfind).tame hbase hnominal).alike, fun _ => rfl⟩
  locked := fun _ hmem => hmem

theorem Inference.Before.trans {first second third : Inference} (hfirst : first.Valid base)
    (hsecond : second.Valid base) (hthird : third.Valid base) (h : first.Before base second)
    (h' : second.Before base third) : first.Before base third where
  bindings := by
    intro name type hfind
    have hplain : ∀ {inference : Inference} {type : TypeExpr}, inference.Valid base →
        inference.bindings.find? name = some type → type.plain :=
      fun hvalid hfind => ((hvalid.bound hfind).tame hbase hnominal).ground.plain
    obtain ⟨wider, hwider, hfits, hlocked⟩ := h.bindings hfind
    obtain ⟨widest, hwidest, hfits', hlocked'⟩ := h'.bindings hwider
    refine ⟨widest, hwidest, hfits.trans hbase hnominal.closed (hplain hfirst hfind)
      (hplain hsecond hwider) (hplain hthird hwidest) hfits', fun hmem => ?_⟩
    rw [hlocked' (h.locked hmem), hlocked hmem]
  locked := fun _ hmem => h'.locked (h.locked hmem)

/-- What holds at one time holds at later times. -/
theorem Holds.mono {earlier later : Inference} (hearlier : earlier.Valid base)
    (hlater : later.Valid base) (hbefore : earlier.Before base later)
    (h : Holds base mode source dest earlier) :
    Holds base mode source dest later :=
  fun hvalid hafter => h hvalid
    (Inference.Before.trans hbase hnominal hearlier hlater hvalid hbefore hafter)

omit hbase hnominal in
/-- A comparison of ground types holds whatever is bound. -/
theorem Holds.of_ground (hground : dest.Ground) (h : Fits base mode source dest) :
    Holds base mode source dest inference := by
  intro later _ _
  rw [substitute_of_closed _ dest hground.closed]
  exact ⟨hground, h⟩

/-- What fits the binding of a parameter fits its later bindings, if they are wider or the
binding is locked. -/
theorem Holds.param {bound : TypeExpr} {name : String} (hsource : source.plain)
    (hvalid : inference.Valid base) (hfind : inference.bindings.find? name = some bound)
    (h : Fits base mode source bound) (hlocked : mode = .strict → name ∈ inference.locked) :
    Holds base mode source (.param name) inference := by
  intro later hlater hbefore
  obtain ⟨wider, hwider, hfits, hkept⟩ := hbefore.bindings hfind
  have hsubstitute : (TypeExpr.param name).substitute later.bindings = wider := by
    rw [substitute, hwider]
    rfl
  have hground := ((hlater.bound hwider).tame hbase hnominal).ground
  rw [hsubstitute]
  refine ⟨hground, ?_⟩
  cases mode with
  | strict =>
    rw [hkept (hlocked rfl)]
    exact h
  | lenient =>
    have hbound := ((hvalid.bound hfind).tame hbase hnominal).ground
    exact h.trans hbase hnominal.closed hsource hbound.plain hground.plain hfits

end Order

/-! ## Locking, binding and widening -/

section Changes

variable {base : TypeTable} {name : String} {type : TypeExpr}

theorem Inference.bindings_lock (inference : Inference) (name : String) :
    (inference.lock name).bindings = inference.bindings := by
  unfold Inference.lock
  split <;> rfl

theorem Inference.locked_lock (inference : Inference) (name : String) :
    inference.locked ⊆ (inference.lock name).locked ∧ name ∈ (inference.lock name).locked := by
  unfold Inference.lock
  split
  · rename_i hlocked
    exact ⟨Subset.refl _, by simpa using hlocked⟩
  · exact ⟨subset_cons_self _ _, mem_cons_self⟩

theorem Inference.Valid.lock (h : inference.Valid base) (name : String) :
    (inference.lock name).Valid base where
  plain := h.plain.lock name
  bound := by
    rw [Inference.bindings_lock]
    exact h.bound

variable (hbase : base.Variant base) (hnominal : base.Nominal)

include hbase hnominal

theorem Inference.Valid.before_lock (h : inference.Valid base) (name : String) :
    inference.Before base (inference.lock name) where
  bindings := by
    rw [Inference.bindings_lock]
    exact (Inference.Before.refl hbase hnominal h).bindings
  locked := (inference.locked_lock name).1

theorem Inference.Valid.bind (h : inference.Valid base)
    (hnone : inference.bindings.find? name = none) (htype : base.Bound type) :
    (inference.bind name type).Valid base where
  plain := h.plain.bind (htype.tame hbase hnominal).ground.plain
  bound := by
    intro other found hfind
    by_cases heq : other = name
    · subst heq
      rw [Inference.bind, find?_append_self hnone] at hfind
      cases hfind
      exact htype
    · rw [Inference.bind, find?_append_of_ne heq] at hfind
      exact h.bound hfind

theorem Inference.Valid.before_bind (h : inference.Valid base)
    (hnone : inference.bindings.find? name = none) :
    inference.Before base (inference.bind name type) where
  bindings := by
    intro other found hfind
    have hne : other ≠ name := by
      rintro rfl
      rw [hnone] at hfind
      cases hfind
    rw [Inference.bind, find?_append_of_ne hne]
    exact (Inference.Before.refl hbase hnominal h).bindings hfind
  locked := Subset.refl _

variable {bound : TypeExpr} (hfound : inference.bindings.find? name = some bound)

include hfound

theorem Inference.Valid.rebind (h : inference.Valid base) (htype : base.Bound type) :
    (inference.rebind name type).Valid base where
  plain := h.plain.rebind (htype.tame hbase hnominal).ground.plain
  bound := by
    intro other found hfind
    by_cases heq : other = name
    · subst heq
      rw [Inference.rebind, find?_replace_self hfound] at hfind
      cases hfind
      exact htype
    · rw [Inference.rebind, find?_replace_of_ne heq] at hfind
      exact h.bound hfind

theorem Inference.Valid.before_rebind (h : inference.Valid base)
    (hfits : Fits base .lenient bound type) (hfree : name ∉ inference.locked) :
    inference.Before base (inference.rebind name type) where
  bindings := by
    intro other found hfind
    by_cases heq : other = name
    · subst heq
      rw [hfound] at hfind
      cases hfind
      rw [Inference.rebind, find?_replace_self hfound]
      exact ⟨type, rfl, hfits, fun hlocked => absurd hlocked hfree⟩
    · rw [Inference.rebind, find?_replace_of_ne heq]
      exact (Inference.Before.refl hbase hnominal h).bindings hfind
  locked := Subset.refl _

end Changes

end Accord
