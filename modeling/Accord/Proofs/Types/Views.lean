import Accord.Proofs.Types.Steady

/-!
# What stands behind a type

Following aliases and listing alternatives take fuel and a table.  Apart from both, a
type has at most one type behind its aliases and one list of alternatives:
`TypeTable.Unaliases` and `TypeTable.Flattens` relate a type to these.

* More fuel does not change an answer (`unalias_below`, `alternatives_below`), so both
  relations are functional.
* Answers found in any table with the same definitions are those of the relations
  (`Unaliases.of_run`, `Flattens.of_run`).
* What stands behind a type has no alias to follow (`Unaliases.bare`).
* Two references to one definition lead to the same alternatives
  (`Flattens.of_sameReference`).
-/

namespace Accord

open Query

variable {types : List TypeExpr} {fuel more : Nat} {type : TypeExpr} {table after : TypeTable}

/-! ## More fuel -/

theorem unaliasFrom_below (hle : fuel ≤ more) (seen : List String)
    (type : TypeExpr) : Below (unaliasFrom fuel seen type) (unaliasFrom more seen type) := by
  induction fuel generalizing more seen type with
  | zero => exact Below.throw _ _
  | succ fuel ih =>
    obtain ⟨more, rfl⟩ : ∃ m, more = m + 1 := ⟨more - 1, by omega⟩
    unfold unaliasFrom
    cases type.ref? with
    | none => exact Below.refl _
    | some ref =>
      refine (Below.refl (retrieve ref)).bind fun definition => ?_
      cases definition.body with
      | «alias» target =>
        refine (Below.refl (canonicalName type)).bind fun name => ?_
        exact (Below.refl _).ite (ih (by omega) _ _)
      | record _ | union _ => exact Below.refl _

theorem unalias_below (hle : fuel ≤ more) (type : TypeExpr) :
    Below (unalias fuel type) (unalias more type) :=
  unaliasFrom_below hle [] type

theorem directAlternatives_below (hle : fuel ≤ more) (type : TypeExpr) :
    Below (directAlternatives fuel type) (directAlternatives more type) :=
  (unalias_below hle type).bind fun _ => Below.refl _

theorem gather_below (hle : fuel ≤ more) (path : List String)
    (type : TypeExpr) (gathered : Gathered) :
    Below (gather fuel path type gathered) (gather more path type gathered) := by
  induction fuel generalizing more path type gathered with
  | zero => exact Below.throw _ _
  | succ fuel ih =>
    obtain ⟨more, rfl⟩ : ∃ m, more = m + 1 := ⟨more - 1, by omega⟩
    have hle' : fuel ≤ more := by omega
    unfold gather
    refine (directAlternatives_below hle' type).bind fun direct => ?_
    cases direct with
    | none => exact Below.refl _
    | some types =>
      refine (Below.refl (canonicalName type)).bind fun name => (Below.refl _).ite ?_
      refine Below.foldlM (fun sofar alternative => ?_) types gathered
      refine (directAlternatives_below hle' alternative).bind fun inner => ?_
      cases inner with
      | none => exact Below.refl _
      | some _ => exact ih hle' _ _ _

theorem alternatives_below (hle : fuel ≤ more) (type : TypeExpr) :
    Below (alternatives fuel type) (alternatives more type) :=
  (gather_below hle [] type {}).bind fun _ => Below.refl _

/-! ## The relations -/

/-- The second type stands behind the aliases of the first. -/
def TypeTable.Unaliases (base : TypeTable) (type bare : TypeExpr) : Prop :=
  ∃ fuel after, unalias fuel type base = .ok bare after

/-- The types are the alternatives of the first, with nested unions expanded. -/
def TypeTable.Flattens (base : TypeTable) (type : TypeExpr) (types : List TypeExpr) : Prop :=
  ∃ fuel after, alternatives fuel type base = .ok types after

section Relations

variable {base : TypeTable}

theorem TypeTable.Unaliases.unique {bare bare' : TypeExpr}
    (h : base.Unaliases type bare) (h' : base.Unaliases type bare') : bare = bare' := by
  obtain ⟨fuel, after, hrun⟩ := h
  obtain ⟨fuel', after', hrun'⟩ := h'
  have hmax := unalias_below (Nat.le_max_left fuel fuel') type _ _ _ hrun
  have hmax' := unalias_below (Nat.le_max_right fuel fuel') type _ _ _ hrun'
  rw [hmax] at hmax'
  cases hmax'
  rfl

theorem TypeTable.Flattens.unique {types' : List TypeExpr}
    (h : base.Flattens type types) (h' : base.Flattens type types') : types = types' := by
  obtain ⟨fuel, after, hrun⟩ := h
  obtain ⟨fuel', after', hrun'⟩ := h'
  have hmax := alternatives_below (Nat.le_max_left fuel fuel') type _ _ _ hrun
  have hmax' := alternatives_below (Nat.le_max_right fuel fuel') type _ _ _ hrun'
  rw [hmax] at hmax'
  cases hmax'
  rfl

/-- A type that is no reference stands for itself. -/
theorem TypeTable.Unaliases.self (h : type.ref? = none) : base.Unaliases type type := by
  refine ⟨1, base, ?_⟩
  rw [unalias, unaliasFrom, h]
  rfl

variable {good : TypeExpr → Prop} (hbase : base.Variant base) (hgood : base.Hereditary good)

include hbase hgood

theorem TypeTable.Unaliases.of_run {bare : TypeExpr} (h : good type) (htable : base.Variant table)
    (hrun : unalias fuel type table = .ok bare after) :
    base.Unaliases type bare ∧ good bare ∧ base.Variant after := by
  obtain ⟨hbare, after', hrun', htwins⟩ := (unalias_steady hgood fuel h).ok ⟨htable, hbase⟩ hrun
  exact ⟨⟨fuel, after', hrun'⟩, hbare, htwins.1⟩

theorem TypeTable.Unaliases.inherits {bare : TypeExpr} (h : good type)
    (hbare : base.Unaliases type bare) : good bare := by
  obtain ⟨fuel, after, hrun⟩ := hbare
  exact ((unalias_steady hgood fuel h).ok ⟨hbase, hbase⟩ hrun).1

theorem TypeTable.Flattens.of_run (h : good type) (htable : base.Variant table)
    (hrun : alternatives fuel type table = .ok types after) :
    base.Flattens type types ∧ (∀ t ∈ types, good t) ∧ base.Variant after := by
  obtain ⟨htypes, after', hrun', htwins⟩ :=
    (alternatives_steady hgood fuel h).ok ⟨htable, hbase⟩ hrun
  exact ⟨⟨fuel, after', hrun'⟩, htypes, htwins.1⟩

theorem TypeTable.Flattens.inherits (h : good type)
    (htypes : base.Flattens type types) : ∀ t ∈ types, good t := by
  obtain ⟨fuel, after, hrun⟩ := htypes
  exact ((alternatives_steady hgood fuel h).ok ⟨hbase, hbase⟩ hrun).1

end Relations

/-! ## Types without an alias to follow -/

/-- Whether the body names another type. -/
def TypeBody.isAlias : TypeBody → Bool
  | .alias _ => true
  | _ => false

section Bare

variable {base : TypeTable} (hbase : base.Variant base)

include hbase

/-- A reference to a definition that is no alias stands for itself. -/
theorem TypeTable.Unaliases.of_retrieve {ref : TypeRef} (hplain : ref.plain)
    (htable : base.Variant table) {found : TypeDef}
    (hrun : retrieve ref table = .ok found after) (hbody : found.body.isAlias = false) :
    base.Unaliases ref.toType ref.toType := by
  obtain ⟨found', after', hrun', ⟨hfound, hfound'⟩, _⟩ :=
    (retrieve_agree hplain).ok_right ⟨htable, hbase⟩ hrun
  have hbody' : found'.body.isAlias = false := by
    rcases hfound.eq_or_record hfound' with ⟨_, rfl, _⟩ | ⟨_, hrecord⟩
    · exact hbody
    · cases hshape : found'.body with
      | record fields => rfl
      | union alternatives => rfl
      | «alias» target => simp [hshape, TypeBody.isRecord] at hrecord
  refine ⟨1, after', ?_⟩
  rw [unalias, unaliasFrom]
  have href : ref.toType.ref? = some ref := rfl
  simp only [href]
  rw [bind_of_ok hrun']
  cases hshape : found'.body with
  | record fields => rfl
  | union alternatives => rfl
  | «alias» target => simp [hshape, TypeBody.isAlias] at hbody'

theorem unaliasFrom_bare {seen : List String} {bare : TypeExpr} (hplain : type.plain)
    (htable : base.Variant table)
    (hrun : unaliasFrom fuel seen type table = .ok bare after) : base.Unaliases bare bare := by
  induction fuel generalizing seen type table with
  | zero => exact absurd hrun throw_ne_ok
  | succ fuel ih =>
    unfold unaliasFrom at hrun
    cases href : type.ref? with
    | none =>
      rw [href] at hrun
      obtain ⟨rfl, _⟩ := pure_eq_ok.1 hrun
      exact TypeTable.Unaliases.self href
    | some ref =>
      rw [href] at hrun
      have htype := TypeExpr.eq_of_ref? href
      subst htype
      obtain ⟨found, mid, hretrieve, hrun⟩ := bind_eq_ok.1 hrun
      obtain ⟨hfound, hmid⟩ := TypeTable.Retrieved.of_run hplain htable hretrieve
      cases hbody : found.body with
      | «alias» target =>
        rw [hbody] at hrun
        obtain ⟨name, last, hname, hrun⟩ := bind_eq_ok.1 hrun
        obtain ⟨_, _, _, hlast⟩ := (canonicalName_steady _ hplain).ok ⟨hmid, hmid⟩ hname
        split at hrun
        · exact absurd hrun throw_ne_ok
        · -- The target stands in a declared definition, so its names are plain.
          rcases hfound.declared_or_record with ⟨hnil, package, hdeclared⟩ | hrecord
          · have htarget := hbase.plain.hereditary.components hplain hnil hdeclared
              target (by simp [hbody, TypeBody.components])
            exact ih htarget hlast.1 hrun
          · simp [hbody, TypeBody.isRecord] at hrecord
      | record _ | union _ =>
        rw [hbody] at hrun
        obtain ⟨rfl, _⟩ := pure_eq_ok.1 hrun
        exact .of_retrieve hbase hplain htable hretrieve (by simp [hbody, TypeBody.isAlias])

theorem TypeTable.Unaliases.bare {bare : TypeExpr} (hplain : type.plain)
    (h : base.Unaliases type bare) : base.Unaliases bare bare := by
  obtain ⟨fuel, after, hrun⟩ := h
  exact unaliasFrom_bare hbase hplain hbase hrun

theorem directAlternatives_shape (hplain : type.plain)
    (hbare : base.Unaliases type type) {direct : List TypeExpr}
    (hrun : directAlternatives fuel type base = .ok (some direct) after) :
    (∃ alternatives, type = .union alternatives) ∨
      ∃ ref : TypeRef, type = ref.toType ∧ ref.arguments = [] := by
  obtain ⟨bare, mid, hunalias, hdirect⟩ := bind_eq_ok.1 hrun
  obtain ⟨hview, _, hmid⟩ := TypeTable.Unaliases.of_run hbase hbase.plain.hereditary hplain hbase
    hunalias
  obtain rfl : bare = type := hview.unique hbare
  clear hrun
  cases bare with
  | union alternatives => exact Or.inl ⟨alternatives, rfl⟩
  | named name qualifier arguments origin =>
    refine Or.inr ⟨⟨name, qualifier, arguments, origin⟩, rfl, ?_⟩
    obtain ⟨found, last, hretrieve, hlast⟩ := bind_eq_ok.1 hdirect
    have hplain' : (⟨name, qualifier, arguments, origin⟩ : TypeRef).plain := hplain
    rcases (TypeTable.Retrieved.of_run hplain' hmid hretrieve).1.declared_or_record with
      ⟨hnil, _⟩ | hrecord
    · exact hnil
    · cases hbody : found.body with
      | record fields =>
        rw [hbody] at hlast
        cases (pure_eq_ok.1 hlast).1
      | union _ | «alias» _ => simp [hbody, TypeBody.isRecord] at hrecord
  | _ => cases (pure_eq_ok.1 hdirect).1

omit hbase in
/-- Alternatives are gathered from those that are written behind the aliases, if any. -/
theorem TypeTable.Flattens.direct (h : base.Flattens type types) : ∃ fuel direct after,
    directAlternatives fuel type base = .ok direct after ∧ (direct = none → types = []) := by
  obtain ⟨fuel, after, hrun⟩ := h
  obtain ⟨gathered, mid, hgather, hpure⟩ := bind_eq_ok.1 hrun
  obtain ⟨rfl, _⟩ := pure_eq_ok.1 hpure
  cases fuel with
  | zero => exact absurd hgather throw_ne_ok
  | succ fuel =>
    unfold gather at hgather
    obtain ⟨direct, mid', hdirect, hrest⟩ := bind_eq_ok.1 hgather
    refine ⟨fuel, direct, mid', hdirect, ?_⟩
    rintro rfl
    obtain ⟨rfl, _⟩ := pure_eq_ok.1 hrest
    rfl

/-- Only unions have alternatives, and only references without type arguments refer to
unions. -/
theorem TypeTable.Flattens.shape (hplain : type.plain) (hbare : base.Unaliases type type)
    (h : base.Flattens type types) (hne : types ≠ []) :
    (∃ alternatives, type = .union alternatives) ∨
      ∃ ref : TypeRef, type = ref.toType ∧ ref.arguments = [] := by
  obtain ⟨fuel, direct, after, hdirect, hnil⟩ := h.direct
  cases direct with
  | none => exact absurd (hnil rfl) hne
  | some listed => exact directAlternatives_shape hbase hplain hbare hdirect

end Bare

/-! ## Two references to one definition -/

/-- Two references without type arguments to one definition, perhaps from different
files. -/
structure TypeTable.SameReference (base : TypeTable) (left right : TypeRef) : Prop where
  leftPlain : left.plain = true
  rightPlain : right.plain = true
  leftNil : left.arguments = []
  rightNil : right.arguments = []
  name : left.name = right.name
  declared : ∃ package definition, base.declaration? left = some (package, definition) ∧
    base.declaration? right = some (package, definition)

section SameReference

variable {base : TypeTable} {left right : TypeRef}

theorem locate_agree_of_sameReference (h : base.SameReference left right) :
    Agree base.Twins (fun a b => a = b ∧ base.declaration? left = some a)
      (locate left) (locate right) := by
  obtain ⟨package, definition, hleft, hright⟩ := h.declared
  intro s t hst
  -- Without type arguments there is nothing to name, and the declaration is what is found.
  have hlocate : ∀ {ref : TypeRef} {table : TypeTable}, ref.plain →
      ref.arguments = [] → base.declaration? ref = some (package, definition) →
      base.Variant table → ∃ grown, base.Variant grown ∧
        locate ref table = .ok (package, definition) grown := by
    intro ref table hplain hnil hdeclared htable
    have hlength : ([] : List String).length = ref.arguments.length := by simp [hnil]
    obtain ⟨_, found, grown, hrun, _, hfound⟩ := locateNamed_of_declaration
      htable.orderly hplain hlength (by simp) ((htable.declaration?_eq ref).trans hdeclared)
    obtain rfl : found = definition := by
      rcases hfound with ⟨_, hfound⟩ | ⟨hne, _⟩
      · exact hfound
      · exact absurd hnil hne
    have hvariant := htable.located hplain hlength (by simp) hrun
    refine ⟨grown, hvariant, ?_⟩
    have hnames : canonicalNames ref.arguments table = .ok [] table := by
      rw [hnil]
      rfl
    rw [locate, bind_of_ok hnames]
    exact hrun
  obtain ⟨grown, hgrown, hrun⟩ := hlocate h.leftPlain h.leftNil hleft hst.1
  obtain ⟨grown', hgrown', hrun'⟩ := hlocate h.rightPlain h.rightNil hright hst.2
  rw [hrun, hrun']
  exact .ok ⟨rfl, hleft⟩ ⟨hgrown, hgrown'⟩

theorem retrieve_agree_of_sameReference (h : base.SameReference left right) :
    Agree base.Twins
      (fun a b => a = b ∧ ∃ package, base.declaration? left = some (package, a))
      (retrieve left) (retrieve right) := by
  refine Agree.bind (locate_agree_of_sameReference h) fun a b hab => Agree.pure ?_
  exact ⟨by rw [hab.1], a.1, hab.2⟩

theorem canonicalName_agree_of_sameReference (h : base.SameReference left right) :
    Agree base.Twins Eq (canonicalName left.toType) (canonicalName right.toType) := by
  rw [canonicalName_toType, canonicalName_toType, h.leftNil, h.rightNil, h.name]
  refine Agree.bind (locate_agree_of_sameReference h) fun a b hab => Agree.pure ?_
  rw [hab.1]

variable {good : TypeExpr → Prop} (hgood : base.Hereditary good)

include hgood

theorem unalias_agree_of_sameReference (h : base.SameReference left right)
    (hleft : good left.toType) (fuel : Nat) :
    Agree base.Twins
      (fun a b => (a = b ∧ good a) ∨ (a = left.toType ∧ b = right.toType))
      (unalias fuel left.toType) (unalias fuel right.toType) := by
  unfold unalias
  cases fuel with
  | zero => exact Agree.throw _
  | succ fuel =>
    refine Agree.bind (retrieve_agree_of_sameReference h) fun a b hab => ?_
    obtain ⟨rfl, package, hdeclared⟩ := hab
    have hcomponents := hgood.components hleft h.leftNil hdeclared
    cases hbody : a.body with
    | record _ | union _ => exact Agree.pure (Or.inr ⟨rfl, rfl⟩)
    | «alias» target =>
      refine Agree.bind (canonicalName_agree_of_sameReference h) fun name name' hname => ?_
      obtain rfl : name = name' := hname
      refine Agree.ite (Agree.throw _) ?_
      have htarget : good target := hcomponents target (by simp [hbody, TypeBody.components])
      exact Agree.mono (unaliasFrom_steady hgood fuel _ htarget) fun _ _ hab => Or.inl hab

theorem directAlternatives_agree_of_sameReference (h : base.SameReference left right)
    (hleft : good left.toType) (fuel : Nat) :
    Agree base.Twins
      (fun a b => a = b ∧ ∀ types, a = some types → ∀ t ∈ types, good t)
      (directAlternatives fuel left.toType) (directAlternatives fuel right.toType) := by
  refine Agree.bind (unalias_agree_of_sameReference hgood h hleft fuel) fun a b hab => ?_
  rcases hab with ⟨rfl, hbare⟩ | ⟨rfl, rfl⟩
  · exact directAlternativesOf_steady hgood hbare
  · refine Agree.bind (retrieve_agree_of_sameReference h) fun a b hab => ?_
    obtain ⟨rfl, package, hdeclared⟩ := hab
    have hcomponents := hgood.components hleft h.leftNil hdeclared
    cases hbody : a.body with
    | record _ | «alias» _ => exact Agree.pure ⟨rfl, by simp⟩
    | union alternatives =>
      refine Agree.pure ⟨rfl, ?_⟩
      rintro _ ⟨⟩
      simpa [hbody, TypeBody.components] using hcomponents

theorem alternatives_agree_of_sameReference (h : base.SameReference left right)
    (hleft : good left.toType) (fuel : Nat) :
    Agree base.Twins Eq (alternatives fuel left.toType) (alternatives fuel right.toType) := by
  suffices hgather : Agree base.Twins Eq (gather fuel [] left.toType {})
      (gather fuel [] right.toType {}) by
    refine Agree.bind hgather fun a b hab => Agree.pure ?_
    rw [hab]
  cases fuel with
  | zero => exact Agree.throw _
  | succ fuel =>
    refine Agree.bind (directAlternatives_agree_of_sameReference hgood h hleft fuel)
      fun a b hab => ?_
    obtain ⟨rfl, hdirect⟩ := hab
    cases a with
    | none => exact Agree.pure rfl
    | some types =>
      refine Agree.bind (canonicalName_agree_of_sameReference h) fun name name' hname => ?_
      obtain rfl : name = name' := hname
      refine Agree.ite (Agree.pure rfl) ?_
      exact Agree.mono (gatherAll_steady hgood fuel _ (hdirect types rfl) (by simp))
        fun _ _ hab => hab.1

/-- Two references to one definition have the same alternatives. -/
theorem TypeTable.Flattens.of_sameReference (hbase : base.Variant base)
    (h : base.SameReference left right) (hleft : good left.toType)
    (htypes : base.Flattens left.toType types) : base.Flattens right.toType types := by
  obtain ⟨fuel, after, hrun⟩ := htypes
  obtain ⟨_, after', hrun', rfl, _⟩ :=
    (alternatives_agree_of_sameReference hgood h hleft fuel).ok_right ⟨hbase, hbase⟩ hrun
  exact ⟨fuel, after', hrun'⟩

end SameReference

end Accord
