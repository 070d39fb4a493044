import Accord.Proofs.Types.Chains

/-!
# What stands behind an alias

`TypeTable.AliasOf` leads from a reference to an alias to the target of the alias.  Where only
records are generic it is one step of a chain (`TypeTable.aliasOf_iff_follows`), and the type that
stands behind another is the one in which the chain ends (`TypeTable.unaliases_iff_follows`).  So
an alias and its target have the same type behind them (`TypeTable.AliasOf.unaliases_iff`).
-/

namespace Accord

open Query Relation TypeTable

/-- The first type refers to an alias, and the second is its target. -/
inductive TypeTable.AliasOf (base : TypeTable) : TypeExpr → TypeExpr → Prop where
  | intro {ref : TypeRef} {definition : TypeDef} {target : TypeExpr}
      (found : (retrieve ref).answer base = .ok definition)
      (body : definition.body = .alias target) : AliasOf base ref.toType target

theorem TypeBody.isAlias_of_isRecord {body : TypeBody} (h : body.isRecord) :
    body.isAlias = false := by
  cases body with
  | record fields => rfl
  | _ => cases h

section Aliases

variable {base : TypeTable} {ref : TypeRef} {type target bare : TypeExpr}

theorem TypeTable.AliasOf.exists_ref (h : base.AliasOf type target) :
    ∃ ref : TypeRef, type = ref.toType := by
  cases h
  exact ⟨_, rfl⟩

theorem TypeTable.aliasOf_ref :
    base.AliasOf ref.toType target ↔ ∃ definition, (retrieve ref).answer base = .ok definition ∧
      definition.body = .alias target := by
  constructor
  · intro h
    generalize hwhole : ref.toType = whole at h
    cases h with
    | intro hfound hbody =>
      obtain rfl := TypeRef.toType_inj hwhole
      exact ⟨_, hfound, hbody⟩
  · rintro ⟨definition, hfound, hbody⟩
    exact .intro hfound hbody

variable (hbase : base.Variant base)

include hbase

theorem TypeTable.Variant.fixedAliases : base.FixedAliases where
  stored entry hentry hgeneric :=
    TypeBody.isAlias_of_isRecord (hbase.plain.generics entry hentry hgeneric)
  instances entry hentry :=
    TypeBody.isAlias_of_isRecord (hbase.orderly.instanceRecords entry hentry)

theorem TypeTable.aliasOf_iff_follows (hplain : type.plain) :
    base.AliasOf type target ↔ base.Follows type target := by
  constructor
  · rintro ⟨hfound, hbody⟩
    obtain ⟨after, hrun⟩ := answer_eq_ok.1 hfound
    have hshows := retrieve_shows hbase.spelled hbase.fixedAliases hplain base
      (hbase.spelled.grownBy _)
    exact (hshows.of_run hrun).2.target _ hbody
  · intro h
    obtain ⟨ref, rfl⟩ := h.exists_ref
    exact aliasOf_ref.2 (h.retrieved hbase.spelled hbase.fixedAliases hplain)

theorem TypeTable.unaliases_iff_follows (hplain : type.plain) :
    base.Unaliases type bare ↔ ReflTransGen base.Follows type bare ∧ base.Rests bare := by
  constructor
  · rintro ⟨fuel, after, hrun⟩
    have hends := unalias_follows hbase.spelled hbase.fixedAliases fuel hplain base
      (hbase.spelled.grownBy _)
    exact (hends.of_run hrun).2
  · intro h
    obtain ⟨_, bound, _, hrun, htells, _⟩ :=
      unalias_outcome hbase.spelled hbase.fixedAliases hplain (hbase.spelled.grownBy _)
    obtain ⟨after, hok⟩ := answer_eq_ok.1 ((hrun bound (Nat.le_refl bound)).trans
      ((htells.rests bare).2 h))
    exact ⟨bound, after, hok⟩

theorem TypeTable.AliasOf.plain (h : base.AliasOf type target) (hplain : type.plain) :
    target.plain :=
  ((aliasOf_iff_follows hbase hplain).1 h).plain hbase.spelled

theorem TypeTable.AliasOf.component (h : base.AliasOf type target) (hplain : type.plain)
    {good : TypeExpr → Prop} (hgood : base.Hereditary good) (htype : good type) : good target := by
  obtain ⟨ref, rfl⟩ := h.exists_ref
  have hstep := (aliasOf_iff_follows hbase hplain).1 h
  obtain ⟨package, definition, hdeclared, hbody⟩ := follows_ref.1 hstep
  exact hgood.components htype (hstep.arguments hbase.spelled hbase.fixedAliases hplain) hdeclared
    target (by simp [hbody, TypeBody.components])

/-- What stands behind a type is no alias. -/
theorem TypeTable.Unaliases.last (h : base.Unaliases type bare) (hplain : type.plain) :
    ∀ target, ¬ base.AliasOf bare target := by
  obtain ⟨hreaches, hrests⟩ := (unaliases_iff_follows hbase hplain).1 h
  have hbare := plain_of_follows hbase.spelled hplain hreaches
  exact fun target halias =>
    hrests.last target ((aliasOf_iff_follows hbase hbare).1 halias)

/-- What stands behind an alias stands behind its target. -/
theorem TypeTable.AliasOf.unaliases_iff (h : base.AliasOf type target)
    (hplain : type.plain) : base.Unaliases type bare ↔ base.Unaliases target bare := by
  have hstep := (aliasOf_iff_follows hbase hplain).1 h
  rw [unaliases_iff_follows hbase hplain, unaliases_iff_follows hbase (h.plain hbase hplain)]
  constructor
  · rintro ⟨hreaches, hrests⟩
    rcases hreaches.cases_head with rfl | ⟨next, hnext, hrest⟩
    · exact absurd hstep (hrests.last target)
    · exact ⟨hstep.unique hnext ▸ hrest, hrests⟩
  · rintro ⟨hreaches, hrests⟩
    exact ⟨.head hstep hreaches, hrests⟩

end Aliases

end Accord
