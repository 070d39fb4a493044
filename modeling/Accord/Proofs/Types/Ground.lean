import Accord.Proofs.Types.Views
import Mathlib.Logic.Relation

/-!
# Ground types

A type is ground if no type parameter occurs in it and its names are plain.

* `TypeTable.Closed` says that parameters stand in generic definitions only.  Then
  everything that a ground type mentions (`TypeTable.Mentions`), in itself or in the
  definitions it refers to, is ground as well (`TypeExpr.Ground.mentioned`).
* `TypeTable.Tame` adds that no sum without a name among these is empty once nested
  unions are expanded.  An empty sum takes no value at all, not even one of its own.
* `TypeTable.Alike` relates tame types that are written alike: equal ones, and two
  references to one definition.
-/

namespace Accord

open Query TypeExpr TypeRef

variable {ref left right : TypeRef} {type : TypeExpr}

/-! ## Ground types -/

/-- A type with plain names and without parameters. -/
structure TypeExpr.Ground (type : TypeExpr) : Prop where
  plain : type.plain = true
  closed : type.isGeneric = false

namespace TypeExpr.Ground

theorem arguments (h : ref.toType.Ground) : ∀ type ∈ ref.arguments, type.Ground :=
  fun type hmem => ⟨plainAll_iff.1 (plain_iff.1 h.plain).2.2 type hmem,
    anyGeneric_eq_false.1 h.closed type hmem⟩

theorem alternatives {alternatives : List TypeExpr} (h : (TypeExpr.union alternatives).Ground) :
    ∀ type ∈ alternatives, type.Ground :=
  fun type hmem => ⟨plainAll_iff.1 h.plain type hmem, anyGeneric_eq_false.1 h.closed type hmem⟩

theorem target {target : TypeExpr} (h : (TypeExpr.pointer target).Ground) : target.Ground :=
  ⟨h.plain, h.closed⟩

theorem held {length : UInt64} {element : TypeExpr} (h : (TypeExpr.array length element).Ground) :
    element.Ground :=
  ⟨h.plain, h.closed⟩

theorem element {element : TypeExpr} (h : (TypeExpr.slice element).Ground) : element.Ground :=
  ⟨h.plain, h.closed⟩

end TypeExpr.Ground

/-- Parameters stand in generic definitions only. -/
def TypeTable.Closed (table : TypeTable) : Prop :=
  ∀ entry ∈ table.stored, entry.2.isGeneric = false →
    ∀ component ∈ entry.2.body.components, component.isGeneric = false

/-- One type stands in another: as a part, or as a component of the definition that it
refers to.  Generic definitions are left out, as comparisons never open them. -/
inductive TypeTable.Mentions (base : TypeTable) : TypeExpr → TypeExpr → Prop where
  | target {type : TypeExpr} : Mentions base (.pointer type) type
  | held {length : UInt64} {type : TypeExpr} : Mentions base (.array length type) type
  | element {type : TypeExpr} : Mentions base (.slice type) type
  | alternative {alternatives : List TypeExpr} {type : TypeExpr} (mem : type ∈ alternatives) :
      Mentions base (.union alternatives) type
  | argument {ref : TypeRef} {type : TypeExpr} (mem : type ∈ ref.arguments) :
      Mentions base ref.toType type
  | component {ref : TypeRef} {package : String} {declared : TypeDef} {type : TypeExpr}
      (none : ref.arguments = []) (found : base.declaration? ref = some (package, declared))
      (mem : type ∈ declared.body.components) : Mentions base ref.toType type

section Mentions

variable {base : TypeTable}

/-- A reference mentions its type arguments or the components of its definition. -/
theorem TypeTable.Mentions.of_ref (h : base.Mentions ref.toType type) :
    type ∈ ref.arguments ∨ ref.arguments = [] ∧ ∃ package declared,
      base.declaration? ref = some (package, declared) ∧ type ∈ declared.body.components := by
  generalize hwhole : ref.toType = whole at h
  cases h with
  | argument hmem =>
    obtain rfl := toType_inj hwhole
    exact Or.inl hmem
  | component hnone hfound hmem =>
    obtain rfl := toType_inj hwhole
    exact Or.inr ⟨hnone, _, _, hfound, hmem⟩
  | _ => cases hwhole

/-- What a reference refers to takes as many type arguments as the reference has. -/
theorem TypeTable.Variant.arity (hbase : base.Variant base) {package : String}
    {declared : TypeDef} (hplain : ref.plain)
    (h : base.declaration? ref = some (package, declared)) :
    declared.generics.length = ref.arguments.length := by
  obtain ⟨hscope, hlookup⟩ := TypeTable.lookup_of_declaration h
  exact hbase.orderly.keyed.generics_of_lookup (hbase.orderly.keyed.scopes hplain _ hscope)
    (plain_iff.1 hplain).1 hlookup

variable (hbase : base.Variant base) (hclosed : base.Closed)

include hbase hclosed

theorem TypeExpr.Ground.mentioned {type part : TypeExpr} (h : type.Ground)
    (hpart : base.Mentions type part) : part.Ground := by
  cases hpart with
  | target => exact h.target
  | held => exact h.held
  | element => exact h.element
  | alternative hmem => exact h.alternatives _ hmem
  | argument hmem => exact h.arguments _ hmem
  | component hnone hfound hmem =>
    refine ⟨hbase.plain.hereditary.components h.plain hnone hfound _ hmem, ?_⟩
    have harity := hbase.arity h.plain hfound
    rw [hnone] at harity
    refine hclosed _ (TypeTable.mem_stored_of_declaration hfound) ?_ _ hmem
    simp [TypeDef.isGeneric, List.eq_nil_of_length_eq_zero harity]

theorem TypeTable.Closed.hereditary : base.Hereditary Ground where
  plain := Ground.plain
  alternatives := Ground.alternatives
  components := fun h hnone hfound _ hmem =>
    h.mentioned hbase hclosed (.component hnone hfound hmem)

end Mentions

/-! ## Tame types -/

/-- A ground type that mentions no empty sum, directly or through others. -/
structure TypeTable.Tame (base : TypeTable) (type : TypeExpr) : Prop where
  ground : type.Ground
  inhabited : ∀ alternatives, Relation.ReflTransGen base.Mentions type (.union alternatives) →
    ¬ base.Flattens (.union alternatives) []

section Tame

variable {base : TypeTable} (hbase : base.Variant base) (hclosed : base.Closed)

include hbase hclosed

theorem TypeTable.Tame.mentioned {part : TypeExpr} (h : base.Tame type)
    (hpart : base.Mentions type part) : base.Tame part where
  ground := h.ground.mentioned hbase hclosed hpart
  inhabited := fun alternatives hreach => h.inhabited alternatives (.head hpart hreach)

theorem TypeTable.Tame.hereditary : base.Hereditary base.Tame where
  plain := fun h => h.ground.plain
  alternatives := fun h _ hmem => h.mentioned hbase hclosed (.alternative hmem)
  components := fun h hnone hfound _ hmem =>
    h.mentioned hbase hclosed (.component hnone hfound hmem)

end Tame

/-! ## Types written alike -/

/-- A tame type, and the same type or another reference to the same definition. -/
structure TypeTable.Alike (base : TypeTable) (left right : TypeExpr) : Prop where
  tame : base.Tame left
  same : left = right ∨ ∃ leftRef rightRef : TypeRef, left = leftRef.toType ∧
    right = rightRef.toType ∧ base.SameReference leftRef rightRef

section Alike

variable {base : TypeTable}

theorem TypeTable.Tame.alike (h : base.Tame type) : base.Alike type type :=
  ⟨h, Or.inl rfl⟩

theorem TypeTable.SameReference.symm (h : base.SameReference left right) :
    base.SameReference right left := by
  obtain ⟨package, definition, hleft, hright⟩ := h.declared
  exact ⟨h.rightPlain, h.leftPlain, h.rightNil, h.leftNil, h.name.symm, package, definition,
    hright, hleft⟩

theorem TypeTable.SameReference.trans {middle : TypeRef} (h : base.SameReference left middle)
    (h' : base.SameReference middle right) : base.SameReference left right := by
  obtain ⟨package, definition, hleft, hmiddle⟩ := h.declared
  obtain ⟨package', definition', hmiddle', hright⟩ := h'.declared
  rw [hmiddle] at hmiddle'
  cases hmiddle'
  exact ⟨h.leftPlain, h'.rightPlain, h.leftNil, h'.rightNil, h.name.trans h'.name, package,
    definition, hleft, hright⟩

/-- Two references to one definition mention the same types. -/
theorem TypeTable.Mentions.of_sameReference (h : base.SameReference left right)
    (hmentions : base.Mentions right.toType type) : base.Mentions left.toType type := by
  obtain ⟨package, definition, hleft, hright⟩ := h.declared
  rcases hmentions.of_ref with hmem | ⟨_, _, _, hfound, hmem⟩
  · simp [h.rightNil] at hmem
  · rw [hright] at hfound
    cases hfound
    exact .component h.leftNil hleft hmem

theorem TypeTable.Tame.of_sameReference (h : base.SameReference left right)
    (hleft : base.Tame left.toType) :
    base.Tame right.toType where
  ground := ⟨h.rightPlain, by simp [toType, isGeneric, h.rightNil, anyGeneric]⟩
  inhabited := by
    intro alternatives hreach
    rcases Relation.ReflTransGen.cases_head_iff.1 hreach with heq | ⟨type, hmentions, hrest⟩
    · cases heq
    · exact hleft.inhabited alternatives (.head (hmentions.of_sameReference h) hrest)

theorem TypeTable.Alike.symm {left right : TypeExpr} (h : base.Alike left right) :
    base.Alike right left := by
  obtain ⟨htame, rfl | ⟨leftRef, rightRef, rfl, rfl, hsame⟩⟩ := h
  · exact htame.alike
  · exact ⟨htame.of_sameReference hsame, Or.inr ⟨rightRef, leftRef, rfl, rfl, hsame.symm⟩⟩

theorem TypeTable.Alike.trans {left middle right : TypeExpr} (h : base.Alike left middle)
    (h' : base.Alike middle right) : base.Alike left right := by
  obtain ⟨htame, rfl | ⟨leftRef, middleRef, rfl, rfl, hsame⟩⟩ := h
  · exact h'
  · obtain ⟨_, rfl | ⟨middleRef', rightRef, hmiddle, rfl, hsame'⟩⟩ := h'
    · exact ⟨htame, Or.inr ⟨leftRef, middleRef, rfl, rfl, hsame⟩⟩
    · obtain rfl := toType_inj hmiddle
      exact ⟨htame, Or.inr ⟨leftRef, rightRef, rfl, rfl, hsame.trans hsame'⟩⟩

variable (hbase : base.Variant base) (hclosed : base.Closed)

include hbase hclosed

/-- What stands behind types written alike is written alike. -/
theorem TypeTable.Alike.unaliases {left right : TypeExpr} (h : base.Alike left right)
    {bare : TypeExpr} (hbare : base.Unaliases left bare) :
    ∃ bare', base.Unaliases right bare' ∧ base.Alike bare bare' := by
  have hgood := TypeTable.Tame.hereditary hbase hclosed
  obtain ⟨htame, rfl | ⟨leftRef, rightRef, rfl, rfl, hsame⟩⟩ := h
  · exact ⟨bare, hbare, (hbare.inherits hbase hgood htame).alike⟩
  · obtain ⟨fuel, after, hrun⟩ := hbare
    obtain ⟨bare', after', hrun', hboth, _⟩ :=
      (unalias_agree_of_sameReference hgood hsame htame fuel).ok_right ⟨hbase, hbase⟩ hrun
    refine ⟨bare', ⟨fuel, after', hrun'⟩, ?_⟩
    rcases hboth with ⟨rfl, htame'⟩ | ⟨rfl, rfl⟩
    · exact htame'.alike
    · exact ⟨htame, Or.inr ⟨leftRef, rightRef, rfl, rfl, hsame⟩⟩

end Alike

end Accord
