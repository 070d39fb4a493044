import Accord.Proofs.Types.Names

/-!
# What walking the definitions finds out

Before a program is used, every stored definition is walked.  A walk that comes to its end
has named everything that it passed:

* `verify_yields` says so for the types behind pointers and in slices,
* `walkType_yields` and `walkDefinition_yields` for what is held by value, and
* `named_of_checkContainment` for every type in a definition that is not generic.

What it is to be named, and which tables are walked, is left open (`Walkable`).

Walks enter instances of generic definitions, whose components are substituted.  Their
names are plain, as the definitions and the references that made them are
(`TypeTable.Reached.plainBody`).
-/

namespace Accord

open Query TypeTable TypeExpr

variable {definition : TypeDef} {key suffix : String} {table : TypeTable} {type : TypeExpr}

/-! ## Instances have plain names -/

/-- The names in the components of a definition are plain. -/
def TypeDef.PlainBody (definition : TypeDef) : Prop :=
  ∀ component ∈ definition.body.components, component.plain = true

/-- The definition is stored in the table, or is an instance that it holds. -/
def TypeTable.Has (table : TypeTable) (definition : TypeDef) : Prop :=
  ∃ key, (key, definition) ∈ table.stored ∨ (key, definition) ∈ table.instances

theorem TypeBody.components_substitute (rules : Substitution) (body : TypeBody) :
    (body.substitute rules).components = body.components.map (·.substitute rules) := by
  cases body with
  | record fields => simp [TypeBody.substitute, components]
  | union alternatives => simp [TypeBody.substitute, components, substituteAll_eq_map]
  | «alias» target => rfl

theorem TypeDef.PlainBody.instantiate (h : definition.PlainBody) {rules : Substitution}
    (hrules : ∀ entry ∈ rules, entry.2.plain) :
    (definition.instantiate rules).PlainBody := by
  intro component hmem
  rw [TypeDef.instantiate, TypeBody.components_substitute] at hmem
  obtain ⟨original, horiginal, rfl⟩ := List.mem_map.1 hmem
  exact plain_substitute hrules original (h original horiginal)

section Search

variable {grown : TypeTable} {ref : TypeRef}

/-- An instance that a plain reference asks for has plain names. -/
theorem TypeDef.PlainBody.instance (h : definition.PlainBody) (hplain : ref.plain) :
    (definition.instantiate (.ofLists definition.generics ref.arguments)).PlainBody :=
  h.instantiate fun _ hentry => plainAll_iff.1 (TypeRef.plain_iff.1 hplain).2.2 _
    (List.of_mem_zip hentry).2

theorem TypeTable.has_of_find? (h : table.find? key = some definition) : table.Has definition := by
  rw [find?, Option.or_eq_some_iff] at h
  rcases h with hstored | ⟨_, hinstance⟩
  · exact ⟨key, Or.inl (mem_of_lookup hstored)⟩
  · exact ⟨key, Or.inr (mem_of_lookup hinstance)⟩

/-- What a search hands out was there, or is an instance made of what was there. -/
structure TypeTable.Handed (table : TypeTable) (ref : TypeRef) (definition : TypeDef)
    (grown : TypeTable) : Prop where
  origin : table.Has definition ∨ ∃ generic, table.Has generic ∧
    definition = generic.instantiate (.ofLists generic.generics ref.arguments)
  instances : grown.instances ⊆ table.instances ∨
    ∃ key, grown.instances = (key, definition) :: table.instances

theorem TypeTable.Finds.handed {package : String}
    (h : table.Finds ref package key definition grown) : table.Handed ref definition grown := by
  cases h with
  | there hfind => exact ⟨Or.inl (has_of_find? hfind), Or.inl (List.Subset.refl _)⟩
  | entered _ _ hfind => exact ⟨Or.inr ⟨_, has_of_find? hfind, rfl⟩, Or.inr ⟨_, rfl⟩⟩

theorem handed_of_locateNamed {names : List String} {answer : String × TypeDef}
    (h : locateNamed ref names table = .ok answer grown) :
    table.Handed ref answer.2 grown := by
  rw [locateNamed] at h
  cases hsearch : table.search ref (argumentSuffix names) (table.scopesOf ref) with
  | none =>
    rw [hsearch] at h
    cases h
  | some found =>
    rw [hsearch] at h
    cases h
    exact (finds_of_search hsearch).2.handed

theorem TypeTable.Handed.plainBody (h : table.Handed ref definition grown)
    (hplain : ref.plain) (htable : ∀ d, table.Has d → d.PlainBody) :
    definition.PlainBody := by
  rcases h.origin with hhas | ⟨generic, hhas, rfl⟩
  · exact htable definition hhas
  · exact (htable generic hhas).instance hplain

end Search

theorem TypeTable.Stable.plainBody (h : table.Stable) (hmem : (key, definition) ∈ table.stored) :
    definition.PlainBody := by
  have hplain := h.definitions _ hmem
  simp only [TypeDef.plain, Bool.and_eq_true, List.all_eq_true] at hplain
  exact hplain.2

/-- Every definition and instance of a table that is reached has plain names. -/
theorem TypeTable.Reached.plainBody (h : table.Reached) (hplain : table.Stable) :
    ∀ definition, table.Has definition → definition.PlainBody := by
  suffices hinstances : ∀ entry ∈ table.instances, entry.2.PlainBody by
    rintro definition ⟨key, hstored | hinstance⟩
    · exact hplain.plainBody hstored
    · exact hinstances _ hinstance
  induction h with
  | empty project => simp
  | @stored table grown definition _ hstore ih =>
    obtain ⟨package, _, rfl⟩ := store_eq_ok hstore
    exact ih (hplain.of_store hstore)
  | @located table grown ref names answer _ href _ _ hlocate ih =>
    have hover := locateNamed_keeps ref names table (Over.refl table)
    rw [after_of_ok hlocate] at hover
    have htable := hplain.of_over hover.symm
    have hinstances := ih htable
    have hhanded := handed_of_locateNamed hlocate
    have hanswer : answer.2.PlainBody := by
      refine hhanded.plainBody href ?_
      rintro definition ⟨key, hstored | hinstance⟩
      · exact htable.plainBody hstored
      · exact hinstances _ hinstance
    intro entry hentry
    rcases hhanded.instances with hsub | ⟨key, hcons⟩
    · exact hinstances entry (hsub hentry)
    · rw [hcons] at hentry
      rcases List.mem_cons.1 hentry with rfl | hold
      · exact hanswer
      · exact hinstances entry hold

/-! ## Walks -/

/-- What a walk may rely on, to find out of every type that it passes that it is `named`. -/
structure Walkable (inv : TypeTable → Prop) (named : TypeExpr → Prop) : Prop where
  primitive : ∀ name, named (.primitive name)
  param : ∀ name, named (.param name)
  pointer : ∀ {target}, named target → named (.pointer target)
  slice : ∀ {element}, named element → named (.slice element)
  array : ∀ {length element}, named element → named (.array length element)
  union : ∀ {alternatives}, (∀ type ∈ alternatives, type.plain = true) →
    (∀ type ∈ alternatives, named type) → named (.union alternatives)
  canonicalName : ∀ {type}, type.plain = true →
    Yields inv (fun _ => named type) (canonicalName type)
  retrieve : ∀ {ref : TypeRef}, ref.plain = true →
    Yields inv (fun found => ((∀ type ∈ ref.arguments, named type) → named ref.toType) ∧
      found.PlainBody) (retrieve ref)

section Walks

variable {inv : TypeTable → Prop} {named : TypeExpr → Prop} (hwalk : Walkable inv named)

include hwalk

/-- A type whose references all resolve is named. -/
theorem verify_yields (type : TypeExpr) (h : type.plain) :
    Yields inv (fun _ => named type) (verify type) := by
  induction type using TypeExpr.induct with
  | step type ih =>
    have hall {types : List TypeExpr} (hsub : types ⊆ type.children)
        (hplain : ∀ type ∈ types, type.plain) :
        Yields inv (fun _ => ∀ type ∈ types, named type) (verifyAll types) := by
      rw [verifyAll_eq_forM]
      exact Yields.forM fun part hmem => ih part (hsub hmem) (hplain part hmem)
    cases type with
    | primitive name => exact Yields.pure (hwalk.primitive name)
    | param name => exact Yields.pure (hwalk.param name)
    | pointer target => exact (ih target (.head _) h).mono fun _ hname => hwalk.pointer hname
    | slice element => exact (ih element (.head _) h).mono fun _ hname => hwalk.slice hname
    | array _ element => exact (ih element (.head _) h).mono fun _ hname => hwalk.array hname
    | union alternatives =>
      have hplain := plainAll_iff.1 h
      exact (hall (List.Subset.refl _) hplain).mono fun _ hall => hwalk.union hplain hall
    | named name qualifier arguments origin =>
      have hplain : (⟨name, qualifier, arguments, origin⟩ : TypeRef).plain := h
      have harguments := plainAll_iff.1 (TypeRef.plain_iff.1 hplain).2.2
      refine (hall (List.Subset.refl _) harguments).bind fun _ hall => ?_
      exact (hwalk.retrieve hplain).bind fun found hfound => Yields.pure (hfound.1 hall)

omit hwalk in
/-- A walk passes over what mentions a parameter. -/
theorem skip_yields {found : Prop} {rest : TypeQuery Unit}
    (h : Yields inv (fun _ => type.isGeneric = false → found) rest) :
    Yields inv (fun _ => type.isGeneric = false → found)
      (if type.isGeneric then pure () else rest) := by
  split
  · rename_i hgeneric
    exact Yields.pure fun hclosed => by simp [hgeneric] at hclosed
  · exact h

variable {enter : String → TypeDef → TypeQuery Unit}
  (henter : ∀ key {definition : TypeDef}, definition.PlainBody →
    Yields inv (fun _ => True) (enter key definition))

include henter

/-- What a walk passes is named, unless it mentions a parameter. -/
theorem walkType_yields (type : TypeExpr) (h : type.plain) :
    Yields inv (fun _ => type.isGeneric = false → named type) (walkType enter type) := by
  induction type using TypeExpr.induct with
  | step type ih =>
    unfold walkType
    refine skip_yields ?_
    cases type with
    | primitive name => exact Yields.pure fun _ => hwalk.primitive name
    | param name => exact Yields.pure fun _ => hwalk.param name
    | pointer target =>
      exact (verify_yields hwalk target h).mono fun _ hname _ => hwalk.pointer hname
    | slice element =>
      exact (verify_yields hwalk element h).mono fun _ hname _ => hwalk.slice hname
    | array _ element =>
      refine (ih element (.head _) h).mono fun _ helement hclosed => ?_
      exact hwalk.array (helement hclosed)
    | union alternatives =>
      have hplain := plainAll_iff.1 h
      simp only [walkTypes_eq_forM]
      refine (Yields.forM fun part hmem => ih part hmem (hplain part hmem)).mono
        fun _ hall hclosed => ?_
      have hparts := anyGeneric_eq_false.1 hclosed
      exact hwalk.union hplain fun type hmem => hall type hmem (hparts type hmem)
    | named name qualifier arguments origin =>
      have hplain : (⟨name, qualifier, arguments, origin⟩ : TypeRef).plain := h
      refine (hwalk.canonicalName h).bind fun key hkey => ?_
      refine (hwalk.retrieve hplain).bind fun found hfound => ?_
      exact (henter key hfound.2).mono fun _ _ _ => hkey

omit henter

theorem walkDefinition_yields (fuel : Nat) (path : List String) (key : String)
    (h : definition.PlainBody) :
    Yields inv (fun _ => ∀ component ∈ definition.body.components,
        component.isGeneric = false → named component)
      (walkDefinition fuel path key definition) := by
  induction fuel generalizing path key definition with
  | zero => exact Yields.throw _
  | succ fuel ih =>
    refine Yields.ite (Yields.throw _) ?_
    rw [walkTypes_eq_forM]
    exact Yields.forM fun part hmem => walkType_yields hwalk
      (fun key _ hdefinition => (ih _ key hdefinition).mono fun _ _ => trivial) part (h part hmem)

/-- The types in the definitions of a table that has been walked are named, unless they
mention a parameter. -/
theorem named_of_checkContainment {fuel : Nat} {walked : TypeTable} (htable : inv table)
    (hplain : ∀ entry ∈ table.stored, entry.2.PlainBody)
    (hrun : checkContainment fuel table = .ok () walked) :
    inv walked ∧ ∀ entry ∈ table.stored, ∀ component ∈ entry.2.body.components,
      component.isGeneric = false → named component := by
  obtain ⟨state, _, hget, hrun⟩ := bind_eq_ok.1 hrun
  cases hget
  refine Yields.forM (fun entry hentry => ?_) table () walked htable hrun
  exact walkDefinition_yields hwalk fuel [] entry.1 (hplain entry hentry)

end Walks

section Variant

variable {base : TypeTable}

theorem canonicalName_yields (hbase : base.Variant base) (hplain : type.plain) :
    Yields base.Variant (base.Names type) (canonicalName type) := by
  intro s name t hs hrun
  obtain ⟨hname, ht⟩ := Names.of_run hbase hplain hs hrun
  exact ⟨ht, hname⟩

theorem retrieve_yields {ref : TypeRef} (hplain : ref.plain) :
    Yields base.Variant (fun found => base.Retrieved ref found ∧ found.PlainBody)
      (retrieve ref) := by
  intro s found t hs hrun
  obtain ⟨hfound, ht⟩ := Retrieved.of_run hplain hs hrun
  refine ⟨ht, hfound, ?_⟩
  obtain ⟨answer, last, hlocate, hrun⟩ := bind_eq_ok.1 hrun
  obtain ⟨rfl, rfl⟩ := pure_eq_ok.1 hrun
  obtain ⟨names, mid, hnames, hlocate⟩ := bind_eq_ok.1 hlocate
  have harguments := (TypeRef.plain_iff.1 hplain).2.2
  obtain ⟨_, _, _, htwins⟩ := (canonicalNames_steady _ harguments).ok ⟨hs, hs⟩ hnames
  have hmid : base.Variant mid := htwins.1
  exact (handed_of_locateNamed hlocate).plainBody hplain (hmid.reached.plainBody hmid.plain)

/-- In variants of a table, what a walk passes has a name. -/
theorem TypeTable.Variant.walkable (hbase : base.Variant base) :
    Walkable base.Variant fun type => ∃ name, base.Names type name where
  primitive name := ⟨name, base, rfl⟩
  param name := ⟨name, base, rfl⟩
  pointer := fun ⟨_, hname⟩ => ⟨_, names_pointer.2 ⟨_, hname, rfl⟩⟩
  slice := fun ⟨_, hname⟩ => ⟨_, names_slice.2 ⟨_, hname, rfl⟩⟩
  array := fun ⟨_, hname⟩ => ⟨_, names_array.2 ⟨_, hname, rfl⟩⟩
  union hplain hall := by
    obtain ⟨names, hnames⟩ := exists_forall₂_names hall
    exact ⟨_, .union hbase hplain hnames⟩
  canonicalName hplain := (canonicalName_yields hbase hplain).mono fun name hname => ⟨name, hname⟩
  retrieve hplain := by
    refine (retrieve_yields hplain).mono fun found hfound => ⟨fun hall => ?_, hfound.2⟩
    obtain ⟨names, hnames⟩ := exists_forall₂_names hall
    obtain ⟨⟨package, declared, hdeclared, _⟩, _⟩ := hfound
    exact Names.of_declaration hbase hplain hnames hdeclared

end Variant

end Accord
