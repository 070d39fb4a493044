import Accord.Proofs.Assign.Transitive
import Accord.Proofs.Types.Flattening

/-!
# Widening a binding

A parameter that has met one type and meets another is bound to a type that takes both.

* `TypeTable.Simple` are the ground types without sums that have a name.
  `TypeTable.Nominal` says of a table that its definitions mention such types only; then
  everything that a simple type mentions is simple (`Simple.mentioned`), and simple types
  are tame.
* `fits_of_names` says that simple types of one name fit each other.
* `TypeTable.Bound` are the types that parameters are bound to: simple types, and sums of
  several simple types.
* `Bound.merge` says that the sum of a binding and another type takes both.
-/

namespace Accord

open Query List Relation TypeExpr TypeRef TypeTable TypeBody

variable {held element dest type : TypeExpr} {left right : TypeRef} {name : String}

/-! ## Simple types -/

/-- A ground type without sums that has a name. -/
structure TypeTable.Simple (base : TypeTable) (type : TypeExpr) : Prop where
  ground : type.Ground
  sumless : type.hasSum = false
  named : ∃ name, base.Names type name

/-- A union with a name has alternatives. -/
def TypeTable.Inhabited (base : TypeTable) : Prop :=
  ∀ {ref : TypeRef} {package : String} {declared : TypeDef} {alternatives : List TypeExpr},
    ref.plain = true → ref.arguments = [] → base.declaration? ref = some (package, declared) →
    declared.body = .union alternatives → ∃ types, types ≠ [] ∧ base.Flattens ref.toType types

/-- Definitions mention simple types, apart from the parameters of generic ones, a union with a
name has alternatives, and no chain of aliases comes back. -/
structure TypeTable.Nominal (base : TypeTable) : Prop where
  closed : base.Closed
  sumless : ∀ entry ∈ base.stored, ∀ component ∈ entry.2.body.components,
    component.hasSum = false
  named : ∀ entry ∈ base.stored, entry.2.isGeneric = false →
    ∀ component ∈ entry.2.body.components, ∃ name, base.Names component name
  inhabited : base.Inhabited
  ends : ∀ type, ¬ base.Circles type

section Simple

variable {base : TypeTable} (hbase : base.Variant base) (hnominal : base.Nominal)

include hbase hnominal

theorem TypeTable.Simple.mentioned {type part : TypeExpr} (h : base.Simple type)
    (hpart : base.Mentions type part) : base.Simple part where
  ground := h.ground.mentioned hbase hnominal.closed hpart
  sumless := by
    have hsumless := h.sumless
    cases hpart with
    | target => exact hsumless
    | held => exact hsumless
    | element => exact hsumless
    | alternative hmem => cases hsumless
    | argument hmem => exact anySum_eq_false.1 hsumless _ hmem
    | component hnone hfound hmem =>
      exact hnominal.sumless _ (mem_stored_of_declaration hfound) _ hmem
  named := by
    obtain ⟨name, hname⟩ := h.named
    cases hpart with
    | target =>
      obtain ⟨inner, hinner, _⟩ := names_pointer.1 hname
      exact ⟨inner, hinner⟩
    | held =>
      obtain ⟨inner, hinner, _⟩ := names_array.1 hname
      exact ⟨inner, hinner⟩
    | element =>
      obtain ⟨inner, hinner, _⟩ := names_slice.1 hname
      exact ⟨inner, hinner⟩
    | alternative hmem => cases h.sumless
    | argument hmem =>
      obtain ⟨_, _, names, _, _, hall, _⟩ := hname.ref hbase h.ground.plain
      exact exists_name_of_mem hall hmem
    | component hnone hfound hmem =>
      have harity := hbase.arity h.ground.plain hfound
      rw [hnone] at harity
      refine hnominal.named _ (mem_stored_of_declaration hfound) ?_ _ hmem
      simp [TypeDef.isGeneric, eq_nil_of_length_eq_zero harity]

theorem TypeTable.Simple.hereditary : base.Hereditary base.Simple where
  plain := fun h => h.ground.plain
  alternatives := fun h _ hmem => h.mentioned hbase hnominal (.alternative hmem)
  components := fun h hnone hfound _ hmem =>
    h.mentioned hbase hnominal (.component hnone hfound hmem)

theorem TypeTable.Simple.tame (h : base.Simple type) : base.Tame type where
  ground := h.ground
  inhabited := by
    have hreached : ∀ {part}, ReflTransGen base.Mentions type part → base.Simple part := by
      intro part hreach
      induction hreach with
      | refl => exact h
      | tail _ hmentions ih => exact ih.mentioned hbase hnominal hmentions
    intro alternatives hreach
    cases (hreached hreach).sumless

omit hnominal in
theorem TypeTable.Simple.tidy (h : base.Simple type) : base.Tidy type :=
  .of_names hbase h.ground.plain h.named (.sumless h.sumless)

theorem TypeTable.Nominal.regular : base.Regular :=
  .of_names hbase fun entry hentry hgeneric part hpart =>
    ⟨hnominal.named entry hentry hgeneric part hpart,
      .sumless (hnominal.sumless entry hentry part hpart)⟩

end Simple

/-! ## Putting comparisons together -/

section Congruence

variable {base : TypeTable} {mode : Mode}

theorem Fits.pointer_congr {pointed target : TypeExpr} (h : Fits base .strict pointed target) :
    Fits base mode (.pointer pointed) (.pointer target) :=
  .of_step ⟨_, .self rfl, _, .self rfl, ⟨pointed, rfl, h⟩,
    fun _ => ⟨⟨target, rfl, h.symm⟩, rfl⟩⟩

theorem Fits.slice_congr (h : Fits base .strict held element) :
    Fits base mode (.slice held) (.slice element) :=
  .of_step ⟨_, .self rfl, _, .self rfl, Or.inl ⟨held, rfl, h⟩,
    fun _ => ⟨Or.inl ⟨element, rfl, h.symm⟩, rfl⟩⟩

theorem Fits.array_congr {length : UInt64} (h : Fits base mode held element) :
    Fits base mode (.array length held) (.array length element) := by
  refine .of_step ⟨_, .self rfl, _, .self rfl, ⟨held, rfl, h⟩, ?_⟩
  rintro rfl
  exact ⟨⟨element, rfl, h.symm⟩, rfl⟩

theorem Fits.ref_congr (hleft : base.Unaliases left.toType left.toType)
    (hright : base.Unaliases right.toType right.toType)
    (h : SameDefinition base (Fits base) left.toType right.toType) :
    Fits base mode left.toType right.toType :=
  .of_step ⟨_, hleft, _, hright, Or.inl h, fun _ => ⟨Or.inl h.symm, rfl⟩⟩

end Congruence

section Names

variable {base : TypeTable} (hbase : base.Variant base) (hnominal : base.Nominal)

include hbase

/-- A reference with type arguments is to a record, and stands for itself. -/
theorem TypeTable.Names.unaliases {ref : TypeRef} (hplain : ref.plain)
    (h : base.Names ref.toType name) (hne : ref.arguments ≠ []) :
    base.Unaliases ref.toType ref.toType := by
  obtain ⟨found, after, hrun, hfound⟩ := h.retrieves hbase hplain hbase
  refine .of_retrieve hbase hplain hbase hrun ?_
  rcases hfound.declared_or_record with ⟨hnil, _⟩ | hrecord
  · exact absurd hnil hne
  · cases hbody : found.body with
    | record fields => rfl
    | union _ | «alias» _ => simp [hbody, isRecord] at hrecord

include hnominal

theorem fits_of_home (hleft : base.Simple left.toType) (hright : base.Simple right.toType)
    (hsame : left.name = right.name) (hhome : base.home? left = base.home? right)
    (hparts : Forall₂ (Fits base .strict) left.arguments right.arguments) (mode : Mode) :
    Fits base mode left.toType right.toType := by
  have hplain : left.plain := hleft.ground.plain
  have hplain' : right.plain := hright.ground.plain
  obtain ⟨_, hname⟩ := hleft.named
  obtain ⟨_, hname'⟩ := hright.named
  obtain ⟨package, declared, _, _, hdeclared, _⟩ := hname.ref hbase hplain
  obtain ⟨package', declared', _, _, hdeclared', _⟩ := hname'.ref hbase hplain'
  obtain rfl : package = package' := by
    simpa [home?, hdeclared, hdeclared'] using hhome
  obtain rfl := declaration_unique hdeclared hdeclared' hsame hparts.length_eq
  by_cases hnil : left.arguments = []
  · rw [hnil, forall₂_nil_left_iff] at hparts
    refine .of_alike ⟨hleft.tame hbase hnominal, Or.inr ⟨left, right, rfl, rfl, ?_⟩⟩
    exact ⟨hplain, hplain', hnil, hparts, hsame, package, declared, hdeclared, hdeclared'⟩
  · have hnil' : right.arguments ≠ [] := by
      intro h
      rw [h, forall₂_nil_right_iff] at hparts
      exact hnil hparts
    refine .ref_congr (hname.unaliases hbase hplain hnil) (hname'.unaliases hbase hplain' hnil') ?_
    exact ⟨left, right, rfl, rfl, hsame, hdeclared.trans hdeclared'.symm, hparts⟩

theorem fits_of_matches (source : TypeExpr) (h : base.Simple source) (h' : base.Simple dest)
    (hsame : base.Matches source dest) (mode : Mode) : Fits base mode source dest := by
  induction source using induct generalizing dest mode with
  | step source ih =>
    cases hsame with
    | primitive _ => exact .of_alike (h.tame hbase hnominal).alike
    | param _ => cases h.ground.closed
    | union _ => cases h.sumless
    | pointer htargets =>
      exact .pointer_congr (ih _ (.head _) (h.mentioned hbase hnominal .target)
        (h'.mentioned hbase hnominal .target) htargets .strict)
    | slice helements =>
      exact .slice_congr (ih _ (.head _) (h.mentioned hbase hnominal .element)
        (h'.mentioned hbase hnominal .element) helements .strict)
    | array _ helements =>
      exact .array_congr (ih _ (.head _) (h.mentioned hbase hnominal .held)
        (h'.mentioned hbase hnominal .held) helements mode)
    | @named text qualifier qualifier' left right origin origin' _ _ hhome harguments =>
      have h : base.Simple (toType ⟨text, qualifier, left, origin⟩) := h
      have h' : base.Simple (toType ⟨text, qualifier', right, origin'⟩) := h'
      refine fits_of_home hbase hnominal h h' rfl hhome ?_ mode
      refine forall₂_iff_get.2 ⟨harguments.length_eq, fun i hi hi' => ?_⟩
      exact ih _ (get_mem _ _) (h.mentioned hbase hnominal (.argument (get_mem _ _)))
        (h'.mentioned hbase hnominal (.argument (get_mem _ _))) (harguments.get hi hi') .strict

/-- Simple types of one name fit each other. -/
theorem fits_of_names {source : TypeExpr} (h : base.Simple source) (h' : base.Simple dest)
    (hname : base.Names source name) (hname' : base.Names dest name) (mode : Mode) :
    Fits base mode source dest := by
  have hworded {type : TypeExpr} (hsimple : base.Simple type) :
      type.worded [] [] (fun _ _ => true) :=
    worded_of_sumless type hsimple.ground.plain
      (by simp [parameters_of_closed type hsimple.ground.closed]) hsimple.sumless
  exact fits_of_matches hbase hnominal source h h' (matches_of_worded hbase.orderly.keyed
    h.ground.plain h'.ground.plain (hworded h) (hworded h')
    ((names_iff_spelling hbase h.ground.plain).1 hname)
    ((names_iff_spelling hbase h'.ground.plain).1 hname')) mode

/-! ## Bindings -/

/-- A simple type that is no alias. -/
structure TypeTable.Direct (base : TypeTable) (type : TypeExpr) : Prop where
  simple : base.Simple type
  bare : base.Unaliases type type

/-- What a parameter may be bound to: a simple type or a sum of several, none of them an
alias. -/
inductive TypeTable.Bound (base : TypeTable) : TypeExpr → Prop where
  | single {type : TypeExpr} (direct : base.Direct type) : Bound base type
  | sum {types : List TypeExpr} (length : 2 ≤ types.length)
      (parts : ∀ type ∈ types, base.Direct type) : Bound base (.union types)

/-- What fits a type also fits where an alias of the type stands. -/
theorem Fits.of_unaliases {mode : Mode} {bare : TypeExpr} (hbare : base.Unaliases type bare)
    (hdirect : base.Direct bare) (h : Fits base mode bare dest) : Fits base mode type dest := by
  have hstep : FitsStep base (.some base) (Fits base) mode bare dest →
      Fits base mode type dest := by
    rintro ⟨bare', hbare', hrest⟩
    obtain rfl := hdirect.bare.unique hbare'
    exact .of_step ⟨bare, hbare, hrest⟩
  rcases h.unfold with halike | hfits
  · rcases halike.unaliases_or_fitsStep hbase hnominal.closed hdirect.bare mode with
      hdest | ⟨hfits, _⟩
    · have hself : ∀ m, FitsBare base (.some base) (Fits base) m bare bare := by
        refine fun m => hdirect.simple.ground.fitsBare_self (fun _ part hmentions => ?_) ?_
        · exact .of_alike
            ((hdirect.simple.mentioned hbase hnominal hmentions).tame hbase hnominal).alike
        · rintro alternatives rfl
          cases hdirect.simple.sumless
      exact .of_step ⟨bare, hbare, bare, hdest, hself mode,
        fun _ => ⟨hself .strict, samePrimitive_self bare⟩⟩
    · exact hstep hfits
  · exact hstep hfits

/-- A simple type that is a union and no alias has alternatives, none of them a union. -/
theorem exists_leaves (h : base.Direct type) (hsum : base.IsSum type) :
    ∃ listed ≠ [], base.Flattens type listed ∧
      ∀ part ∈ listed, TransGen base.Alternative type part ∧ ¬ base.IsSum part := by
  obtain ⟨alternatives, hspreads⟩ := hsum
  have hlast := ((unaliases_iff_follows hbase h.simple.ground.plain).1 h.bare).2.last
  rcases written?_eq_some ((spreads_iff .refl hlast).1 hspreads) with
    rfl | ⟨ref, _, _, rfl, hdeclared, hbody⟩
  · cases h.simple.sumless
  have hplain : ref.plain := h.simple.ground.plain
  obtain ⟨listed, hne, hlisted⟩ := hnominal.inhabited hplain
    (hbase.arguments hplain hdeclared (by rw [hbody]; rfl)) hdeclared hbody
  obtain ⟨types, _, bound, hrun, _, _, hsound, _⟩ := exists_alternatives
    (hnominal.regular hbase) (h.simple.tidy hbase) fun part _ => hnominal.ends part
  obtain rfl := hlisted.unique ⟨bound, hrun bound le_rfl⟩
  exact ⟨listed, hne, hlisted, hsound⟩

section Sum

variable {types : List TypeExpr} (hlength : 2 ≤ types.length)
  (hparts : ∀ type ∈ types, base.Direct type)

include hlength hparts

/-- A sum has an alternative for each type that a part leads to and that is no union. -/
theorem exists_cover : ∃ accepted ≠ [], base.Flattens (.union types) accepted ∧
    (∀ found ∈ accepted, ∃ part ∈ types, ReflTransGen base.Alternative part found ∧
      ¬ base.IsSum found) ∧
    ∀ part ∈ types, ∀ last, ReflTransGen base.Alternative part last → ¬ base.IsSum last →
      ∃ alternative ∈ accepted, ∀ mode, Fits base mode last alternative := by
  have hsimple {part last : TypeExpr} (hmem : part ∈ types)
      (hreaches : ReflTransGen base.Alternative part last) : base.Simple last :=
    (Simple.hereditary hbase hnominal).reached hbase (hparts part hmem).simple hreaches
  have hwhole : base.Spreads (.union types) types := ⟨_, .refl, rfl⟩
  have htidy : base.Tidy (.union types) := by
    obtain ⟨names, hnames⟩ := exists_forall₂_names fun part hmem => (hparts part hmem).simple.named
    have hplain := fun part hmem => (hparts part hmem).simple.ground.plain
    exact .of_names hbase (plainAll_iff.2 hplain) ⟨_, .union hbase hplain hnames⟩
      (.sum fun part hmem => .sumless (hparts part hmem).simple.sumless)
  obtain ⟨accepted, names, bound, hrun, hnames, _, hsound, hall⟩ := exists_alternatives
    (hnominal.regular hbase) htidy fun part _ => hnominal.ends part
  have hunmasked : base.Unmasked (.union types) := by
    have hunion {part : TypeExpr} (h : part.hasSum = false) : part.isUnion = false := by
      cases part <;> trivial
    refine unmasked_of_sumless (fun entry hentry part hpart => hunion
      (hnominal.sumless entry hentry part hpart)) fun parts heq => ?_
    obtain rfl := TypeExpr.union.inj heq
    exact ⟨by omega, fun part hpart => hunion (hparts part hpart).simple.sumless⟩
  have hfound : ∀ found ∈ accepted, ∃ part ∈ types, ReflTransGen base.Alternative part found ∧
      ¬ base.IsSum found := by
    intro found hmem
    obtain ⟨hreaches, hsingle⟩ := hsound found hmem
    obtain ⟨part, ⟨others, hothers, hpart⟩, hrest⟩ := TransGen.head'_iff.1 hreaches
    exact ⟨part, hothers.unique hwhole ▸ hpart, hrest, hsingle⟩
  have hcover : ∀ part ∈ types, ∀ last, ReflTransGen base.Alternative part last →
      ¬ base.IsSum last → ∃ alternative ∈ accepted, ∀ mode, Fits base mode last alternative := by
    intro part hmem last hreaches hsingle
    have hlast := hsimple hmem hreaches
    obtain ⟨name, hname⟩ := hlast.named
    obtain ⟨alternative, halternative, hsame⟩ := exists_of_mem_left (Forall₂.flip hnames)
      (hall hunmasked last name (.head' ⟨_, hwhole, hmem⟩ hreaches) hsingle hname)
    obtain ⟨other, hother, hreaches', _⟩ := hfound alternative halternative
    exact ⟨alternative, halternative,
      fits_of_names hbase hnominal hlast (hsimple hother hreaches') hname hsame⟩
  refine ⟨accepted, ?_, ⟨bound, hrun bound le_rfl⟩, hfound, hcover⟩
  obtain ⟨part, hmem⟩ := exists_mem_of_length_pos (Nat.lt_of_lt_of_le Nat.zero_lt_two hlength)
  obtain ⟨last, hreaches, hsingle⟩ : ∃ last, ReflTransGen base.Alternative part last ∧
      ¬ base.IsSum last := by
    by_cases hsum : base.IsSum part
    · obtain ⟨listed, hne, _, hleaves⟩ := exists_leaves hbase hnominal (hparts part hmem) hsum
      obtain ⟨last, hlast⟩ := exists_mem_of_ne_nil listed hne
      exact ⟨last, (hleaves last hlast).1.to_reflTransGen, (hleaves last hlast).2⟩
    · exact ⟨part, .refl, hsum⟩
  obtain ⟨alternative, halternative, _⟩ := hcover part hmem last hreaches hsingle
  exact ne_nil_of_mem halternative

/-- A sum takes each of its parts. -/
theorem fits_sum (hmem : type ∈ types) : Fits base .lenient type (.union types) := by
  obtain ⟨accepted, hne, haccepted, _, hcover⟩ := exists_cover hbase hnominal hlength hparts
  refine .of_step ⟨type, (hparts type hmem).bare, _, .self rfl,
    ⟨accepted, haccepted, hne, ?_⟩, by simp⟩
  by_cases hsum : base.IsSum type
  · obtain ⟨listed, hne', hlisted, hleaves⟩ := exists_leaves hbase hnominal (hparts type hmem) hsum
    refine Or.inr ⟨listed, hlisted, hne', fun part hpart => ?_⟩
    obtain ⟨hreaches, hsingle⟩ := hleaves part hpart
    obtain ⟨alternative, halternative, hfits⟩ :=
      hcover type hmem part hreaches.to_reflTransGen hsingle
    exact ⟨alternative, halternative, hfits _⟩
  · obtain ⟨alternative, halternative, hfits⟩ := hcover type hmem type .refl hsum
    exact Or.inl ⟨alternative, halternative, hfits _⟩

theorem sum_tame : base.Tame (.union types) where
  ground := ⟨plainAll_iff.2 fun t ht => (hparts t ht).simple.ground.plain,
    anyGeneric_eq_false.2 fun t ht => (hparts t ht).simple.ground.closed⟩
  inhabited := by
    intro alternatives hreach
    rcases ReflTransGen.cases_head_iff.1 hreach with heq | ⟨part, hmentions, hrest⟩
    · cases heq
      obtain ⟨accepted, hne, haccepted, _⟩ := exists_cover hbase hnominal hlength hparts
      exact fun hempty => hne (haccepted.unique hempty)
    · cases hmentions with
      | alternative hmem =>
        exact ((hparts part hmem).simple.tame hbase hnominal).inhabited alternatives hrest

/-- A sum takes a sum of some of its parts. -/
theorem fits_sum_of_subset {fewer : List TypeExpr} (hfewer : 2 ≤ fewer.length)
    (hsub : fewer ⊆ types) : Fits base .lenient (.union fewer) (.union types) := by
  obtain ⟨accepted, hne, haccepted, _, hcover⟩ := exists_cover hbase hnominal hlength hparts
  obtain ⟨offered, hne', hoffered, hfound, _⟩ := exists_cover hbase hnominal hfewer
    fun type hmem => hparts type (hsub hmem)
  refine .of_step ⟨_, .self rfl, _, .self rfl, ⟨accepted, haccepted, hne,
    Or.inr ⟨offered, hoffered, hne', fun found hmem => ?_⟩⟩, by simp⟩
  obtain ⟨part, hpart, hreaches, hsingle⟩ := hfound found hmem
  obtain ⟨alternative, halternative, hfits⟩ := hcover part (hsub hpart) found hreaches hsingle
  exact ⟨alternative, halternative, hfits _⟩

end Sum

theorem TypeTable.Bound.tame (h : base.Bound type) : base.Tame type := by
  cases h with
  | single hdirect => exact hdirect.simple.tame hbase hnominal
  | sum hlength hparts => exact sum_tame hbase hnominal hlength hparts

omit hnominal in
theorem TypeTable.Bound.named (h : base.Bound type) : ∃ name, base.Names type name := by
  cases h with
  | single hdirect => exact hdirect.simple.named
  | sum _ hparts =>
    obtain ⟨names, hnames⟩ := exists_forall₂_names fun part hmem => (hparts part hmem).simple.named
    exact ⟨_, .union hbase (fun part hmem => (hparts part hmem).simple.ground.plain) hnames⟩

/-- The sum of a binding and another type is a binding that takes both. -/
theorem TypeTable.Bound.merge {bound : TypeExpr} (h : base.Bound bound) (htype : base.Direct type) :
    base.Bound (bound.merge type) ∧ Fits base .lenient bound (bound.merge type) ∧
      Fits base .lenient type (bound.merge type) := by
  cases h with
  | single hdirect =>
    have hmerge : bound.merge type = .union [bound, type] := by
      cases bound with
      | union alternatives => cases hdirect.simple.sumless
      | _ => rfl
    have hparts : ∀ t ∈ [bound, type], base.Direct t := by simp [hdirect, htype]
    rw [hmerge]
    exact ⟨.sum le_rfl hparts, fits_sum hbase hnominal le_rfl hparts (by simp),
      fits_sum hbase hnominal le_rfl hparts (by simp)⟩
  | @sum types hlength hparts =>
    have hparts' : ∀ t ∈ types ++ [type], base.Direct t := by
      simpa [or_imp, forall_and, htype] using hparts
    have hlength' : 2 ≤ (types ++ [type]).length := by
      simp only [length_append]
      omega
    exact ⟨.sum hlength' hparts',
      fits_sum_of_subset hbase hnominal hlength' hparts' hlength (by simp),
      fits_sum hbase hnominal hlength' hparts' (by simp)⟩

end Names

end Accord
