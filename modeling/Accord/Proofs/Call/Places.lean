import Accord.Proofs.Assign.Preorder
import Accord.Proofs.Call.Plans
import Accord.Proofs.Call.Selection
import Accord.Proofs.Call.Weight

/-!
# Places that decide between two signatures

Two signatures are compared where the types of one fit those of the other, place by place.
As far as type arguments, unions and conversions go, the weights of the first then lie within
those of the second.  What is said of every place here adds up to a statement about the whole
signatures:

* The first is the more specific one if some place has a union for what is neither a union
  nor a pointer (`Weight.Sharper`), whatever the other places have.
* The second is not the more specific one if every place has the same types, no unions, or a
  union that has the alternatives of the first and perhaps more (`TypeTable.Widens`,
  `Weight.Inside`).
* The measures are then not the same if, in some place, there are more alternatives or
  a primitive type that does not go back (`TypeTable.StrictlyWidens`, `Weight.Below`).
-/

namespace Accord

open Query List TypeExpr

variable {narrow wide : Weight} {covered : List TypeExpr}

/-! ## How weights compare -/

/-- The first weight counts for less than the second by its type arguments and unions. -/
structure Weight.Sharper (narrow wide : Weight) : Prop where
  complexity : wide.complexity ≤ narrow.complexity
  unions : wide.complexity = narrow.complexity → narrow.unions < wide.unions

/-- The first weight counts for no more than the second. -/
structure Weight.Inside (narrow wide : Weight) : Prop extends narrow.Within wide where
  cases : wide.complexity = narrow.complexity → narrow.unions = wide.unions →
    narrow.cases ≤ wide.cases

/-- The first weight counts for less than the second. -/
structure Weight.Below (narrow wide : Weight) : Prop extends narrow.Inside wide where
  less : wide.complexity = narrow.complexity → narrow.unions = wide.unions →
    narrow.cases < wide.cases ∨ narrow.conversions < wide.conversions

namespace Weight

variable {narrow' wide' : Weight}

theorem Sharper.below (h : narrow.Sharper wide) (hinside : narrow.Inside wide) :
    narrow.Below wide where
  toInside := hinside
  less := fun hcomplexity hunions => absurd hunions (h.unions hcomplexity).ne

theorem Sharper.add_within (h : narrow.Sharper wide) (h' : narrow'.Within wide') :
    (narrow + narrow').Sharper (wide + wide') := by
  obtain ⟨hcomplexity, hunions⟩ := h
  obtain ⟨hcomplexity', hunions', _⟩ := h'
  constructor <;> simp only [complexity_add, unions_add] <;> omega

theorem Within.add_sharper (h : narrow.Within wide) (h' : narrow'.Sharper wide') :
    (narrow + narrow').Sharper (wide + wide') := by
  obtain ⟨hcomplexity, hunions, _⟩ := h
  obtain ⟨hcomplexity', hunions'⟩ := h'
  constructor <;> simp only [complexity_add, unions_add] <;> omega

theorem Inside.add (h : narrow.Inside wide) (h' : narrow'.Inside wide') :
    (narrow + narrow').Inside (wide + wide') := by
  refine ⟨h.toWithin.add h'.toWithin, ?_⟩
  obtain ⟨⟨hcomplexity, hunions, _⟩, hcases⟩ := h
  obtain ⟨⟨hcomplexity', hunions', _⟩, hcases'⟩ := h'
  simp only [complexity_add, unions_add, cases_add]
  omega

theorem Below.add_inside (h : narrow.Below wide) (h' : narrow'.Inside wide') :
    (narrow + narrow').Below (wide + wide') := by
  refine ⟨h.toInside.add h', ?_⟩
  obtain ⟨⟨⟨hcomplexity, hunions, hconversions⟩, hcases⟩, hless⟩ := h
  obtain ⟨⟨hcomplexity', hunions', hconversions'⟩, hcases'⟩ := h'
  simp only [complexity_add, unions_add, cases_add, conversions_add]
  omega

theorem Inside.add_below (h : narrow.Inside wide) (h' : narrow'.Below wide') :
    (narrow + narrow').Below (wide + wide') := by
  refine ⟨h.add h'.toInside, ?_⟩
  obtain ⟨⟨hcomplexity, hunions, hconversions⟩, hcases⟩ := h
  obtain ⟨⟨⟨hcomplexity', hunions', hconversions'⟩, hcases'⟩, hless⟩ := h'
  simp only [complexity_add, unions_add, cases_add, conversions_add]
  omega

end Weight

/-! ## One place decides -/

section Sums

variable {narrows wides : List Weight}

theorem Weight.Within.sum (h : Forall₂ Weight.Within narrows wides) :
    narrows.sum.Within wides.sum :=
  rel_sum (.refl 0) (fun _ _ hfirst _ _ hsecond => hfirst.add hsecond) h

theorem Weight.Inside.sum (h : Forall₂ Weight.Inside narrows wides) :
    narrows.sum.Inside wides.sum :=
  rel_sum ⟨.refl 0, fun _ _ => Nat.le_refl _⟩
    (fun _ _ hfirst _ _ hsecond => hfirst.add hsecond) h

/-- One place decides where no other speaks against it. -/
theorem sum_of_mem_zip {loose strict : Weight → Weight → Prop}
    (hleft : ∀ {a a' b b' : Weight}, strict a a' → loose b b' → strict (a + b) (a' + b'))
    (hright : ∀ {a a' b b' : Weight}, loose a a' → strict b b' → strict (a + b) (a' + b'))
    (hsum : ∀ {narrows wides : List Weight}, Forall₂ loose narrows wides →
      loose narrows.sum wides.sum)
    (h : Forall₂ loose narrows wides) (hmem : (narrow, wide) ∈ narrows.zip wides)
    (hstrict : strict narrow wide) : strict narrows.sum wides.sum := by
  induction h with
  | nil => cases hmem
  | cons hloose hrest ih =>
    rw [sum_cons, sum_cons]
    rcases mem_cons.1 hmem with hhead | htail
    · cases hhead
      exact hleft hstrict (hsum hrest)
    · exact hright hloose (ih htail)

theorem Weight.Sharper.sum (h : Forall₂ Weight.Within narrows wides)
    (hmem : (narrow, wide) ∈ narrows.zip wides) (hsharper : narrow.Sharper wide) :
    narrows.sum.Sharper wides.sum :=
  sum_of_mem_zip Weight.Sharper.add_within Weight.Within.add_sharper Weight.Within.sum h hmem
    hsharper

theorem Weight.Below.sum (h : Forall₂ Weight.Inside narrows wides)
    (hmem : (narrow, wide) ∈ narrows.zip wides) (hbelow : narrow.Below wide) :
    narrows.sum.Below wides.sum :=
  sum_of_mem_zip Weight.Below.add_inside Weight.Inside.add_below Weight.Inside.sum h hmem hbelow

variable {weighs : TypeExpr → Weight → Prop} {sources dests : List TypeExpr}

/-- The weights of two types that stand in the same place. -/
theorem exists_weighs_of_mem_zip (hnarrows : Forall₂ weighs sources narrows)
    (hwides : Forall₂ weighs dests wides) {source dest : TypeExpr}
    (hmem : (source, dest) ∈ sources.zip dests) :
    ∃ narrow wide, (narrow, wide) ∈ narrows.zip wides ∧ weighs source narrow ∧
      weighs dest wide := by
  induction hnarrows generalizing dests wides with
  | nil => simp at hmem
  | cons hnarrow _ ih =>
    cases hwides with
    | nil => simp at hmem
    | cons hwide hwides =>
      rw [zip_cons_cons, mem_cons] at hmem
      rcases hmem with hhead | htail
      · cases hhead
        exact ⟨_, _, mem_cons_self, hnarrow, hwide⟩
      · obtain ⟨narrow, wide, hpair, hboth⟩ := ih hwides htail
        exact ⟨narrow, wide, mem_cons_of_mem _ hpair, hboth⟩

end Sums

/-! ## Wider types -/

/-- The type is a union behind its aliases, with the given alternatives. -/
def TypeTable.Lists (base : TypeTable) (type : TypeExpr) (covered : List TypeExpr) : Prop :=
  ∃ bare, base.Unaliases type bare ∧ base.Flattens bare covered ∧ covered ≠ []

/-- The type is neither a union with alternatives nor a pointer. -/
structure TypeTable.Solid (base : TypeTable) (type : TypeExpr) : Prop where
  noUnion : ∀ covered, ¬ base.Lists type covered
  noPointer : ∀ target, ¬ base.Unaliases type (.pointer target)

/-- No union counts in the weight of the type. -/
def TypeTable.Unionless (base : TypeTable) (type : TypeExpr) : Prop :=
  ∀ fuel weight, base.Weighs fuel true type weight → weight.unions = 0

/-- The second type is as wide as the first in a way that its weight shows. -/
inductive TypeTable.Widens (base : TypeTable) : TypeExpr → TypeExpr → Prop where
  | same (type : TypeExpr) : Widens base type type
  | unionless {source dest : TypeExpr} (free : base.Unionless dest) : Widens base source dest
  | solid {source dest : TypeExpr} {accepted : List TypeExpr} (solid : base.Solid source)
      (lists : base.Lists dest accepted) : Widens base source dest
  | subset {source dest : TypeExpr} {offered accepted : List TypeExpr}
      (offers : base.Lists source offered) (accepts : base.Lists dest accepted)
      (subset : offered ⊆ accepted) : Widens base source dest

/-- The second type is wider than the first in a way that its weight shows. -/
inductive TypeTable.StrictlyWidens (base : TypeTable) : TypeExpr → TypeExpr → Prop where
  | primitive {source dest : TypeExpr} {name : String}
      (bare : base.Unaliases dest (.primitive name))
      (refused : base.Judges .lenient dest source false) : StrictlyWidens base source dest
  | solid {source dest : TypeExpr} {accepted : List TypeExpr} (solid : base.Solid source)
      (lists : base.Lists dest accepted) : StrictlyWidens base source dest
  | subset {source dest : TypeExpr} {offered accepted : List TypeExpr}
      (offers : base.Lists source offered) (accepts : base.Lists dest accepted)
      (subset : offered ⊆ accepted) (more : ¬ accepted ⊆ offered) :
      StrictlyWidens base source dest

section Places

variable {base : TypeTable} (hbase : base.Variant base) {fuel : Nat} {converts : Bool}
  {source dest : TypeExpr}

include hbase

theorem TypeTable.Flattens.nodup {type : TypeExpr} (hplain : type.plain)
    (h : base.Flattens type covered) : covered.Nodup := by
  obtain ⟨fuel, after, hrun⟩ := h
  have hspelled : base.Spelled :=
    ⟨hbase.orderly.keyed, fun entry hentry =>
      hbase.reached.plainBody hbase.plain _ ⟨entry.1, Or.inr hentry⟩⟩
  exact alternatives_nodup hplain hspelled hrun

theorem TypeTable.Lists.nodup (hplain : source.plain) (h : base.Lists source covered) :
    covered.Nodup := by
  obtain ⟨bare, hbare, hcovered, _⟩ := h
  exact hcovered.nodup hbase (hbare.inherits hbase hbase.plain.hereditary hplain)

theorem TypeTable.Weighs.of_lists (h : base.Weighs fuel converts source narrow)
    (hlists : base.Lists source covered) : narrow = { unions := 1, cases := covered.length } := by
  cases fuel with
  | zero => exact h.elim
  | succ fuel =>
    obtain ⟨hground, bare, hbare, hweighs⟩ := h
    obtain ⟨bare', hbare', hcovered, hne⟩ := hlists
    obtain rfl := hbare.unique hbare'
    exact weighsBare_of_flattens hbase
      (hbare.inherits hbase hbase.plain.hereditary hground.plain)
      (hbare.bare hbase hground.plain) hweighs hcovered hne

omit hbase in
/-- What is neither a union nor a pointer counts no unions, unless it has type arguments. -/
theorem TypeTable.Weighs.of_solid (h : base.Weighs fuel converts source narrow)
    (hsolid : base.Solid source) : narrow.complexity = 0 → narrow.unions = 0 := by
  cases fuel with
  | zero => exact h.elim
  | succ fuel =>
    obtain ⟨_, bare, hbare, hweighs⟩ := h
    have hnone : ∀ covered, base.Flattens bare covered → covered = [] := fun covered hcovered =>
      by_contra fun hne => hsolid.noUnion covered ⟨bare, hbare, hcovered, hne⟩
    cases bare with
    | param name => exact hweighs.elim
    | pointer target => exact absurd hbare (hsolid.noPointer target)
    | primitive _ | array _ _ | slice _ => simp [show narrow = _ from hweighs]
    | union alternatives =>
      obtain ⟨covered, hcovered, rfl⟩ := hweighs
      simp [hnone covered hcovered]
    | named name qualifier arguments origin =>
      obtain ⟨parts, covered, hparts, hcovered, rfl⟩ := hweighs
      rw [hnone covered hcovered]
      intro hzero
      have hlength : parts.length = 0 := by
        rw [← hparts.length_eq]
        simp only [Weight.complexity_add] at hzero
        omega
      simp [eq_nil_of_length_eq_zero hlength]

theorem TypeTable.Weighs.sharper (hnarrow : base.Weighs fuel converts source narrow)
    (hwide : base.Weighs fuel converts dest wide) (hsolid : base.Solid source)
    {accepted : List TypeExpr} (hlists : base.Lists dest accepted) : narrow.Sharper wide := by
  have hfew := hnarrow.of_solid hsolid
  rw [hwide.of_lists hbase hlists]
  constructor <;> dsimp only <;> omega

variable (hclosed : base.Closed) (hfits : Fits base .lenient source dest)
  (hnarrow : base.Weighs fuel true source narrow) (hwide : base.Weighs fuel true dest wide)

include hclosed hfits hnarrow hwide

/-- What goes into a primitive type but not back converts less. -/
theorem conversions_lt_of_primitive (hback : ¬ Fits base .lenient dest source) {name : String}
    (hprimitive : base.Unaliases dest (.primitive name)) :
    narrow.conversions < wide.conversions := by
  cases fuel with
  | zero => exact hnarrow.elim
  | succ fuel =>
    obtain ⟨_, bare, hbare, hnarrow⟩ := hnarrow
    obtain ⟨_, bareDest, hbareDest, hwide⟩ := hwide
    obtain rfl := hbareDest.unique hprimitive
    obtain ⟨hrule, _⟩ := hfits.unrefused hbase hclosed bare hbare _ hbareDest
    have hother : bare ≠ .primitive name := by
      rintro rfl
      exact hback (.of_step ⟨_, hbareDest, _, hbare, fitsBare_primitive name, nofun⟩)
    rcases hrule with ⟨htext, hsource⟩ | ⟨_, rfl⟩
    · have hname : name = "String" ∨ name = "RawString" := by
        simpa [isTextName] using htext
      have hcost : 0 < conversionCost name := by
        rcases hname with rfl | rfl <;> decide
      rw [show wide = _ from hwide]
      cases bare with
      | primitive first =>
        have hfirst : isTextName first ∧ (first = "String" ∨ name = "RawString") := by
          simpa [IsText] using hsource
        have hkind : first = "String" ∨ first = "RawString" := by
          simpa [isTextName] using hfirst.1
        have hne : first ≠ name := fun hsame => hother (by rw [hsame])
        -- Text of one kind converts to raw text, and not back.
        obtain ⟨rfl, rfl⟩ : first = "String" ∧ name = "RawString" := by grind
        rw [show narrow = _ from hnarrow]
        decide
      | slice element =>
        rw [show narrow = _ from hnarrow]
        exact hcost
      | pointer target =>
        rw [TypeTable.Weighs.of_array hnarrow hsource]
        exact hcost
      | _ => exact hsource.elim
    · exact absurd rfl hother

theorem TypeTable.Widens.inside (h : base.Widens source dest) (hsource : source.plain) :
    narrow.Inside wide := by
  refine ⟨hnarrow.within hbase hclosed hfits hwide, fun hcomplexity hunions => ?_⟩
  cases h with
  | same => rw [hnarrow.unique hwide]
  | unionless hfree =>
    have hnone := hfree fuel wide hwide
    have hcases := hnarrow.regular.1.cases (hunions.trans hnone)
    omega
  | solid hsolid hlists =>
    have hless := (hnarrow.sharper hbase hwide hsolid hlists).unions hcomplexity
    omega
  | subset hoffers haccepts hsubset =>
    rw [hnarrow.of_lists hbase hoffers, hwide.of_lists hbase haccepts]
    exact ((hoffers.nodup hbase hsource).subperm hsubset).length_le

theorem TypeTable.StrictlyWidens.below (h : base.StrictlyWidens source dest)
    (hsource : source.Ground) (hdest : dest.Ground) (hinside : narrow.Inside wide) :
    narrow.Below wide := by
  cases h with
  | primitive hprimitive hrefused =>
    have hback : ¬ Fits base .lenient dest source := fun hfits' => by
      cases (hrefused.fits_iff hbase hclosed hdest hsource).2 hfits'
    exact ⟨hinside, fun _ _ => Or.inr
      (conversions_lt_of_primitive hbase hclosed hfits hnarrow hwide hback hprimitive)⟩
  | solid hsolid hlists => exact (hnarrow.sharper hbase hwide hsolid hlists).below hinside
  | subset hoffers haccepts hsubset hmore =>
    refine ⟨hinside, fun _ _ => Or.inl ?_⟩
    rw [hnarrow.of_lists hbase hoffers, hwide.of_lists hbase haccepts]
    have hsubperm := (hoffers.nodup hbase hsource.plain).subperm hsubset
    by_contra hfew
    exact hmore (hsubperm.perm_of_length_le (Nat.le_of_not_lt hfew)).symm.subset

end Places

/-! ## What the measures say -/

/-- How measures compare whose weights lie within each other. -/
theorem Specificity.compare_of_within {left right : Specificity}
    (hgeneric : left.generic = right.generic)
    (hparams : left.weight.paramUses = right.weight.paramUses)
    (h : left.weight.Within right.weight) :
    left.compare right =
      if right.weight.complexity = left.weight.complexity ∧
          left.weight.unions = right.weight.unions ∧ right.weight.cases < left.weight.cases then .gt
      else if left.weight = right.weight then .eq else .lt := by
  have hflag : Ord.compare left.generic right.generic = .eq := by simp [hgeneric]
  have huses : Ord.compare left.weight.paramUses right.weight.paramUses = .eq := by simp [hparams]
  rw [Specificity.compare, hflag, huses, Ordering.eq_then, Ordering.eq_then]
  rcases Nat.lt_or_eq_of_le h.complexity with hfewer | hsame
  · rw [Nat.compare_eq_lt.2 hfewer, if_neg (by omega),
      if_neg fun heq => hfewer.ne' (congrArg Weight.complexity heq)]
    rfl
  rw [Nat.compare_eq_eq.2 hsame, Ordering.eq_then]
  rcases Nat.lt_or_eq_of_le (h.unions hsame) with hfewer | hunions
  · rw [Nat.compare_eq_lt.2 hfewer, if_neg (by omega),
      if_neg fun heq => hfewer.ne (congrArg Weight.unions heq)]
    rfl
  rw [Nat.compare_eq_eq.2 hunions, Ordering.eq_then]
  rcases Nat.lt_trichotomy left.weight.cases right.weight.cases with hfewer | hcases | hmore
  · rw [Nat.compare_eq_lt.2 hfewer, if_neg (by omega),
      if_neg fun heq => hfewer.ne (congrArg Weight.cases heq)]
    rfl
  · rw [Nat.compare_eq_eq.2 hcases, Ordering.eq_then, if_neg (by omega)]
    rcases Nat.lt_or_eq_of_le (h.conversions hsame hunions) with hfewer | hconversions
    · rw [Nat.compare_eq_lt.2 hfewer, if_neg fun heq => hfewer.ne (congrArg Weight.conversions heq)]
    · rw [Nat.compare_eq_eq.2 hconversions,
        if_pos (Weight.ext hparams hsame.symm hunions hcases hconversions)]
  · rw [Nat.compare_eq_gt.2 hmore, if_pos ⟨hsame, hunions, hmore⟩]
    rfl

end Accord
