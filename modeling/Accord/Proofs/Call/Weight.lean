import Accord.Call.Specificity
import Accord.Proofs.Assign.Decide
import Accord.Proofs.Assign.Transitive
import Mathlib.Algebra.BigOperators.Group.List.Basic

/-!
# What the types of parameters weigh

A type is weighed along its aliases, pointers and type arguments.  `TypeTable.Weighs` relates
a ground type to its weight, apart from what the table holds besides its definitions
(`weigh_yields`).

A type that fits another is not weighed as the wider one, as far as type arguments, unions
and conversions go (`Weighs.within`): it carries at least as many type arguments, with as
many of these at most as many unions, and with as many unions it converts no further.  So
types that are strictly compatible agree in type arguments and unions.

The alternatives of unions are missing from this comparison.  A union that fits another may
well have more of them, if several are accepted as one or if they stand behind a pointer.
-/

namespace Accord

open Query List TypeExpr TypeTable

variable {weighs part : TypeExpr → Weight → Prop} {types covered : List TypeExpr}
  {type source dest : TypeExpr} {parts : List Weight} {base : TypeTable} {fuel : Nat}
  {converts : Bool} {weight narrow wide left right : Weight} {name : String}

/-! ## Sums of weights -/

attribute [ext] Weight

namespace Weight

@[simp] theorem paramUses_add (left right : Weight) :
    (left + right).paramUses = left.paramUses + right.paramUses := rfl

@[simp] theorem complexity_add (left right : Weight) :
    (left + right).complexity = left.complexity + right.complexity := rfl

@[simp] theorem unions_add (left right : Weight) :
    (left + right).unions = left.unions + right.unions := rfl

@[simp] theorem cases_add (left right : Weight) :
    (left + right).cases = left.cases + right.cases := rfl

@[simp] theorem conversions_add (left right : Weight) :
    (left + right).conversions = left.conversions + right.conversions := rfl

instance : Zero Weight := ⟨{}⟩

@[simp] theorem paramUses_zero : (0 : Weight).paramUses = 0 := rfl

@[simp] theorem complexity_zero : (0 : Weight).complexity = 0 := rfl

@[simp] theorem unions_zero : (0 : Weight).unions = 0 := rfl

@[simp] theorem cases_zero : (0 : Weight).cases = 0 := rfl

@[simp] theorem conversions_zero : (0 : Weight).conversions = 0 := rfl

instance : AddMonoid Weight where
  add_assoc := fun _ _ _ => by ext <;> simp [Nat.add_assoc]
  zero_add := fun _ => by ext <;> simp
  add_zero := fun _ => by ext <;> simp
  nsmul := nsmulRec

end Weight

/-- Adding up the weights of several types from the left gives their sum. -/
theorem foldlM_weigh_yields {inv : TypeTable → Prop} {query : TypeExpr → TypeQuery Weight}
    (h : ∀ type ∈ types, Yields inv (weighs type) (query type)) (start : Weight) :
    Yields inv (fun total => ∃ parts, Forall₂ weighs types parts ∧ total = start + parts.sum)
      (types.foldlM (fun weight type => do return weight + (← query type)) start) := by
  induction types generalizing start with
  | nil => exact .pure ⟨[], .nil, by simp⟩
  | cons type rest ih =>
    obtain ⟨htype, hrest⟩ := forall_mem_cons.1 h
    rw [foldlM_cons]
    refine .bind (htype.bind fun part hpart => .pure ⟨part, hpart, rfl⟩)
      fun sofar (hsofar : ∃ part, weighs type part ∧ sofar = start + part) => ?_
    obtain ⟨part, hpart, rfl⟩ := hsofar
    refine (ih hrest (start + part)).mono ?_
    rintro total ⟨parts, hparts, rfl⟩
    exact ⟨part :: parts, .cons hpart hparts, by rw [sum_cons, add_assoc]⟩

/-! ## The relation -/

/-- The weight of a union with the given alternatives; there are none if it is no union. -/
def unionWeight (covered : List TypeExpr) : Weight :=
  if covered.isEmpty then {} else { unions := 1, cases := covered.length }

/-- The weight of a ground type that is no alias, in terms of the weights of its parts. -/
def WeighsBare (base : TypeTable) (part : TypeExpr → Weight → Prop) (converts : Bool)
    (type : TypeExpr) (weight : Weight) : Prop :=
  match type with
  | .param _ => False
  | .primitive name => weight = { conversions := if converts then conversionCost name else 0 }
  | .named _ _ arguments _ => ∃ parts covered, Forall₂ part arguments parts ∧
      base.Flattens type covered ∧
      weight = { complexity := arguments.length } + parts.sum + unionWeight covered
  | .union _ => ∃ covered, base.Flattens type covered ∧ weight = unionWeight covered
  | .pointer target => part target weight
  | .array _ _ => weight = 0
  | .slice _ => weight = 0

/-- The weight of a ground type, found with the given fuel. -/
def TypeTable.Weighs (base : TypeTable) : Nat → Bool → TypeExpr → Weight → Prop
  | 0, _, _, _ => False
  | fuel + 1, converts, type, weight => type.Ground ∧ ∃ bare, base.Unaliases type bare ∧
      WeighsBare base (base.Weighs fuel false) converts bare weight

mutual

theorem TypeExpr.paramCount_of_closed : (type : TypeExpr) → type.isGeneric = false →
    type.paramCount = 0
  | .primitive _, _ => rfl
  | .param _, h => nomatch h
  | .named _ _ arguments _, h => paramCountAll_of_closed arguments h
  | .pointer part, h | .array _ part, h | .slice part, h => paramCount_of_closed part h
  | .union alternatives, h => paramCountAll_of_closed alternatives h

theorem TypeExpr.paramCountAll_of_closed : (types : List TypeExpr) → anyGeneric types = false →
    paramCountAll types = 0
  | [], _ => rfl
  | type :: rest, h => by
    rw [anyGeneric, Bool.or_eq_false_iff] at h
    rw [paramCountAll, paramCount_of_closed type h.1, paramCountAll_of_closed rest h.2]

end

section Weigh

variable (hbase : base.Variant base) (hclosed : base.Closed)

include hbase hclosed

theorem weighUnion_yields (fuel : Nat) (h : type.Ground) :
    Yields base.Variant (fun weight => ∃ covered, base.Flattens type covered ∧
      weight = unionWeight covered) (weighUnion fuel type) :=
  (alternatives_yields hbase hclosed fuel h).bind fun covered hcovered =>
    .pure ⟨covered, hcovered.1, rfl⟩

theorem weigh_yields (fuel : Nat) (converts : Bool) (h : type.Ground) :
    Yields base.Variant (base.Weighs fuel converts type) (weigh fuel converts type) := by
  induction fuel generalizing converts type with
  | zero => exact .throw _
  | succ fuel ih =>
    unfold weigh
    refine (unalias_yields hbase hclosed fuel h).bind fun bare hbare => ?_
    suffices hweighs : Yields base.Variant
        (WeighsBare base (base.Weighs fuel false) converts bare) _ from
      hweighs.mono fun weight hweight => ⟨h, bare, hbare.1, hweight⟩
    have hground := hbare.2
    cases bare with
    | param name => cases hground.closed
    | primitive name => exact .pure rfl
    | pointer target => exact ih false hground.target
    | array length element => exact .pure rfl
    | slice element => exact .pure rfl
    | union alternatives =>
      refine (weighUnion_yields hbase hclosed fuel hground).bind ?_
      rintro own ⟨covered, hcovered, rfl⟩
      refine .pure ⟨covered, hcovered, ?_⟩
      rw [paramCountAll_of_closed alternatives hground.closed]
      exact zero_add _
    | named name qualifier arguments origin =>
      let ref : TypeRef := ⟨name, qualifier, arguments, origin⟩
      have harguments : ∀ type ∈ arguments, type.Ground := @TypeExpr.Ground.arguments ref hground
      refine .bind (foldlM_weigh_yields (fun type hmem => ih false (harguments type hmem)) {})
        fun inner hinner => ?_
      obtain ⟨parts, hparts, rfl⟩ := hinner
      refine (weighUnion_yields hbase hclosed fuel hground).bind ?_
      rintro own ⟨covered, hcovered, rfl⟩
      refine .pure ⟨parts, covered, hparts, hcovered, ?_⟩
      rw [show ({} : Weight) + parts.sum = parts.sum from zero_add _]

theorem specificity_yields (fuel : Nat) {function : FunctionDef}
    (h : ∀ type ∈ function.parameterTypes, type.Ground) :
    Yields base.Variant (fun specificity => specificity.generic = function.isGeneric ∧
      ∃ parts, Forall₂ (base.Weighs fuel true) function.parameterTypes parts ∧
        specificity.weight = parts.sum)
      (function.specificity fuel) := by
  refine .bind (foldlM_weigh_yields
    (fun type hmem => weigh_yields hbase hclosed fuel true (h type hmem)) {}) ?_
  rintro weight ⟨parts, hparts, rfl⟩
  exact .pure ⟨rfl, parts, hparts, zero_add _⟩

end Weigh

/-! ## Numbers that hang together -/

@[simp] theorem unionWeight_nil : unionWeight [] = 0 :=
  rfl

theorem unionWeight_of_ne_nil (h : covered ≠ []) :
    unionWeight covered = { unions := 1, cases := covered.length } := by
  simp [unionWeight, h]

/-- What the numbers in the weight of a ground type have to do with each other. -/
structure Weight.Regular (weight : Weight) : Prop where
  paramUses : weight.paramUses = 0
  unions : weight.complexity = 0 → weight.unions ≤ 1
  cases : weight.unions = 0 → weight.cases = 0
  conversions : weight.unions ≠ 0 → weight.conversions = 0

theorem exists_weighs_of_mem (h : Forall₂ weighs types parts) {part : Weight}
    (hmem : part ∈ parts) : ∃ type, weighs type part :=
  (exists_of_mem_left h.flip hmem).imp fun _ => And.right

/-- Weights of types that are related one by one. -/
theorem forall₂_weighs {related : TypeExpr → TypeExpr → Prop} {compared : Weight → Weight → Prop}
      (h : ∀ source dest narrow wide, related source dest → weighs source narrow → weighs dest
      wide → compared narrow wide) {sources dests : List TypeExpr} {narrows wides : List Weight}
    (hrelated : Forall₂ related sources dests) (hnarrows : Forall₂ weighs sources narrows)
    (hwides : Forall₂ weighs dests wides) : Forall₂ compared narrows wides := by
  induction hrelated generalizing narrows wides with
  | nil =>
    cases hnarrows
    cases hwides
    exact .nil
  | cons hpair _ ih =>
    cases hnarrows with
    | cons hnarrow hnarrows =>
      cases hwides with
      | cons hwide hwides => exact .cons (h _ _ _ _ hpair hnarrow hwide) (ih hnarrows hwides)

/-- A type has one weight. -/
theorem TypeTable.Weighs.unique {weight' : Weight} (h : base.Weighs fuel converts type weight)
    (h' : base.Weighs fuel converts type weight') : weight = weight' := by
  induction fuel generalizing converts type weight weight' with
  | zero => exact h.elim
  | succ fuel ih =>
    obtain ⟨_, bare, hbare, hweighs⟩ := h
    obtain ⟨_, bare', hbare', hweighs'⟩ := h'
    obtain rfl := hbare.unique hbare'
    cases bare with
    | param name => exact hweighs.elim
    | primitive _ | array _ _ | slice _ => exact hweighs.trans hweighs'.symm
    | pointer target => exact ih hweighs hweighs'
    | union alternatives =>
      obtain ⟨covered, hcovered, rfl⟩ := hweighs
      obtain ⟨covered', hcovered', rfl⟩ := hweighs'
      rw [hcovered.unique hcovered']
    | named name qualifier arguments origin =>
      obtain ⟨parts, covered, hparts, hcovered, rfl⟩ := hweighs
      obtain ⟨parts', covered', hparts', hcovered', rfl⟩ := hweighs'
      have hsame : Forall₂ Eq parts parts' := by
        refine forall₂_weighs (fun left right part part' hsame hpart hpart' => ?_)
          (forall₂_same.2 fun _ _ => rfl) hparts hparts'
        obtain rfl : left = right := hsame
        exact ih hpart hpart'
      rw [forall₂_eq_eq_eq] at hsame
      rw [hsame, hcovered.unique hcovered']

theorem sum_regular (hparts : Forall₂ weighs types parts)
    (h : ∀ {type part}, weighs type part → part.Regular) :
    parts.sum.paramUses = 0 ∧ (parts.sum.unions = 0 → parts.sum.cases = 0) := by
  refine sum_induction (fun weight : Weight => weight.paramUses = 0 ∧
    (weight.unions = 0 → weight.cases = 0)) ?_ (by simp) fun part hmem => ?_
  · intro left right hleft hright
    simp only [Weight.paramUses_add, Weight.unions_add, Weight.cases_add]
    omega
  · obtain ⟨_, hpart⟩ := exists_weighs_of_mem hparts hmem
    exact ⟨(h hpart).paramUses, (h hpart).cases⟩

theorem sum_conversions (hparts : Forall₂ weighs types parts)
    (h : ∀ {type part}, weighs type part → part.conversions = 0) : parts.sum.conversions = 0 := by
  refine sum_induction (fun weight : Weight => weight.conversions = 0) ?_ (by simp)
    fun part hmem => ?_
  · intro left right hleft hright
    rw [Weight.conversions_add, hleft, hright]
  · obtain ⟨_, hpart⟩ := exists_weighs_of_mem hparts hmem
    exact h hpart

theorem unionWeight_regular (covered : List TypeExpr) :
    (unionWeight covered).Regular ∧ (unionWeight covered).complexity = 0 ∧
      (unionWeight covered).conversions = 0 := by
  by_cases h : covered = []
  · subst h
    exact ⟨⟨rfl, by simp, by simp, by simp⟩, rfl, rfl⟩
  · rw [unionWeight_of_ne_nil h]
    exact ⟨⟨rfl, by simp, by simp, by simp⟩, rfl, rfl⟩

theorem TypeTable.Weighs.regular (h : base.Weighs fuel converts type weight) :
    weight.Regular ∧ (converts = false → weight.conversions = 0) := by
  induction fuel generalizing converts type weight with
  | zero => exact h.elim
  | succ fuel ih =>
    obtain ⟨_, bare, _, hweighs⟩ := h
    cases bare with
    | param name => exact hweighs.elim
    | primitive name =>
      rw [hweighs]
      refine ⟨⟨rfl, by simp, by simp, by simp⟩, ?_⟩
      rintro rfl
      rfl
    | array _ _ | slice _ =>
      rw [hweighs]
      exact ⟨⟨rfl, by simp, by simp, by simp⟩, by simp⟩
    | pointer target =>
      obtain ⟨hregular, hconversions⟩ := ih hweighs
      exact ⟨hregular, fun _ => hconversions rfl⟩
    | union alternatives =>
      obtain ⟨covered, _, rfl⟩ := hweighs
      obtain ⟨hregular, _, hconversions⟩ := unionWeight_regular covered
      exact ⟨hregular, fun _ => hconversions⟩
    | named name qualifier arguments origin =>
      obtain ⟨parts, covered, hparts, _, rfl⟩ := hweighs
      obtain ⟨⟨hparams, hunions, hcases, _⟩, _, hconversions⟩ := unionWeight_regular covered
      obtain ⟨hinnerParams, hinnerCases⟩ := sum_regular hparts fun hpart => (ih hpart).1
      have hinnerConversions := sum_conversions hparts fun hpart => (ih hpart).2 rfl
      have hnone : arguments.length = 0 → parts.sum.unions = 0 := by
        intro hlength
        rw [hparts.length_eq] at hlength
        rw [eq_nil_of_length_eq_zero hlength]
        rfl
      refine ⟨⟨?_, ?_, ?_, ?_⟩, ?_⟩ <;>
        simp only [Weight.paramUses_add, Weight.complexity_add, Weight.unions_add,
          Weight.cases_add, Weight.conversions_add] <;> omega

/-! ## Weights of types that fit -/

/-- The first weight counts for no more than the second, alternatives of unions left
aside. -/
structure Weight.Within (narrow wide : Weight) : Prop where
  complexity : wide.complexity ≤ narrow.complexity
  unions : wide.complexity = narrow.complexity → narrow.unions ≤ wide.unions
  conversions : wide.complexity = narrow.complexity → narrow.unions = wide.unions →
    narrow.conversions ≤ wide.conversions

theorem Weight.Within.refl (weight : Weight) : weight.Within weight :=
  ⟨Nat.le_refl _, fun _ => Nat.le_refl _, fun _ _ => Nat.le_refl _⟩

theorem Weight.Within.add {narrow' wide' : Weight} (h : narrow.Within wide)
    (h' : narrow'.Within wide') : (narrow + narrow').Within (wide + wide') := by
  obtain ⟨hcomplexity, hunions, hconversions⟩ := h
  obtain ⟨hcomplexity', hunions', hconversions'⟩ := h'
  constructor <;> simp only [complexity_add, unions_add, conversions_add] <;> omega

/-- Everything lies within the weight of a union. -/
theorem Weight.Regular.within (h : narrow.Regular) (count : Nat) :
    narrow.Within { unions := 1, cases := count } := by
  obtain ⟨_, hunions, _, hconversions⟩ := h
  constructor <;> dsimp only <;> omega

section Fitting

/-- A type that is an array behind its aliases weighs nothing. -/
theorem TypeTable.Weighs.of_array (h : base.Weighs fuel converts type weight)
    {holds : UInt64 → TypeExpr → Prop}
    (harray : (Reading.all base).bare type fun bare =>
      ∃ length element, bare = .array length element ∧ holds length element) : weight = 0 := by
  cases fuel with
  | zero => exact h.elim
  | succ fuel =>
    obtain ⟨_, bare, hbare, hweighs⟩ := h
    obtain ⟨length, element, rfl, _⟩ := harray bare hbare
    exact hweighs

theorem conversionCost_le {dest : String} (hdest : isTextName dest)
    (h : name = "String" ∨ dest = "RawString") : conversionCost name ≤ conversionCost dest := by
  have hname : dest = "String" ∨ dest = "RawString" := by
    simpa [isTextName] using hdest
  rcases h with rfl | rfl
  · rcases hname with rfl | rfl
    · exact Nat.le_refl _
    · decide
  · unfold conversionCost
    split
    · exact Nat.le_refl _
    · split <;> decide

/-- What may be used as text weighs no more than the text. -/
theorem within_of_isText (htext : isTextName name) (h : IsText (.all base) source name)
    (hnarrow : WeighsBare base (base.Weighs fuel false) converts source narrow) :
    narrow.Within { conversions := if converts then conversionCost name else 0 } := by
  cases source with
  | primitive first =>
    have hfirst : isTextName first ∧ (first = "String" ∨ name = "RawString") := by
      simpa [IsText] using h
    have hcost := conversionCost_le htext hfirst.2
    rw [hnarrow]
    refine ⟨Nat.le_refl _, fun _ => Nat.le_refl _, fun _ _ => ?_⟩
    cases converts with
    | true => exact hcost
    | false => exact Nat.le_refl _
  | slice element =>
    rw [hnarrow]
    exact ⟨Nat.le_refl _, fun _ => Nat.le_refl _, fun _ _ => Nat.zero_le _⟩
  | pointer target =>
    rw [Weighs.of_array hnarrow h]
    exact ⟨Nat.le_refl _, fun _ => Nat.le_refl _, fun _ _ => Nat.zero_le _⟩
  | _ => exact h.elim

/-- Type arguments and unions are the same in number. -/
structure Weight.Level (left right : Weight) : Prop where
  complexity : left.complexity = right.complexity
  unions : left.unions = right.unions

theorem Weight.Within.level (h : left.Within right) (h' : right.Within left) :
    left.Level right := by
  have hcomplexity := Nat.le_antisymm h'.complexity h.complexity
  exact ⟨hcomplexity, Nat.le_antisymm (h.unions hcomplexity.symm) (h'.unions hcomplexity)⟩

theorem Weight.Level.within (h : narrow.Level wide) (hconversions : narrow.conversions = 0) :
    narrow.Within wide := by
  obtain ⟨hcomplexity, hunions⟩ := h
  constructor <;> omega

theorem Weight.Level.add {left' right' : Weight} (h : left.Level right) (h' : left'.Level right') :
    (left + left').Level (right + right') := by
  constructor
  · rw [complexity_add, complexity_add, h.complexity, h'.complexity]
  · rw [unions_add, unions_add, h.unions, h'.unions]

variable (hbase : base.Variant base)

include hbase

/-- A type with alternatives weighs as a union of these. -/
theorem weighsBare_of_flattens (hplain : type.plain) (hbare : base.Unaliases type type)
    (h : WeighsBare base part converts type weight) (hcovered : base.Flattens type covered)
    (hne : covered ≠ []) : weight = { unions := 1, cases := covered.length } := by
  rcases hcovered.shape hbase hplain hbare hne with ⟨_, rfl⟩ | ⟨ref, rfl, hnil⟩
  · obtain ⟨covered', hcovered', rfl⟩ := h
    rw [hcovered'.unique hcovered, unionWeight_of_ne_nil hne]
  · obtain ⟨parts, covered', hparts, hcovered', rfl⟩ := h
    rw [hnil] at hparts ⊢
    cases hparts
    rw [hcovered'.unique hcovered, unionWeight_of_ne_nil hne]
    exact zero_add _

/-- References to one definition have the same alternatives. -/
theorem SameDefinition.covered_eq (hsource : source.plain) (hdest : dest.plain)
    (hbare : base.Unaliases source source) (hbareDest : base.Unaliases dest dest)
    (h : SameDefinition base (Fits base) source dest) {covered' : List TypeExpr}
    (hcovered : base.Flattens source covered) (hcovered' : base.Flattens dest covered') :
    covered = covered' := by
  by_cases hne : covered = []
  · by_cases hne' : covered' = []
    · rw [hne, hne']
    · exact hcovered.unique (h.symm.flattens hbase hdest hsource hbareDest hcovered' hne')
  · exact (h.flattens hbase hsource hdest hbare hcovered hne).unique hcovered'

/-- References to one definition are level if their type arguments are. -/
theorem SameDefinition.level (hpart : ∀ {left right weight weight'}, Fits base .strict left right
      → part left weight → part right weight' → weight.Level weight')
    (hsource : source.plain) (hdest : dest.plain)
    (hbare : base.Unaliases source source) (hbareDest : base.Unaliases dest dest)
    (h : SameDefinition base (Fits base) source dest)
    (hnarrow : WeighsBare base part converts source narrow)
    (hwide : WeighsBare base part converts dest wide) : narrow.Level wide := by
  obtain ⟨left, right, rfl, rfl, _, _, harguments⟩ := id h
  obtain ⟨parts, covered, hparts, hcovered, rfl⟩ := hnarrow
  obtain ⟨parts', covered', hparts', hcovered', rfl⟩ := hwide
  obtain rfl := h.covered_eq hbase hsource hdest hbare hbareDest hcovered hcovered'
  have hlevels : Forall₂ Weight.Level parts parts' := by
    refine forall₂_weighs (fun left right weight weight' => ?_) harguments hparts hparts'
    exact hpart
  have hsum : parts.sum.Level parts'.sum :=
    rel_sum ⟨rfl, rfl⟩ (fun _ _ hfirst _ _ hsecond => hfirst.add hsecond) hlevels
  rw [harguments.length_eq]
  exact (Weight.Level.add ⟨rfl, rfl⟩ hsum).add ⟨rfl, rfl⟩

variable (hclosed : base.Closed)

include hclosed

/-- A type that fits another is not weighed as the wider of the two. -/
theorem TypeTable.Weighs.within (hfits : Fits base .lenient source dest)
    (hnarrow : base.Weighs fuel converts source narrow)
    (hwide : base.Weighs fuel converts dest wide) : narrow.Within wide := by
  induction fuel generalizing converts source dest narrow wide with
  | zero => exact hnarrow.elim
  | succ fuel ih =>
    have hregular := hnarrow.regular.1
    obtain ⟨hsource, bare, hbare, hnarrow⟩ := hnarrow
    obtain ⟨hdest, bareDest, hbareDest, hwide⟩ := hwide
    have hself := hbare.bare hbase hsource.plain
    have hselfDest := hbareDest.bare hbase hdest.plain
    have hground := hbare.inherits hbase (hclosed.hereditary hbase) hsource
    have hgroundDest := hbareDest.inherits hbase (hclosed.hereditary hbase) hdest
    obtain ⟨hrule, _⟩ := hfits.unrefused hbase hclosed bare hbare bareDest hbareDest
    -- What is strictly compatible fits both ways.
    have hlevel : ∀ {left right : TypeExpr} {weight weight' : Weight},
        Fits base .strict left right → base.Weighs fuel false left weight →
        base.Weighs fuel false right weight' → weight.Level weight' :=
      fun h hleft hright => (ih h.lenient hleft hright).level (ih h.symm.lenient hright hleft)
    cases bareDest with
    | param name => exact hrule.elim
    | primitive name =>
      rcases hrule with ⟨htext, hsource⟩ | ⟨_, rfl⟩
      · rw [hwide]
        exact within_of_isText htext hsource hnarrow
      · rw [hnarrow, hwide]
        exact .refl _
    | union alternatives =>
      obtain ⟨covered, hcovered, _⟩ := id hwide
      rw [weighsBare_of_flattens hbase hgroundDest.plain hselfDest hwide hcovered
        (hrule covered hcovered).1]
      exact hregular.within covered.length
    | named name qualifier arguments origin =>
      rcases hrule with hsame | hmember
      · have hsameLevel := hsame.level hbase hlevel hground.plain hgroundDest.plain hself hselfDest
          hnarrow hwide
        -- References weigh the same whether they are passed by value or not.
        have hreference : base.Weighs (fuel + 1) false source narrow := by
          obtain ⟨_, _, rfl, _⟩ := hsame
          exact ⟨hsource, _, hbare, hnarrow⟩
        exact hsameLevel.within (hreference.regular.2 rfl)
      · obtain ⟨_, covered, _, hcovered, _⟩ := id hwide
        rw [weighsBare_of_flattens hbase hgroundDest.plain hselfDest hwide hcovered
          (hmember covered hcovered).1]
        exact hregular.within covered.length
    | pointer target =>
      obtain ⟨pointed, rfl, hpointed⟩ := hrule
      exact (hlevel hpointed hnarrow hwide).within ((Weighs.regular hnarrow).2 rfl)
    | array length element =>
      obtain ⟨held, rfl, _⟩ := hrule
      rw [hnarrow, hwide]
      exact .refl _
    | slice element =>
      rw [hwide]
      rcases hrule with ⟨held, rfl, _⟩ | ⟨pointed, rfl, hpointed⟩
      · rw [hnarrow]
        exact .refl _
      · rw [Weighs.of_array hnarrow hpointed]
        exact .refl _

end Fitting

end Accord
