import Accord.Proofs.Assign.Preorder
import Accord.Proofs.Types.Aliases

/-!
# Comparisons see through aliases

Replacing references to aliases by what the aliases stand for, at any depth of the source or of
the destination, does not change what a comparison answers (`assignable_of_unfolded`).

* `TypeTable.Unfolds` replaces one reference.
* `TypeTable.Convertible` relates types that differ in such replacements, made on either side.
  What stands behind convertible types has the same shape and convertible parts
  (`TypeTable.Aligned`).
* `TypeTable.FitsUpTo` relates what is convertible to types that fit.  Its pairs satisfy the
  rules of comparison, so they are not refused.

An alias may stand for itself.  Comparing it with itself has no answer then, although it fits
itself, and what is convertible to it need not fit.  This is why the argument is about refusals.
-/

namespace Accord

open Query TypeTable

/-! ## Types that differ in aliases -/

/-- One reference to an alias is replaced by the target of the alias, at some depth of a type
without sums and type arguments. -/
inductive TypeTable.Unfolds (base : TypeTable) : TypeExpr → TypeExpr → Prop where
  | here {type target : TypeExpr} (step : base.AliasOf type target) : Unfolds base type target
  | target {type other : TypeExpr} (inner : Unfolds base type other) :
      Unfolds base (.pointer type) (.pointer other)
  | held {length : UInt64} {type other : TypeExpr} (inner : Unfolds base type other) :
      Unfolds base (.array length type) (.array length other)
  | element {type other : TypeExpr} (inner : Unfolds base type other) :
      Unfolds base (.slice type) (.slice other)

/-- Two types become equal when aliases inside are replaced by their targets. -/
inductive TypeTable.Convertible (base : TypeTable) : TypeExpr → TypeExpr → Prop where
  | refl {type : TypeExpr} (plain : type.plain = true) : Convertible base type type
  | left {type target other : TypeExpr} (plain : type.plain = true)
      (step : base.AliasOf type target) (rest : Convertible base target other) :
      Convertible base type other
  | right {type target other : TypeExpr} (plain : type.plain = true)
      (step : base.AliasOf type target) (rest : Convertible base other target) :
      Convertible base other type
  | pointer {type other : TypeExpr} (targets : Convertible base type other) :
      Convertible base (.pointer type) (.pointer other)
  | array {length : UInt64} {type other : TypeExpr} (elements : Convertible base type other) :
      Convertible base (.array length type) (.array length other)
  | slice {type other : TypeExpr} (elements : Convertible base type other) :
      Convertible base (.slice type) (.slice other)

/-- Two types of one shape with convertible parts. -/
inductive TypeTable.Aligned (base : TypeTable) : TypeExpr → TypeExpr → Prop where
  | same {type : TypeExpr} (plain : type.plain = true) : Aligned base type type
  | pointer {type other : TypeExpr} (targets : base.Convertible type other) :
      Aligned base (.pointer type) (.pointer other)
  | array {length : UInt64} {type other : TypeExpr} (elements : base.Convertible type other) :
      Aligned base (.array length type) (.array length other)
  | slice {type other : TypeExpr} (elements : base.Convertible type other) :
      Aligned base (.slice type) (.slice other)

section Convertible

variable {base : TypeTable} {type other next : TypeExpr}

theorem TypeTable.Convertible.symm (h : base.Convertible type other) :
    base.Convertible other type := by
  induction h with
  | refl hplain => exact .refl hplain
  | left hplain halias _ ih => exact .right hplain halias ih
  | right hplain halias _ ih => exact .left hplain halias ih
  | pointer _ ih => exact .pointer ih
  | array _ ih => exact .array ih
  | slice _ ih => exact .slice ih

theorem TypeTable.Aligned.convertible (h : base.Aligned type other) :
    base.Convertible type other := by
  cases h with
  | same hplain => exact .refl hplain
  | pointer htargets => exact .pointer htargets
  | array helements => exact .array helements
  | slice helements => exact .slice helements

theorem TypeTable.Aligned.of_pointer (h : base.Aligned (.pointer type) other) :
    ∃ target, other = .pointer target ∧ base.Convertible type target := by
  cases h with
  | same hplain => exact ⟨type, rfl, .refl hplain⟩
  | pointer htargets => exact ⟨_, rfl, htargets⟩

theorem TypeTable.Aligned.of_array {length : UInt64} (h : base.Aligned (.array length type) other) :
    ∃ element, other = .array length element ∧ base.Convertible type element := by
  cases h with
  | same hplain => exact ⟨type, rfl, .refl hplain⟩
  | array helements => exact ⟨_, rfl, helements⟩

theorem TypeTable.Aligned.of_slice (h : base.Aligned (.slice type) other) :
    ∃ element, other = .slice element ∧ base.Convertible type element := by
  cases h with
  | same hplain => exact ⟨type, rfl, .refl hplain⟩
  | slice helements => exact ⟨_, rfl, helements⟩

theorem TypeTable.Convertible.plain (h : base.Convertible type other) :
    type.plain ∧ other.plain := by
  induction h with
  | refl hplain => exact ⟨hplain, hplain⟩
  | left hplain _ _ ih => exact ⟨hplain, ih.2⟩
  | right hplain _ _ ih => exact ⟨ih.1, hplain⟩
  | pointer _ ih => exact ih
  | array _ ih => exact ih
  | slice _ ih => exact ih

/-- Convertible types that are no aliases have one shape. -/
theorem TypeTable.Convertible.aligned (h : base.Convertible type other)
    (htype : ∀ target, ¬ base.AliasOf type target)
    (hother : ∀ target, ¬ base.AliasOf other target) : base.Aligned type other := by
  cases h with
  | refl hplain => exact .same hplain
  | left _ halias _ => exact absurd halias (htype _)
  | right _ halias _ => exact absurd halias (hother _)
  | pointer htargets => exact .pointer htargets
  | array helements => exact .array helements
  | slice helements => exact .slice helements

variable (hbase : base.Variant base)

include hbase

/-- What stands behind convertible types is convertible, and has one shape. -/
theorem TypeTable.Convertible.unaliases (h : base.Convertible type other) {bare : TypeExpr}
    (hbare : base.Unaliases type bare) :
    ∃ bare', base.Unaliases other bare' ∧ base.Convertible bare bare' := by
  induction h with
  | refl hplain =>
    exact ⟨bare, hbare, .refl (hbare.inherits hbase hbase.plain.hereditary hplain)⟩
  | left hplain halias _ ih => exact ih ((halias.unaliases_iff hbase hplain).1 hbare)
  | right hplain halias _ ih =>
    obtain ⟨bare', hbare', hparts⟩ := ih hbare
    exact ⟨bare', (halias.unaliases_iff hbase hplain).2 hbare', hparts⟩
  | pointer htargets =>
    obtain rfl := (Unaliases.self rfl).unique hbare
    exact ⟨_, .self rfl, .pointer htargets⟩
  | array helements =>
    obtain rfl := (Unaliases.self rfl).unique hbare
    exact ⟨_, .self rfl, .array helements⟩
  | slice helements =>
    obtain rfl := (Unaliases.self rfl).unique hbare
    exact ⟨_, .self rfl, .slice helements⟩

/-- The shapes behind convertible types are aligned. -/
theorem TypeTable.Convertible.exists_aligned (h : base.Convertible type other) {bare : TypeExpr}
    (hbare : base.Unaliases other bare) :
    ∃ bare', base.Unaliases type bare' ∧ base.Aligned bare' bare := by
  obtain ⟨htype, hother⟩ := h.plain
  obtain ⟨bare', hbare', hparts⟩ := h.symm.unaliases hbase hbare
  exact ⟨bare', hbare', hparts.symm.aligned (hbare'.last hbase htype) (hbare.last hbase hother)⟩

/-! ## Replacements -/

theorem TypeTable.Unfolds.inherits (h : base.Unfolds type other) (htype : type.Ground)
    (hclosed : base.Closed) : other.Ground := by
  induction h with
  | here halias => exact halias.component hbase htype.plain (hclosed.hereditary hbase) htype
  | target _ ih =>
    have htarget := ih htype.target
    exact ⟨htarget.plain, htarget.closed⟩
  | held _ ih =>
    have hheld := ih htype.held
    exact ⟨hheld.plain, hheld.closed⟩
  | element _ ih =>
    have helement := ih htype.element
    exact ⟨helement.plain, helement.closed⟩

theorem TypeTable.Unfolds.convertible (h : base.Unfolds type other) (hplain : type.plain) :
    base.Convertible type other := by
  induction h with
  | here halias => exact .left hplain halias (.refl (halias.plain hbase hplain))
  | target _ ih => exact .pointer (ih hplain)
  | held _ ih => exact .array (ih hplain)
  | element _ ih => exact .slice (ih hplain)

theorem TypeTable.Unfolds.trans_convertible (hstep : base.Unfolds type next)
    (hplain : type.plain) (h : base.Convertible next other) :
    base.Convertible type other := by
  induction h generalizing type with
  | refl _ => exact hstep.convertible hbase hplain
  | left hnext halias hrest _ =>
    obtain ⟨ref, rfl⟩ := halias.exists_ref
    cases hstep with
    | here hfirst => exact .left hplain hfirst (.left hnext halias hrest)
  | right hother halias _ ih => exact .right hother halias (ih hstep hplain)
  | pointer htargets ih =>
    cases hstep with
    | here hfirst => exact .left hplain hfirst (.pointer htargets)
    | target inner => exact .pointer (ih inner hplain)
  | array helements ih =>
    cases hstep with
    | here hfirst => exact .left hplain hfirst (.array helements)
    | held inner => exact .array (ih inner hplain)
  | slice helements ih =>
    cases hstep with
    | here hfirst => exact .left hplain hfirst (.slice helements)
    | element inner => exact .slice (ih inner hplain)

/-- Types in which aliases have been replaced are convertible to what they were. -/
theorem TypeTable.convertible_of_unfolds (h : Relation.ReflTransGen base.Unfolds type other)
    (htype : type.Ground) (hclosed : base.Closed) :
    base.Convertible type other ∧ other.Ground := by
  induction h using Relation.ReflTransGen.head_induction_on with
  | refl => exact ⟨.refl htype.plain, htype⟩
  | head hstep _ ih =>
    obtain ⟨hrest, hground⟩ := ih (hstep.inherits hbase htype hclosed)
    exact ⟨hstep.trans_convertible hbase htype.plain hrest, hground⟩

end Convertible

/-! ## Fitting up to aliases -/

/-- The types are convertible to others of which one fits the other. -/
def TypeTable.FitsUpTo (base : TypeTable) : Comparison := fun mode source dest =>
  ∃ source' dest', Fits base mode source' dest' ∧ base.Convertible source' source ∧
    base.Convertible dest' dest

section FitsUpTo

variable {base : TypeTable} (hbase : base.Variant base)

include hbase

variable {mode : Mode} {source source' dest dest' : TypeExpr}

omit hbase in
/-- A type that is no reference and no sum has no alternatives. -/
theorem TypeTable.flattens_nil {type : TypeExpr} (href : type.ref? = none)
    (hsum : ∀ alternatives, type ≠ .union alternatives) : base.Flattens type [] := by
  have hself : unalias 1 type base = .ok type base := by
    rw [unalias, unaliasFrom, href]
    rfl
  have hdirect : directAlternatives 1 type base = .ok none base := by
    rw [directAlternatives, bind_of_ok hself]
    cases type with
    | named name qualifier arguments origin => cases href
    | union alternatives => exact absurd rfl (hsum alternatives)
    | _ => rfl
  refine ⟨2, base, ?_⟩
  rw [alternatives, gather, bind_assoc, bind_of_ok hdirect]
  rfl

/-- What may be used as text may be so whatever aliases it is written with. -/
theorem IsText.of_aligned {name : String} (hsource : base.Aligned source' source)
    (h : IsText (.all base) source' name) : IsText (.all base) source name := by
  have hchar {type other : TypeExpr} (hparts : base.Convertible type other)
      (h : (Reading.all base).bare type (· = .primitive "Char")) :
      (Reading.all base).bare other (· = .primitive "Char") := by
    intro bare hbare
    obtain ⟨bare', hbare', haligned⟩ := hparts.exists_aligned hbase hbare
    obtain rfl := h bare' hbare'
    cases haligned
    rfl
  cases hsource with
  | same => exact h
  | array => exact h
  | slice helements => exact hchar helements h
  | pointer htargets =>
    intro bare hbare
    obtain ⟨bare', hbare', haligned⟩ := htargets.exists_aligned hbase hbare
    obtain ⟨length, element, rfl, helement⟩ := h bare' hbare'
    obtain ⟨held, rfl, helements⟩ := haligned.of_array
    exact ⟨length, held, rfl, hchar helements helement⟩

/-- The alternatives come from definitions, in which nothing is replaced. -/
theorem Member.of_aligned (hsource : base.Aligned source' source) (hdest : dest.plain)
    (h : Member (.all base) (Fits base) mode source' dest) :
    Member (.all base) base.FitsUpTo mode source dest := by
  have hgood := hbase.plain.hereditary
  intro accepted haccepted
  have hrefl {type : TypeExpr} (hmem : type ∈ accepted) : base.Convertible type type :=
    .refl (haccepted.inherits hbase hgood hdest type hmem)
  obtain ⟨hne, hcase⟩ := h accepted haccepted
  refine ⟨hne, ?_⟩
  rcases hcase with ⟨alternative, hmem, hfits⟩ | hoffered
  · exact Or.inl ⟨alternative, hmem, source', alternative, hfits, hsource.convertible, hrefl hmem⟩
  · cases hsource with
    | same hplain =>
      refine Or.inr fun offered hflattens => ?_
      obtain ⟨hne', hall⟩ := hoffered offered hflattens
      refine ⟨hne', fun part hpart => ?_⟩
      obtain ⟨alternative, hmem, hfits⟩ := hall part hpart
      have hpart' := hflattens.inherits hbase hgood hplain part hpart
      exact ⟨alternative, hmem, part, alternative, hfits, .refl hpart', hrefl hmem⟩
    | pointer | array | slice => exact absurd rfl (hoffered [] (flattens_nil rfl (by simp))).1

omit hbase in
theorem SameDefinition.of_aligned (hsource : base.Aligned source' source)
    (hdest : dest.plain) (h : SameDefinition base (Fits base) source' dest) :
    SameDefinition base base.FitsUpTo source dest := by
  obtain ⟨left, right, rfl, rfl, hname, hdeclared, harguments⟩ := h
  cases hsource with
  | same hplain =>
    have hleft := TypeExpr.plainAll_iff.1 (TypeRef.plain_iff.1 hplain).2.2
    have hright := TypeExpr.plainAll_iff.1 (TypeRef.plain_iff.1 hdest).2.2
    refine ⟨left, right, rfl, rfl, hname, hdeclared, ?_⟩
    refine List.forall₂_iff_get.2 ⟨harguments.length_eq, fun i hi hi' => ?_⟩
    exact ⟨_, _, List.Forall₂.get harguments hi hi', .refl (hleft _ (List.get_mem _ _)),
      .refl (hright _ (List.get_mem _ _))⟩

/-- Convertible types satisfy the rules if the types that they are convertible to do. -/
theorem FitsBare.of_aligned (hsource : base.Aligned source' source)
    (hdest : base.Aligned dest' dest)
    (h : FitsBare base (.all base) (Fits base) mode source' dest') :
    FitsBare base (.all base) base.FitsUpTo mode source dest := by
  cases dest' with
  | param name => exact h.elim
  | named name qualifier arguments origin =>
    cases hdest with
    | same hplain =>
      exact h.imp (SameDefinition.of_aligned hsource hplain) (Member.of_aligned hbase hsource hplain)
  | union alternatives =>
    cases hdest with
    | same hplain => exact Member.of_aligned hbase hsource hplain h
  | pointer target' =>
    obtain ⟨target, rfl, htargets⟩ := hdest.of_pointer
    obtain ⟨pointed', rfl, hfits⟩ := h
    obtain ⟨pointed, rfl, hpointed⟩ := hsource.of_pointer
    exact ⟨pointed, rfl, pointed', target', hfits, hpointed, htargets⟩
  | array length element' =>
    obtain ⟨element, rfl, helements⟩ := hdest.of_array
    obtain ⟨held', rfl, hfits⟩ := h
    obtain ⟨held, rfl, hheld⟩ := hsource.of_array
    exact ⟨held, rfl, held', element', hfits, hheld, helements⟩
  | slice element' =>
    obtain ⟨element, rfl, helements⟩ := hdest.of_slice
    rcases h with ⟨held', rfl, hfits⟩ | ⟨pointed', rfl, hpointed⟩
    · obtain ⟨held, rfl, hheld⟩ := hsource.of_slice
      exact Or.inl ⟨held, rfl, held', element', hfits, hheld, helements⟩
    · obtain ⟨pointed, rfl, htargets⟩ := hsource.of_pointer
      refine Or.inr ⟨pointed, rfl, fun bare hbare => ?_⟩
      obtain ⟨bare', hbare', haligned⟩ := htargets.exists_aligned hbase hbare
      obtain ⟨length, held', rfl, hfits⟩ := hpointed bare' hbare'
      obtain ⟨held, rfl, hheld⟩ := haligned.of_array
      exact ⟨length, held, rfl, held', element', hfits, hheld, helements⟩
  | primitive name =>
    cases hdest with
    | same =>
      rcases h with ⟨htext, hsourceText⟩ | ⟨htext, rfl⟩
      · exact Or.inl ⟨htext, hsourceText.of_aligned hbase hsource⟩
      · cases hsource with
        | same => exact Or.inr ⟨htext, rfl⟩

omit hbase in
theorem TypeTable.Aligned.samePrimitive (hsource : base.Aligned source' source)
    (hdest : base.Aligned dest' dest) (h : samePrimitive source' dest') :
    samePrimitive source dest := by
  cases hsource with
  | same =>
    cases hdest with
    | same => exact h
    | _ => cases source <;> rfl
  | _ => rfl

/-- Whatever is convertible to types that fit satisfies the rules, where the types behind it can
be found. -/
theorem TypeTable.FitsUpTo.fitsStep (hclosed : base.Closed) (h : base.FitsUpTo mode source dest) :
    FitsStep base (.all base) base.FitsUpTo mode source dest := by
  obtain ⟨source', dest', hfits, hsource, hdest⟩ := h
  intro bare hbare bareDest hbareDest
  obtain ⟨bare', hbare', haligned⟩ := hsource.exists_aligned hbase hbare
  obtain ⟨bareDest', hbareDest', halignedDest⟩ := hdest.exists_aligned hbase hbareDest
  obtain ⟨hforth, hboth⟩ := hfits.unrefused hbase hclosed bare' hbare' bareDest' hbareDest'
  refine ⟨hforth.of_aligned hbase haligned halignedDest, fun hmode => ?_⟩
  obtain ⟨hback, hprimitive⟩ := hboth hmode
  exact ⟨hback.of_aligned hbase halignedDest haligned, haligned.samePrimitive halignedDest hprimitive⟩

/-- What is convertible to types of which one was accepted is not refused. -/
theorem TypeTable.Judges.of_convertible (hclosed : base.Closed)
    (hground : source'.Ground ∧ dest'.Ground) (hground' : source.Ground ∧ dest.Ground)
    (hyes : base.Judges mode source' dest' true) (hsource : base.Convertible source' source)
    (hdest : base.Convertible dest' dest) {answer : Bool}
    (h : base.Judges mode source dest answer) : answer := by
  have hfits := hyes.fits hbase hclosed hground.1 hground.2
  have hupTo : base.FitsUpTo mode source dest := ⟨source', dest', hfits, hsource, hdest⟩
  obtain ⟨fuel, table, htable, hanswer⟩ := h
  obtain ⟨after, hrun⟩ := answer_eq_ok.1 hanswer
  obtain ⟨state, haccepts⟩ := accepts_of_assignable hrun
  have hseparates : (accepts fuel).Separates base (fun _ _ _ => True) base.FitsUpTo :=
    accepts_separates hbase hclosed (fun _ _ _ _ => trivial)
      (fun _ _ _ h => h.fitsStep hbase hclosed) fuel
  obtain ⟨_, _, hno⟩ := hseparates mode hground'.1 hground'.2 {} _ _ _ ⟨htable, rfl⟩ haccepts
  by_contra hne
  exact hno (by simpa using hne) hupTo

end FitsUpTo

/-- Replacing aliases by their targets in the source and in the destination, at any depth and
any number of them, does not change the answer of a comparison, in either mode and whatever fuel
and instances the answers were found with. -/
theorem assignable_of_unfolded {base : TypeTable} (hreached : base.Reached) (hplain : base.Plain)
    (hgenerics : base.OnlyRecordsGeneric) (hclosed : base.Closed)
    {source source' dest dest' : TypeExpr} (hsource : source.Ground)
    (hdest : dest.Ground) (hunfolds : Relation.ReflTransGen base.Unfolds source source')
    (hunfolds' : Relation.ReflTransGen base.Unfolds dest dest') {mode : Mode}
    {answer answer' : Bool} (h : base.Judges mode source dest answer)
    (h' : base.Judges mode source' dest' answer') : answer = answer' := by
  have hbase := hreached.variant ⟨hplain, hgenerics⟩
  obtain ⟨hleft, hsource'⟩ := convertible_of_unfolds hbase hunfolds hsource hclosed
  obtain ⟨hright, hdest'⟩ := convertible_of_unfolds hbase hunfolds' hdest hclosed
  rw [Bool.eq_iff_iff]
  constructor
  · rintro rfl
    exact h.of_convertible hbase hclosed ⟨hsource, hdest⟩ ⟨hsource', hdest'⟩ hleft hright h'
  · rintro rfl
    exact h'.of_convertible hbase hclosed ⟨hsource', hdest'⟩ ⟨hsource, hdest⟩ hleft.symm
      hright.symm h

/-- Letters are characters. -/
def letterDef : TypeDef := aliasOf "Letter" .char

def letter : TypeRef :=
  { name := "Letter", qualifier := none, arguments := [], origin := "main.mer" }

/-- Words are arrays of four letters. -/
def wordDef : TypeDef := aliasOf "Word" (.array 4 letter.toType)

def word : TypeRef :=
  { name := "Word", qualifier := none, arguments := [], origin := "main.mer" }

/-- The table that holds both. -/
def wordTable : TypeTable :=
  { project := mainFile
    stored := [("app::Letter", letterDef), ("app::Word", wordDef)] }

theorem wordTable_reached : wordTable.Reached := by
  have hstores : [letterDef, wordDef].foldlM TypeTable.store { project := wordTable.project } =
      .ok wordTable := rfl
  exact (stored_of_foldlM hstores (.empty _)).1

/-- A pointer to a word is accepted as a slice of letters, so a pointer to four characters is not
refused as a slice of characters. -/
theorem word_pointer_assignable :
    wordTable.Judges .lenient (.pointer word.toType) (.slice letter.toType) true ∧
      ∀ answer, wordTable.Judges .lenient (.pointer (.array 4 .char)) (.slice .char) answer →
        true = answer := by
  have hreached := wordTable_reached
  have hstable : wordTable.Stable := ⟨⟨by decide, by decide⟩, by decide⟩
  have hclosed : wordTable.Closed := by unfold Closed; decide
  have hletter : wordTable.AliasOf letter.toType .char := aliasOf_ref.2 ⟨letterDef, by cbv, rfl⟩
  have hword : wordTable.AliasOf word.toType (.array 4 letter.toType) :=
    aliasOf_ref.2 ⟨wordDef, by cbv, rfl⟩
  have hjudges : wordTable.Judges .lenient (.pointer word.toType) (.slice letter.toType) true :=
    ⟨8, wordTable, hreached.variant hstable, by cbv⟩
  refine ⟨hjudges, fun answer hanswer => ?_⟩
  exact assignable_of_unfolded hreached hstable.toPlain hstable.generics hclosed
    ⟨by decide, by decide⟩
    ⟨by decide, by decide⟩ (.tail (.single (.target (.here hword)))
      (.target (.held (.here hletter)))) (.single (.element (.here hletter))) hjudges hanswer

end Accord
