import Accord.Proofs.Assign.Decide
import Accord.Proofs.Assign.Transitive

/-!
# Assignability is a preorder

Assignments compose: if values of one type may go into slots of a second, and values of
the second into slots of a third, then an assignment of the first to the third is never
refused.  Nor is an assignment of a type to itself, unless it mentions a sum without
alternatives.

An assignment may still have no answer, where fuel runs out or an alias leads nowhere, so
the statement is about refusals.

Strict comparison is more: it is an equivalence relation, and types that are strictly
compatible are assignable (`strict_equivalence`).
-/

namespace Accord

open Query Relation

section Answers

variable {base : TypeTable} (hbase : base.Variant base) (hclosed : base.Closed) {fuel : Nat}
  {mode : Mode} {source dest : TypeExpr} (hsource : source.Ground) (hdest : dest.Ground)
  {table : TypeTable} (htable : base.Variant table)

include hbase hclosed hsource hdest htable

theorem fits_iff_of_answer {taken : Bool}
    (h : (assignable fuel mode source dest).answer table = .ok taken) :
    taken ↔ Fits base mode source dest := by
  obtain ⟨after, hrun⟩ := answer_eq_ok.1 h
  exact fits_iff_of_assignable hbase hclosed hsource hdest htable hrun

/-- What fits is not refused. -/
theorem answer_ne_false_of_fits (h : Fits base mode source dest) :
    (assignable fuel mode source dest).answer table ≠ .ok false := by
  intro hanswer
  have hfalse := (fits_iff_of_answer hbase hclosed hsource hdest htable hanswer).2 h
  cases hfalse

end Answers

/-- Assignability between ground types is transitive, and reflexive where no empty sum is
mentioned, in both modes and whatever instances the tables hold. -/
theorem assignable_preorder {base : TypeTable} (hreached : base.Reached) (hplain : base.Plain)
    (hgenerics : base.OnlyRecordsGeneric) (hclosed : base.Closed)
    {first second third : TypeExpr} (hfirst : first.Ground)
    (hsecond : second.Ground) (hthird : third.Ground) (mode : Mode) :
    (∀ {fuel fuel' fuel'' : Nat} {table table' table'' : TypeTable}, base.Variant table →
      base.Variant table' → base.Variant table'' →
      (assignable fuel mode first second).answer table = .ok true →
      (assignable fuel' mode second third).answer table' = .ok true →
      (assignable fuel'' mode first third).answer table'' ≠ .ok false) ∧
    ((∀ alternatives, ReflTransGen base.Mentions first (.union alternatives) →
        ¬ base.Flattens (.union alternatives) []) →
      ∀ {fuel : Nat} {table : TypeTable}, base.Variant table →
        (assignable fuel mode first first).answer table ≠ .ok false) := by
  have hbase := hreached.variant ⟨hplain, hgenerics⟩
  refine ⟨?_, ?_⟩
  · intro fuel fuel' fuel'' table table' table'' htable htable' htable'' hyes hyes'
    have hfits := (fits_iff_of_answer hbase hclosed hfirst hsecond htable hyes).1 rfl
    have hfits' := (fits_iff_of_answer hbase hclosed hsecond hthird htable' hyes').1 rfl
    have hboth := hfits.trans hbase hclosed hfirst.plain hsecond.plain hthird.plain hfits'
    exact answer_ne_false_of_fits hbase hclosed hfirst hthird htable'' hboth
  · intro hinhabited fuel table htable
    have htame : base.Tame first := ⟨hfirst, hinhabited⟩
    exact answer_ne_false_of_fits hbase hclosed hfirst hfirst htable (.of_alike htame.alike)

/-! A table with a named union of numbers. -/

/-- A number of either kind. -/
def numberDef : TypeDef :=
  { name := "Number", origin := "main.mer", body := .union [.int, .float] }

/-- The table that holds it. -/
def numberTable : TypeTable :=
  { project := mainFile
    stored := [("app::Number", numberDef)] }

/-- A reference to it. -/
def number : TypeRef :=
  { name := "Number", qualifier := none, arguments := [], origin := "main.mer" }

theorem numberTable_reached : numberTable.Reached := by
  have hstore : ({ project := numberTable.project } : TypeTable).store numberDef =
      .ok numberTable := rfl
  exact .stored (.empty _) hstore

theorem numberTable_stable : numberTable.Stable where
  files := by decide
  definitions := by decide
  generics := by decide

theorem numberTable_closed : numberTable.Closed := by
  unfold TypeTable.Closed
  decide

/-- The reference mentions its two alternatives, and these mention nothing. -/
theorem number_reaches_no_sum (alternatives : List TypeExpr) :
    ¬ ReflTransGen numberTable.Mentions number.toType (.union alternatives) := by
  have hprimitive : ∀ name, ¬ ReflTransGen numberTable.Mentions (.primitive name)
      (.union alternatives) := by
    intro name hreach
    rcases ReflTransGen.cases_head_iff.1 hreach with heq | ⟨type, hmentions, _⟩
    · cases heq
    · generalize hwhole : TypeExpr.primitive name = whole at hmentions
      cases hmentions <;> cases hwhole
  intro hreach
  rcases ReflTransGen.cases_head_iff.1 hreach with heq | ⟨type, hmentions, hrest⟩
  · cases heq
  · have htype : type = .int ∨ type = .float := by
      rcases hmentions.of_ref with hmem | ⟨_, _, _, hfound, hmem⟩
      · cases hmem
      · cases hfound
        simpa [numberDef, TypeBody.components] using hmem
    rcases htype with rfl | rfl
    · exact hprimitive "Int" hrest
    · exact hprimitive "Float" hrest

/-- A number is a float or an integer, and so it is an integer or a float. -/
theorem number_assignable_to_either :
    (assignable 5 .lenient number.toType (.union [.float, .int])).answer numberTable = .ok true ∧
      (assignable 5 .lenient (.union [.float, .int]) (.union [.int, .float])).answer numberTable =
        .ok true ∧
      (assignable 5 .lenient number.toType (.union [.int, .float])).answer numberTable ≠ .ok false ∧
      (assignable 5 .lenient number.toType number.toType).answer numberTable ≠ .ok false := by
  have hvariant := numberTable_reached.variant numberTable_stable
  have hfirst : (assignable 5 .lenient number.toType (.union [.float, .int])).answer numberTable =
      .ok true := rfl
  have hsecond : (assignable 5 .lenient (.union [.float, .int]) (.union [.int, .float])).answer
      numberTable = .ok true := rfl
  have hpreorder := @assignable_preorder numberTable numberTable_reached
    numberTable_stable.toPlain numberTable_stable.generics numberTable_closed number.toType
    (.union [.float, .int]) (.union [.int, .float])
    ⟨by decide, by decide⟩ ⟨by decide, by decide⟩ ⟨by decide, by decide⟩ .lenient
  refine ⟨hfirst, hsecond, hpreorder.1 hvariant hvariant hvariant hfirst hsecond,
    hpreorder.2 (fun alternatives hreach => ?_) hvariant⟩
  exact absurd hreach (number_reaches_no_sum alternatives)

/-! ## Strict comparison -/

/-- A comparison of the two types gives the answer, with some fuel and in some table that has
the definitions of the base. -/
def TypeTable.Judges (base : TypeTable) (mode : Mode) (source dest : TypeExpr) (answer : Bool) :
    Prop :=
  ∃ fuel table, base.Variant table ∧ (assignable fuel mode source dest).answer table = .ok answer

section Judges

variable {base : TypeTable} (hbase : base.Variant base) (hclosed : base.Closed) {mode : Mode}
  {source dest : TypeExpr} {answer : Bool} (hsource : source.Ground) (hdest : dest.Ground)

include hbase hclosed hsource hdest

theorem TypeTable.Judges.fits_iff (h : base.Judges mode source dest answer) :
    answer ↔ Fits base mode source dest := by
  obtain ⟨fuel, table, htable, hanswer⟩ := h
  exact fits_iff_of_answer hbase hclosed hsource hdest htable hanswer

theorem TypeTable.Judges.fits (h : base.Judges mode source dest true) :
    Fits base mode source dest :=
  (h.fits_iff hbase hclosed hsource hdest).1 rfl

end Judges

/-- Strict comparison of ground types is reflexive where no empty sum is mentioned, symmetric
and transitive, and what it accepts is assignable, whatever fuel and instances the answers were
found with. -/
theorem strict_equivalence {base : TypeTable} (hreached : base.Reached) (hplain : base.Plain)
    (hgenerics : base.OnlyRecordsGeneric) (hclosed : base.Closed)
    {first second third : TypeExpr} (hfirst : first.Ground)
    (hsecond : second.Ground) (hthird : third.Ground) :
    ((∀ alternatives, ReflTransGen base.Mentions first (.union alternatives) →
        ¬ base.Flattens (.union alternatives) []) →
      ∀ {answer}, base.Judges .strict first first answer → answer = true) ∧
    (∀ {forth back}, base.Judges .strict first second forth →
      base.Judges .strict second first back → forth = back) ∧
    (∀ {answer}, base.Judges .strict first second true → base.Judges .strict second third true →
      base.Judges .strict first third answer → answer = true) ∧
    (∀ {answer}, base.Judges .strict first second true →
      base.Judges .lenient first second answer → answer = true) := by
  have hbase := hreached.variant ⟨hplain, hgenerics⟩
  refine ⟨?_, ?_, ?_, ?_⟩
  · intro hinhabited answer hself
    have htame : base.Tame first := ⟨hfirst, hinhabited⟩
    exact (hself.fits_iff hbase hclosed hfirst hfirst).2 (.of_alike htame.alike)
  · intro forth back hforth hback
    have hforth := hforth.fits_iff hbase hclosed hfirst hsecond
    have hback := hback.fits_iff hbase hclosed hsecond hfirst
    have hsymm : Fits base .strict first second ↔ Fits base .strict second first :=
      ⟨Fits.symm, Fits.symm⟩
    exact Bool.eq_iff_iff.2 (hforth.trans (hsymm.trans hback.symm))
  · intro answer hyes hyes' hlast
    have hfits := hyes.fits hbase hclosed hfirst hsecond
    have hfits' := hyes'.fits hbase hclosed hsecond hthird
    have hboth := hfits.trans hbase hclosed hfirst.plain hsecond.plain hthird.plain hfits'
    exact (hlast.fits_iff hbase hclosed hfirst hthird).2 hboth
  · intro answer hyes hlenient
    have hfits := hyes.fits hbase hclosed hfirst hsecond
    exact (hlenient.fits_iff hbase hclosed hfirst hsecond).2 hfits.lenient

/-- Pointers to a number, to a float or an integer, and to an integer or a float are strictly
compatible, though none is written like another. -/
theorem number_pointers_equivalent :
    numberTable.Judges .strict (.pointer number.toType) (.pointer (.union [.float, .int])) true ∧
      numberTable.Judges .strict (.pointer (.union [.float, .int]))
        (.pointer (.union [.int, .float])) true ∧
      ∀ answer,
        (numberTable.Judges .strict (.pointer number.toType) (.pointer number.toType) answer →
          answer = true) ∧
        (numberTable.Judges .strict (.pointer (.union [.float, .int])) (.pointer number.toType)
          answer → answer = true) ∧
        (numberTable.Judges .strict (.pointer number.toType) (.pointer (.union [.int, .float]))
          answer → answer = true) ∧
        (numberTable.Judges .lenient (.pointer number.toType) (.pointer (.union [.float, .int]))
          answer → answer = true) := by
  have hvariant := numberTable_reached.variant numberTable_stable
  have hfirst : numberTable.Judges .strict (.pointer number.toType)
      (.pointer (.union [.float, .int])) true := ⟨6, numberTable, hvariant, by cbv⟩
  have hsecond : numberTable.Judges .strict (.pointer (.union [.float, .int]))
      (.pointer (.union [.int, .float])) true := ⟨6, numberTable, hvariant, by cbv⟩
  have hequivalence := @strict_equivalence numberTable numberTable_reached
    numberTable_stable.toPlain numberTable_stable.generics numberTable_closed
    (.pointer number.toType) (.pointer (.union [.float, .int])) (.pointer (.union [.int, .float]))
    ⟨by decide, by decide⟩ ⟨by decide, by decide⟩ ⟨by decide, by decide⟩
  obtain ⟨hself, hsymm, htrans, hlenient⟩ := hequivalence
  refine ⟨hfirst, hsecond, fun answer => ⟨hself fun alternatives hreach => ?_,
    fun hback => (hsymm hfirst hback).symm, htrans hfirst hsecond, hlenient hfirst⟩⟩
  -- The pointer mentions the reference and nothing else.
  rcases ReflTransGen.cases_head_iff.1 hreach with heq | ⟨type, hmentions, hrest⟩
  · cases heq
  · cases hmentions with
    | target => exact absurd hrest (number_reaches_no_sum alternatives)

end Accord
