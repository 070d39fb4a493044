import Accord.Proofs.Types.Transparent

/-!
# Types that exist are those that have names

Verifying a type and naming it both look up every reference inside, but not in the same way:
naming looks up type arguments once before the reference that has them and once more after it,
and verifying asks for their names in between.  Each look-up may enter an instance that later ones
find.

Both come out alike all the same (`verify_agrees_with_naming`).  What is reported by either is the
first reference inside that is declared nowhere (`TypeTable.unknown?`), and that does not depend
on the instances.
-/

namespace Accord

open Query TypeTable

section Verify

variable {base : TypeTable} {good : TypeExpr → Prop}

mutual

/-- A type of the kind is verified unless a reference inside is unknown, and the first one is
reported. -/
theorem verify_exact (hgood : base.Confines good) : (type : TypeExpr) → good type →
    Guards (base.GrownBy good) (fun _ => base.unknown? type = none)
      (fun cause => base.unknown? type = some cause) (verify type)
  | .primitive _, _ => .pure rfl
  | .param _, _ => .pure rfl
  | .pointer target, h => verify_exact hgood target (hgood.target h)
  | .slice element, h => verify_exact hgood element (hgood.element h)
  | .array _ element, h => verify_exact hgood element (hgood.held h)
  | .union alternatives, h => verifyAll_exact hgood alternatives (hgood.alternatives h)
  | .named name qualifier arguments origin, h => by
    let ref : TypeRef := ⟨name, qualifier, arguments, origin⟩
    have href : good ref.toType := h
    have harguments := hgood.arguments href
    unfold verify
    refine ((verifyAll_exact hgood arguments harguments).relax fun _ hcause => ?_).bind
      fun _ hknown => ?_
    · rw [unknown?, hcause]
      rfl
    have hunknown : base.unknown? ref.toType = _ := unknown?_ref hknown
    -- The type arguments have been verified, so naming them is not refused.
    have hnames := (canonicalNames_exact hgood arguments harguments).relax fun cause hnone =>
      show base.unknown? ref.toType = some cause by
        rw [hknown] at hnone
        cases hnone.2
    have hretrieve : Guards (base.GrownBy good) (fun _ => base.unknown? ref.toType = none)
        (fun cause => base.unknown? ref.toType = some cause) (retrieve ref) := by
      have hlocate := hnames.bind fun names hnames =>
        (locateNamed_home hgood href hnames.1).relax fun cause hnone =>
          hunknown.trans (show _ = some cause by rw [hnone.1, hnone.2]; rfl)
      exact hlocate.bind fun answer hhome => .pure (hunknown.trans (by rw [hhome.1]; rfl))
    exact hretrieve.bind fun _ hknown => .pure hknown

theorem verifyAll_exact (hgood : base.Confines good) : (types : List TypeExpr) →
    (∀ type ∈ types, good type) →
    Guards (base.GrownBy good) (fun _ => base.unknowns? types = none)
      (fun cause => base.unknowns? types = some cause) (verifyAll types)
  | [], _ => .pure rfl
  | type :: rest, h => by
    obtain ⟨htype, hrest⟩ := List.forall_mem_cons.1 h
    refine ((verify_exact hgood type htype).relax fun _ hcause => ?_).bind fun _ hknown => ?_
    · rw [unknowns?, hcause]
      rfl
    · rw [unknowns?, hknown]
      exact verifyAll_exact hgood rest hrest

end

end Verify

/-- Where names are plain, verifying a type after any questions comes out as naming it does: both
succeed, or both report the same unknown type, which is the first one inside. -/
theorem verify_agrees_with_naming {project : Project} {steps : List TableStep}
    (hfiles : ∀ file ∈ project.files, file.plain = true)
    (hsteps : ∀ step ∈ steps, step.plain = true) {questions : List TypeQuestion}
    (hquestions : ∀ question ∈ questions, question.subject.plain = true) {type : TypeExpr}
    (hplain : type.plain = true) :
    let table := project.tableAfter steps
    (verify type).answer (questions.foldl TypeQuestion.ask table) =
        ((canonicalName type).answer table).map (fun _ => ()) ∧
      ∀ cause, (canonicalName type).answer table = .error cause →
        table.unknown? type = some cause ∧ ∃ name origin, cause = .unknownType name origin := by
  intro table
  have hspelled : table.Spelled := (Project.recorded_of_plain hfiles hsteps).spelled
  have hname := canonicalName_exact hspelled.confines type hplain table (hspelled.grownBy _)
  have hverify := verify_exact hspelled.confines type hplain _
    (asked_grows hspelled.confines hquestions (hspelled.grownBy _))
  have hunknown := canonicalName_unknown type table trivial
  rw [answer, answer]
  generalize canonicalName type table = named, verify type _ = verified at hname hverify hunknown ⊢
  cases hname with
  | ok hname =>
    cases hverify with
    | ok => exact ⟨rfl, by rintro _ ⟨⟩⟩
    | error hverify => cases hname.2.2.symm.trans hverify.2
  | error hname =>
    cases hverify with
    | ok hverify => cases hname.2.2.symm.trans hverify.2
    | error hverify =>
      cases hname.2.2.symm.trans hverify.2
      refine ⟨rfl, ?_⟩
      rintro _ ⟨⟩
      exact ⟨hname.2.2, hunknown.of_error.2⟩

/-- A box of items, or else a box of pointers to something that nobody declares. -/
def boxOrLid : TypeExpr :=
  .union [(boxOf (item none)).toType, (boxOf (.pointer (.named "Lid" none [] "main.mer"))).toType]

/-- Whatever was asked about boxes, verifying the sum reports what naming it reports. -/
theorem lid_reported_as_unknown :
    (canonicalName boxOrLid).answer (twoPackages.tableAfter lateItem) =
        .error (.unknownType "Lid" "main.mer") ∧
      (verify boxOrLid).answer ([.name (boxOf (boxOf (item none)).toType).toType].foldl
          TypeQuestion.ask (twoPackages.tableAfter lateItem)) =
        .error (.unknownType "Lid" "main.mer") := by
  have hname : (canonicalName boxOrLid).answer (twoPackages.tableAfter lateItem) =
      .error (.unknownType "Lid" "main.mer") := rfl
  have hagrees := @verify_agrees_with_naming twoPackages lateItem (by decide) (by decide)
    [.name (boxOf (boxOf (item none)).toType).toType] (by decide) boxOrLid (by decide)
  exact ⟨hname, hagrees.1.trans (by rw [hname]; rfl)⟩

end Accord
