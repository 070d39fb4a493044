import Accord.Proofs.Call.Parallel
import Accord.Proofs.Types.Steady

/-!
# Comparisons are steady

Two tables with the same definitions may hold different instances.  If related types have
the same names and stand for the same definitions in both (`TypeTable.Aligns`), comparisons
of related types have the same outcome in both and infer related types (`alongside`).

The first use is for equal types with plain names: a comparison has the same outcome, and
infers the same, in every orderly table with the same definitions (`accepts_steady`).  So
whether a candidate takes a call, and how specific it is, does not depend on what was asked
before (`takes_steady`, `specificity_steady`).
-/

namespace Accord

open Query List TypeExpr

variable {left right : List TypeExpr} {judge : Judge} {base : TypeTable}

/-! ## Related types in two tables -/

/-- Related types have one shape, one name and one meaning in all tables with the given
definitions. -/
structure TypeTable.Aligns (base : TypeTable) (related : TypeExpr → TypeExpr → Prop) : Prop where
  shape : ∀ {left right}, related left right → SameShape related left right
  union : ∀ {left right}, Forall₂ related left right → related (.union left) (.union right)
  substitute : ∀ {left right rules rules'}, related left right →
    SameRules related rules rules' → related (left.substitute rules) (right.substitute rules')
  name : ∀ {left right}, related left right →
    Agree base.Twins Eq (canonicalName left) (canonicalName right)
  locate : ∀ {left right : TypeRef}, related left.toType right.toType →
    Agree base.Twins (SameFound related) (locate left) (locate right)

/-- Two comparisons that know related things about parameters, in tables with the same
definitions. -/
structure CheckState.Aligned (base : TypeTable) (related : TypeExpr → TypeExpr → Prop)
    (left right : CheckState) : Prop where
  types : base.Twins left.types right.types
  inference : SameInference related left.inference right.inference

section Alongside

variable {related : TypeExpr → TypeExpr → Prop} {α β : Type} {same : α → β → Prop}
  {left : Check α} {right : Check β}

theorem isolated_agree (h : Agree (CheckState.Aligned base related) same left right) :
    Agree (CheckState.Aligned base related) same left.isolated right.isolated := by
  intro s t hst
  have hrun := h s t hst
  rw [Check.isolated, Check.isolated]
  generalize left s = leftResult, right t = rightResult at hrun ⊢
  cases hrun with
  | ok hab huv => exact .ok hab ⟨huv.types, hst.inference⟩
  | error huv => exact .error ⟨huv.types, hst.inference⟩

theorem onTrial_agree {left right : Check Bool}
    (h : Agree (CheckState.Aligned base related) Eq left right) :
    Agree (CheckState.Aligned base related) Eq left.onTrial right.onTrial := by
  intro s t hst
  have hrun := h s t hst
  rw [Check.onTrial, Check.onTrial]
  generalize left s = leftResult, right t = rightResult at hrun ⊢
  cases hrun with
  | @ok a b u v hab huv =>
    obtain rfl : a = b := hab
    cases a with
    | true => exact .ok rfl huv
    | false => exact .ok rfl ⟨huv.types, hst.inference⟩
  | error huv => exact .error ⟨huv.types, hst.inference⟩

theorem run_agree {inference inference' : Inference}
    (hinference : SameInference related inference inference')
    (h : Agree (CheckState.Aligned base related) same left right) :
    Agree base.Twins (fun a b => same a.1 b.1 ∧ SameInference related a.2 b.2)
      (left.run inference) (right.run inference') := by
  intro s t hst
  have hrun := h { types := s, inference } { types := t, inference := inference' } ⟨hst, hinference⟩
  rw [Check.run, Check.run]
  generalize left { types := s, inference } = leftResult,
    right { types := t, inference := inference' } = rightResult at hrun ⊢
  cases hrun with
  | ok hab huv => exact .ok ⟨hab, huv.inference⟩ huv.types
  | error huv => exact .error huv.types

/-- The comparison of runs on related types in two tables with the same definitions. -/
def alongside (h : base.Aligns related) : CheckParallel where
  toTypeParallel := acrossTwins base related (fun hrelated => (h.shape hrelated).head) h.name
    h.locate
  refuse _ := .throw _
  checks same left right := Agree (CheckState.Aligned base related) same left right
  checkPure h := .pure h
  checkBind h hrest := .bind h hrest
  checkExhausted h hright := by
    rw [hright (Eq.symm h)]
    exact .throw _
  lift h := .on (fun _ _ hst => hst.types) (fun _ _ _ _ hst huv => ⟨huv, hst.inference⟩) h
  infer h := fun _ _ hst => .ok rfl ⟨hst.types, h _ _ hst.inference⟩
  knowing h := fun s t hst => h s.inference t.inference hst.inference s t hst
  isolated := isolated_agree
  onTrial := onTrial_agree
  run := run_agree
  shape := h.shape
  union := h.union
  substitute := h.substitute

end Alongside

/-! ## Equal types with plain names -/

/-- Every parameter is bound to a type with plain names. -/
def Inference.Plain (inference : Inference) : Prop :=
  ∀ entry ∈ inference.bindings, entry.2.plain = true

/-- Two comparisons that know the same about parameters, in orderly tables with the same
definitions. -/
structure CheckState.Twins (base : TypeTable) (left right : CheckState) : Prop where
  types : base.Twins left.types right.types
  inference : left.inference = right.inference
  plain : left.inference.Plain

/-- Equal types with plain names. -/
def SamePlain (left right : TypeExpr) : Prop :=
  left = right ∧ left.plain = true

theorem samePlain_all : Forall₂ SamePlain left right ↔ left = right ∧ ∀ type ∈ left, type.plain :=
  forall₂_eq_and

theorem samePlain_rules {left right : Substitution} :
    SameRules SamePlain left right ↔ left = right ∧ ∀ entry ∈ left, entry.2.plain := by
  unfold SameRules
  rw [← forall₂_eq_and]
  refine iff_of_eq (congrArg (Forall₂ · left right) ?_)
  funext entry entry'
  obtain ⟨name, type⟩ := entry
  obtain ⟨name', type'⟩ := entry'
  simp [SamePlain, and_assoc]

theorem samePlain_inference {left right : Inference} :
    SameInference SamePlain left right ↔ left = right ∧ left.Plain := by
  constructor
  · intro h
    obtain ⟨hbindings, hplain⟩ := samePlain_rules.1 h.bindings
    have hlocked := h.locked
    obtain ⟨bindings, locked⟩ := left
    obtain ⟨bindings', locked'⟩ := right
    cases hbindings
    cases hlocked
    exact ⟨rfl, hplain⟩
  · rintro ⟨rfl, hplain⟩
    exact ⟨samePlain_rules.2 ⟨rfl, hplain⟩, rfl⟩

namespace Inference.Plain

variable {inference : Inference} (h : inference.Plain)

include h

theorem lock (name : String) : (inference.lock name).Plain :=
  (samePlain_inference.1 ((samePlain_inference.2 ⟨rfl, h⟩).lock name)).2

variable {name : String} {type : TypeExpr} (htype : type.plain = true)

include htype

theorem bind : (inference.bind name type).Plain :=
  (samePlain_rules.1 ((samePlain_rules.2 ⟨rfl, h⟩).bind name ⟨rfl, htype⟩)).2

theorem rebind : (inference.rebind name type).Plain :=
  (samePlain_rules.1 ((samePlain_rules.2 ⟨rfl, h⟩).replace name ⟨rfl, htype⟩)).2

end Inference.Plain

theorem CheckState.twins_iff {left right : CheckState} :
    CheckState.Twins base left right ↔ CheckState.Aligned base SamePlain left right := by
  constructor
  · intro h
    exact ⟨h.types, samePlain_inference.2 ⟨h.inference, h.plain⟩⟩
  · intro h
    obtain ⟨hsame, hplain⟩ := samePlain_inference.1 h.inference
    exact ⟨h.types, hsame, hplain⟩

theorem SamePlain.shape {left right : TypeExpr} (h : SamePlain left right) :
    SameShape SamePlain left right :=
  inherited_plain.shape h

theorem SamePlain.union (h : Forall₂ SamePlain left right) :
    SamePlain (.union left) (.union right) := by
  obtain ⟨rfl, hplain⟩ := samePlain_all.1 h
  exact ⟨rfl, plainAll_iff.2 hplain⟩

theorem SamePlain.substitute {left right : TypeExpr} {rules rules' : Substitution}
    (h : SamePlain left right) (hrules : SameRules SamePlain rules rules') :
    SamePlain (left.substitute rules) (right.substitute rules') := by
  obtain ⟨rfl, hplain⟩ := h
  obtain ⟨rfl, hreplacements⟩ := samePlain_rules.1 hrules
  exact ⟨rfl, plain_substitute hreplacements left hplain⟩

theorem TypeTable.Stable.aligns (h : base.Stable) : base.Aligns SamePlain where
  shape := SamePlain.shape
  union := SamePlain.union
  substitute := SamePlain.substitute
  name := (steadily h.hereditary).name
  locate := (steadily h.hereditary).locate

/-- A comparison of plainly named types in one table is one with itself in another. -/
theorem steady_iff {query : Check Bool} :
    Steady (CheckState.Twins base) (fun _ => True) query ↔
      Agree (CheckState.Aligned base SamePlain) Eq query query := by
  constructor
  · intro h s t hst
    have hrun := h s t (CheckState.twins_iff.2 hst)
    generalize query s = left, query t = right at hrun ⊢
    cases hrun with
    | ok hab huv => exact .ok hab.1 (CheckState.twins_iff.1 huv)
    | error huv => exact .error (CheckState.twins_iff.1 huv)
  · intro h s t hst
    have hrun := h s t (CheckState.twins_iff.1 hst)
    generalize query s = left, query t = right at hrun ⊢
    cases hrun with
    | ok hab huv => exact .ok ⟨hab, trivial⟩ (CheckState.twins_iff.2 huv)
    | error huv => exact .error (CheckState.twins_iff.2 huv)

theorem isolated_steady {check : Check Bool}
    (h : Steady (CheckState.Twins base) (fun _ => True) check) :
    Steady (CheckState.Twins base) (fun _ => True) check.isolated :=
  steady_iff.2 (isolated_agree (steady_iff.1 h))

/-- A steady comparison of plainly named types, in both modes. -/
def Judge.Steady (base : TypeTable) (judge : Judge) : Prop :=
  ∀ mode {source dest : TypeExpr}, source.plain = true → dest.plain = true →
    Query.Steady (CheckState.Twins base) (fun _ => True) (judge mode source dest)

/-- The names in the types of the parameters are plain. -/
def FunctionDef.Plain (function : FunctionDef) : Prop :=
  ∀ type ∈ function.parameterTypes, type.plain = true

section Steady

variable (hplain : base.Stable)

include hplain

theorem Judge.Steady.parallel (h : judge.Steady base) :
    judge.Parallel (alongside hplain.aligns).logic judge := by
  rintro mode _ _ source _ dest _ _ ⟨rfl, hsource⟩ ⟨rfl, hdest⟩
  exact steady_iff.1 (h mode hsource hdest)

theorem sameDefinition_steady (hjudge : judge.Steady base) {source dest : TypeRef}
    (hsource : source.plain) (hdest : dest.plain) :
    Steady (CheckState.Twins base) (fun _ => True) (sameDefinition judge source dest) :=
  steady_iff.2 (@sameDefinition_parallel _ _ Unit (alongside hplain.aligns).logic
    (hjudge.parallel hplain) () () trivial _ _ _ _ ⟨rfl, hsource⟩ ⟨rfl, hdest⟩)

theorem acceptsBare_steady (hjudge : judge.Steady base) (fuel : Nat) (mode : Mode)
    {source dest : TypeExpr} (hsource : source.plain) (hdest : dest.plain) :
    Steady (CheckState.Twins base) (fun _ => True)
      (acceptsBare fuel judge mode source dest) :=
  steady_iff.2 (@acceptsBare_parallel _ _ _ _ _ _ _ _ Unit (alongside hplain.aligns).judging rfl
    (hjudge.parallel hplain) mode () () trivial ⟨rfl, hsource⟩ ⟨rfl, hdest⟩)

theorem accepts_steady (fuel : Nat) : (accepts fuel).Steady base :=
  fun mode _ _ hsource hdest => steady_iff.2
    ((alongside hplain.aligns).checks_accepts rfl mode ⟨rfl, hsource⟩ ⟨rfl, hdest⟩)

theorem takes_steady (fuel : Nat) {candidate : FunctionDef} (hcandidate : candidate.Plain)
    {call : Call} (hcall : ∀ type ∈ call.generics, type.plain)
    {arguments : List TypeExpr} (harguments : ∀ type ∈ arguments, type.plain) :
    Steady base.Twins
      (fun taken => ∀ rules, taken = some rules → ∀ entry ∈ rules, entry.2.plain)
      (candidate.takes fuel call arguments) := by
  have hparallel := takes_parallel (alongside hplain.aligns) (rfl : fuel = fuel)
    (fun type hmem => ⟨rfl, hcandidate type hmem⟩) (samePlain_all.2 ⟨rfl, hcall⟩)
    (samePlain_all.2 ⟨rfl, harguments⟩)
  refine .mono hparallel fun taken taken' htaken => ?_
  cases htaken with
  | none => simp
  | some hrules => simpa using samePlain_rules.1 hrules

theorem specificity_steady (fuel : Nat) {function : FunctionDef} (h : function.Plain) :
    Steady base.Twins (fun _ => True) (function.specificity fuel) :=
  .mono (specificity_parallel (alongside hplain.aligns).toTypeParallel
    (alongside hplain.aligns).shape rfl fun type hmem => ⟨rfl, h type hmem⟩)
    fun _ _ hsame => ⟨hsame, trivial⟩

end Steady

end Accord
