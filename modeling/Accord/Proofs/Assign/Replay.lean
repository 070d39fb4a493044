import Accord.Proofs.Types.Replay

/-!
# Comparisons done again

Types that are related may be spelled differently.  If they have the same names, and what one
of them stands for is found for the other at any later time (`Replaying`), then a comparison
of types is repeated by a later comparison of related types: it has the same outcome, infers
related types, and leaves the table as it is.

`replayingOf` says so as a `CheckParallel`.  So candidates are tried, measured and scanned
again with the same outcome too.
-/

namespace Accord

open Query

/-- Related types have one shape and one name, and what one of them stands for is found for the
other later. -/
structure Replaying (kind : TableKind) (related : TypeExpr → TypeExpr → Prop) : Prop where
  self : ∀ left right, related left right → related left left
  shape : ∀ {left right}, related left right → SameShape related left right
  union : ∀ {left right}, List.Forall₂ related left right → related (.union left) (.union right)
  substitute : ∀ {left right rules rules'}, related left right →
    SameRules related rules rules' → related (left.substitute rules) (right.substitute rules')
  name : ∀ {left right}, related left right →
    kind.held.Replays Eq (canonicalName left) (canonicalName right)
  locate : ∀ {left right : TypeRef}, related left.toType right.toType →
    kind.held.Replays (SameFound related) (locate left) (locate right)

section Self

variable {related : TypeExpr → TypeExpr → Prop}
  (hself : ∀ left right, related left right → related left left)

include hself

theorem SameRules.self {left right : Substitution} (h : SameRules related left right) :
    SameRules related left left := by
  induction h with
  | nil => exact .nil
  | cons hentry _ ih => exact .cons ⟨rfl, hself _ _ hentry.2⟩ ih

theorem SameInference.self {left right : Inference} (h : SameInference related left right) :
    SameInference related left left :=
  ⟨h.bindings.self hself, rfl⟩

end Self

/-- The states of a comparison.  What one of them knows about parameters is related to what the
other does. -/
def comparisons (kind : TableKind) (related : TypeExpr → TypeExpr → Prop) :
    Holder CheckState where
  types := (·.types)
  good state := kind.has state.types ∧ SameInference related state.inference state.inference
  beside later state other :=
    other.types = later ∧ SameInference related state.inference other.inference
  spelled h := kind.spelled h.1
  exists_beside h later := ⟨⟨later, _⟩, rfl, h.2⟩

section Rules

variable {kind : TableKind} {related : TypeExpr → TypeExpr → Prop} {α β : Type}
  {same : α → β → Prop}

theorem lift_replays {left : TypeQuery α} {right : TypeQuery β}
    (h : kind.held.Replays same left right) :
    (comparisons kind related).Replays same (liftM left : Check α)
      (liftM right : Check β) := by
  intro s hs
  have hrun := h s.types hs.1
  change Ends _ _ (Query.on (·.types) (fun state types => { state with types }) left s)
  rw [Query.on]
  generalize left s.types = result at hrun ⊢
  cases hrun with
  | error hrefuses => exact .error ⟨⟨hrefuses.good, hs.2⟩, hrefuses.unplanned⟩
  | ok hrun =>
    refine .ok ⟨⟨hrun.good, hs.2⟩, hrun.before, ?_⟩
    rintro later hlater hgrown s' ⟨rfl, hknown⟩
    obtain ⟨b, hright, hab⟩ := hrun.later hlater hgrown
    refine ⟨b, s', ?_, ⟨rfl, hknown⟩, hab⟩
    change Query.on (·.types) (fun state types => { state with types }) right s' = _
    rw [Query.on, hright]

theorem infer_replays (hself : ∀ left right, related left right → related left left)
    {change change' : Inference → Inference}
    (h : ∀ inference inference', SameInference related inference inference' →
      SameInference related (change inference) (change' inference')) :
    (comparisons kind related).Replays Eq (Check.infer change) (Check.infer change') := by
  intro s hs
  refine .ok ⟨⟨hs.1, (h _ _ hs.2).self hself⟩, .refl _, ?_⟩
  rintro later _ _ s' ⟨rfl, hknown⟩
  exact ⟨(), _, rfl, ⟨rfl, h _ _ hknown⟩, rfl⟩

theorem knowing_replays {left : Inference → Check α} {right : Inference → Check β}
    (h : ∀ inference inference', SameInference related inference inference' →
      (comparisons kind related).Replays same (left inference) (right inference')) :
    (comparisons kind related).Replays same (get >>= fun state => left state.inference)
      (get >>= fun state => right state.inference) := by
  intro s hs
  have hrun := h _ _ hs.2 s hs
  change Ends _ _ (left s.inference s)
  cases hleft : left s.inference s with
  | error e t =>
    exact .error (hrun.of_refusal hleft)
  | ok a t =>
    rw [hleft] at hrun
    refine .ok ⟨hrun.of_ok.good, hrun.of_ok.before, fun later hlater hgrown s' hs' => ?_⟩
    exact ((h _ _ hs'.2 s hs).of_run hleft).repeats later hlater hgrown s' hs'

theorem isolated_replays {left : Check α} {right : Check β}
    (h : (comparisons kind related).Replays same left right) :
    (comparisons kind related).Replays same left.isolated right.isolated := by
  intro s hs
  have hrun := h s hs
  rw [Check.isolated]
  generalize left s = result at hrun ⊢
  cases hrun with
  | error hrefuses => exact .error ⟨⟨hrefuses.good.1, hs.2⟩, hrefuses.unplanned⟩
  | ok hrun =>
    refine .ok ⟨⟨hrun.good.1, hs.2⟩, hrun.before, fun later hlater hgrown s' hs' => ?_⟩
    obtain ⟨b, t', hright, ht', hab⟩ := hrun.repeats later hlater hgrown s' hs'
    exact ⟨b, { t' with inference := s'.inference }, by rw [Check.isolated, hright],
      ⟨ht'.1, hs'.2⟩, hab⟩

theorem onTrial_replays {left right : Check Bool}
    (h : (comparisons kind related).Replays Eq left right) :
    (comparisons kind related).Replays Eq left.onTrial right.onTrial := by
  intro s hs
  have hrun := h s hs
  rw [Check.onTrial]
  generalize left s = result at hrun ⊢
  cases hrun with
  | error hrefuses => exact .error ⟨⟨hrefuses.good.1, hs.2⟩, hrefuses.unplanned⟩
  | @ok a t hrun =>
    cases a with
    | true =>
      refine .ok ⟨hrun.good, hrun.before, fun later hlater hgrown s' hs' => ?_⟩
      obtain ⟨_, t', hright, ht', rfl⟩ := hrun.repeats later hlater hgrown s' hs'
      exact ⟨true, t', by rw [Check.onTrial, hright], ht', rfl⟩
    | false =>
      refine .ok ⟨⟨hrun.good.1, hs.2⟩, hrun.before, fun later hlater hgrown s' hs' => ?_⟩
      obtain ⟨_, t', hright, ht', rfl⟩ := hrun.repeats later hlater hgrown s' hs'
      exact ⟨false, { t' with inference := s'.inference }, by rw [Check.onTrial, hright],
        ⟨ht'.1, hs'.2⟩, rfl⟩

theorem run_replays (hself : ∀ left right, related left right → related left left)
    {left : Check α} {right : Check β} {inference inference' : Inference}
    (hinference : SameInference related inference inference')
    (h : (comparisons kind related).Replays same left right) :
    kind.held.Replays
      (fun a b => same a.1 b.1 ∧ SameInference related a.2 b.2)
      (left.run inference) (right.run inference') := by
  intro s hs
  have hrun := h { types := s, inference } ⟨hs, hinference.self hself⟩
  rw [Check.run]
  generalize left { types := s, inference } = result at hrun ⊢
  cases hrun with
  | error hrefuses => exact .error ⟨hrefuses.good.1, hrefuses.unplanned⟩
  | ok hrun =>
    refine .ok ⟨hrun.good.1, hrun.before, ?_⟩
    rintro later hlater hgrown _ rfl
    obtain ⟨b, t', hright, ⟨rfl, hknown⟩, hab⟩ :=
      hrun.repeats _ hlater hgrown ⟨_, inference'⟩ ⟨rfl, hinference⟩
    exact ⟨(b, t'.inference), t'.types, by rw [Check.run, hright], rfl, hab, hknown⟩

end Rules

/-- The comparison of a run with a later run on related types, which may take more fuel. -/
def replayingOf {kind : TableKind} {related : TypeExpr → TypeExpr → Prop}
    (h : Replaying kind related) : CheckParallel where
  holds same left right := kind.held.Replays same left right
  checks same left right := (comparisons kind related).Replays same left right
  related := related
  fuels := (· ≤ ·)
  pure h := .pure h
  throw h _ := .throw h _
  refuse h := .throw h _
  bind h hrest := .bind h hrest
  exhausted _ _ := .throw rfl _
  fuels_succ := exists_succ_of_le
  head hrelated := (h.shape hrelated).head
  name := h.name
  locate := h.locate
  checkPure h := .pure h
  checkBind h hrest := .bind h hrest
  checkExhausted _ _ := .throw rfl _
  lift := lift_replays
  infer := infer_replays h.self
  knowing := knowing_replays
  isolated := isolated_replays
  onTrial := onTrial_replays
  run := run_replays h.self
  shape := h.shape
  union := h.union
  substitute := h.substitute

end Accord
