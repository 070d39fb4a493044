import Accord.Proofs.Query.Logic

/-!
# Queries that stay within bounds

`Query.Guards` says three things of the runs of a query from states with a property: the
state keeps the property, an answer is good, and a refusal has a mild cause.  A query that
goes on after a refusal needs all three at once.

`Except.Faults` says the last of an answer that does not depend on a state.  There is a rule
for each way in which queries are put together.
-/

namespace Accord

variable {milder : Diagnostic → Prop} {ι : Type} {items : List ι}

/-! ## Answers without a state -/

namespace Except

variable {α β : Type} {kind : Diagnostic → Prop}

/-- Every refusal has a cause of the given kind. -/
def Faults (kind : Diagnostic → Prop) (result : Except Diagnostic α) : Prop :=
  ∀ cause, result = .error cause → kind cause

theorem Faults.ok (a : α) : Faults kind (.ok a) := by
  intro cause h
  cases h

theorem Faults.error {cause : Diagnostic} (h : kind cause) :
    Faults kind (.error cause : Except Diagnostic α) := by
  rintro _ ⟨⟩
  exact h

theorem Faults.bind {first : Except Diagnostic α} {rest : α → Except Diagnostic β}
    (hfirst : Faults kind first) (hrest : ∀ a, Faults kind (rest a)) :
    Faults kind (first >>= rest) := by
  cases first with
  | ok a => exact hrest a
  | error cause =>
    rintro _ ⟨⟩
    exact hfirst cause rfl

end Except

/-! ## Queries -/

namespace Query

variable {σ τ α β : Type}

/-- From a state with `inv` an answer is good, a refusal has a mild cause, and the state has
`inv` again. -/
def Guards (inv : σ → Prop) (good : α → Prop) (mild : Diagnostic → Prop) (query : Query σ α) :
    Prop :=
  ∀ s, inv s → Ends (fun a t => inv t ∧ good a) (fun e t => inv t ∧ mild e) (query s)

namespace Guards

variable {inv : σ → Prop} {good : α → Prop} {mild : Diagnostic → Prop} {query : Query σ α}

theorem pure {a : α} (h : good a) : Guards inv good mild (Pure.pure a : Query σ α) :=
  fun _ hs => .ok ⟨hs, h⟩

theorem throw {e : Diagnostic} (h : mild e) :
    Guards inv good mild (MonadExcept.throw e : Query σ α) :=
  fun _ hs => .error ⟨hs, h⟩

theorem get : Guards inv inv mild (MonadState.get : Query σ σ) :=
  fun _ hs => .ok ⟨hs, hs⟩

theorem mono {weaker : α → Prop} (h : Guards inv good mild query)
    (hgood : ∀ a, good a → weaker a) : Guards inv weaker mild query :=
  fun s hs => (h s hs).mono (fun a _ ha => ⟨ha.1, hgood a ha.2⟩) fun _ _ he => he

theorem relax (h : Guards inv good mild query) (hmild : ∀ e, mild e → milder e) :
    Guards inv good milder query :=
  fun s hs => (h s hs).mono (fun _ _ ha => ha) fun e _ he => ⟨he.1, hmild e he.2⟩

/-- What two rules say of a query, both say together. -/
theorem both {better : α → Prop} (h : Guards inv good mild query)
    (h' : Guards (fun _ => True) better milder query) :
    Guards inv (fun a => good a ∧ better a) (fun e => mild e ∧ milder e) query :=
  fun s hs => ((h s hs).and (h' s trivial)).mono (fun _ _ ⟨ha, ha'⟩ => ⟨ha.1, ha.2, ha'.2⟩)
    fun _ _ ⟨he, he'⟩ => ⟨he.1, he.2, he'.2⟩

theorem bind {next : β → Prop} {rest : α → Query σ β} (h : Guards inv good mild query)
    (hrest : ∀ a, good a → Guards inv next mild (rest a)) :
    Guards inv next mild (query >>= rest) :=
  fun s hs => (h s hs).bind fun a t ha => hrest a ha.2 t ha.1

theorem ite {c : Prop} [Decidable c] {left right : Query σ α} (hleft : Guards inv good mild left)
    (hright : Guards inv good mild right) : Guards inv good mild (if c then left else right) := by
  split
  · exact hleft
  · exact hright

theorem foldlM {step : α → ι → Query σ α}
    (hstep : ∀ i ∈ items, ∀ a, good a → Guards inv good mild (step a i)) {a : α} (ha : good a) :
    Guards inv good mild (items.foldlM step a) := by
  induction items generalizing a with
  | nil => exact Guards.pure ha
  | cons i rest ih =>
    obtain ⟨hfirst, hrest⟩ := List.forall_mem_cons.1 hstep
    rw [List.foldlM_cons]
    exact (hfirst a ha).bind fun _ hb => ih hrest hb

/-- Each item has a good answer, or the fault is in one of them. -/
theorem mapM_each {fine : ι → α → Prop} {fault : ι → Diagnostic → Prop} {each : ι → Query σ α}
    (h : ∀ i ∈ items, Guards inv (fine i) (fault i) (each i)) :
    Guards inv (List.Forall₂ fine items) (fun e => ∃ i ∈ items, fault i e) (items.mapM each) := by
  induction items with
  | nil => exact Guards.pure .nil
  | cons i rest ih =>
    obtain ⟨hfirst, hrest⟩ := List.forall_mem_cons.1 h
    rw [List.mapM_cons]
    refine (hfirst.relax fun e he => ⟨i, .head _, he⟩).bind fun a ha =>
      ((ih hrest).relax fun e ⟨j, hj, he⟩ => ⟨j, .tail _ hj, he⟩).bind fun answers hanswers => ?_
    exact Guards.pure (.cons ha hanswers)

theorem mapM {each : ι → Query σ α} (h : ∀ i ∈ items, Guards inv good mild (each i)) :
    Guards inv (fun answers => ∀ a ∈ answers, good a) mild (items.mapM each) := by
  refine ((mapM_each h).relax fun e ⟨_, _, he⟩ => he).mono fun answers hanswers => ?_
  have hflip : List.Forall₂ (fun a _ => good a ∧ True) answers items := by simpa using hanswers.flip
  exact ((List.forall₂_and_left _ _).1 hflip).1

/-- If each item has one answer, so has the list. -/
theorem mapM_eq {each : ι → Query σ α} {value : ι → α}
    (h : ∀ i ∈ items, Guards inv (· = value i) mild (each i)) :
    Guards inv (· = items.map value) mild (items.mapM each) := by
  refine ((mapM_each h).relax fun e ⟨_, _, he⟩ => he).mono fun answers hanswers => ?_
  rw [← List.forall₂_eq_eq_eq, List.forall₂_map_right_iff]
  exact hanswers.flip

/-- Each item passes, or the fault is in one of them. -/
theorem forM_each {fine : ι → Prop} {fault : ι → Diagnostic → Prop} {each : ι → Query σ PUnit}
    (h : ∀ i ∈ items, Guards inv (fun _ => fine i) (fault i) (each i)) :
    Guards inv (fun _ => ∀ i ∈ items, fine i) (fun e => ∃ i ∈ items, fault i e)
      (items.forM each) := by
  induction items with
  | nil => exact Guards.pure (List.forall_mem_nil _)
  | cons i rest ih =>
    obtain ⟨hfirst, hrest⟩ := List.forall_mem_cons.1 h
    refine (hfirst.relax fun e he => ⟨i, .head _, he⟩).bind fun _ hi =>
      ((ih hrest).relax fun e ⟨j, hj, he⟩ => ⟨j, .tail _ hj, he⟩).mono fun _ hall => ?_
    exact List.forall_mem_cons.2 ⟨hi, hall⟩

theorem forM {each : ι → Query σ PUnit}
    (h : ∀ i ∈ items, Guards inv (fun _ => True) mild (each i)) :
    Guards inv (fun _ => True) mild (items.forM each) :=
  ((forM_each h).relax fun _ ⟨_, _, he⟩ => he).mono fun _ _ => trivial

/-- What guards a component guards the whole. -/
theorem on {part : τ → Prop} {get : σ → τ} {set : σ → τ → σ} {query : Query τ α}
    (hget : ∀ s, inv s → part (get s)) (hset : ∀ s t, inv s → part t → inv (set s t))
    (h : Guards part good mild query) : Guards inv good mild (Query.on get set query) :=
  fun s hs => .on ((h _ (hget s hs)).mono (fun _ t ha => ⟨hset s t hs ha.1, ha.2⟩)
    fun _ t he => ⟨hset s t hs he.1, he.2⟩)

/-- The outcome of a query is a good answer or a mild cause. -/
theorem outcome (h : Guards inv good mild query) :
    Guards inv (fun result => Except.Faults mild result ∧ ∀ a, result = .ok a → good a)
      (fun _ => False) query.outcome := by
  refine fun s hs => .outcome ((h s hs).mono (fun a t ha => ⟨ha.1, Except.Faults.ok a, ?_⟩)
    fun e t he => ⟨he.1, Except.Faults.error he.2, nofun⟩)
  exact fun other heq => Except.ok.inj heq ▸ ha.2

theorem of_keeps (h : Keeps inv query) : Guards inv (fun _ => True) (fun _ => True) query :=
  fun s hs => (ends_iff_after.2 (h s hs)).mono (fun _ _ ht => ⟨ht, trivial⟩)
    fun _ _ ht => ⟨ht, trivial⟩

theorem keeps (h : Guards inv good mild query) : Keeps inv query :=
  fun s hs => ends_iff_after.1 ((h s hs).mono (fun _ _ ha => ha.1) fun _ _ he => he.1)

/-- Where there is one state only, the outcome is the one from that state. -/
theorem answered {s : σ} (h : Guards (· = s) good mild query) :
    Guards (· = s) (fun a => good a ∧ query s = .ok a s) (fun e => mild e ∧ query s = .error e s)
      query := by
  rintro t rfl
  have hends := h t rfl
  cases hrun : query t with
  | ok a _ =>
    obtain ⟨rfl, ha⟩ := hends.of_run hrun
    exact .ok ⟨rfl, ha, rfl⟩
  | error e _ =>
    obtain ⟨rfl, he⟩ := hends.of_refusal hrun
    exact .error ⟨rfl, he, rfl⟩

theorem faults_of_answer (h : Guards inv good mild query) {s : σ} (hs : inv s) :
    Except.Faults mild (query.answer s) := by
  intro cause hanswer
  obtain ⟨t, hrun⟩ := answer_eq_error.1 hanswer
  exact ((h s hs).of_refusal hrun).2

section Value

variable {value : Option α} {s : σ} {a : α}
  (h : Guards inv (fun a => value = some a) (fun _ => value = none) query) (hs : inv s)

include h hs

/-- A query that is refused only if there is no value answers the value. -/
theorem exists_run (hvalue : value = some a) : ∃ t, query s = .ok a t ∧ inv t := by
  obtain ⟨b, t, hrun, ht, hb⟩ := (h s hs).exists_ok fun _ _ he => nomatch he.2.symm.trans hvalue
  exact ⟨t, Option.some.inj (hb.symm.trans hvalue) ▸ hrun, ht⟩

theorem answer_iff : query.answer s = .ok a ↔ value = some a := by
  rw [answer_eq_ok]
  refine ⟨fun ⟨_, hrun⟩ => ((h s hs).of_run hrun).2, fun hvalue => ?_⟩
  exact (h.exists_run hs hvalue).imp fun _ => And.left

end Value

end Guards

end Query

end Accord
