import Accord.Proofs.Query.Guard

/-!
# Queries that come to an end

A query with fuel comes to an end if, with enough fuel, its outcome is not that the fuel ran
out and does not depend on the fuel any more.  `Query.Settles` says so of the runs from every
state with a property, and says of the answer that it is good and of the state behind it that
it has the property again.

There is a rule for each way in which queries are put together.  A recursion settles if the
body of the recursion does, with one step less of fuel inside (`Settles.succ`).
-/

namespace Accord

variable {ι : Type} {items : List ι}

namespace Query

variable {σ τ α β : Type}

/-- From every state with `inv` the query has one outcome for all large amounts of fuel: a good
answer in a state with `inv`, or a refusal for another reason than the lack of fuel. -/
def Settles (inv : σ → Prop) (good : α → Prop) (query : Nat → Query σ α) : Prop :=
  ∀ s, inv s → ∃ result,
    Ends (fun a t => good a ∧ inv t) (fun e _ => e ≠ .limitReached) result ∧
      ∃ bound, ∀ fuel, bound ≤ fuel → query fuel s = result

namespace Settles

variable {inv : σ → Prop} {good : α → Prop} {query : Nat → Query σ α}

/-- A query that takes no fuel. -/
theorem const {query : Query σ α}
    (h : ∀ s, inv s → Ends (fun a t => good a ∧ inv t) (fun e _ => e ≠ .limitReached) (query s)) :
    Settles inv good fun _ => query :=
  fun s hs => ⟨query s, h s hs, 0, fun _ _ => rfl⟩

theorem pure {a : α} (h : good a) : Settles inv good fun _ => (Pure.pure a : Query σ α) :=
  const fun _ hs => .ok ⟨h, hs⟩

theorem throw {e : Diagnostic} (h : e ≠ .limitReached) :
    Settles inv good fun _ => (MonadExcept.throw e : Query σ α) :=
  const fun _ _ => .error h

theorem mono {weaker : α → Prop} (h : Settles inv good query) (hgood : ∀ a, good a → weaker a) :
    Settles inv weaker query := by
  intro s hs
  obtain ⟨result, hends, hrun⟩ := h s hs
  exact ⟨result, hends.mono (fun a t hat => ⟨hgood a hat.1, hat.2⟩) (fun _ _ he => he), hrun⟩

theorem bind {next : β → Prop} {rest : Nat → α → Query σ β} (h : Settles inv good query)
    (hrest : ∀ a, good a → Settles inv next fun fuel => rest fuel a) :
    Settles inv next fun fuel => query fuel >>= rest fuel := by
  intro s hs
  obtain ⟨result, hends, bound, hrun⟩ := h s hs
  cases result with
  | error e t =>
    exact ⟨.error e t, .error hends.of_error, bound, fun fuel hle => bind_of_error (hrun fuel hle)⟩
  | ok a t =>
    obtain ⟨ha, ht⟩ := hends.of_ok
    obtain ⟨last, hlast, bound', hrun'⟩ := hrest a ha t ht
    refine ⟨last, hlast, max bound bound', fun fuel hle => ?_⟩
    exact (bind_of_ok (hrun fuel (by omega))).trans (hrun' fuel (by omega))

theorem ite {c : Prop} [Decidable c] {left right : Nat → Query σ α}
    (hleft : c → Settles inv good left) (hright : ¬ c → Settles inv good right) :
    Settles inv good fun fuel => if c then left fuel else right fuel := by
  by_cases h : c
  · simp only [if_pos h]
    exact hleft h
  · simp only [if_neg h]
    exact hright h

/-- A decision, and what is done then. -/
theorem cond {yes : Bool → Prop} {first : Nat → Query σ Bool} {left right : Nat → Query σ α}
    (hfirst : Settles inv yes first) (hleft : yes true → Settles inv good left)
    (hright : yes false → Settles inv good right) :
    Settles inv good fun fuel => first fuel >>= fun b => if b then left fuel else right fuel := by
  refine hfirst.bind fun b hb => ?_
  cases b with
  | true => exact hleft hb
  | false => exact hright hb

theorem foldlM {step : Nat → α → ι → Query σ α}
    (hstep : ∀ i ∈ items, ∀ a, good a → Settles inv good fun fuel => step fuel a i) {a : α}
    (h : good a) : Settles inv good fun fuel => items.foldlM (step fuel) a := by
  induction items generalizing a with
  | nil => exact pure h
  | cons i rest ih =>
    obtain ⟨hfirst, hrest⟩ := List.forall_mem_cons.1 hstep
    simp only [List.foldlM_cons]
    exact (hfirst a h).bind fun _ hnext => ih hrest hnext

theorem forM {each : Nat → ι → Query σ PUnit}
    (h : ∀ i ∈ items, Settles inv (fun _ => True) fun fuel => each fuel i) :
    Settles inv (fun _ => True) fun fuel => items.forM (each fuel) := by
  induction items with
  | nil => exact pure trivial
  | cons i rest ih =>
    obtain ⟨hfirst, hrest⟩ := List.forall_mem_cons.1 h
    exact hfirst.bind fun _ _ => ih hrest

/-- A recursion settles if its body does. -/
theorem succ (h : Settles inv good fun fuel => query (fuel + 1)) : Settles inv good query := by
  intro s hs
  obtain ⟨result, hends, bound, hrun⟩ := h s hs
  refine ⟨result, hends, bound + 1, fun fuel hle => ?_⟩
  obtain ⟨less, rfl⟩ : ∃ less, fuel = less + 1 := ⟨fuel - 1, by omega⟩
  exact hrun less (by omega)

/-- What a component settles, the whole settles. -/
theorem on {part : τ → Prop} {get : σ → τ} {set : σ → τ → σ} {query : Nat → Query τ α}
    (hget : ∀ s, inv s → part (get s)) (hset : ∀ s t, inv s → part t → inv (set s t))
    (h : Settles part good query) : Settles inv good fun fuel => Query.on get set (query fuel) := by
  intro s hs
  obtain ⟨result, hends, bound, hrun⟩ := h (get s) (hget s hs)
  refine ⟨Query.on get set (fun _ => result) s, ?_, bound, fun fuel hle => ?_⟩
  · exact .on (hends.mono (fun _ t ha => ⟨ha.1, hset s t hs ha.2⟩) fun _ _ he => he)
  · simp only [Query.on, hrun fuel hle]

/-- Where there is one state only, good answers are answers. -/
theorem answered {s : σ} (h : Settles (· = s) good query) :
    Settles (· = s) (fun a => good a ∧ ∃ fuel, query fuel s = .ok a s) query := by
  intro t ht
  obtain rfl : t = s := ht
  obtain ⟨result, hends, bound, hrun⟩ := h t rfl
  refine ⟨result, ?_, bound, hrun⟩
  cases result with
  | error e u => exact .error hends.of_error
  | ok a u =>
    obtain ⟨ha, rfl⟩ := hends.of_ok
    exact .ok ⟨⟨ha, bound, hrun bound (Nat.le_refl bound)⟩, rfl⟩

/-- An answer that more fuel does not change is the one that settles. -/
theorem good_of_ok (h : Settles inv good query)
    (hbelow : ∀ {fuel more}, fuel ≤ more → Below (query fuel) (query more)) {s t : σ} (hs : inv s)
    {fuel : Nat} {a : α} (hrun : query fuel s = .ok a t) : good a ∧ inv t := by
  obtain ⟨result, hends, bound, hsettled⟩ := h s hs
  have hmore := hbelow (Nat.le_max_left fuel bound) s a t hrun
  rw [hsettled _ (Nat.le_max_right fuel bound)] at hmore
  exact hends.of_run hmore

/-- A question that comes to an end has the answers that it has with every amount of fuel. -/
theorem guarded {better : α → Prop} {mild : Diagnostic → Prop} (h : Settles inv good query)
    (hguards : ∀ fuel, Guards inv better mild (query fuel)) :
    Settles inv (fun a => good a ∧ better a) query := by
  intro s hs
  obtain ⟨result, hends, bound, hrun⟩ := h s hs
  have hbetter := hguards bound s hs
  rw [hrun bound (Nat.le_refl bound)] at hbetter
  exact ⟨result, (hends.and hbetter).mono (fun _ _ ha => ⟨⟨ha.1.1, ha.2.2⟩, ha.1.2⟩)
    fun _ _ he => he.1, bound, hrun⟩

/-- A question that comes to an end has an answer if only the lack of fuel is reported. -/
theorem exists_ok {better : α → Prop} (h : Settles inv good query)
    (hguards : ∀ fuel, Guards inv better (· = .limitReached) (query fuel)) {s : σ} (hs : inv s) :
    ∃ a t bound, good a ∧ better a ∧ ∀ fuel, bound ≤ fuel → query fuel s = .ok a t := by
  obtain ⟨result, hends, bound, hrun⟩ := h s hs
  have hbetter := hguards bound s hs
  rw [hrun bound (Nat.le_refl bound)] at hbetter
  cases result with
  | error e t => exact absurd hbetter.of_error.2 hends.of_error
  | ok a t => exact ⟨a, t, bound, hends.of_ok.1, hbetter.of_ok.2, hrun⟩

/-- With enough fuel there is one outcome, and it is not that the fuel ran out. -/
theorem outcome (h : Settles inv good query) {s : σ} (hs : inv s) :
    ∃ outcome, outcome ≠ .error .limitReached ∧
      ∃ bound, ∀ fuel, bound ≤ fuel → (query fuel).answer s = outcome := by
  obtain ⟨result, hends, bound, hrun⟩ := h s hs
  cases hends with
  | @ok a t _ =>
    refine ⟨.ok a, by simp, bound, fun fuel hle => ?_⟩
    rw [answer, hrun fuel hle]
  | @error e t he =>
    refine ⟨.error e, by simpa using he, bound, fun fuel hle => ?_⟩
    rw [answer, hrun fuel hle]

end Settles

/-- A question without fuel comes to an end if it is not refused for lack of fuel. -/
theorem Guards.settles {inv : σ → Prop} {good : α → Prop} {mild : Diagnostic → Prop}
    {query : Query σ α} (h : Guards inv good mild query)
    (hmild : ∀ cause, mild cause → cause ≠ .limitReached) : Settles inv good fun _ => query :=
  Settles.const fun state hstate => (h state hstate).mono (fun _ _ hanswer => hanswer.symm)
    fun cause _ hcause => hmild cause hcause.2

end Query

end Accord
