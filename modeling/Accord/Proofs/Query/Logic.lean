import Accord.Query
import Mathlib.Data.List.Forall2
import Mathlib.Tactic.Common

/-!
# Reasoning about queries

A query runs on a state, and later queries run on the state it leaves behind.
A few things are said about that state again and again, and each has a rule for
every way in which queries are put together.

* `Query.Ends` says of one run what holds of its answer or its refusal, and of the state.
* `Query.Keeps` says that a property of the state survives a query, whether
  it answers or is refused.
* `Query.Yields` says what holds of an answer, where a property of the state survives; for
  a yes-or-no question, `Query.Decides` says what either answer means.
* `Query.Agree` compares two queries on two related states: either both answer,
  with related answers, or both are refused for one cause; the states stay
  related.
* `Query.Steady` is agreement of a query with itself, with equal answers: the query
  does not depend on what the relation lets vary in the state.
* `Query.Below` compares two queries on one state: the second answers whatever the
  first does.  This is how a query with little fuel stands to one with more.

`Query.bind_eq_ok` takes a run of a sequence apart.
-/

namespace Accord

variable {e : Diagnostic} {ι : Type} {items : List ι} {c yes' no' : Prop}

theorem Except.bind_eq_ok {ε α β : Type} {first : Except ε α} {rest : α → Except ε β} {b : β} :
    (first >>= rest) = .ok b ↔ ∃ a, first = .ok a ∧ rest a = .ok b := by
  cases first with
  | ok a =>
    show rest a = .ok b ↔ _
    simp
  | error cause =>
    show Except.error cause = .ok b ↔ _
    simp

namespace Query

variable {σ τ α β γ δ : Type}
  {query first : Query σ α} {rest : α → Query σ β} {s t u : σ} {a : α}

/-! ## Runs -/

/-- The state that a query leaves behind, whatever its outcome. -/
def after (query : Query σ α) (state : σ) : σ :=
  match query state with
  | .ok _ state => state
  | .error _ state => state

theorem after_of_ok (h : query s = .ok a t) : query.after s = t := by
  rw [after, h]

theorem after_of_error (h : query s = .error e t) : query.after s = t := by
  rw [after, h]

/-- A sequence answers when its first part does and the rest answers from there. -/
theorem bind_eq_ok {b : β} :
    (first >>= rest) s = .ok b u ↔ ∃ a t, first s = .ok a t ∧ rest a t = .ok b u := by
  change EStateM.bind first rest s = .ok b u ↔ _
  rw [EStateM.bind]
  cases h : first s with
  | ok a t => simp
  | error e t => simp

theorem bind_of_ok (h : first s = .ok a t) : (first >>= rest) s = rest a t := by
  change EStateM.bind first rest s = _
  rw [EStateM.bind, h]

theorem bind_of_error (h : first s = .error e t) : (first >>= rest) s = .error e t := by
  change EStateM.bind first rest s = _
  rw [EStateM.bind, h]

theorem get_bind (rest : σ → Query σ α) (s : σ) : (MonadState.get >>= rest) s = rest s s :=
  rfl

theorem pure_eq_ok {a b : α} : (pure a : Query σ α) s = .ok b t ↔ a = b ∧ s = t := by
  change EStateM.Result.ok a s = .ok b t ↔ _
  simp

theorem throw_ne_ok {b : α} : ¬ (throw e : Query σ α) s = .ok b t := by
  intro h
  cases h

/-- A query on a component answers when the query itself does. -/
theorem on_eq_ok {get : σ → τ} {set : σ → τ → σ} {query : Query τ α} :
    on get set query s = .ok a u ↔ ∃ t, query (get s) = .ok a t ∧ u = set s t := by
  rw [on]
  cases h : query (get s) with
  | ok b t => simp [eq_comm]
  | error e t => simp

/-- What a query answers or why it is refused, apart from the state it leaves behind. -/
def answer (query : Query σ α) (state : σ) : Except Diagnostic α :=
  match query state with
  | .ok a _ => .ok a
  | .error e _ => .error e

theorem answer_eq_ok : query.answer s = .ok a ↔ ∃ t, query s = .ok a t := by
  rw [answer]
  cases query s with
  | ok b t => simp
  | error e t => simp

theorem answer_eq_error : query.answer s = .error e ↔ ∃ t, query s = .error e t := by
  rw [answer]
  cases query s with
  | ok b t => simp
  | error e t => simp

/-! ## How a query ends -/

/-- An answer and the state it leaves have `post`, a refusal and its state have `failed`. -/
inductive Ends (post : α → σ → Prop) (failed : Diagnostic → σ → Prop) :
    EStateM.Result Diagnostic σ α → Prop where
  | ok {a : α} {s : σ} (h : post a s) : Ends post failed (.ok a s)
  | error {e : Diagnostic} {s : σ} (h : failed e s) : Ends post failed (.error e s)

section Ends

variable {post : α → σ → Prop} {failed : Diagnostic → σ → Prop}
  {result : EStateM.Result Diagnostic σ α}

theorem Ends.of_ok (h : Ends post failed (.ok a s)) : post a s := by
  cases h with
  | ok h => exact h

theorem Ends.of_error (h : Ends post failed (.error e s)) : failed e s := by
  cases h with
  | error h => exact h

theorem Ends.of_run (h : Ends post failed result) (hrun : result = .ok a s) : post a s := by
  subst hrun
  exact h.of_ok

theorem Ends.of_refusal (h : Ends post failed result) (hrun : result = .error e s) :
    failed e s := by
  subst hrun
  exact h.of_error

/-- A run that cannot be refused answers. -/
theorem Ends.exists_ok (h : Ends post failed result) (hnever : ∀ e s, ¬ failed e s) :
    ∃ a s, result = .ok a s ∧ post a s := by
  cases h with
  | ok h => exact ⟨_, _, rfl, h⟩
  | error h => exact absurd h (hnever _ _)

theorem ends_self (result : EStateM.Result Diagnostic σ α) :
    Ends (fun a s => result = .ok a s) (fun e s => result = .error e s) result := by
  cases result with
  | ok a s => exact .ok rfl
  | error e s => exact .error rfl

theorem Ends.mono {post' : α → σ → Prop} {failed' : Diagnostic → σ → Prop}
    (h : Ends post failed result) (hpost : ∀ a s, post a s → post' a s)
    (hfailed : ∀ e s, failed e s → failed' e s) : Ends post' failed' result := by
  cases h with
  | ok h => exact .ok (hpost _ _ h)
  | error h => exact .error (hfailed _ _ h)

/-- What is said of a run in two ways holds together. -/
theorem Ends.and {post' : α → σ → Prop} {failed' : Diagnostic → σ → Prop}
    (h : Ends post failed result) (h' : Ends post' failed' result) :
    Ends (fun a s => post a s ∧ post' a s) (fun e s => failed e s ∧ failed' e s) result := by
  cases h with
  | ok h => exact .ok ⟨h, h'.of_ok⟩
  | error h => exact .error ⟨h, h'.of_error⟩

/-- What holds of the state, whatever the outcome. -/
theorem ends_iff_after {inv : σ → Prop} :
    Ends (fun _ => inv) (fun _ => inv) (query s) ↔ inv (query.after s) := by
  rw [Query.after]
  cases query s with
  | ok a t => exact ⟨Ends.of_ok, fun h => .ok h⟩
  | error e t => exact ⟨Ends.of_error, fun h => .error h⟩

theorem Ends.bind {next : β → σ → Prop}
    (hfirst : Ends post failed (first s)) (hrest : ∀ a t, post a t → Ends next failed (rest a t)) :
    Ends next failed ((first >>= rest) s) := by
  cases h : first s with
  | ok a t =>
    rw [bind_of_ok h]
    exact hrest a t (hfirst.of_run h)
  | error e t =>
    rw [bind_of_error h]
    exact .error (hfirst.of_refusal h)

/-- A query on a component. -/
theorem Ends.on {get : σ → τ} {set : σ → τ → σ} {query : Query τ α}
    (h : Ends (fun a t => post a (set s t)) (fun e t => failed e (set s t)) (query (get s))) :
    Ends post failed (Query.on get set query s) := by
  rw [Query.on]
  generalize query (get s) = result at h ⊢
  cases h with
  | ok h => exact .ok h
  | error h => exact .error h

/-- An outcome is an answer. -/
theorem Ends.outcome {post : Except Diagnostic α → σ → Prop}
    (h : Ends (fun a => post (.ok a)) (fun e => post (.error e)) (query s)) :
    Ends post failed (query.outcome s) := by
  rw [Query.outcome]
  generalize query s = result at h ⊢
  cases h with
  | ok h => exact .ok h
  | error h => exact .ok h

theorem Ends.foldlM {inv : β → σ → Prop} {step : β → ι → Query σ β}
    (hstep : ∀ i ∈ items, ∀ b s, inv b s → Ends inv failed (step b i s)) {b : β}
    (h : inv b s) : Ends inv failed (items.foldlM step b s) := by
  induction items generalizing b s with
  | nil => exact .ok h
  | cons i rest ih =>
    obtain ⟨hfirst, hrest⟩ := List.forall_mem_cons.1 hstep
    rw [List.foldlM_cons]
    exact (hfirst b s h).bind fun _ _ hnext => ih hrest hnext

/-- A query for each item, where what is found lasts. -/
theorem Ends.mapM {each : ι → Query σ α} {inv : σ → Prop} {later : σ → σ → Prop}
    {found : ι → α → σ → Prop} (hrefl : ∀ s, later s s)
    (htrans : ∀ s t u, later s t → later t u → later s u)
    (hlasts : ∀ i ∈ items, ∀ a s t, inv s → inv t → later s t → found i a s → found i a t) (hstep
      : ∀ i ∈ items, ∀ s, inv s → Ends (fun a t => inv t ∧ later s t ∧ found i a t) failed (each i
      s)) (hs : inv s) :
    Ends (fun answers t => inv t ∧ later s t ∧ List.Forall₂ (fun i a => found i a t) items answers)
      failed (items.mapM each s) := by
  induction items generalizing s with
  | nil => exact .ok ⟨hs, hrefl s, .nil⟩
  | cons i rest ih =>
    obtain ⟨hfirst, hrest⟩ := List.forall_mem_cons.1 hstep
    obtain ⟨hlasts, hlasts'⟩ := List.forall_mem_cons.1 hlasts
    rw [List.mapM_cons]
    refine (hfirst s hs).bind fun a t ha => ?_
    obtain ⟨ht, hst, ha⟩ := ha
    refine (ih hlasts' hrest ht).bind fun answers u hanswers => ?_
    obtain ⟨hu, htu, hanswers⟩ := hanswers
    exact .ok ⟨hu, htrans s t u hst htu, .cons (hlasts a t u ht hu htu ha) hanswers⟩

end Ends

/-! ## What a query keeps -/

/-- The property survives the query, whether it answers or is refused. -/
def Keeps (inv : σ → Prop) (query : Query σ α) : Prop :=
  ∀ state, inv state → inv (query.after state)

section Keeps

variable {inv : σ → Prop}

/-- What a query keeps holds in the end as well. -/
theorem Ends.keeping {post : α → σ → Prop} {failed : Diagnostic → σ → Prop}
    (h : Ends post failed (query s)) (hkeeps : Keeps inv query) (hs : inv s) :
    Ends (fun a t => inv t ∧ post a t) failed (query s) :=
  ((ends_iff_after.2 (hkeeps s hs)).and h).mono (fun _ _ h => h) fun _ _ h => h.2

theorem Keeps.pure (a : α) : Keeps inv (pure a : Query σ α) :=
  fun _ h => h

theorem Keeps.throw (e : Diagnostic) : Keeps inv (throw e : Query σ α) :=
  fun _ h => h

theorem Keeps.get : Keeps inv (get : Query σ σ) :=
  fun _ h => h

/-- What the first part keeps and what the rest makes of it. -/
theorem Keeps.after_bind {weaker : σ → Prop}
    (hfirst : Keeps inv first) (hweaker : ∀ s, inv s → weaker s)
    (hrest : ∀ a s, inv s → weaker ((rest a).after s)) (hs : inv s) :
    weaker ((first >>= rest).after s) :=
  ends_iff_after.1 (((ends_iff_after.2 (hfirst s hs)).mono (fun _ _ h => h) fun _ => hweaker).bind
    fun a t ht => ends_iff_after.2 (hrest a t ht))

theorem Keeps.bind (hfirst : Keeps inv first)
    (hrest : ∀ a, Keeps inv (rest a)) : Keeps inv (first >>= rest) :=
  fun _ hs => hfirst.after_bind (fun _ h => h) hrest hs

/-- A query that reads the state first. -/
theorem Keeps.get_bind {rest : σ → Query σ α} (h : ∀ s, inv s → inv ((rest s).after s)) :
    Keeps inv (MonadState.get >>= rest) :=
  h

theorem Keeps.ite [Decidable c] {left right : Query σ α} (hleft : Keeps inv left)
    (hright : Keeps inv right) : Keeps inv (if c then left else right) := by
  split
  · exact hleft
  · exact hright

theorem Keeps.foldlM {step : β → α → Query σ β} (hstep : ∀ b a, Keeps inv (step b a))
    (items : List α) (b : β) : Keeps inv (items.foldlM step b) := by
  induction items generalizing b with
  | nil => exact Keeps.pure b
  | cons a rest ih =>
    rw [List.foldlM_cons]
    exact (hstep b a).bind ih

theorem Keeps.mapM {each : α → Query σ β} (h : ∀ a, Keeps inv (each a)) (items : List α) :
    Keeps inv (items.mapM each) := by
  induction items with
  | nil => exact Keeps.pure _
  | cons a rest ih =>
    rw [List.mapM_cons]
    exact (h a).bind fun _ => ih.bind fun _ => Keeps.pure _

theorem Keeps.demand (cause : Diagnostic) (found : Option α) :
    Keeps inv (demand cause found : Query σ α) := by
  cases found with
  | none => exact Keeps.throw _
  | some a => exact Keeps.pure _

theorem Keeps.ofExcept (result : Except Diagnostic α) :
    Keeps inv (ofExcept result : Query σ α) := by
  cases result with
  | error e => exact Keeps.throw _
  | ok a => exact Keeps.pure _

/-- A query on a component keeps what the component keeps. -/
theorem Keeps.on {part : τ → Prop} {get : σ → τ} {set : σ → τ → σ} {query : Query τ α}
    (hget : ∀ s, inv s → part (get s)) (hset : ∀ s t, inv s → part t → inv (set s t))
    (h : Keeps part query) : Keeps inv (on get set query) :=
  fun s hs => ends_iff_after.1 (.on ((ends_iff_after.2 (h _ (hget s hs))).mono
    (fun _ t => hset s t hs) fun _ t => hset s t hs))

theorem Keeps.outcome (h : Keeps inv query) : Keeps inv (outcome query) :=
  fun s hs => ends_iff_after.1 (.outcome (ends_iff_after.2 (h s hs)))

end Keeps

/-! ## What answers tell -/

/-- From a state with `inv`, an answer is good and leaves a state with `inv` behind. -/
def Yields (inv : σ → Prop) (good : α → Prop) (query : Query σ α) : Prop :=
  ∀ s a t, inv s → query s = .ok a t → inv t ∧ good a

section Yields

variable {inv : σ → Prop} {good : α → Prop}

theorem Keeps.yields (h : Keeps inv query) : Yields inv (fun _ => True) query := by
  intro s a t hs hrun
  have hafter := h s hs
  rw [after_of_ok hrun] at hafter
  exact ⟨hafter, trivial⟩

theorem Yields.pure (h : good a) : Yields inv good (pure a : Query σ α) := by
  intro s b t hs hrun
  obtain ⟨rfl, rfl⟩ := pure_eq_ok.1 hrun
  exact ⟨hs, h⟩

theorem Yields.throw (e : Diagnostic) : Yields inv good (throw e : Query σ α) :=
  fun _ _ _ _ hrun => absurd hrun throw_ne_ok

theorem Yields.bind {next : β → Prop}
    (hfirst : Yields inv good first) (hrest : ∀ a, good a → Yields inv next (rest a)) :
    Yields inv next (first >>= rest) := by
  intro s b u hs hrun
  obtain ⟨a, t, hmid, hlast⟩ := bind_eq_ok.1 hrun
  obtain ⟨ht, ha⟩ := hfirst s a t hs hmid
  exact hrest a ha t b u ht hlast

/-- The rest of a sequence tells what it answers, whatever its first part answers. -/
theorem Yields.last {next : β → Prop} (h : ∀ a, Yields (fun _ => True) next (rest a)) :
    Yields (fun _ => True) next (first >>= rest) :=
  Yields.bind (fun _ _ _ _ _ => ⟨trivial, trivial⟩) fun a (_ : True) => h a

theorem Yields.ofExcept {result : Except Diagnostic α} (h : ∀ a, result = .ok a → good a) :
    Yields inv good (Query.ofExcept result : Query σ α) := by
  cases result with
  | error e => exact Yields.throw e
  | ok a => exact Yields.pure (h a rfl)

theorem Yields.mono {weaker : α → Prop} (h : Yields inv good query)
    (hgood : ∀ a, good a → weaker a) : Yields inv weaker query :=
  fun s a t hs hrun => (h s a t hs hrun).imp_right (hgood a)

theorem Yields.ite [Decidable c] {left right : Query σ α} (hleft : Yields inv good left)
    (hright : Yields inv good right) : Yields inv good (if c then left else right) := by
  split
  · exact hleft
  · exact hright

theorem Yields.foldlM {step : α → ι → Query σ α}
    (hstep : ∀ i ∈ items, ∀ a, good a → Yields inv good (step a i)) (ha : good a) :
    Yields inv good (items.foldlM step a) := by
  induction items generalizing a with
  | nil => exact Yields.pure ha
  | cons i rest ih =>
    obtain ⟨hfirst, hrest⟩ := List.forall_mem_cons.1 hstep
    rw [List.foldlM_cons]
    exact (hfirst a ha).bind fun _ hb => ih hrest hb

/-- A query for each item finds out about each item. -/
theorem Yields.forM {each : ι → Query σ PUnit} {found : ι → Prop}
    (h : ∀ i ∈ items, Yields inv (fun _ => found i) (each i)) :
    Yields inv (fun _ => ∀ i ∈ items, found i) (items.forM each) := by
  induction items with
  | nil => exact Yields.pure (by simp)
  | cons i rest ih =>
    obtain ⟨hfirst, hrest⟩ := List.forall_mem_cons.1 h
    refine hfirst.bind fun _ hi => (ih hrest).mono fun _ hall => ?_
    exact List.forall_mem_cons.2 ⟨hi, hall⟩

theorem Yields.mapM {each : ι → Query σ α} (h : ∀ i ∈ items, Yields inv (fun _ => True) (each i)) :
    Yields inv (fun _ => True) (items.mapM each) := by
  induction items with
  | nil => exact Yields.pure trivial
  | cons i rest ih =>
    obtain ⟨hfirst, hrest⟩ := List.forall_mem_cons.1 h
    rw [List.mapM_cons]
    exact hfirst.bind fun _ _ => (ih hrest).bind fun _ _ => Yields.pure trivial

/-- What a component yields, the whole yields. -/
theorem Yields.on {part : τ → Prop} {get : σ → τ} {set : σ → τ → σ} {query : Query τ α}
    (hget : ∀ s, inv s → part (get s)) (hset : ∀ s t, inv s → part t → inv (set s t))
    (h : Yields part good query) : Yields inv good (on get set query) := by
  intro s a u hs hrun
  obtain ⟨t, hpart, rfl⟩ := on_eq_ok.1 hrun
  obtain ⟨ht, ha⟩ := h _ a t (hget s hs) hpart
  exact ⟨hset s t hs ht, ha⟩

end Yields

/-- The answer `true` means `yes`, the answer `false` means `no`. -/
def Decides (inv : σ → Prop) (yes no : Prop) (query : Query σ Bool) : Prop :=
  Yields inv (fun answer => (answer = true → yes) ∧ (answer = false → no)) query

section Decides

variable {inv : σ → Prop} {yes no : Prop}

theorem Decides.true (h : yes) : Decides inv yes no (Pure.pure Bool.true : Query σ Bool) :=
  Yields.pure ⟨fun _ => h, fun h => by cases h⟩

theorem Decides.false (h : no) : Decides inv yes no (Pure.pure Bool.false : Query σ Bool) :=
  Yields.pure ⟨fun h => (by cases h), fun _ => h⟩

theorem Decides.imp {query : Query σ Bool} (h : Decides inv yes no query) (hyes : yes → yes')
    (hno : no → no') : Decides inv yes' no' query :=
  Yields.mono h fun _ hanswer => ⟨fun h => hyes (hanswer.1 h), fun h => hno (hanswer.2 h)⟩

/-- A decision, and what is decided then. -/
theorem Decides.cond {first left right : Query σ Bool} (hfirst : Decides inv yes no first)
    (hleft : yes → Decides inv yes' no' left) (hright : no → Decides inv yes' no' right) :
    Decides inv yes' no' (first >>= fun answer => if answer then left else right) := by
  refine Yields.bind hfirst fun answer hanswer => ?_
  cases answer with
  | true => exact hleft (hanswer.1 rfl)
  | false => exact hright (hanswer.2 rfl)

end Decides

/-! ## Two runs side by side -/

/-- Two outcomes that say the same: related answers or one cause, in related states. -/
inductive Agreeing (rel : σ → τ → Prop) (same : α → β → Prop) :
    EStateM.Result Diagnostic σ α → EStateM.Result Diagnostic τ β → Prop where
  | ok {a : α} {b : β} {s : σ} {t : τ} (answers : same a b) (states : rel s t) :
      Agreeing rel same (.ok a s) (.ok b t)
  | error {e : Diagnostic} {s : σ} {t : τ} (states : rel s t) :
      Agreeing rel same (.error e s) (.error e t)

/-- On related states, two queries have outcomes that say the same. -/
def Agree (rel : σ → τ → Prop) (same : α → β → Prop) (left : Query σ α)
    (right : Query τ β) : Prop :=
  ∀ s t, rel s t → Agreeing rel same (left s) (right t)

section Agree

variable {rel : σ → τ → Prop} {same : α → β → Prop}

theorem Agree.pure {a : α} {b : β} (h : same a b) :
    Agree rel same (pure a : Query σ α) (pure b : Query τ β) :=
  fun _ _ hst => .ok h hst

theorem Agree.throw (e : Diagnostic) : Agree rel same (throw e : Query σ α) (throw e : Query τ β) :=
  fun _ _ hst => .error hst

theorem Agree.bind {after : γ → δ → Prop} {left : Query σ α} {right : Query τ β}
    {leftRest : α → Query σ γ} {rightRest : β → Query τ δ}
    (hfirst : Agree rel same left right)
    (hrest : ∀ a b, same a b → Agree rel after (leftRest a) (rightRest b)) :
    Agree rel after (left >>= leftRest) (right >>= rightRest) := by
  intro s t hst
  have h := hfirst s t hst
  change Agreeing rel after (EStateM.bind left leftRest s) (EStateM.bind right rightRest t)
  rw [EStateM.bind, EStateM.bind]
  generalize left s = leftResult, right t = rightResult at h ⊢
  cases h with
  | ok hab huv => exact hrest _ _ hab _ _ huv
  | error huv => exact .error huv

theorem Agreeing.mono {weaker : α → β → Prop} {left : EStateM.Result Diagnostic σ α}
    {right : EStateM.Result Diagnostic τ β} (h : Agreeing rel same left right)
    (hsame : ∀ a b, same a b → weaker a b) : Agreeing rel weaker left right := by
  cases h with
  | ok hab huv => exact .ok (hsame _ _ hab) huv
  | error huv => exact .error huv

theorem Agree.mono {weaker : α → β → Prop} {left : Query σ α} {right : Query τ β}
    (h : Agree rel same left right) (hsame : ∀ a b, same a b → weaker a b) :
    Agree rel weaker left right :=
  fun s t hst => (h s t hst).mono hsame

theorem Agree.ite [Decidable c] {left left' : Query σ α} {right right' : Query τ β}
    (hthen : Agree rel same left right) (helse : Agree rel same left' right') :
    Agree rel same (if c then left else left') (if c then right else right') := by
  split
  · exact hthen
  · exact helse

/-- Where one of two agreeing queries answers, so does the other. -/
theorem Agree.ok_right {left : Query σ α} {right : Query τ β} {s u : σ} {t : τ} {a : α}
    (h : Agree rel same left right) (hst : rel s t) (hrun : left s = .ok a u) :
    ∃ b v, right t = .ok b v ∧ same a b ∧ rel u v := by
  have hboth := h s t hst
  rw [hrun] at hboth
  cases hr : right t with
  | ok b v =>
    rw [hr] at hboth
    cases hboth with
    | ok hab huv => exact ⟨b, v, rfl, hab, huv⟩
  | error e v =>
    rw [hr] at hboth
    cases hboth

/-- Agreeing queries on components agree on states that are related through them. -/
theorem Agree.on {σ' τ' : Type} {part : σ' → τ' → Prop} {get : σ → σ'} {get' : τ → τ'}
    {set : σ → σ' → σ} {set' : τ → τ' → τ} {left : Query σ' α} {right : Query τ' β}
    (hget : ∀ s t, rel s t → part (get s) (get' t))
    (hset : ∀ s t u v, rel s t → part u v → rel (set s u) (set' t v))
    (h : Agree part same left right) :
    Agree rel same (on get set left) (on get' set' right) := by
  intro s t hst
  have hpart := h (get s) (get' t) (hget s t hst)
  rw [Query.on, Query.on]
  generalize left (get s) = leftResult, right (get' t) = rightResult at hpart ⊢
  cases hpart with
  | ok hab huv => exact .ok hab (hset s t _ _ hst huv)
  | error huv => exact .error (hset s t _ _ hst huv)

end Agree

/-- On related states the query has one outcome, and what it answers is good. -/
def Steady (rel : σ → σ → Prop) (good : α → Prop) (query : Query σ α) : Prop :=
  Agree rel (fun a b => a = b ∧ good a) query query

section Steady

variable {rel : σ → σ → Prop} {good : α → Prop}

theorem Steady.pure (h : good a) : Steady rel good (pure a : Query σ α) :=
  Agree.pure ⟨rfl, h⟩

theorem Steady.throw (e : Diagnostic) : Steady rel good (throw e : Query σ α) :=
  Agree.throw e

/-- What agrees on one good answer agrees after a steady query. -/
theorem Steady.bindAgree {same : β → γ → Prop} {left : α → Query σ β}
    {right : α → Query σ γ} (hfirst : Steady rel good first)
    (hrest : ∀ a, good a → Agree rel same (left a) (right a)) :
    Agree rel same (first >>= left) (first >>= right) := by
  refine Agree.bind hfirst fun a b hab => ?_
  obtain ⟨rfl, ha⟩ := hab
  exact hrest a ha

theorem Steady.bind {next : β → Prop}
    (hfirst : Steady rel good first) (hrest : ∀ a, good a → Steady rel next (rest a)) :
    Steady rel next (first >>= rest) :=
  hfirst.bindAgree hrest

theorem Steady.ite [Decidable c] {left right : Query σ α} (hleft : Steady rel good left)
    (hright : Steady rel good right) :
    Steady rel good (if c then left else right) :=
  Agree.ite hleft hright

/-- An answer in one state is the answer in every related state. -/
theorem Steady.ok (h : Steady rel good query) (hst : rel s t) (hrun : query s = .ok a u) :
    good a ∧ ∃ v, query t = .ok a v ∧ rel u v := by
  obtain ⟨b, v, hright, ⟨rfl, hgood⟩, huv⟩ := Agree.ok_right h hst hrun
  exact ⟨hgood, v, hright, huv⟩

theorem Steady.answer_eq (h : Steady rel good query)
    (hst : rel s t) : query.answer s = query.answer t := by
  have hboth := h s t hst
  rw [answer, answer]
  generalize query s = left, query t = right at hboth ⊢
  cases hboth with
  | ok hab _ => rw [hab.1]
  | error _ => rfl

end Steady

/-! ## Queries that answer more -/

/-- What the first query answers, the second answers too, and leaves the same state
behind. -/
def Below (less more : Query σ α) : Prop :=
  ∀ s a t, less s = .ok a t → more s = .ok a t

theorem Below.refl (query : Query σ α) : Below query query :=
  fun _ _ _ h => h

theorem Below.throw (e : Diagnostic) (query : Query σ α) : Below (throw e) query :=
  fun _ _ _ h => absurd h throw_ne_ok

theorem Below.bind {less more : Query σ α} {lessRest moreRest : α → Query σ β}
    (h : Below less more) (hrest : ∀ a, Below (lessRest a) (moreRest a)) :
    Below (less >>= lessRest) (more >>= moreRest) := by
  intro s b u hrun
  obtain ⟨a, t, hfirst, hlast⟩ := bind_eq_ok.1 hrun
  rw [bind_of_ok (h s a t hfirst)]
  exact hrest a t b u hlast

theorem Below.ite [Decidable c] {less more less' more' : Query σ α} (h : Below less more)
    (h' : Below less' more') : Below (if c then less else less') (if c then more else more') := by
  split
  · exact h
  · exact h'

theorem Below.foldlM {lessStep moreStep : β → α → Query σ β}
    (h : ∀ b a, Below (lessStep b a) (moreStep b a)) (items : List α) (b : β) :
    Below (items.foldlM lessStep b) (items.foldlM moreStep b) := by
  induction items generalizing b with
  | nil => exact Below.refl _
  | cons a rest ih =>
    rw [List.foldlM_cons, List.foldlM_cons]
    exact (h b a).bind ih

end Query

end Accord
