import Accord.Proofs.Program.Frame
import Accord.Proofs.Types.Resolved

/-!
# Questions asked again

A question about types that has been answered is answered at once when it is asked again.
Whatever was asked meanwhile, the answer is the same, and the table stays as it is, because
the instances that the question needs are there.  Plain names are all that this takes.
Definitions of every kind may be generic: an instance stays what it was when it was made.

* `TypeTable.Spelled` is the invariant of the tables.
* `Holder.Replays` says it of two questions, the second asked at any later time, and has a
  rule for each way of putting questions together.
-/

namespace Accord

open Query TypeTable

variable {suffix : String} {e : Diagnostic}

/-! ## Look-ups -/

/-- Keys say what they stand for, and the names in instances are plain. -/
structure TypeTable.Spelled (table : TypeTable) : Prop extends table.Keyed where
  instanceBodies : ∀ entry ∈ table.instances, entry.2.PlainBody

theorem TypeTable.Variant.spelled {base : TypeTable} (h : base.Variant base) : base.Spelled :=
  ⟨h.orderly.keyed, fun _ hentry => h.reached.plainBody h.plain _ ⟨_, .inr hentry⟩⟩

theorem TypeTable.Spelled.plainBody {table : TypeTable} (h : table.Spelled)
    {definition : TypeDef} (hhas : table.Has definition) : definition.PlainBody := by
  obtain ⟨key, hstored | hinstance⟩ := hhas
  · have hplain := h.definitions _ hstored
    simp only [TypeDef.plain, Bool.and_eq_true, List.all_eq_true] at hplain
    exact hplain.2
  · exact h.instanceBodies _ hinstance

/-- Look-ups leave names plain. -/
theorem TypeTable.Spelled.of_found {table grown : TypeTable} (h : table.Spelled) {ref : TypeRef}
    (hplain : ref.plain) {names : List String} (hlength : names.length = ref.arguments.length)
    (hnames : ∀ name ∈ names, ArgumentText name) {package : String} (hpackage : isPlainName package)
    {declared found : TypeDef}
    (hlookup : table.stored.lookup (typeKey package ref.name ref.arguments.length) = some declared)
    (hfound : table.Found ref (ref.keyIn package names) declared found grown) : grown.Spelled := by
  refine ⟨hfound.keyed hlength h.toKeyed hplain hnames hpackage hlookup, ?_⟩
  cases hfound with
  | made =>
    have hbody := h.plainBody ⟨_, .inl (mem_of_lookup hlookup)⟩
    exact List.forall_mem_cons.2 ⟨hbody.instance hplain, h.instanceBodies⟩
  | _ => exact h.instanceBodies

/-! ## Asking again -/

/-- States that hold a table of types, and the good ones among them.  A state is beside
another if it knows the same, with a table of its own. -/
structure Holder (σ : Type) where
  types : σ → TypeTable
  good : σ → Prop
  beside : TypeTable → σ → σ → Prop
  spelled : ∀ {s}, good s → (types s).Spelled
  exists_beside : ∀ {s}, good s → ∀ later, ∃ s', beside later s s'

/-- An answer that the given question repeats at any later time, without changing the
table. -/
structure Holder.Repeats {σ α β : Type} (held : Holder σ) (same : α → β → Prop)
    (again : Query σ β) (s : σ) (a : α) (t : σ) : Prop where
  good : held.good t
  before : (held.types s).Before (held.types t)
  repeats : ∀ later : TypeTable, later.Spelled → (held.types t).Before later →
    ∀ s', held.beside later s s' →
      ∃ b t', again s' = .ok b t' ∧ held.beside later t t' ∧ same a b

/-- A refusal that not only plans have, in a good state. -/
structure Holder.Refuses {σ : Type} (held : Holder σ) (e : Diagnostic) (t : σ) : Prop where
  good : held.good t
  unplanned : e.isPlanning = false

/-- In a good state, the second question repeats what the first answers. -/
def Holder.Replays {σ α β : Type} (held : Holder σ) (same : α → β → Prop) (left : Query σ α)
    (right : Query σ β) : Prop :=
  ∀ s, held.good s → Ends (held.Repeats same right s) held.Refuses (left s)

namespace Holder.Replays

variable {σ α β γ δ : Type} {held : Holder σ} {same : α → β → Prop}

theorem pure {a : α} {b : β} (h : same a b) :
    held.Replays same (pure a : Query σ α) (pure b : Query σ β) :=
  fun _ hs => .ok ⟨hs, .refl _, fun _ _ _ s' hs' => ⟨b, s', rfl, hs', h⟩⟩

theorem throw (h : e.isPlanning = false) (right : Query σ β) :
    held.Replays same (throw e : Query σ α) right :=
  fun _ hs => .error ⟨hs, h⟩

theorem bind {next : γ → δ → Prop} {left : Query σ α} {right : Query σ β}
    {leftRest : α → Query σ γ} {rightRest : β → Query σ δ} (h : held.Replays same left right)
    (hrest : ∀ a b, same a b → held.Replays next (leftRest a) (rightRest b)) :
    held.Replays next (left >>= leftRest) (right >>= rightRest) := by
  intro s hs
  refine (h s hs).bind fun a t hfirst => ?_
  obtain ⟨other, hother⟩ := held.exists_beside hs (held.types t)
  obtain ⟨now, _, _, _, hnow⟩ :=
    hfirst.repeats (held.types t) (held.spelled hfirst.good) (.refl _) other hother
  have hlast := hrest a now hnow t hfirst.good
  cases hrun : leftRest a t with
  | error e u =>
    exact .error (hlast.of_refusal hrun)
  | ok c u =>
    obtain ⟨hu, htu, _⟩ := hlast.of_run hrun
    refine .ok ⟨hu, hfirst.before.trans htu, fun later hlater hbefore s' hs' => ?_⟩
    obtain ⟨b, t', hright, ht', hab⟩ := hfirst.repeats later hlater (htu.trans hbefore) s' hs'
    rw [bind_of_ok hright]
    exact ((hrest a b hab t hfirst.good).of_run hrun).repeats later hlater hbefore t' ht'

theorem mono {weaker : α → β → Prop} {left : Query σ α} {right : Query σ β}
    (h : held.Replays same left right) (hsame : ∀ a b, same a b → weaker a b) :
    held.Replays weaker left right := by
  intro s hs
  refine (h s hs).mono (fun a t hrun => ?_) fun _ _ hrun => hrun
  refine ⟨hrun.good, hrun.before, fun later hlater hbefore s' hs' => ?_⟩
  obtain ⟨b, t', hright, ht', hab⟩ := hrun.repeats later hlater hbefore s' hs'
  exact ⟨b, t', hright, ht', hsame a b hab⟩

variable {left : Query σ α} {right : Query σ β} (h : held.Replays same left right)

include h

theorem ok {s t : σ} {a : α} (hs : held.good s) (hrun : left s = .ok a t) :
    held.Repeats same right s a t := by
  exact (h s hs).of_run hrun

theorem error {s t : σ} (hs : held.good s) (hrun : left s = .error e t) : held.Refuses e t := by
  exact (h s hs).of_refusal hrun

theorem keeps : Keeps held.good left := by
  intro s hs
  cases hrun : left s with
  | ok a t =>
    rw [after_of_ok hrun]
    exact (h.ok hs hrun).good
  | error e t =>
    rw [after_of_error hrun]
    exact (h.error hs hrun).good

end Holder.Replays

/-! ## Names -/

/-- A spelled table with the definitions of another. -/
structure TypeTable.SpelledOver (base table : TypeTable) : Prop extends base.Over table where
  spelled : table.Spelled

/-- A kind of spelled tables. -/
structure TableKind where
  has : TypeTable → Prop
  spelled : ∀ {table}, has table → table.Spelled

/-- Tables hold themselves.  The good ones are those of the kind. -/
def TableKind.held (kind : TableKind) : Holder TypeTable where
  types := id
  good := kind.has
  beside later _ other := other = later
  spelled := kind.spelled
  exists_beside _ later := ⟨later, rfl⟩

/-- Every spelled table. -/
def spelledTables : TableKind :=
  ⟨Spelled, id⟩

def tables : Holder TypeTable :=
  spelledTables.held

/-- A question about types that repeats an answer finds the later table as it is. -/
theorem Holder.Repeats.later {kind : TableKind} {α β : Type} {same : α → β → Prop}
    {again : TypeQuery β} {s t : TypeTable} {a : α}
    (hrun : kind.held.Repeats same again s a t) {later : TypeTable} (hlater : later.Spelled)
    (hbefore : t.Before later) : ∃ b, again later = .ok b later ∧ same a b := by
  obtain ⟨b, _, hright, rfl, hab⟩ := hrun.repeats later hlater hbefore later rfl
  exact ⟨b, hright, hab⟩

/-- A question about types is answered again, and what it answers is good. -/
abbrev Again {α : Type} (good : α → Prop) (query : TypeQuery α) : Prop :=
  tables.Replays (fun a b => a = b ∧ good a) query query

end Accord
