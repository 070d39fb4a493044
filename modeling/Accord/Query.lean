import Accord.Diagnostic

/-!
# Queries

Answering a question may instantiate generic definitions and remember answers,
so a question is a computation on a state.  A question that fails keeps what it
learnt on the way: the state after an error is the state reached when the error
arose.

* `Query.on` runs a question about one component of a larger state.
* `Query.outcome` turns a failure into an answer.
* `Query.demand` gives up with a diagnostic when there is no value.
* `Query.ofExcept` takes over an answer found without the state.

Questions that follow definitions may go round in circles.  They take an
argument `fuel`, which bounds how deep they go, and fail with
`Diagnostic.limitReached` when it runs out.
-/

namespace Accord

/-- A computation on a state that may be refused. -/
abbrev Query (σ : Type) := EStateM Diagnostic σ

namespace Query

variable {σ τ α : Type}

/-- A query on a component of the state, reached by `get` and put back by `set`. -/
def on (get : σ → τ) (set : σ → τ → σ) (query : Query τ α) : Query σ α := fun state =>
  match query (get state) with
  | .ok value part => .ok value (set state part)
  | .error cause part => .error cause (set state part)

/-- The outcome of a query as a value: what it answers, or why it does not. -/
def outcome (query : Query σ α) : Query σ (Except Diagnostic α) := fun state =>
  match query state with
  | .ok value state => .ok (.ok value) state
  | .error cause state => .ok (.error cause) state

/-- The value, or the given diagnostic when there is none. -/
def demand (cause : Diagnostic) : Option α → Query σ α
  | some value => pure value
  | none => throw cause

/-- An answer that does not depend on the state. -/
def ofExcept : Except Diagnostic α → Query σ α
  | .ok value => pure value
  | .error cause => throw cause

end Query

/-- The depth allowed to a query when nobody asks for another. -/
def defaultFuel : Nat := Nat.pow 2 20

end Accord
