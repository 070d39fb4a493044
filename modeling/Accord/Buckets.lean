/-!
# Buckets

Lists of items under keys.  An item is pushed to the end of the list of its key, and a key that
is new gets a list of its own.
-/

namespace Accord

/-- Lists of items, each under its key. -/
structure Buckets (α : Type) where
  lists : List (String × List α) := []

namespace Buckets

variable {α : Type}

/-- The items under a key; none if the key is not there. -/
def get (buckets : Buckets α) (key : String) : List α :=
  (buckets.lists.lookup key).getD []

/-- Whether the key is there. -/
def contains (buckets : Buckets α) (key : String) : Bool :=
  (buckets.lists.lookup key).isSome

/-- Adds an item to the list of its key, or a list if there is none. -/
def pushInto (key : String) (item : α) : List (String × List α) → List (String × List α)
  | [] => [(key, [item])]
  | (other, items) :: rest =>
    bif key == other then (other, items ++ [item]) :: rest
    else (other, items) :: pushInto key item rest

/-- Adds an item under a key. -/
def push (buckets : Buckets α) (key : String) (item : α) : Buckets α :=
  { lists := pushInto key item buckets.lists }

theorem lookup_pushInto (key other : String) (item : α) (lists : List (String × List α)) :
    (pushInto key item lists).lookup other =
      if key = other then some ((lists.lookup other).getD [] ++ [item])
      else lists.lookup other := by
  induction lists with
  | nil =>
    by_cases hkey : key = other
    · simp [pushInto, hkey]
    · simp [pushInto, hkey, List.lookup_cons, beq_eq_false_iff_ne.2 (Ne.symm hkey)]
  | cons first rest ih =>
    obtain ⟨name, items⟩ := first
    by_cases hname : key = name <;> grind [pushInto]

@[simp] theorem get_empty (key : String) : ({} : Buckets α).get key = [] := rfl

@[simp] theorem contains_empty (key : String) : ({} : Buckets α).contains key = false := rfl

theorem get_push (buckets : Buckets α) (key other : String) (item : α) :
    (buckets.push key item).get other =
      buckets.get other ++ if key = other then [item] else [] := by
  rw [get, push, lookup_pushInto]
  split <;> simp [get]

theorem contains_push (buckets : Buckets α) (key other : String) (item : α) :
    (buckets.push key item).contains other = (buckets.contains other || key == other) := by
  rw [contains, push, lookup_pushInto]
  split <;> simp_all [contains]

end Buckets

end Accord
