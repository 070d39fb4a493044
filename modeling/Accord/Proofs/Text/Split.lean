import Mathlib

/-!
# Reading texts back

Keys are texts put together from parts with separators between them.  A part is
read back when the separator does not occur in it.

* `eq_of_append_cons_eq` splits two equal texts at the first separator.
* `eq_of_append_cons_eq_last` splits them at the last one.
* `not_mem_numeral` says which characters a written number does not hold.
-/

namespace Accord

variable {α : Type}

/-- Two equal texts with a separator that occurs in neither first part have equal first
parts and equal rests. -/
theorem eq_of_append_cons_eq {c : α} {u v r s : List α} (hu : c ∉ u) (hv : c ∉ v)
    (h : u ++ c :: r = v ++ c :: s) : u = v ∧ r = s := by
  induction u generalizing v with
  | nil =>
    cases v with
    | nil => exact ⟨rfl, (List.cons.inj h).2⟩
    | cons y v =>
      have hcy : c = y := (List.cons.inj h).1
      simp [hcy] at hv
  | cons x u ih =>
    cases v with
    | nil =>
      have hxc : x = c := (List.cons.inj h).1
      simp [hxc] at hu
    | cons y v =>
      obtain ⟨hxy, hrest⟩ := List.cons.inj h
      obtain ⟨hparts, hr⟩ := ih (List.not_mem_of_not_mem_cons hu)
        (List.not_mem_of_not_mem_cons hv) hrest
      exact ⟨by rw [hxy, hparts], hr⟩

/-- The same for a separator that occurs in neither last part. -/
theorem eq_of_append_cons_eq_last {c : α} {u v r s : List α} (hr : c ∉ r) (hs : c ∉ s)
    (h : u ++ c :: r = v ++ c :: s) : u = v ∧ r = s := by
  have hrev : r.reverse ++ c :: u.reverse = s.reverse ++ c :: v.reverse := by
    have := congrArg List.reverse h
    simpa using this
  obtain ⟨hparts, hrest⟩ := eq_of_append_cons_eq (by simpa using hr) (by simpa using hs) hrev
  exact ⟨List.reverse_injective hrest, List.reverse_injective hparts⟩

/-- A written number holds digits only. -/
theorem not_mem_numeral {c : Char} (n : Nat) (hc : c.isDigit = false) : c ∉ Nat.toDigits 10 n := by
  intro hmem
  have := Nat.isDigit_of_mem_toDigits (by decide) (by decide) hmem
  simp [hc] at this

end Accord
