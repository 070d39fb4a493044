import Accord.Package.Reach
import Accord.Proofs.Package.Files
import Mathlib.Logic.Relation

/-!
# The walk over imports is exact

`Project.reachable` lists the packages that can be reached from a package by imports, that
package first and none twice.

* `Project.Walking` is the invariant of the walk: what is expanded or waits in the queue is
  reached, and every import of an expanded package is expanded or waits.
* `Walking.skip` and `Walking.expand` are the two kinds of steps, and `walk_walking` the whole
  walk.  A package may wait many times.  What bounds the walk is the number of imports in files
  that have not been read yet (`unread`): expanding a package reads its files.
-/

namespace Accord

namespace Project

variable {project : Project} {start package other : String} {queue order : List String}

/-- Some file of the first package imports the second. -/
def Imports (project : Project) (package other : String) : Prop :=
  ∃ file ∈ project.files, file.package = package ∧ other ∈ file.imports

theorem mem_importsFrom : other ∈ project.importsFrom package ↔ project.Imports package other := by
  simp [importsFrom, filesOf_eq, Imports, and_assoc]

/-! ## What is left to read -/

/-- The imports in files of packages that are not among the given ones. -/
def unread (project : Project) (order : List String) : List String :=
  (project.files.filter fun file => !order.contains file.package).flatMap (·.imports)

/-- Expanding a package reads its imports. -/
theorem length_unread (hnew : package ∉ order) (project : Project) :
    (project.unread (order ++ [package])).length + (project.importsFrom package).length =
      (project.unread order).length := by
  rw [importsFrom, filesOf_eq]
  unfold unread
  induction project.files with
  | nil => rfl
  | cons file files ih =>
    by_cases hown : file.package = package
    · simp [hown, hnew] at ih ⊢
      omega
    · by_cases hold : file.package ∈ order
      · simp [hown, hold] at ih ⊢
        omega
      · simp [hown, hold] at ih ⊢
        omega

/-! ## The invariant -/

/-- What holds while packages are taken off the queue. -/
structure Walking (project : Project) (start : String) (queue order : List String) : Prop where
  nodup : order.Nodup
  reached : ∀ package ∈ order ++ queue, Relation.ReflTransGen project.Imports start package
  closed : ∀ package ∈ order, ∀ other, project.Imports package other → other ∈ order ++ queue
  first : (order ++ queue).head? = some start

theorem walking_start (project : Project) (start : String) : project.Walking start [start] [] where
  nodup := List.nodup_nil
  reached := by
    intro package hmem
    rw [List.mem_singleton.1 hmem]
  closed := by simp
  first := rfl

/-- A package that has been expanded is taken off the queue. -/
theorem Walking.skip (h : project.Walking start (package :: queue) order)
    (hold : package ∈ order) : project.Walking start queue order where
  nodup := h.nodup
  reached := fun other hmem => h.reached other (by
    rcases List.mem_append.1 hmem with hmem | hmem <;> simp [hmem])
  closed := by
    intro expanded hexpanded other himport
    have hmem := h.closed expanded hexpanded other himport
    rcases List.mem_append.1 hmem with hmem | hmem
    · exact List.mem_append_left _ hmem
    · rcases List.mem_cons.1 hmem with rfl | hmem
      · exact List.mem_append_left _ hold
      · exact List.mem_append_right _ hmem
  first := by
    have hfirst := h.first
    cases order with
    | nil => cases hold
    | cons first rest => exact hfirst

/-- A package that has not been expanded is, and its imports wait from then on. -/
theorem Walking.expand (h : project.Walking start (package :: queue) order)
    (hnew : package ∉ order) :
    project.Walking start (queue ++ (project.importsFrom package).filter
      fun other => !(order ++ [package]).contains other) (order ++ [package]) where
  nodup := List.nodup_append.2 ⟨h.nodup, List.nodup_singleton _, by
    rintro other hother _ hlast rfl
    exact hnew (List.mem_singleton.1 hlast ▸ hother)⟩
  reached := by
    have hpackage := h.reached package (by simp)
    intro other hmem
    rcases List.mem_append.1 hmem with hmem | hmem
    · exact h.reached other (by simpa using Or.imp_right Or.inl (List.mem_append.1 hmem))
    · rcases List.mem_append.1 hmem with hmem | hmem
      · exact h.reached other (by simp [hmem])
      · exact hpackage.tail (mem_importsFrom.1 (List.mem_filter.1 hmem).1)
  closed := by
    intro expanded hexpanded other himport
    by_cases hseen : other ∈ order ++ [package]
    · exact List.mem_append_left _ hseen
    · -- What is not expanded waited already, or is an import of the package at hand.
      refine List.mem_append_right _ ?_
      rcases List.mem_append.1 hexpanded with hold | hlast
      · have hmem := h.closed expanded hold other himport
        rw [List.mem_append, List.mem_singleton, not_or] at hseen
        have hwaits := (List.mem_append.1 hmem).resolve_left hseen.1
        exact List.mem_append_left _ ((List.mem_cons.1 hwaits).resolve_left hseen.2)
      · rw [List.mem_singleton.1 hlast] at himport
        refine List.mem_append_right _ (List.mem_filter.2 ⟨mem_importsFrom.2 himport, ?_⟩)
        simpa using hseen
  first := by
    have hfirst := h.first
    cases order with
    | nil => exact hfirst
    | cons first rest => exact hfirst

/-- A walk with enough steps empties the queue. -/
theorem walk_walking {steps : Nat} (h : project.Walking start queue order)
    (hsteps : queue.length + (project.unread order).length ≤ steps) :
    project.Walking start [] (project.walk steps queue order) := by
  induction steps generalizing queue order with
  | zero =>
    have hempty : queue = [] := List.eq_nil_of_length_eq_zero (by omega)
    subst hempty
    exact h
  | succ steps ih =>
    cases queue with
    | nil => exact h
    | cons package queue =>
      rw [List.length_cons] at hsteps
      by_cases hold : package ∈ order
      · have hstep : project.walk (steps + 1) (package :: queue) order =
            project.walk steps queue order := by
          simp [walk, hold]
        rw [hstep]
        exact ih (h.skip hold) (by omega)
      · have hstep : project.walk (steps + 1) (package :: queue) order =
            project.walk steps (queue ++ (project.importsFrom package).filter
              fun other => !(order ++ [package]).contains other) (order ++ [package]) := by
          simp [walk, hold]
        rw [hstep]
        refine ih (h.expand hold) ?_
        have hread := length_unread hold project
        have hwaiting := List.length_filter_le
          (fun other => !(order ++ [package]).contains other) (project.importsFrom package)
        rw [List.length_append]
        omega

/-! ## The packages within reach -/

theorem reachable_walking (project : Project) (package : String) :
    project.Walking package [] (project.reachable package) := by
  have hunread : project.unread [] = project.files.flatMap (·.imports) := by
    simp [unread, List.filter_true]
  refine walk_walking (walking_start project package) ?_
  rw [hunread, walkBound, List.length_singleton]
  omega

theorem head?_reachable (project : Project) (package : String) :
    (project.reachable package).head? = some package := by
  simpa using (reachable_walking project package).first

theorem nodup_reachable (project : Project) (package : String) :
    (project.reachable package).Nodup :=
  (reachable_walking project package).nodup

/-- A package is listed exactly if imports lead to it. -/
theorem mem_reachable :
    other ∈ project.reachable package ↔ Relation.ReflTransGen project.Imports package other := by
  have hwalk := reachable_walking project package
  constructor
  · intro hmem
    exact hwalk.reached other (by simpa using hmem)
  · intro hreach
    induction hreach with
    | refl => exact List.mem_of_mem_head? (head?_reachable project package)
    | tail _ himport ih => simpa using hwalk.closed _ ih _ himport

end Project

end Accord
