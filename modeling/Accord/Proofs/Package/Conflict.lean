import Accord.Package.Conflict
import Accord.Proofs.Package.Reach

/-!
# Conflicts between packages are found exactly

A project passes `Project.checkPackages` exactly if within the reach of each of its packages
every pattern is defined by one package at most.

The check enters patterns one by one and keeps the first owner of each.  `Records` says that the
owners are those of a set of claims (who defines which pattern), and `Settles` what a step may
answer when a claim is added: owners that record all the claims, or an error if two packages
claim one pattern.  The two folds of the check add the claims of one package and then those of
every package in reach.
-/

namespace Accord

variable {more : Claims} {outcome : Except Diagnostic Owners}

namespace Project

variable {project : Project} {viewer package : String} {owners : Owners}

/-- Some file of the package has a definition of the pattern. -/
def Defines (project : Project) (package pattern : String) : Prop :=
  ∃ file ∈ project.files, file.package = package ∧
    ∃ definition ∈ file.types, definition.pattern = pattern

theorem mem_patternsOf {pattern : String} :
    pattern ∈ project.patternsOf package ↔ project.Defines package pattern := by
  simp [patternsOf, filesOf_eq, Defines, and_assoc]

/-! ## Claims to patterns -/

/-- Which package claims which pattern. -/
abbrev Claims := String → String → Prop

variable {claims : Claims}

/-- No pattern is claimed by two packages. -/
def Claims.Undisputed (claims : Claims) : Prop :=
  ∀ pattern one other, claims one pattern → claims other pattern → one = other

theorem Claims.Undisputed.mono (h : more.Undisputed)
    (hmore : ∀ package pattern, claims package pattern → more package pattern) :
    claims.Undisputed :=
  fun pattern one other hone hother =>
    h pattern one other (hmore one pattern hone) (hmore other pattern hother)

/-- The owners are those that the claims name. -/
def Records (claims : Claims) (owners : Owners) : Prop :=
  ∀ pattern package, owners.lookup pattern = some package ↔ claims package pattern

theorem Records.undisputed (h : Records claims owners) : claims.Undisputed := by
  intro pattern one other hone hother
  have hsame := ((h pattern one).2 hone).symm.trans ((h pattern other).2 hother)
  exact Option.some.inj hsame

/-- Either the owners of all claims are recorded, or two packages claim one pattern. -/
def Settles (claims : Claims) : Except Diagnostic Owners → Prop
  | .ok owners => Records claims owners
  | .error _ => ¬ claims.Undisputed

theorem Records.settles (h : Records claims owners) : Settles claims (.ok owners) := h

theorem Settles.congr {same : Claims} (h : Settles claims outcome)
    (hsame : ∀ package pattern, claims package pattern ↔ same package pattern) :
    Settles same outcome := by
  have heq : claims = same := funext fun package => funext fun pattern =>
    propext (hsame package pattern)
  exact heq ▸ h

theorem Settles.isOk_iff (h : Settles claims outcome) :
    (∃ owners, outcome = .ok owners) ↔ claims.Undisputed := by
  cases outcome with
  | ok owners => exact ⟨fun _ => Records.undisputed h, fun _ => ⟨owners, rfl⟩⟩
  | error cause =>
    constructor
    · rintro ⟨owners, hok⟩
      cases hok
    · intro hundisputed
      exact (h hundisputed).elim

/-- Claims are settled one after the other: once two packages claim one pattern, further claims
do not mend that. -/
theorem Settles.bind {next : Owners → Except Diagnostic Owners} (h : Settles claims outcome)
    (hmore : ∀ package pattern, claims package pattern → more package pattern)
    (hnext : ∀ owners, Records claims owners → Settles more (next owners)) :
    Settles more (outcome >>= next) := by
  cases outcome with
  | ok owners => exact hnext owners h
  | error cause => exact fun hundisputed => h (hundisputed.mono hmore)

/-! ## One pattern, one package, the whole reach -/

/-- Entering one pattern settles the claim to it. -/
theorem claim_settles (h : Records claims owners) (pattern : String) :
    Settles (fun owner name => claims owner name ∨ owner = package ∧ name = pattern)
      (claim viewer package owners pattern) := by
  unfold claim
  split
  · rename_i hfree
    -- Nobody claims the pattern yet.
    intro name owner
    by_cases hname : name = pattern
    · subst hname
      have hnone : ¬ claims owner name := fun hclaim => by
        rw [(h name owner).2 hclaim] at hfree
        cases hfree
      simp [hnone, eq_comm]
    · have hskip : (name == pattern) = false := by simpa using hname
      rw [List.lookup_cons, hskip, h name owner]
      simp [hname]
  · rename_i owner hfound
    have hclaim : claims owner pattern := (h pattern owner).1 hfound
    by_cases hown : owner = package
    · subst hown
      rw [if_pos (by simp)]
      intro name other
      rw [h name other]
      constructor
      · exact Or.inl
      · rintro (hother | ⟨rfl, rfl⟩)
        · exact hother
        · exact hclaim
    · rw [if_neg (by simpa using hown)]
      intro hundisputed
      exact hown (hundisputed pattern owner package (Or.inl hclaim) (Or.inr ⟨rfl, rfl⟩))

/-- Entering the patterns of a list settles the claims to all of them. -/
theorem foldlM_claim_settles (patterns : List String) (h : Records claims owners) :
    Settles (fun owner name => claims owner name ∨ owner = package ∧ name ∈ patterns)
      (patterns.foldlM (claim viewer package) owners) := by
  induction patterns generalizing claims owners with
  | nil => exact (Records.settles h).congr (by simp)
  | cons pattern patterns ih =>
    rw [List.foldlM_cons]
    refine (claim_settles h pattern).bind (fun owner name hclaim => ?_) fun next hnext => ?_
    · rcases hclaim with hclaim | ⟨rfl, rfl⟩
      · exact Or.inl hclaim
      · exact Or.inr ⟨rfl, List.mem_cons_self⟩
    · refine (ih hnext).congr fun owner name => ?_
      rw [List.mem_cons, or_assoc, ← and_or_left]

/-- Entering the patterns of every package of a list settles what these packages define. -/
theorem foldlM_claimAll_settles (packages : List String) (h : Records claims owners) :
    Settles (fun owner name => claims owner name ∨ owner ∈ packages ∧ project.Defines owner name)
      (packages.foldlM (project.claimAll viewer) owners) := by
  induction packages generalizing claims owners with
  | nil => exact (Records.settles h).congr (by simp)
  | cons package packages ih =>
    rw [List.foldlM_cons]
    have hpackage : Settles (fun owner name => claims owner name ∨
        owner = package ∧ project.Defines owner name) (project.claimAll viewer owners package) := by
      refine (foldlM_claim_settles (project.patternsOf package) h).congr fun owner name => ?_
      refine or_congr_right (and_congr_right fun hown => ?_)
      rw [hown, mem_patternsOf]
    refine hpackage.bind (fun owner name hclaim => ?_) fun next hnext => ?_
    · exact hclaim.imp_right fun hdefines => ⟨by simp [hdefines.1], hdefines.2⟩
    · refine (ih hnext).congr fun owner name => ?_
      rw [List.mem_cons, or_assoc, ← or_and_right]

/-! ## The check -/

/-- A package passes exactly if no pattern has two definers within its reach. -/
theorem checkPackage_eq_ok :
    project.checkPackage package = .ok () ↔
      Claims.Undisputed fun owner pattern =>
        owner ∈ project.reachable package ∧ project.Defines owner pattern := by
  have hstart : Records (fun _ _ => False) ([] : Owners) := by
    intro pattern owner
    simp
  have hsettled : Settles (fun owner pattern => owner ∈ project.reachable package ∧
      project.Defines owner pattern)
      ((project.reachable package).foldlM (project.claimAll package) []) :=
    (foldlM_claimAll_settles (project.reachable package) hstart).congr (by simp)
  rw [← hsettled.isOk_iff]
  show ((project.reachable package).foldlM (project.claimAll package) [] >>=
    fun _ => pure ()) = .ok () ↔ _
  cases (project.reachable package).foldlM (project.claimAll package) [] with
  | ok owners => exact ⟨fun _ => ⟨owners, rfl⟩, fun _ => rfl⟩
  | error cause =>
    constructor
    · intro hok
      cases hok
    · rintro ⟨owners, hok⟩
      cases hok

/-- Checks made one after the other pass exactly if each of them does. -/
theorem forM_eq_ok {check : String → Except Diagnostic Unit} (packages : List String) :
    packages.forM check = .ok () ↔ ∀ package ∈ packages, check package = .ok () := by
  induction packages with
  | nil => simp [List.forM, pure, Except.pure]
  | cons package packages ih =>
    show (check package >>= fun _ => packages.forM check) = .ok () ↔ _
    rw [List.forall_mem_cons, ← ih]
    cases check package with
    | ok value => exact ⟨fun h => ⟨rfl, h⟩, fun h => h.2⟩
    | error cause =>
      constructor
      · intro hok
        cases hok
      · intro hall
        cases hall.1

/-- The project passes exactly if no package has two definers of a pattern within its reach. -/
theorem checkPackages_eq_ok :
    project.checkPackages = .ok () ↔
      ∀ package ∈ project.packages, Claims.Undisputed fun owner pattern =>
        Relation.ReflTransGen project.Imports package owner ∧ project.Defines owner pattern := by
  unfold checkPackages
  rw [forM_eq_ok]
  simp only [checkPackage_eq_ok, mem_reachable]

/-- The conflict check is exact.  The list of packages within reach starts with the package
itself, names nothing twice, and names just what the imports lead to.  The project is accepted
exactly if no package of it reaches two packages with a definition of the same pattern. -/
theorem conflict_check_exact (project : Project) :
    (∀ package,
      (project.reachable package).head? = some package ∧
      (project.reachable package).Nodup ∧
      ∀ other, other ∈ project.reachable package ↔
        Relation.ReflTransGen project.Imports package other) ∧
    (project.checkPackages = .ok () ↔
      ∀ package ∈ project.packages, ∀ one other,
        Relation.ReflTransGen project.Imports package one →
        Relation.ReflTransGen project.Imports package other → one ≠ other →
        ∀ pattern, ¬ (project.Defines one pattern ∧ project.Defines other pattern)) := by
  refine ⟨fun package => ⟨head?_reachable project package, nodup_reachable project package,
    fun other => mem_reachable⟩, ?_⟩
  rw [checkPackages_eq_ok]
  refine forall₂_congr fun package _ => ?_
  constructor
  · intro hundisputed one other hone hother hne pattern hboth
    exact hne (hundisputed pattern one other ⟨hone, hboth.1⟩ ⟨hother, hboth.2⟩)
  · intro hapart pattern one other hone hother
    by_contra hne
    exact hapart one other hone.1 hother.1 hne pattern ⟨hone.2, hother.2⟩

end Project

end Accord
