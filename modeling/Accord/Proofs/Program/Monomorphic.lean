import Accord.Proofs.Assign.Settle
import Accord.Proofs.Program.Built

/-!
# Assignability in programs without generic definitions

A project without generic definitions and parameters is built into a program whose table of
types has none either (`monomorphic_of_build`).

* `assignable_settles`: whether one type is assignable to another is decided in the end, unless
  an endless chain of comparisons leads on from them.  There is no such chain if one of the two
  types opens finitely, as every type does that comes back to itself through records only.
* `assignable_never_ends`: a pointer that points to itself is a type that building accepts and
  that cannot be compared with itself.
-/

namespace Accord

open Query

/-- The definition takes no type parameters and mentions none, and its name does not end like
the key of a generic definition. -/
structure TypeDef.Monomorphic (definition : TypeDef) : Prop where
  generics : definition.generics = []
  name : '>' ∉ definition.name.toList
  closed : ∀ component ∈ definition.body.components, component.isGeneric = false

/-- No definition of the project is generic. -/
def Project.Monomorphic (project : Project) : Prop :=
  ∀ definition ∈ project.files.flatMap (·.types), definition.Monomorphic

/-! ## Building -/

section Built

variable {project : Project} (hproject : project.Monomorphic)

include hproject

theorem monomorphic_of_ofProject {table : TypeTable} (h : TypeTable.ofProject project = .ok table) :
    table.Monomorphic := by
  obtain ⟨_, _, hinstances, hstored⟩ := stored_of_foldlM h (.empty project)
  have hentry : ∀ entry ∈ table.stored, entry.2.Monomorphic ∧
      ∃ package, entry.1 = typeKey package entry.2.name 0 := by
    intro entry hmem
    rcases hstored entry hmem with hnone | ⟨hitem, package, hkey⟩
    · cases hnone
    · have hdefinition := hproject _ hitem
      rw [hdefinition.generics] at hkey
      exact ⟨hdefinition, package, hkey⟩
  refine ⟨fun package name arity => TypeTable.find?_typeKey_pos hinstances fun entry hmem => ?_, ?_,
    fun parts => TypeExpr.anyGeneric_eq_false.1⟩
  · obtain ⟨hdefinition, hkey⟩ := hentry entry hmem
    exact ⟨hdefinition.name, hkey⟩
  · rintro definition ⟨key, hmem | hmem⟩
    · exact (hentry _ hmem).1.closed
    · rw [hinstances] at hmem
      cases hmem

theorem monomorphic_of_build {fuel : Nat} {program : Program}
    (hbuild : Program.build fuel project = .ok program) : program.types.Monomorphic := by
  obtain ⟨types, walked, functions, htypes, hwalk, hfunctions, _⟩ := Program.build_eq_ok hbuild
  have hmono := monomorphic_of_ofProject hproject htypes
  have := hmono.lasting
  have hwalks : Keeps (· = types) (checkContainment fuel) := checkContainment_keeps fuel
  have hwalked : walked = types := by
    have hkept := hwalks types rfl
    rwa [after_of_ok hwalk] at hkept
  subst hwalked
  have hstores : Yields (· = walked) (OverloadTable.All fun _ => True)
      (OverloadTable.ofProject walked.project) :=
    OverloadTable.ofProject_yields (fun (_ : True) => canonicalName_keeps _)
      (fun _ _ _ => trivial) fun _ _ => trivial
  obtain ⟨hlast, _⟩ := hstores walked functions program.types rfl hfunctions
  rw [hlast]
  exact hmono

end Built

/-- In a program without generic definitions it is decided in the end whether a value may be
assigned, if no endless chain of comparisons leads on from the two types.  There is none if one
of them opens finitely. -/
theorem assignable_settles {buildFuel : Nat} {project : Project} {program : Program}
    (hbuild : Program.build buildFuel project = .ok program) (hproject : project.Monomorphic)
    (source dest : TypeExpr) (hsource : source.isGeneric = false)
    (hdest : dest.isGeneric = false) (mode : Mode) :
    (Acc program.types.Opens source ∨ Acc program.types.Opens dest →
      Acc program.types.AskedBy ⟨mode, source, dest⟩) ∧
    (Acc program.types.AskedBy ⟨mode, source, dest⟩ →
      ∃ outcome : Except Diagnostic Bool, outcome ≠ .error .limitReached ∧
        ∃ bound, ∀ fuel, bound ≤ fuel →
          (assignable fuel mode source dest).answer program.types = outcome) := by
  have hmono := monomorphic_of_build hproject hbuild
  refine ⟨fun hopens => ?_, fun hacc => ?_⟩
  · rcases hopens with hopens | hopens
    · exact (acc_askedBy_of_acc_opens hmono hopens hsource mode dest hdest).1
    · exact (acc_askedBy_of_acc_opens hmono hopens hdest mode source hsource).2
  · exact (assignable_settles_of_acc hmono hsource hdest hacc).outcome rfl

/-! ## A finite type and an endless one -/

section Opens

variable {table : TypeTable}

/-- Types that are neither references nor sums have no alternatives. -/
theorem flattens_eq_nil {type : TypeExpr} (href : type.ref? = none)
    (hunion : ∀ alternatives, type ≠ .union alternatives) {types : List TypeExpr}
    (h : table.Flattens type types) : types = [] := by
  have hnone : table.Flattens type [] := by
    refine ⟨2, table, ?_⟩
    cases type with
    | named => cases href
    | union alternatives => exact absurd rfl (hunion alternatives)
    | _ => rfl
  exact h.unique hnone

/-- A type that is neither a reference nor a sum opens finitely if its parts do. -/
theorem acc_opens_of_parts {type : TypeExpr} (href : type.ref? = none)
    (hunion : ∀ alternatives, type ≠ .union alternatives)
    (h : ∀ part ∈ type.children, Acc table.Opens part) : Acc table.Opens type := by
  have hbare {bare : TypeExpr} (hbare : table.Unaliases type bare) : bare = type :=
    hbare.unique (.self href)
  refine Acc.intro _ fun part hpart => ?_
  cases hpart with
  | target hself | held hself | element hself =>
    obtain rfl := hbare hself
    exact h part (.head _)
  | argument hself _ =>
    obtain rfl := hbare hself
    cases href
  | alternative hself hflattens hmem =>
    obtain rfl := hbare hself
    rw [flattens_eq_nil href hunion hflattens] at hmem
    cases hmem

theorem acc_opens_primitive (name : String) : Acc table.Opens (.primitive name) :=
  acc_opens_of_parts rfl (by simp) (List.forall_mem_nil _)

theorem acc_opens_pointer {target : TypeExpr} (h : Acc table.Opens target) :
    Acc table.Opens (.pointer target) :=
  acc_opens_of_parts rfl (by simp) (List.forall_mem_singleton.2 h)

end Opens

/-- A file with one definition. -/
def oneType (definition : TypeDef) : Project :=
  { files := [{ name := "main.mer", package := "app", types := [definition] }] }

/-- The program of such a project. -/
def ofOneType (definition : TypeDef) : Program :=
  { types :=
      { project := oneType definition
        stored := [("app::" ++ definition.name, definition)] } }

/-- A reference to a type of that file. -/
def named (name : String) : TypeExpr :=
  .named name none [] "main.mer"

/-- A chain ends with an integer or points to a chain. -/
def chainDef : TypeDef :=
  { name := "Chain", origin := "main.mer", body := .union [.pointer (named "Chain"), .int] }

/-- A pointer to a pointer to an integer is compared with a chain in the end. -/
theorem assignable_settles_chain :
    Program.build 8 (oneType chainDef) = .ok (ofOneType chainDef) ∧
      ∃ outcome : Except Diagnostic Bool, outcome ≠ .error .limitReached ∧
        ∃ bound, ∀ fuel, bound ≤ fuel →
          (assignable fuel .lenient (.pointer (.pointer .int)) (named "Chain")).answer
            (ofOneType chainDef).types = outcome := by
  have hbuild : Program.build 8 (oneType chainDef) = .ok (ofOneType chainDef) := rfl
  have hproject : (oneType chainDef).Monomorphic := by
    intro definition hmem
    obtain rfl : definition = chainDef := by simpa [oneType] using hmem
    exact ⟨rfl, by decide, by decide⟩
  have hsettles := assignable_settles hbuild hproject (.pointer (.pointer .int)) (named "Chain")
    rfl rfl .lenient
  exact ⟨hbuild, hsettles.2 (hsettles.1 (Or.inl (acc_opens_pointer
    (acc_opens_pointer (acc_opens_primitive "Int")))))⟩

/-- A pointer to a pointer of the same kind. -/
def loopDef : TypeDef :=
  { name := "Loop", origin := "main.mer", body := .alias (.pointer (named "Loop")) }

/-- Behind the name of a loop there is a pointer to a loop, given fuel to find it. -/
theorem unalias_loop (fuel : Nat) :
    unalias fuel (named "Loop") (ofOneType loopDef).types =
        .error .limitReached (ofOneType loopDef).types ∨
      unalias fuel (named "Loop") (ofOneType loopDef).types =
        .ok (.pointer (named "Loop")) (ofOneType loopDef).types := by
  match fuel with
  | 0 => exact Or.inl rfl
  | 1 => exact Or.inl rfl
  | fuel + 2 => exact Or.inr rfl

/-- Comparing loops asks for the comparison of loops again, with less fuel. -/
theorem accepts_loop (fuel : Nat) (mode : Mode) {state : CheckState}
    (hstate : state.types = (ofOneType loopDef).types) :
    accepts fuel mode (named "Loop") (named "Loop") state = .error .limitReached state := by
  induction fuel generalizing mode with
  | zero => rfl
  | succ fuel ih =>
    have hbare := unalias_loop fuel
    rw [← hstate] at hbare
    rcases hbare with hbare | hbare
    · have hfirst := liftCheck_of_error hbare
      cases mode with
      | lenient => rw [accepts_lenient, bind_of_error hfirst]
      | strict => rw [accepts_strict, bind_of_error hfirst]
    · have hfirst := liftCheck_of_ok hbare
      -- Behind both names there are pointers, and what they point to is compared strictly.
      have hasked : ∀ mode, acceptsBare fuel (accepts fuel) mode (.pointer (named "Loop"))
          (.pointer (named "Loop")) state = .error .limitReached state :=
        fun _ => ih .strict
      cases mode with
      | lenient => rw [accepts_lenient, bind_of_ok hfirst, bind_of_ok hfirst, hasked]
      | strict =>
        rw [accepts_strict, bind_of_ok hfirst, bind_of_ok hfirst, bind_of_error (hasked _)]

/-- Pointers that point to pointers of their own kind make up a program, and comparing them
takes more than any amount of fuel. -/
theorem assignable_never_ends :
    Program.build 8 (oneType loopDef) = .ok (ofOneType loopDef) ∧
      (oneType loopDef).Monomorphic ∧
      (verify (named "Loop")).answer (ofOneType loopDef).types = .ok () ∧
      ∀ fuel mode, (assignable fuel mode (named "Loop") (named "Loop")).answer
        (ofOneType loopDef).types = .error .limitReached := by
  refine ⟨rfl, ?_, rfl, fun fuel mode => ?_⟩
  · intro definition hmem
    obtain rfl : definition = loopDef := by simpa [oneType] using hmem
    exact ⟨rfl, by decide, by decide⟩
  · have hrun : Check.run {} (accepts fuel mode (named "Loop") (named "Loop"))
        (ofOneType loopDef).types = .error .limitReached (ofOneType loopDef).types := by
      rw [Check.run, accepts_loop fuel mode rfl]
    rw [answer, assignable, bind_of_error hrun]

end Accord
