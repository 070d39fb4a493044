import Accord.Proofs.Assign.Infer
import Accord.Proofs.Assign.Preorder
import Accord.Proofs.Call.Provenance

/-!
# Inferred bindings take every argument

A candidate that takes a call has had its type parameters bound by the arguments, from left
to right.  A later argument may widen what an earlier one bound.  The bindings that are left
in the end still take every argument, the early ones included.
-/

namespace Accord

open Query List TypeExpr Program FunctionDef

variable {table after : TypeTable} {arguments : List TypeExpr}

section Candidates

variable {base : TypeTable} (hbase : base.Variant base) (hnominal : base.Nominal) {fuel : Nat}

include hbase hnominal

/-- The arguments fit the declared types under the bindings that a candidate is taken with. -/
theorem fits_of_takes {candidate : FunctionDef} (hcandidate : candidate.Regular) {call : Call}
    (hcall : call.generics = []) (harguments : ∀ type ∈ arguments, base.Simple type)
    (htable : base.Variant table) {rules : Substitution}
    (hrun : candidate.takes fuel call arguments table = .ok (some rules) after) :
    Forall₂ (fun declared actual => (declared.substitute rules).Ground ∧
      Fits base .lenient actual (declared.substitute rules))
      candidate.parameterTypes arguments := by
  have hfixed : candidate.fixedBy call = [] := by simp [fixedBy, hcall]
  rw [takes_eq, hfixed] at hrun
  split at hrun
  · exact absurd hrun throw_ne_ok
  · rename_i hcount
    have hlength : candidate.parameterTypes.length = arguments.length := by
      simpa [parameterTypes] using hcount
    split at hrun
    · cases (pure_eq_ok.1 hrun).1
    · obtain ⟨⟨accepted, inference⟩, mid, hcheck, hrun⟩ := bind_eq_ok.1 hrun
      obtain ⟨hunder, _⟩ := pure_eq_ok.1 hrun
      obtain ⟨rfl, rfl⟩ : accepted ∧ inference.bindings = rules := by
        unfold takesUnder at hunder
        split at hunder
        · cases hunder
        · rename_i haccepted
          split at hunder
          · cases hunder
          · cases hunder
            exact ⟨by simpa using haccepted, rfl⟩
      obtain ⟨state, hstate, rfl⟩ := run_eq_ok hcheck
      have hstart : CheckState.Sound base { types := table, inference := {} } :=
        ⟨htable, by simp [Inference.Plain], fun hfind => by cases hfind⟩
      -- What holds after one argument is checked still holds after all of them are.
      simp only [acceptsArguments_eq, substitute_nil, map_id'] at hstate
      obtain ⟨hsound, _, hall⟩ := sameArguments_infers hbase hnominal
        (accepts_infers hbase hnominal fuel .lenient) hlength.symm harguments hcandidate hstart
        hstate
      exact hall.flip.imp fun _ _ hholds => hholds hsound.inference
        (Inference.Before.refl hbase hnominal hsound.inference)

end Candidates

theorem nominal_of_build {fuel : Nat} {project : Project} {program : Program}
    (hbuild : build fuel project = .ok program) (hregular : project.Regular)
    (hinhabited : program.types.Inhabited) : program.types.Nominal := by
  obtain ⟨hbase, hstored, hnamed, _⟩ := built_types hbuild hregular
  exact
    { closed := fun entry hentry => (hstored entry hentry).closed
      sumless := fun entry hentry component hmem =>
        ((hstored entry hentry).components component hmem).sumless
      named := fun entry hentry hgeneric component hmem =>
        hnamed entry hentry component hmem ((hstored entry hentry).closed hgeneric component hmem)
      inhabited := hinhabited
      ends := not_circles_of_cleared hbase.spelled hbase.fixedAliases (cleared_of_build hbuild
        hregular.files (fun definition hmem => (hregular.types definition hmem).plain)
        hbase.spelled (.refl _)) }

/-- In a program built from a regular project whose named unions have alternatives, the
bindings that a candidate is taken with, for a call without type arguments, refuse none of
the arguments. -/
theorem takes_bindings_refuse_none {fuel : Nat} {project : Project} {program : Program}
    (hbuild : build fuel project = .ok program) (hregular : project.Regular)
    (hinhabited : program.types.Inhabited) {candidate : FunctionDef}
    (hcandidate : candidate ∈ program.functions.functions) {call : Call}
    (hcall : call.generics = []) {arguments : List TypeExpr}
    (harguments : ∀ type ∈ arguments, type.Pattern ∧ type.isGeneric = false ∧
      ∃ name, program.types.Names type name)
    {table : TypeTable} (htable : program.types.Variant table) {fuel' : Nat}
    {rules : Substitution}
    (htakes : (candidate.takes fuel' call arguments).answer table = .ok (some rules)) :
    Forall₂ (fun declared actual => ∀ {fuel'' : Nat} {table' : TypeTable},
        program.types.Variant table' →
        (assignable fuel'' .lenient actual (declared.substitute rules)).answer table' ≠ .ok false)
      candidate.parameterTypes arguments := by
  obtain ⟨hbase, _, _, hfunctions⟩ := built_types hbuild hregular
  have hnominal := nominal_of_build hbuild hregular hinhabited
  have hsimple : ∀ type ∈ arguments, program.types.Simple type := by
    intro type hmem
    obtain ⟨hpattern, hclosed, hnamed⟩ := harguments type hmem
    exact ⟨⟨hpattern.plain, hclosed⟩, hpattern.sumless, hnamed⟩
  obtain ⟨after, hrun⟩ := answer_eq_ok.1 htakes
  have hfits := fits_of_takes hbase hnominal (hfunctions candidate hcandidate) hcall hsimple
    htable hrun
  have hground : ∀ type ∈ arguments, type.Ground := fun type hmem => (hsimple type hmem).ground
  clear htakes hrun hsimple harguments
  generalize candidate.parameterTypes = parameters at hfits ⊢
  induction hfits with
  | nil => exact .nil
  | cons hfirst _ ih =>
    obtain ⟨hactual, hrest⟩ := forall_mem_cons.1 hground
    refine .cons (fun htable' => ?_) (ih hrest)
    exact answer_ne_false_of_fits hbase hnominal.closed hactual hfirst.1 htable' hfirst.2

/-- The first of two arguments binds a parameter to integers, and the second widens the
binding to a sum, which still takes the first. -/
theorem widened_binding_refuses_neither :
    build 8 (oneFile [manyOf 2]) = .ok (ofOneFile [manyOf 2]) ∧
      ((manyOf 2).takes 5 (callWith 2) [.int, .float]).answer (ofOneFile [manyOf 2]).types =
        .ok (some [("T", .union [.int, .float])]) ∧
      (assignable 5 .lenient .int (.union [.int, .float])).answer (ofOneFile [manyOf 2]).types ≠
        .ok false ∧
      (assignable 5 .lenient .float (.union [.int, .float])).answer (ofOneFile [manyOf 2]).types ≠
        .ok false := by
  have hbuild : build 8 (oneFile [manyOf 2]) = .ok (ofOneFile [manyOf 2]) := rfl
  have htakes : ((manyOf 2).takes 5 (callWith 2) [.int, .float]).answer
      (ofOneFile [manyOf 2]).types = .ok (some [("T", .union [.int, .float])]) := rfl
  have hregular : (oneFile [manyOf 2]).Regular := by
    refine ⟨by decide, by simp [oneFile], ?_⟩
    simp only [oneFile, flatMap_cons, flatMap_nil, append_nil, forall_mem_singleton]
    intro type hmem
    obtain rfl : type = .param "T" := by
      simpa [manyOf, parameterTypes] using hmem
    exact ⟨by decide, rfl⟩
  have hinhabited : (ofOneFile [manyOf 2]).types.Inhabited := by
    intro ref package declared alternatives _ _ hdeclared _
    cases (TypeTable.lookup_of_declaration hdeclared).2
  have hvariant := (built_types hbuild hregular).1
  have hmem : manyOf 2 ∈ (ofOneFile [manyOf 2]).functions.functions := by
    simp [ofOneFile, OverloadTable.functions]
  have hcall : (callWith 2).generics = [] := rfl
  have harguments : ∀ type ∈ [int, .float], type.Pattern ∧ type.isGeneric = false ∧
      ∃ name, (ofOneFile [manyOf 2]).types.Names type name := by
    simp only [forall_mem_cons]
    exact ⟨⟨⟨by decide, rfl⟩, rfl, "Int", _, rfl⟩, ⟨⟨by decide, rfl⟩, rfl, "Float", _, rfl⟩,
      by simp⟩
  have hrefuse := takes_bindings_refuse_none hbuild hregular hinhabited hmem hcall harguments
    hvariant htakes
  obtain ⟨hfirst, hrest⟩ := forall₂_cons.1 hrefuse
  obtain ⟨hsecond, _⟩ := forall₂_cons.1 hrest
  exact ⟨hbuild, htakes, hfirst hvariant, hsecond hvariant⟩

end Accord
