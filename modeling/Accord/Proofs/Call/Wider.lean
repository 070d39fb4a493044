import Accord.Proofs.Assign.Reflexive
import Accord.Proofs.Call.Bindings
import Accord.Proofs.Call.Places

/-!
# An overload and a wider one

Two functions without type parameters are the candidates of a call, and the types of the
arguments are those that one of them declares.  If each of these fits what the other
declares in its place, then both take the call (`takes_of_fits`), and their measures decide.

The wider function is selected in one case only: both carry the same number of type
arguments and of unions, and its unions have fewer alternatives.  The call is ambiguous if the
measures are the same.  Otherwise the exact function is selected.
-/

namespace Accord

open Query TypeExpr List FunctionDef

variable {arguments : List TypeExpr} {candidate : FunctionDef} {declared widened : TypeExpr}

/-! ## Taking the call -/

section Takes

variable {base : TypeTable} (hbase : base.Variant base) (hclosed : base.Closed) {fuel : Nat}

include hbase hclosed

theorem acceptsArguments_decides {inference : Inference} {parameters : List TypeExpr}
    (hlength : parameters.length = arguments.length)
    (hparameters : ∀ type ∈ parameters, type.Ground)
    (harguments : ∀ type ∈ arguments, type.Ground) :
    Decides (CheckState.Calm base inference)
      (Forall₂ (Fits base .lenient) arguments parameters)
      (¬ Forall₂ (Fits base .lenient) arguments parameters)
      (acceptsArguments fuel [] parameters arguments) := by
  have hjudge : Judge.Separates base (fun _ => Fits base .lenient) (fun _ => Fits base .lenient)
      fun _ => accepts fuel .lenient :=
    fun _ => accepts_decides hbase hclosed fuel .lenient
  simp only [acceptsArguments_eq, substitute_nil, map_id']
  exact sameArguments_decides hjudge hlength.symm harguments hparameters

/-- A function without type parameters takes what fits its parameters, and binds nothing. -/
theorem takes_of_fits (hgeneric : candidate.generics = []) {call : Call}
    (hcall : call.generics = []) (hparameters : ∀ type ∈ candidate.parameterTypes, type.Ground)
    (harguments : ∀ type ∈ arguments, type.Ground)
    (hfits : Forall₂ (Fits base .lenient) arguments candidate.parameterTypes)
    {taken : Option Substitution} {after : TypeTable}
    (hrun : candidate.takes fuel call arguments base = .ok taken after) : taken = some [] := by
  have hfixed : candidate.fixedBy call = [] := by simp [fixedBy, hcall]
  rw [takes_eq, hfixed] at hrun
  split at hrun
  · exact absurd hrun throw_ne_ok
  rw [if_neg (by simp [hcall])] at hrun
  obtain ⟨⟨accepted, inference⟩, mid, hcheck, hrun⟩ := bind_eq_ok.1 hrun
  obtain ⟨rfl, _⟩ := pure_eq_ok.1 hrun
  obtain ⟨state, hstate, rfl⟩ := run_eq_ok hcheck
  obtain ⟨hcalm, hanswer⟩ := acceptsArguments_decides hbase hclosed hfits.length_eq.symm hparameters
    harguments _ _ _ ⟨hbase, rfl⟩ hstate
  have haccepted : accepted := by
    by_contra hrefused
    exact hanswer.2 (by simpa using hrefused) hfits
  have hbindings : state.inference.bindings = [] := by rw [hcalm.inference]
  simp [takesUnder, haccepted, hgeneric, hbindings, Substitution.countBound]

end Takes

/-! ## Two candidates -/

/-- No type parameter occurs in the function or its parameters. -/
structure FunctionDef.Concrete (function : FunctionDef) : Prop where
  generics : function.generics = []
  closed : ∀ type ∈ function.parameterTypes, type.isGeneric = false

theorem FunctionDef.Concrete.isGeneric_eq {function : FunctionDef} (h : function.Concrete) :
    function.isGeneric = false := by
  simp [isGeneric, h.generics]

section Pair

variable {program : Program} {fuel : Nat} {call : Call} {measure : FunctionDef → Specificity}
  {taken : FunctionDef → Option Substitution} {first second : FunctionDef}

theorem mostSpecific_pair_of_lt (h : (measure first).compare (measure second) = .lt) :
    mostSpecific measure [first, second] = [first] := by
  simp [mostSpecific, Specificity.atMost_refl, Specificity.atMost_of_compare_lt h,
    Specificity.not_atMost_of_compare_lt h]

theorem mostSpecific_pair_of_gt (h : (measure first).compare (measure second) = .gt) :
    mostSpecific measure [first, second] = [second] := by
  have hback : (measure second).compare (measure first) = .lt := by
    rw [Specificity.compare_swap, h]
    rfl
  simp [mostSpecific, Specificity.atMost_refl, Specificity.atMost_of_compare_lt hback,
    Specificity.not_atMost_of_compare_lt hback]

theorem mostSpecific_pair_of_eq (h : (measure first).compare (measure second) = .eq) :
    mostSpecific measure [first, second] = [first, second] := by
  obtain ⟨hforth, hback⟩ := Specificity.atMost_of_compare_eq h
  simp [mostSpecific, Specificity.atMost_refl, hforth, hback]

/-- A single most specific candidate without type parameters is the answer. -/
theorem FreshCall.answer_of_concrete (h : FreshCall program fuel call arguments measure taken)
    (hconcrete : first.Concrete)
    (hsingle : mostSpecific measure (compatible taken (program.candidates call)) = [first]) :
    (resolve fuel call arguments).answer program = .ok (some first) := by
  obtain ⟨rules, _, _, hanswer⟩ := h.answer_of_single hsingle
  rw [hanswer, choose, hconcrete.isGeneric_eq]
  rfl

/-- Of two candidates that take the call, the measures decide. -/
theorem FreshCall.answer_of_pair (h : FreshCall program fuel call arguments measure taken)
    (hcandidates : (program.candidates call).Perm [first, second])
    (hfirst : first.Concrete) (hsecond : second.Concrete)
    (htakes : taken first = some []) (htakes' : taken second = some []) :
    (resolve fuel call arguments).answer program =
      match (measure first).compare (measure second) with
      | .lt => .ok (some first)
      | .gt => .ok (some second)
      | .eq => .error (.ambiguousCall call.render (renderList arguments) 2 call.span) := by
  have hboth : compatible taken [first, second] = [first, second] := by
    simp [compatible, htakes, htakes']
  have hperm : (mostSpecific measure (compatible taken (program.candidates call))).Perm
      (mostSpecific measure [first, second]) := by
    rw [← hboth]
    exact perm_mostSpecific hcandidates
  cases hcompare : (measure first).compare (measure second) with
  | lt =>
    rw [mostSpecific_pair_of_lt hcompare] at hperm
    exact h.answer_of_concrete hfirst (perm_singleton.1 hperm)
  | gt =>
    rw [mostSpecific_pair_of_gt hcompare] at hperm
    exact h.answer_of_concrete hsecond (perm_singleton.1 hperm)
  | eq =>
    rw [mostSpecific_pair_of_eq hcompare] at hperm
    have hlength := hperm.length_eq
    rw [h.answer_of_many (by simp [hlength]), hlength]
    rfl

end Pair

/-! ## The exact function and the wider one -/

section Wider

variable {program : Program} {fuel : Nat} {call : Call} {exact wider : FunctionDef}
  {measure : FunctionDef → Specificity} {taken : FunctionDef → Option Substitution}

theorem FreshCall.ground (h : FreshCall program fuel call arguments measure taken)
    (hcandidate : candidate ∈ program.candidates call) (hconcrete : candidate.Concrete) :
    ∀ type ∈ candidate.parameterTypes, type.Ground :=
  fun type hmem => ⟨h.names.candidates candidate hcandidate type hmem, hconcrete.closed type hmem⟩

/-- Weights of the parameters of an assessed candidate, which add up to its measure. -/
theorem FreshCall.weighs (h : FreshCall program fuel call arguments measure taken)
    (hclosed : program.types.Closed) (hcandidate : candidate ∈ program.candidates call)
    (hconcrete : candidate.Concrete) :
    (measure candidate).generic = false ∧
      ∃ parts, Forall₂ (program.types.Weighs fuel true) candidate.parameterTypes parts ∧
        (measure candidate).weight = parts.sum := by
  have hbase := h.reached.variant h.stable
  obtain ⟨types, hrun⟩ := h.assessed.specificity candidate hcandidate
  obtain ⟨_, hgeneric, hparts⟩ := specificity_yields hbase hclosed fuel
    (h.ground hcandidate hconcrete) _ _ _ hbase hrun
  exact ⟨hgeneric.trans hconcrete.isGeneric_eq, hparts⟩

/-- A call with arguments of the types that one of its two candidates declares, each of which
may be assigned to what the other declares in its place. -/
structure WidenedCall (program : Program) (fuel : Nat) (call : Call) (exact wider : FunctionDef)
    (measure : FunctionDef → Specificity) (taken : FunctionDef → Option Substitution) : Prop
    extends FreshCall program fuel call exact.parameterTypes measure taken where
  closed : program.types.Closed
  candidates : (program.candidates call).Perm [exact, wider]
  generics : call.generics = []
  exactConcrete : exact.Concrete
  widerConcrete : wider.Concrete
  assignable : Forall₂ (program.types.Judges .lenient · · true) exact.parameterTypes
    wider.parameterTypes

theorem forall₂_fits {base : TypeTable} (hbase : base.Variant base) (hclosed : base.Closed)
    {mode : Mode} {sources dests : List TypeExpr} (hsources : ∀ type ∈ sources, type.Ground)
    (hdests : ∀ type ∈ dests, type.Ground)
    (h : Forall₂ (base.Judges mode · · true) sources dests) :
    Forall₂ (Fits base mode) sources dests := by
  induction h with
  | nil => exact .nil
  | cons hjudges _ ih =>
    obtain ⟨hsource, hsources⟩ := forall_mem_cons.1 hsources
    obtain ⟨hdest, hdests⟩ := forall_mem_cons.1 hdests
    exact .cons (hjudges.fits hbase hclosed hsource hdest) (ih hsources hdests)

namespace WidenedCall

variable (h : WidenedCall program fuel call exact wider measure taken)

include h

theorem variant : program.types.Variant program.types :=
  h.reached.variant h.stable

theorem mem_exact : exact ∈ program.candidates call :=
  h.candidates.mem_iff.2 (by simp)

theorem mem_wider : wider ∈ program.candidates call :=
  h.candidates.mem_iff.2 (by simp)

theorem exact_ground : ∀ type ∈ exact.parameterTypes, type.Ground :=
  h.ground h.mem_exact h.exactConcrete

theorem wider_ground : ∀ type ∈ wider.parameterTypes, type.Ground :=
  h.ground h.mem_wider h.widerConcrete

theorem fits : Forall₂ (Fits program.types .lenient) exact.parameterTypes wider.parameterTypes :=
  forall₂_fits h.variant h.closed h.exact_ground h.wider_ground h.assignable

/-- Types that may be assigned to others are accepted by parameters of the same types. -/
theorem fits_exact :
    Forall₂ (Fits program.types .lenient) exact.parameterTypes exact.parameterTypes :=
  forall₂_itself (fun hfits => hfits.itself h.variant h.closed) h.fits
    (plainAll_iff.2 fun type hmem => (h.exact_ground type hmem).plain)
    (plainAll_iff.2 fun type hmem => (h.wider_ground type hmem).plain)

theorem takes_exact : taken exact = some [] := by
  obtain ⟨_, hrun⟩ := h.assessed.takes exact h.mem_exact
  exact takes_of_fits h.variant h.closed h.exactConcrete.generics h.generics h.exact_ground
    h.exact_ground h.fits_exact hrun

theorem takes_wider : taken wider = some [] := by
  obtain ⟨_, hrun⟩ := h.assessed.takes wider h.mem_wider
  exact takes_of_fits h.variant h.closed h.widerConcrete.generics h.generics h.wider_ground
    h.exact_ground h.fits hrun

/-- The weights of the parameters, place by place. -/
theorem weights : ∃ narrows wides,
    Forall₂ (program.types.Weighs fuel true) exact.parameterTypes narrows ∧
      Forall₂ (program.types.Weighs fuel true) wider.parameterTypes wides ∧
      Forall₂ Weight.Within narrows wides ∧
      (measure exact).weight = narrows.sum ∧ (measure wider).weight = wides.sum := by
  obtain ⟨_, narrows, hnarrows, hexact⟩ := h.weighs h.closed h.mem_exact h.exactConcrete
  obtain ⟨_, wides, hwides, hwider⟩ := h.weighs h.closed h.mem_wider h.widerConcrete
  refine ⟨narrows, wides, hnarrows, hwides, ?_, hexact, hwider⟩
  refine forall₂_weighs (fun source dest narrow wide hfits hnarrow hwide => ?_) h.fits hnarrows
    hwides
  exact hnarrow.within h.variant h.closed hfits hwide

theorem within : (measure exact).weight.Within (measure wider).weight := by
  obtain ⟨narrows, wides, _, _, hwithin, hexact, hwider⟩ := h.weights
  rw [hexact, hwider]
  exact Weight.Within.sum hwithin

/-- The measures decide, by alternatives if they agree in type arguments and unions. -/
theorem answer_eq :
    (resolve fuel call exact.parameterTypes).answer program =
      if (measure wider).weight.complexity = (measure exact).weight.complexity ∧
          (measure exact).weight.unions = (measure wider).weight.unions ∧
          (measure wider).weight.cases < (measure exact).weight.cases then .ok (some wider)
      else if (measure exact).weight = (measure wider).weight then
        .error (.ambiguousCall call.render (renderList exact.parameterTypes) 2 call.span)
      else .ok (some exact) := by
  obtain ⟨hgeneric, narrows, hnarrows, hexact⟩ := h.weighs h.closed h.mem_exact h.exactConcrete
  obtain ⟨hgeneric', wides, hwides, hwider⟩ := h.weighs h.closed h.mem_wider h.widerConcrete
  have hparams : (measure exact).weight.paramUses = (measure wider).weight.paramUses := by
    rw [hexact, hwider, (sum_regular hnarrows fun h => h.regular.1).1,
      (sum_regular hwides fun h => h.regular.1).1]
  rw [h.answer_of_pair h.candidates h.exactConcrete h.widerConcrete h.takes_exact h.takes_wider,
    Specificity.compare_of_within (hgeneric.trans hgeneric'.symm) hparams h.within]
  split_ifs <;> rfl

theorem fits_of_mem_zip
    (hplace : (declared, widened) ∈ exact.parameterTypes.zip wider.parameterTypes) :
    Fits program.types .lenient declared widened ∧ declared.Ground ∧ widened.Ground :=
  ⟨(forall₂_iff_zip.1 h.fits).2 hplace, h.exact_ground declared (of_mem_zip hplace).1,
    h.wider_ground widened (of_mem_zip hplace).2⟩

theorem sharper (hplace : (declared, widened) ∈ exact.parameterTypes.zip wider.parameterTypes)
    (hsolid : program.types.Solid declared) {accepted : List TypeExpr}
    (hlists : program.types.Lists widened accepted) :
    (measure exact).weight.Sharper (measure wider).weight := by
  obtain ⟨narrows, wides, hnarrows, hwides, hwithin, hexact, hwider⟩ := h.weights
  obtain ⟨narrow, wide, hmem, hnarrow, hwide⟩ := exists_weighs_of_mem_zip hnarrows hwides hplace
  rw [hexact, hwider]
  exact .sum hwithin hmem (hnarrow.sharper h.variant hwide hsolid hlists)

variable (hwidens : ∀ declared widened,
  (declared, widened) ∈ exact.parameterTypes.zip wider.parameterTypes →
    program.types.Widens declared widened)

include hwidens

theorem insides {narrows wides : List Weight}
    (hnarrows : Forall₂ (program.types.Weighs fuel true) exact.parameterTypes narrows)
    (hwides : Forall₂ (program.types.Weighs fuel true) wider.parameterTypes wides) :
    Forall₂ Weight.Inside narrows wides := by
  have hplaces : Forall₂ (fun declared widened =>
      (declared, widened) ∈ exact.parameterTypes.zip wider.parameterTypes)
      exact.parameterTypes wider.parameterTypes :=
    forall₂_iff_zip.2 ⟨h.fits.length_eq, id⟩
  refine forall₂_weighs (fun declared widened narrow wide hplace hnarrow hwide => ?_) hplaces
    hnarrows hwides
  obtain ⟨hfits, hdeclared, _⟩ := h.fits_of_mem_zip hplace
  exact (hwidens declared widened hplace).inside h.variant h.closed hfits hnarrow hwide
    hdeclared.plain

theorem inside : (measure exact).weight.Inside (measure wider).weight := by
  obtain ⟨narrows, wides, hnarrows, hwides, _, hexact, hwider⟩ := h.weights
  rw [hexact, hwider]
  exact .sum (h.insides hwidens hnarrows hwides)

theorem below (hplace : (declared, widened) ∈ exact.parameterTypes.zip wider.parameterTypes)
    (hstrictly : program.types.StrictlyWidens declared widened) :
    (measure exact).weight.Below (measure wider).weight := by
  obtain ⟨narrows, wides, hnarrows, hwides, _, hexact, hwider⟩ := h.weights
  obtain ⟨narrow, wide, hmem, hnarrow, hwide⟩ := exists_weighs_of_mem_zip hnarrows hwides hplace
  obtain ⟨hfits, hdeclared, hwidened⟩ := h.fits_of_mem_zip hplace
  have hinside := (hwidens declared widened hplace).inside h.variant h.closed hfits hnarrow hwide
    hdeclared.plain
  rw [hexact, hwider]
  exact .sum (h.insides hwidens hnarrows hwides) hmem
    (hstrictly.below h.variant h.closed hfits hnarrow hwide hdeclared hwidened hinside)

end WidenedCall

end Wider

/-! ## Overloads in one file -/

/-- The function `f` with parameters of the given types. -/
def taking (types : List TypeExpr) : FunctionDef :=
  { name := "f", parameters := types.map ({ name := "x", type := · }), origin := "main.mer" }

/-- Takes an integer and text. -/
def ofIntegerAndText : FunctionDef :=
  taking [.int, .string]

/-- Takes a number of either kind and raw text. -/
def ofNumberAndRawText : FunctionDef :=
  taking [.union [.int, .float], .primitive "RawString"]

/-- A pointer to a value of one of three kinds. -/
def pointerToAny : TypeExpr :=
  .pointer (.union [.int, .float, .char])

/-- The same pointer, or a truth value. -/
def pointerOrBool : TypeExpr :=
  .union [pointerToAny, .bool]

end Accord
