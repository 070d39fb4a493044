import Accord.Call.Candidate
import Accord.Call.Specificity
import Accord.Proofs.Assign.Rules
import Accord.Proofs.Types.Parallel

/-!
# Comparisons side by side

A `JudgeParallel` is a way of comparing runs that also speaks about comparisons of types.
Types are of several kinds, and only some kinds are compared with each other.  It has a rule
for each way of putting comparisons together, and rules for what a value does to a parameter
and for a parameter that stands for its binding.  Then comparing types compares
(`accepts_parallel`).

A `CheckParallel` knows more: what comparisons infer is related, too.
-/

namespace Accord

open Query TypeExpr List Option

variable {type type' source source' dest dest' : TypeExpr} {α β : Type} {same : α → β → Prop}
  {left left' : Check α} {right right' : Check β} {accepted accepted' : List TypeExpr}
  {fuel fuel' : Nat} {judge judge' : Judge}

/-! ## Related types -/

/-- Two substitutions for the same parameters, with related replacements. -/
def SameRules (related : TypeExpr → TypeExpr → Prop) (left right : Substitution) : Prop :=
  Forall₂ (fun entry entry' => entry.1 = entry'.1 ∧ related entry.2 entry'.2) left right

namespace SameRules

variable {related : TypeExpr → TypeExpr → Prop} {left right : Substitution}

theorem find? (h : SameRules related left right) (name : String) :
    Rel related (left.find? name) (right.find? name) := by
  unfold Substitution.find?
  induction h with
  | nil => exact .none
  | @cons entry entry' rest rest' hentry _ ih =>
    rw [lookup_cons, lookup_cons, hentry.1]
    split
    · exact .some hentry.2
    · exact ih

theorem bind (h : SameRules related left right) (name : String) (htype : related type type') :
    SameRules related (left ++ [(name, type)]) (right ++ [(name, type')]) :=
  rel_append h (.cons ⟨rfl, htype⟩ .nil)

theorem replace (h : SameRules related left right) (name : String) (htype : related type type') :
    SameRules related (left.replace name type) (right.replace name type') := by
  induction h with
  | nil => exact .nil
  | @cons entry entry' rest rest' hentry hrest ih =>
    rw [Substitution.replace, Substitution.replace, hentry.1]
    split
    · exact .cons ⟨rfl, htype⟩ hrest
    · exact .cons ⟨rfl, hentry.2⟩ ih

theorem countBound (h : SameRules related left right) (parameters : List String) :
    left.countBound parameters = right.countBound parameters := by
  unfold Substitution.countBound
  congr 2
  funext parameter
  have hfind := h.find? parameter
  cases hleft : left.find? parameter <;> cases hright : right.find? parameter <;>
    simp_all [rel_some_some]

theorem ofLists (parameters : List String) {types types' : List TypeExpr}
    (h : Forall₂ related types types') :
    SameRules related (.ofLists parameters types) (.ofLists parameters types') := by
  unfold Substitution.ofLists
  induction h generalizing parameters with
  | nil =>
    rw [zip_nil_right]
    exact .nil
  | cons htype _ ih =>
    cases parameters with
    | nil => exact .nil
    | cons parameter rest => exact .cons ⟨rfl, htype⟩ (ih rest)

end SameRules

/-- The same parameters are bound to related types, and the same are locked. -/
structure SameInference (related : TypeExpr → TypeExpr → Prop) (left right : Inference) : Prop where
  bindings : SameRules related left.bindings right.bindings
  locked : left.locked = right.locked

theorem SameInference.lock {related : TypeExpr → TypeExpr → Prop} {left right : Inference}
    (h : SameInference related left right) (name : String) :
    SameInference related (left.lock name) (right.lock name) := by
  unfold Inference.lock
  rw [h.locked]
  split
  · exact h
  · exact ⟨h.bindings, rfl⟩

/-! ## Ways of comparing -/

/-- A way of comparing what comparisons are put together from. -/
structure CheckLogic (κ : Type) : Type 1 where
  /-- Questions about types of a kind. -/
  types : κ → TypeParallel
  /-- The kinds of types that are compared with each other. -/
  pairs : κ → κ → Prop
  fuels : Nat → Nat → Prop
  /-- The two comparisons compare, and so do their answers. -/
  checks {α β : Type} (same : α → β → Prop) (left : Check α) (right : Check β) : Prop
  symm {kind kind' : κ} (h : pairs kind kind') : pairs kind' kind
  fuels_succ {fuel fuel' : Nat} (h : fuels (fuel + 1) fuel') :
    ∃ less, fuel' = less + 1 ∧ fuels fuel less
  ofFuels {fuel fuel' : Nat} (h : fuels fuel fuel') (kind : κ) : (types kind).fuels fuel fuel'
  shape {kind : κ} {left right : TypeExpr} (h : (types kind).related left right) :
    SameShape (types kind).related left right
  pure {α β : Type} {same : α → β → Prop} {a : α} {b : β} (h : same a b) :
    checks same (pure a) (pure b)
  bind {α β γ δ : Type} {same : α → β → Prop} {next : γ → δ → Prop} {left : Check α}
    {right : Check β} {leftRest : α → Check γ} {rightRest : β → Check δ}
    (h : checks same left right)
    (hrest : ∀ a b, same a b → checks next (leftRest a) (rightRest b)) :
    checks next (left >>= leftRest) (right >>= rightRest)
  exhausted {α β : Type} {same : α → β → Prop} {fuel : Nat} {right : Check β}
    (h : fuels 0 fuel) (hright : fuel = 0 → right = throw .limitReached) :
    checks same (throw .limitReached : Check α) right
  lift {kind : κ} {α β : Type} {same : α → β → Prop} {left : TypeQuery α} {right : TypeQuery β}
    (h : (types kind).holds same left right) : checks same (liftM left) (liftM right)
  isolated {left right : Check Bool} (h : checks Eq left right) :
    checks Eq left.isolated right.isolated
  onTrial {left right : Check Bool} (h : checks Eq left right) :
    checks Eq left.onTrial right.onTrial

/-- Two comparisons that compare on related types of kinds that go together, in both modes. -/
def Judge.Parallel {κ : Type} (p : CheckLogic κ) (judge judge' : Judge) : Prop :=
  ∀ mode {kind kind' : κ} {source source' dest dest' : TypeExpr}, p.pairs kind kind' →
    (p.types kind).related source source' → (p.types kind').related dest dest' →
      p.checks Eq (judge mode source dest) (judge' mode source' dest')

/-- A way of comparing comparisons, which also says what becomes of parameters. -/
structure JudgeParallel (κ : Type) : Type 1 extends CheckLogic κ where
  meet {judge judge' : Judge} (hjudge : judge.Parallel toCheckLogic judge') (mode : Mode)
    {kind kind' : κ} {source source' : TypeExpr} {name : String} (hpair : pairs kind kind')
    (hsource : (types kind).related source source')
    (hdest : (types kind').related (.param name) (.param name)) :
    checks Eq (meetParam judge mode source name) (meetParam judge' mode source' name)
  stand {judge judge' : Judge} (hjudge : judge.Parallel toCheckLogic judge') (mode : Mode)
    {kind kind' : κ} {source source' dest dest' : TypeExpr} {fuel fuel' : Nat}
    (hpair : pairs kind kind') (hsource : (types kind).related source source')
    (hdest : (types kind').related dest dest')
    (hshape : checks Eq (acceptsShape fuel judge mode source dest)
      (acceptsShape fuel' judge' mode source' dest')) :
    checks Eq (acceptsBare fuel judge mode source dest)
      (acceptsBare fuel' judge' mode source' dest')

namespace CheckLogic

variable {κ : Type} (p : CheckLogic κ)

theorem ite {c : Prop} [Decidable c] (h : p.checks same left right)
    (h' : p.checks same left' right') :
    p.checks same (if c then left else left') (if c then right else right') := by
  split
  · exact h
  · exact h'

/-- A decision, and what is done then. -/
theorem cond {first first' : Check Bool} (hfirst : p.checks Eq first first')
    (h : p.checks same left right) (h' : p.checks same left' right') :
    p.checks same (first >>= fun answer => if answer then left else left')
      (first' >>= fun answer => if answer then right else right') := by
  refine p.bind hfirst fun answer answer' hanswer => ?_
  rw [hanswer]
  exact p.ite h h'

end CheckLogic

/-! ## Comparisons -/

section Rules

variable {κ : Type} (p : CheckLogic κ) (hjudge : judge.Parallel p judge') {kind kind' : κ}
  (hpair : p.pairs kind kind')

include hjudge hpair

theorem sameArguments_parallel {sources sources' dests dests' : List TypeExpr}
    (hsources : Forall₂ (p.types kind).related sources sources')
    (hdests : Forall₂ (p.types kind').related dests dests') :
    p.checks Eq (sameArguments judge sources dests) (sameArguments judge' sources' dests') := by
  induction hsources generalizing dests dests' with
  | nil =>
    unfold sameArguments
    exact p.pure rfl
  | cons hsource _ ih =>
    cases hdests with
    | nil => exact p.pure rfl
    | cons hdest hdests => exact p.cond (hjudge _ hpair hsource hdest) (ih hdests) (p.pure rfl)

theorem sameDefinition_parallel {source source' dest dest' : TypeRef}
    (hsource : (p.types kind).related source.toType source'.toType)
    (hdest : (p.types kind').related dest.toType dest'.toType) :
    p.checks Eq (sameDefinition judge source dest) (sameDefinition judge' source' dest') := by
  obtain ⟨name, qualifier, arguments, origin⟩ := source
  obtain ⟨name', qualifier', arguments', origin'⟩ := dest
  cases p.shape hsource with
  | named _ hsources =>
    cases p.shape hdest with
    | named _ hdests =>
      unfold sameDefinition
      simp only [hsources.length_eq, hdests.length_eq]
      refine p.ite (p.pure rfl) ?_
      refine p.bind (p.lift ((p.types kind).locate hsource)) fun found found' hfound => ?_
      refine p.bind (p.lift ((p.types kind').locate hdest)) fun other other' hother => ?_
      obtain ⟨package, definition⟩ := found
      obtain ⟨package', definition'⟩ := other
      obtain ⟨hpackage, _⟩ := hfound
      obtain ⟨hpackage', _⟩ := hother
      simp only at hpackage hpackage' ⊢
      rw [hpackage, hpackage']
      exact p.ite (p.pure rfl) (p.onTrial (sameArguments_parallel p hjudge hpair hsources hdests))

theorem someAccepts_parallel (mode : Mode) (hsource : (p.types kind).related source source')
    (h : Forall₂ (p.types kind').related accepted accepted') :
    p.checks Eq (someAccepts judge mode source accepted)
      (someAccepts judge' mode source' accepted') := by
  induction h with
  | nil => exact p.pure rfl
  | cons halternative _ ih =>
    exact p.cond (p.onTrial (hjudge _ hpair hsource halternative)) (p.pure rfl) ih

theorem allAccepted_parallel (mode : Mode) {offered offered' : List TypeExpr}
    (haccepted : Forall₂ (p.types kind').related accepted accepted')
    (hoffered : Forall₂ (p.types kind).related offered offered') :
    p.checks Eq (allAccepted judge mode accepted offered)
      (allAccepted judge' mode accepted' offered') := by
  induction hoffered with
  | nil => exact p.pure rfl
  | cons hsource _ ih =>
    exact p.cond (someAccepts_parallel p hjudge hpair mode hsource haccepted) ih (p.pure rfl)

theorem memberOf_parallel (hfuel : p.fuels fuel fuel') (mode : Mode)
    (hsource : (p.types kind).related source source') (hdest : (p.types kind').related dest dest') :
    p.checks Eq (memberOf fuel judge mode source dest)
      (memberOf fuel' judge' mode source' dest') := by
  have hempty : ∀ {related : TypeExpr → TypeExpr → Prop} {types types' : List TypeExpr},
      Forall₂ related types types' → types.isEmpty = types'.isEmpty := by
    intro related types types' h
    cases h <;> rfl
  unfold memberOf
  refine p.bind (p.lift (alternatives_parallel _ (p.ofFuels hfuel kind') hdest))
    fun accepted accepted' haccepted => ?_
  rw [hempty haccepted]
  refine p.ite (p.pure rfl) ?_
  refine p.cond (someAccepts_parallel p hjudge hpair mode hsource haccepted) (p.pure rfl) ?_
  refine p.bind (p.lift (alternatives_parallel _ (p.ofFuels hfuel kind) hsource))
    fun offered offered' hoffered => ?_
  rw [hempty hoffered]
  exact p.ite (p.pure rfl) (p.onTrial (allAccepted_parallel p hjudge hpair mode haccepted hoffered))

end Rules

section Text

variable (p : TypeParallel)
  (hshape : ∀ {left right}, p.related left right → SameShape p.related left right)
  (hfuel : p.fuels fuel fuel')

include hshape hfuel

theorem pointedElement_parallel {target target' : TypeExpr} (h : p.related target target') :
    p.holds (Rel p.related) (pointedElement fuel target) (pointedElement fuel' target') := by
  refine p.bind (unalias_parallel _ hfuel h) fun bare bare' hbare => ?_
  cases hshape hbare with
  | array _ helements => exact p.pure (.some helements)
  | _ => exact p.pure .none

theorem isChar_parallel {element element' : TypeExpr} (h : p.related element element') :
    p.holds Eq (unalias fuel element >>= fun bare => pure (bare.isPrimitive "Char"))
      (unalias fuel' element' >>= fun bare => pure (bare.isPrimitive "Char")) := by
  refine p.bind (unalias_parallel _ hfuel h) fun bare bare' hbare => p.pure ?_
  cases hshape hbare <;> rfl

theorem textAccepts_parallel (h : p.related source source') (dest : String) :
    p.holds Eq (textAccepts fuel source dest) (textAccepts fuel' source' dest) := by
  cases hshape h with
  | slice helements => exact isChar_parallel p hshape hfuel helements
  | pointer htargets =>
    refine p.bind (pointedElement_parallel p hshape hfuel htargets) fun found found' hfound => ?_
    cases hfound with
    | none => exact p.pure rfl
    | some helements => exact isChar_parallel p hshape hfuel helements
  | _ => exact p.pure rfl

end Text

section Whole

variable {κ : Type} (p : JudgeParallel κ)

theorem acceptsShape_parallel (hfuel : p.fuels fuel fuel')
    (hjudge : judge.Parallel p.toCheckLogic judge') (mode : Mode) {kind kind' : κ}
    (hpair : p.pairs kind kind') (hsource : (p.types kind).related source source')
    (hdest : (p.types kind').related dest dest') :
    p.checks Eq (acceptsShape fuel judge mode source dest)
      (acceptsShape fuel' judge' mode source' dest') := by
  have hmember := memberOf_parallel p.toCheckLogic hjudge hpair hfuel mode hsource hdest
  cases p.shape hdest with
  | param name => exact p.meet hjudge mode hpair hsource hdest
  | union halternatives => exact hmember
  | named name harguments =>
    rw [acceptsShape_named, acceptsShape_named]
    refine p.cond ?_ (p.pure rfl) hmember
    unfold sameNamed
    cases p.shape hsource with
    | named _ _ => exact sameDefinition_parallel p.toCheckLogic hjudge hpair hsource hdest
    | _ => exact p.pure rfl
  | pointer htargets =>
    cases p.shape hsource with
    | pointer hpointed => exact hjudge _ hpair hpointed htargets
    | _ => exact p.pure rfl
  | array length helements =>
    cases p.shape hsource with
    | array given hheld => exact p.ite (hjudge _ hpair hheld helements) (p.pure rfl)
    | _ => exact p.pure rfl
  | slice helements =>
    cases p.shape hsource with
    | slice hheld => exact hjudge _ hpair hheld helements
    | pointer hpointed =>
      refine p.bind (p.lift (pointedElement_parallel _ p.shape (p.ofFuels hfuel kind) hpointed))
        fun found found' hfound => ?_
      cases hfound with
      | none => exact p.pure rfl
      | some hheld => exact hjudge _ hpair hheld helements
    | _ => exact p.pure rfl
  | primitive name =>
    have hprimitive : source.isPrimitive name = source'.isPrimitive name := by
      cases p.shape hsource <;> rfl
    rw [acceptsShape_primitive, acceptsShape_primitive, hprimitive]
    exact p.ite (p.lift (textAccepts_parallel _ p.shape (p.ofFuels hfuel kind) hsource name))
      (p.pure rfl)

theorem acceptsBare_parallel (hfuel : p.fuels fuel fuel')
    (hjudge : judge.Parallel p.toCheckLogic judge') (mode : Mode) {kind kind' : κ}
    (hpair : p.pairs kind kind') (hsource : (p.types kind).related source source')
    (hdest : (p.types kind').related dest dest') :
    p.checks Eq (acceptsBare fuel judge mode source dest)
      (acceptsBare fuel' judge' mode source' dest') :=
  p.stand hjudge mode hpair hsource hdest
    (acceptsShape_parallel p hfuel hjudge mode hpair hsource hdest)

theorem accepts_parallel {fuel fuel' : Nat} (hfuel : p.fuels fuel fuel') :
    (accepts fuel).Parallel p.toCheckLogic (accepts fuel') := by
  induction fuel generalizing fuel' with
  | zero =>
    intro mode kind kind' source source' dest dest' _ _ _
    refine p.exhausted hfuel fun hzero => ?_
    rw [hzero]
    rfl
  | succ fuel ih =>
    obtain ⟨less, rfl, hless⟩ := p.fuels_succ hfuel
    intro mode kind kind' source source' dest dest' hpair hsource hdest
    have hfirst := p.lift (unalias_parallel _ (p.ofFuels hless kind) hsource)
    have hsecond := p.lift (unalias_parallel _ (p.ofFuels hless kind') hdest)
    cases mode with
    | lenient =>
      rw [accepts_lenient, accepts_lenient]
      exact p.bind hfirst fun _ _ hleft => p.bind hsecond fun _ _ hright =>
        acceptsBare_parallel p hless (ih hless) .lenient hpair hleft hright
    | strict =>
      rw [accepts_strict, accepts_strict]
      refine p.bind hfirst fun bare bare' hleft => p.bind hsecond fun other other' hright => ?_
      have hprimitive : samePrimitive bare other = samePrimitive bare' other' := by
        cases p.shape hleft <;> cases p.shape hright <;> rfl
      rw [hprimitive]
      have hforth := acceptsBare_parallel p hless (ih hless) .strict hpair hleft hright
      have hback := acceptsBare_parallel p hless (ih hless) .strict (p.symm hpair) hright hleft
      exact p.cond hforth (p.cond (p.isolated hback) (p.pure rfl) (p.pure rfl)) (p.pure rfl)

omit p in
/-- Checking arguments is comparing them with what the parameters stand for, leniently. -/
theorem acceptsArguments_eq (fuel : Nat) (rules : Substitution)
    (parameters arguments : List TypeExpr) :
    acceptsArguments fuel rules parameters arguments =
      sameArguments (fun _ => accepts fuel .lenient) arguments
        (parameters.map (·.substitute rules)) := by
  induction parameters generalizing arguments with
  | nil => cases arguments <;> rfl
  | cons declared parameters ih =>
    cases arguments with
    | nil => rfl
    | cons actual arguments => rw [acceptsArguments, ih, map_cons, sameArguments]

/-- Arguments are compared with the parameters they are for. -/
theorem acceptsArguments_parallel (hfuel : p.fuels fuel fuel') {kind kind' : κ}
    (hpair : p.pairs kind kind') {rules rules' : Substitution}
    {parameters parameters' arguments arguments' : List TypeExpr}
    (hparameters : Forall₂
      (fun one other => (p.types kind').related (one.substitute rules) (other.substitute rules'))
      parameters parameters')
    (harguments : Forall₂ (p.types kind).related arguments arguments') :
    p.checks Eq (acceptsArguments fuel rules parameters arguments)
      (acceptsArguments fuel' rules' parameters' arguments') := by
  rw [acceptsArguments_eq, acceptsArguments_eq]
  exact sameArguments_parallel p.toCheckLogic (fun _ => accepts_parallel p hfuel .lenient) hpair
    harguments (forall₂_map_left_iff.2 (forall₂_map_right_iff.2 hparameters))

end Whole

/-! ## Measures -/

section Measures

variable (p : TypeParallel)

section Counts

variable (hshape : ∀ {left right}, p.related left right → SameShape p.related left right)

include hshape

omit hshape in
theorem paramCountAll_parallel_of {left right : List TypeExpr}
    (hparts : ∀ part ∈ left, ∀ {other : TypeExpr}, p.related part other →
      part.paramCount = other.paramCount)
    (h : Forall₂ p.related left right) : paramCountAll left = paramCountAll right := by
  induction h with
  | nil => rfl
  | cons htype _ ih =>
    obtain ⟨hfirst, hrest⟩ := forall_mem_cons.1 hparts
    rw [paramCountAll, paramCountAll, hfirst htype, ih hrest]

/-- Related types have equally many parameters inside. -/
theorem paramCount_parallel (left : TypeExpr) {right : TypeExpr} (h : p.related left right) :
    left.paramCount = right.paramCount := by
  induction left using TypeExpr.induct generalizing right with
  | step left ih =>
    cases hshape h with
    | primitive | param => rfl
    | pointer hparts | slice hparts | array _ hparts =>
      rw [paramCount, paramCount]
      exact ih _ (.head _) hparts
    | union hparts | named _ hparts => exact paramCountAll_parallel_of p ih hparts

theorem paramCountAll_parallel {left right : List TypeExpr} (h : Forall₂ p.related left right) :
    paramCountAll left = paramCountAll right :=
  paramCountAll_parallel_of p (fun part _ => paramCount_parallel p hshape part) h

end Counts

/-- The weight of a type that is no alias. -/
def weighBare (fuel : Nat) (converts : Bool) : TypeExpr → TypeQuery Weight
  | .param _ => return { paramUses := 1 }
  | .primitive name => return { conversions := if converts then conversionCost name else 0 }
  | .named name qualifier arguments origin => do
    let inner ← arguments.foldlM (fun weight argument => do
      return weight + (← weigh fuel false argument)) {}
    let own ← weighUnion fuel (.named name qualifier arguments origin)
    return { complexity := arguments.length } + inner + own
  | .union covered => do
    let own ← weighUnion fuel (.union covered)
    return { paramUses := TypeExpr.paramCountAll covered } + own
  | .pointer target => weigh fuel false target
  | .array _ _ => return {}
  | .slice _ => return {}

theorem weigh_succ (fuel : Nat) (converts : Bool) (type : TypeExpr) :
    weigh (fuel + 1) converts type = unalias fuel type >>= weighBare fuel converts :=
  rfl

theorem weighUnion_parallel (hfuel : p.fuels fuel fuel') {left right : TypeExpr}
    (h : p.related left right) : p.holds Eq (weighUnion fuel left) (weighUnion fuel' right) := by
  refine p.bind (alternatives_parallel _ hfuel h) fun covered covered' hcovered => p.pure ?_
  rw [hcovered.length_eq]
  cases hcovered <;> rfl

/-- Adding weights up compares if weighing does. -/
theorem weighAll_parallel {weighed weighed' : TypeExpr → TypeQuery Weight}
    (hweigh : ∀ {left right : TypeExpr}, p.related left right →
      p.holds Eq (weighed left) (weighed' right))
    {left right : List TypeExpr} (h : Forall₂ p.related left right) (start : Weight) :
    p.holds Eq (left.foldlM (fun weight type => do return weight + (← weighed type)) start)
      (right.foldlM (fun weight type => do return weight + (← weighed' type)) start) := by
  refine p.foldlM (fun type type' htype weight weight' hweight => ?_) h rfl
  refine p.bind (hweigh htype) fun own own' hown => p.pure ?_
  rw [hweight, hown]

variable (hshape : ∀ {left right}, p.related left right → SameShape p.related left right)

include hshape

/-- Weighing bare types compares if weighing the parts does. -/
theorem weighBare_parallel (hfuel : p.fuels fuel fuel') (converts : Bool)
    (hweigh : ∀ {left right : TypeExpr}, p.related left right →
      p.holds Eq (weigh fuel false left) (weigh fuel' false right))
    {left right : TypeExpr} (h : p.related left right) :
    p.holds Eq (weighBare fuel converts left) (weighBare fuel' converts right) := by
  cases hshape h with
  | named name harguments =>
    refine p.bind (weighAll_parallel p hweigh harguments {}) fun inner inner' hinner => ?_
    refine p.bind (weighUnion_parallel p hfuel h) fun own own' hown => p.pure ?_
    rw [hinner, hown, harguments.length_eq]
  | union halternatives =>
    refine p.bind (weighUnion_parallel p hfuel h) fun own own' hown => p.pure ?_
    rw [hown, paramCountAll_parallel p hshape halternatives]
  | pointer htargets => exact hweigh htargets
  | _ => exact p.pure rfl

theorem weigh_parallel (hfuel : p.fuels fuel fuel') (converts : Bool) {left right : TypeExpr}
    (h : p.related left right) :
    p.holds Eq (weigh fuel converts left) (weigh fuel' converts right) := by
  induction fuel generalizing fuel' converts left right with
  | zero =>
    refine p.exhausted hfuel fun hzero => ?_
    rw [hzero]
    rfl
  | succ fuel ih =>
    obtain ⟨less, rfl, hless⟩ := p.fuels_succ hfuel
    exact p.bind (unalias_parallel _ hless h) fun _ _ =>
      weighBare_parallel p hshape hless converts (ih hless false)

theorem specificity_parallel (hfuel : p.fuels fuel fuel') {function : FunctionDef}
    (h : ∀ type ∈ function.parameterTypes, p.related type type) :
    p.holds Eq (function.specificity fuel) (function.specificity fuel') := by
  refine p.bind (weighAll_parallel p (fun h => weigh_parallel p hshape hfuel true h)
    (List.forall₂_same.2 h) {})
    fun weight weight' hweight => ?_
  rw [hweight]
  exact p.pure rfl

end Measures

/-! ## What is inferred -/

/-- A way of comparing comparisons that infer related types. -/
structure CheckParallel : Type 1 extends TypeParallel where
  /-- Comparisons may also be refused for inconsistent input. -/
  refuse {α β : Type} {same : α → β → Prop} {cause : Diagnostic}
    (h : cause.isPlanning = false) : holds same (MonadExcept.throw cause) (MonadExcept.throw cause)
  checks {α β : Type} (same : α → β → Prop) (left : Check α) (right : Check β) : Prop
  checkPure {α β : Type} {same : α → β → Prop} {a : α} {b : β} (h : same a b) :
    checks same (Pure.pure a) (Pure.pure b)
  checkBind {α β γ δ : Type} {same : α → β → Prop} {next : γ → δ → Prop} {left : Check α}
    {right : Check β} {leftRest : α → Check γ} {rightRest : β → Check δ}
    (h : checks same left right)
    (hrest : ∀ a b, same a b → checks next (leftRest a) (rightRest b)) :
    checks next (left >>= leftRest) (right >>= rightRest)
  checkExhausted {α β : Type} {same : α → β → Prop} {fuel : Nat} {right : Check β}
    (h : fuels 0 fuel) (hright : fuel = 0 → right = MonadExcept.throw .limitReached) :
    checks same (MonadExcept.throw .limitReached : Check α) right
  lift {α β : Type} {same : α → β → Prop} {left : TypeQuery α} {right : TypeQuery β}
    (h : holds same left right) : checks same (liftM left) (liftM right)
  infer {change change' : Inference → Inference}
    (h : ∀ inference inference', SameInference related inference inference' →
      SameInference related (change inference) (change' inference')) :
    checks Eq (Check.infer change) (Check.infer change')
  /-- What is done next may depend on what is known. -/
  knowing {α β : Type} {same : α → β → Prop} {left : Inference → Check α}
    {right : Inference → Check β}
    (h : ∀ inference inference', SameInference related inference inference' →
      checks same (left inference) (right inference')) :
    checks same (get >>= fun state => left state.inference)
      (get >>= fun state => right state.inference)
  isolated {α β : Type} {same : α → β → Prop} {left : Check α} {right : Check β}
    (h : checks same left right) : checks same left.isolated right.isolated
  onTrial {left right : Check Bool} (h : checks Eq left right) :
    checks Eq left.onTrial right.onTrial
  run {α β : Type} {same : α → β → Prop} {left : Check α} {right : Check β}
    {inference inference' : Inference} (hinference : SameInference related inference inference')
    (h : checks same left right) :
    holds (fun a b => same a.1 b.1 ∧ SameInference related a.2 b.2)
      (left.run inference) (right.run inference')
  shape {left right : TypeExpr} (h : related left right) : SameShape related left right
  union {left right : List TypeExpr} (h : Forall₂ related left right) :
    related (.union left) (.union right)
  substitute {left right : TypeExpr} {rules rules' : Substitution} (h : related left right)
    (hrules : SameRules related rules rules') :
    related (left.substitute rules) (right.substitute rules')

namespace CheckParallel

variable (p : CheckParallel)

/-- The comparison of what comparisons are put together from, for types of one kind. -/
def logic : CheckLogic Unit where
  types _ := p.toTypeParallel
  pairs _ _ := True
  fuels := p.fuels
  checks := p.checks
  symm h := h
  fuels_succ := p.fuels_succ
  ofFuels h _ := h
  shape := p.shape
  pure := p.checkPure
  bind := p.checkBind
  exhausted := p.checkExhausted
  lift := p.lift
  isolated := p.isolated
  onTrial := p.onTrial

theorem merge {bound bound' : TypeExpr} (hbound : p.related bound bound')
    (htype : p.related type type') : p.related (bound.merge type) (bound'.merge type') := by
  have hpair : p.related (.union [bound, type]) (.union [bound', type']) :=
    p.union (.cons hbound (.cons htype .nil))
  cases p.shape hbound with
  | union halternatives => exact p.union (rel_append halternatives (.cons htype .nil))
  | _ => exact hpair

variable (hjudge : ∀ mode {source source' dest dest' : TypeExpr}, p.related source source' →
    p.related dest dest' → p.checks Eq (judge mode source dest) (judge' mode source' dest'))
  (mode : Mode) (hsource : p.related source source')

include hjudge hsource

theorem checks_meetBinding (name : String) {inference inference' : Inference}
    (h : SameInference p.related inference inference') :
    p.checks Eq (meetBinding judge mode source name inference)
      (meetBinding judge' mode source' name inference') := by
  unfold meetBinding
  have hfind := h.bindings.find? name
  rw [h.locked]
  generalize inference.bindings.find? name = found, inference'.bindings.find? name = found'
    at hfind ⊢
  cases hfind with
  | none =>
    refine p.checkBind (p.infer fun _ _ h => ?_) fun _ _ _ => p.checkPure rfl
    exact ⟨h.bindings.bind name hsource, h.locked⟩
  | some hbound =>
    refine p.logic.ite (hjudge _ hsource hbound) ?_
    refine p.logic.cond (p.isolated (hjudge _ hsource hbound)) (p.checkPure rfl) ?_
    refine p.checkBind (p.isolated (hjudge _ hbound hsource)) fun fits fits' hfits => ?_
    rw [hfits]
    refine p.checkBind (p.infer fun _ _ h => ?_) fun _ _ _ => p.checkPure rfl
    refine ⟨h.bindings.replace name ?_, h.locked⟩
    split
    · exact hsource
    · exact p.merge hbound hsource

theorem checks_meetParam (name : String) :
    p.checks Eq (meetParam judge mode source name) (meetParam judge' mode source' name) := by
  rw [meetParam_eq, meetParam_eq]
  have hparam : source.isParam name = source'.isParam name := by
    cases p.shape hsource <;> rfl
  rw [hparam]
  have hlock : p.checks Eq (lockIfStrict mode name) (lockIfStrict mode name) :=
    p.logic.ite (p.infer fun _ _ h => h.lock name) (p.checkPure rfl)
  have hmeet : ∀ inference inference', SameInference p.related inference inference' →
      p.checks Eq
        (lockIfStrict mode name >>= fun _ => meetBinding judge mode source name inference)
        (lockIfStrict mode name >>= fun _ => meetBinding judge' mode source' name inference') :=
    fun inference inference' h =>
      p.checkBind hlock fun _ _ _ => p.checks_meetBinding hjudge mode hsource name h
  exact p.logic.ite (p.checkPure rfl) (p.knowing hmeet)

/-- A parameter on the left and on the right stands for related types. -/
theorem checks_acceptsBare (hdest : p.related dest dest')
    (hshape : p.checks Eq (acceptsShape fuel judge mode source dest)
      (acceptsShape fuel' judge' mode source' dest')) :
    p.checks Eq (acceptsBare fuel judge mode source dest)
      (acceptsBare fuel' judge' mode source' dest') := by
  rw [acceptsBare_eq, acceptsBare_eq]
  refine p.knowing fun inference inference' h => ?_
  have hstands : Rel p.related (standsFor? inference source dest)
      (standsFor? inference' source' dest') := by
    have hparam : ∀ name, dest.isParam name = dest'.isParam name := by
      intro name
      cases p.shape hdest <;> rfl
    cases p.shape hsource with
    | param name =>
      rw [standsFor?, standsFor?, hparam]
      split
      · exact .none
      · exact h.bindings.find? name
    | _ => exact .none
  unfold acceptsKnowing
  generalize standsFor? inference source dest = found, standsFor? inference' source' dest' = found'
    at hstands ⊢
  cases hstands with
  | none => exact hshape
  | some hbound => exact hjudge mode hbound hdest

omit hjudge hsource

/-- The comparison of comparisons, for types of one kind. -/
def judging : JudgeParallel Unit where
  toCheckLogic := p.logic
  meet hjudge mode _ _ _ _ _ _ hsource _ :=
    p.checks_meetParam (fun mode _ _ _ _ => @hjudge mode () () _ _ _ _ trivial) mode hsource _
  stand hjudge mode _ _ _ _ _ _ _ _ _ hsource hdest hshape :=
    p.checks_acceptsBare (fun mode _ _ _ _ => @hjudge mode () () _ _ _ _ trivial) mode hsource
      hdest hshape

theorem checks_accepts {fuel fuel' : Nat} (hfuel : p.fuels fuel fuel') (mode : Mode)
    {source source' dest dest' : TypeExpr} (hsource : p.related source source')
    (hdest : p.related dest dest') :
    p.checks Eq (accepts fuel mode source dest) (accepts fuel' mode source' dest') :=
  @accepts_parallel Unit p.judging _ _ hfuel mode () () _ _ _ _ trivial hsource hdest

end CheckParallel

end Accord
