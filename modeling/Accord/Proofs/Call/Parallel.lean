import Accord.Proofs.Call.Resolve

/-!
# Resolutions side by side

Related arguments get candidates tried and measured alike: the steps of a resolution
compare in every `CheckParallel` (`takes_parallel`), and so does the scan of the candidates
(`scanCandidates_parallel`).
-/

namespace Accord

open Query List Option FunctionDef

variable {call call' : Call} {fuel fuel' : Nat} {candidate : FunctionDef}
  {arguments arguments' : List TypeExpr} {left right : Scan} (p : CheckParallel)

/-- The parameters of a function have types that are related to themselves. -/
def FunctionDef.Related (function : FunctionDef) : Prop :=
  ∀ type ∈ function.parameterTypes, p.related type type

/-! ## Candidates -/

theorem fixedBy_parallel (candidate : FunctionDef)
    (hgenerics : Forall₂ p.related call.generics call'.generics) :
    SameRules p.related (candidate.fixedBy call) (candidate.fixedBy call') := by
  unfold fixedBy
  cases hcall : call.generics with
  | nil =>
    rw [hcall] at hgenerics
    rw [forall₂_nil_left_iff.1 hgenerics]
    exact .nil
  | cons type rest =>
    rw [hcall] at hgenerics
    obtain ⟨type', rest', htype, hrest, hcall'⟩ := forall₂_cons_left_iff.1 hgenerics
    rw [hcall']
    exact SameRules.ofLists candidate.generics (.cons htype hrest)

theorem takesUnder_parallel (candidate : FunctionDef)
    (hgenerics : Forall₂ p.related call.generics call'.generics)
    {result result' : Bool × Inference} (haccepted : result.1 = result'.1)
    (hinference : SameInference p.related result.2 result'.2) :
    Rel (SameRules p.related) (candidate.takesUnder call result)
      (candidate.takesUnder call' result') := by
  have hempty : call.generics.isEmpty = call'.generics.isEmpty := by
    generalize call.generics = types, call'.generics = types' at hgenerics
    cases hgenerics <;> rfl
  unfold takesUnder
  rw [haccepted, hempty, hinference.bindings.countBound]
  split
  · exact .none
  · split
    · exact .none
    · exact .some hinference.bindings

theorem takes_parallel (hfuel : p.fuels fuel fuel') (hcandidate : candidate.Related p)
    (hgenerics : Forall₂ p.related call.generics call'.generics)
    (harguments : Forall₂ p.related arguments arguments') :
    p.holds (Rel (SameRules p.related)) (candidate.takes fuel call arguments)
      (candidate.takes fuel' call' arguments') := by
  have hempty : call.generics.isEmpty = call'.generics.isEmpty := by
    generalize call.generics = types, call'.generics = types' at hgenerics
    cases hgenerics <;> rfl
  have hfixed := fixedBy_parallel p candidate hgenerics
  rw [takes_eq, takes_eq, harguments.length_eq, hgenerics.length_eq, hempty]
  refine p.ite (p.refuse rfl) (p.ite (p.pure .none) ?_)
  have hstart : SameInference p.related { bindings := candidate.fixedBy call }
      { bindings := candidate.fixedBy call' } := ⟨hfixed, rfl⟩
  have hparameters : Forall₂ (fun one other => p.related
      (one.substitute (candidate.fixedBy call)) (other.substitute (candidate.fixedBy call')))
      candidate.parameterTypes candidate.parameterTypes :=
    List.forall₂_same.2 fun type htype => p.substitute (hcandidate type htype) hfixed
  have hchecked := @acceptsArguments_parallel _ _ Unit p.judging hfuel () () trivial _ _ _ _ _ _
    hparameters harguments
  refine p.bind (p.run hstart hchecked) fun result result' hresult => ?_
  exact p.pure (takesUnder_parallel p candidate hgenerics hresult.1 hresult.2)

/-! ## Scans -/

/-- Two scans that have kept the same candidates, under related rules. -/
structure SameScan (left right : Scan) : Prop where
  best : left.best = right.best
  kept : Forall₂ (fun one other => one.1 = other.1 ∧ SameRules p.related one.2 other.2)
    left.kept right.kept

theorem SameScan.consider (h : SameScan p left right) (candidate : FunctionDef)
    (measure : Specificity) {taken taken' : Option Substitution}
    (htaken : Rel (SameRules p.related) taken taken') :
    SameScan p (left.consider candidate measure taken) (right.consider candidate measure taken') := by
  cases htaken with
  | none => exact h
  | some hrules =>
    have hcompare : left.compare measure = right.compare measure := by
      unfold Scan.compare
      rw [h.best]
    rw [Scan.consider, Scan.consider, hcompare]
    split
    · exact h
    · exact ⟨rfl, .cons ⟨rfl, hrules⟩ .nil⟩
    · exact ⟨h.best, rel_append h.kept (.cons ⟨rfl, hrules⟩ .nil)⟩

theorem offer_parallel (hfuel : p.fuels fuel fuel')
    (hgenerics : Forall₂ p.related call.generics call'.generics)
    (harguments : Forall₂ p.related arguments arguments') (hcandidate : candidate.Related p)
    (h : SameScan p left right) :
    p.holds (SameScan p) (left.offer fuel call arguments candidate)
      (right.offer fuel' call' arguments' candidate) := by
  rw [Scan.offer_eq, Scan.offer_eq]
  refine p.bind (specificity_parallel p.toTypeParallel p.shape hfuel hcandidate)
    fun measure measure' hmeasure => ?_
  have hcompare : left.compare measure = right.compare measure' := by
    unfold Scan.compare
    rw [h.best, hmeasure]
  rw [hcompare, hmeasure]
  refine p.ite (p.pure h) ?_
  exact p.bind (takes_parallel p hfuel hcandidate hgenerics harguments)
    fun taken taken' htaken => p.pure (h.consider p candidate measure' htaken)

theorem scanCandidates_parallel (hfuel : p.fuels fuel fuel')
    (hgenerics : Forall₂ p.related call.generics call'.generics)
    (harguments : Forall₂ p.related arguments arguments') {candidates : List FunctionDef}
    (hcandidates : ∀ candidate ∈ candidates, candidate.Related p) :
    p.holds (SameScan p) (scanCandidates fuel call arguments candidates)
      (scanCandidates fuel' call' arguments' candidates) := by
  have hitems : Forall₂ (fun candidate candidate' => candidate = candidate' ∧
      candidate.Related p) candidates candidates :=
    List.forall₂_same.2 fun candidate hmem => ⟨rfl, hcandidates candidate hmem⟩
  refine p.foldlM ?_ hitems ⟨rfl, .nil⟩
  rintro candidate _ ⟨rfl, hcandidate⟩ left right h
  exact offer_parallel p hfuel hgenerics harguments hcandidate h

/-! ## Keys and names -/

theorem callKey_parallel (hgenerics : Forall₂ p.related call.generics call.generics)
    (harguments : Forall₂ p.related arguments arguments') :
    p.holds Eq (callKey call arguments) (callKey call arguments') := by
  refine p.bind (canonicalNames_parallel p.toTypeParallel hgenerics) fun generics generics' hnames => ?_
  refine p.bind (canonicalNames_parallel p.toTypeParallel harguments) fun names names' hnames' => p.pure ?_
  rw [hnames, hnames']

theorem boundNames_parallel (function : FunctionDef) {rules rules' : Substitution}
    (hrules : SameRules p.related rules rules') (generics : List String) :
    p.holds Eq (boundNames function rules generics) (boundNames function rules' generics) := by
  induction generics with
  | nil => exact p.pure rfl
  | cons generic rest ih =>
    rw [boundNames, boundNames]
    have hdemand : p.holds p.related
        (demand (.inconsistent (.unboundGeneric generic function.name)) (rules.find? generic))
        (demand (.inconsistent (.unboundGeneric generic function.name)) (rules'.find? generic)) := by
      have hfind := hrules.find? generic
      generalize rules.find? generic = found, rules'.find? generic = found' at hfind ⊢
      cases hfind with
      | none => exact p.refuse rfl
      | some htype => exact p.pure htype
    refine p.bind hdemand fun type type' htype => ?_
    refine p.bind (p.name htype) fun name name' hname => ?_
    refine p.bind ih fun names names' hnames => p.pure ?_
    rw [hname, hnames]

end Accord
