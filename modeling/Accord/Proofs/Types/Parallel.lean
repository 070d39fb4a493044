import Accord.Proofs.Query.Guard
import Accord.Proofs.Source.Induction
import Accord.Types.Union

/-!
# Questions about types side by side

Much of what is said about questions compares two runs: on two tables, on two types, with
two amounts of fuel.  Whatever the comparison, the argument that takes it from look-ups to
whole questions is the same, and it is given here once.

A `TypeParallel` is a way of comparing runs.  It says when types are related and which
amounts of fuel go together, it has a rule for each way of putting questions together, and
it knows how names and look-ups of related types compare.  Then following aliases and
listing alternatives compare too (`unalias_parallel`, `alternatives_parallel`).

A question may be compared with itself, to say that it stays within bounds (`within`).
-/

namespace Accord

open Query

variable {related : TypeExpr → TypeExpr → Prop} {left right type : TypeExpr} {α β : Type}
  {good : TypeExpr → Prop} {definition : TypeDef} {fuel fuel' : Nat} {same : α → β → Prop}
  {gathered : Gathered}

/-- The refusals that only the planning of calls has. -/
def Diagnostic.isPlanning : Diagnostic → Bool
  | .noMatchingOverload _ _ _ => true
  | .unsplittableCall _ _ _ => true
  | .mixedVoidness _ _ => true
  | _ => false

/-- The cause is neither inconsistent input nor a call on types with parameters. -/
def Diagnostic.Ordinary : Diagnostic → Prop
  | .inconsistent _ => False
  | .unresolvedGeneric _ _ => False
  | _ => True

/-! ## Related types and definitions -/

/-- Two references, two sums with related alternatives, or two types that are neither. -/
inductive SameHead (related : TypeExpr → TypeExpr → Prop) : TypeExpr → TypeExpr → Prop where
  | ref (left right : TypeRef) : SameHead related left.toType right.toType
  | union {left right : List TypeExpr} (alternatives : List.Forall₂ related left right) :
      SameHead related (.union left) (.union right)
  | other {left right : TypeExpr} (leftRef : left.ref? = none) (rightRef : right.ref? = none)
      (leftUnion : ∀ types, left ≠ .union types) (rightUnion : ∀ types, right ≠ .union types) :
      SameHead related left right

/-- Two types of one shape with related parts; references may be spelled differently. -/
inductive SameShape (related : TypeExpr → TypeExpr → Prop) : TypeExpr → TypeExpr → Prop where
  | primitive (name : String) : SameShape related (.primitive name) (.primitive name)
  | param (name : String) : SameShape related (.param name) (.param name)
  | pointer {left right : TypeExpr} (targets : related left right) :
      SameShape related (.pointer left) (.pointer right)
  | array (length : UInt64) {left right : TypeExpr} (elements : related left right) :
      SameShape related (.array length left) (.array length right)
  | slice {left right : TypeExpr} (elements : related left right) :
      SameShape related (.slice left) (.slice right)
  | union {left right : List TypeExpr} (alternatives : List.Forall₂ related left right) :
      SameShape related (.union left) (.union right)
  | named (name : String) {qualifier qualifier' : Option String} {left right : List TypeExpr}
      {origin origin' : String} (arguments : List.Forall₂ related left right) :
      SameShape related (.named name qualifier left origin) (.named name qualifier' right origin')

theorem SameShape.head (h : SameShape related left right) : SameHead related left right := by
  cases h with
  | named name harguments => exact .ref ⟨name, _, _, _⟩ ⟨name, _, _, _⟩
  | union halternatives => exact .union halternatives
  | _ => exact .other rfl rfl (by simp) (by simp)

/-- Two records, two unions of related alternatives, or two aliases of related types. -/
inductive SameBody (related : TypeExpr → TypeExpr → Prop) (left right : TypeDef) : Prop where
  | record {fields fields' : List Field} (leftBody : left.body = .record fields)
      (rightBody : right.body = .record fields')
  | union {types types' : List TypeExpr} (leftBody : left.body = .union types)
      (rightBody : right.body = .union types') (alternatives : List.Forall₂ related types types')
  | «alias» {target target' : TypeExpr} (leftBody : left.body = .alias target)
      (rightBody : right.body = .alias target') (targets : related target target')
      (names : left.name = right.name)

/-- What two look-ups find: one package, and definitions with the same kind of body. -/
def SameFound (related : TypeExpr → TypeExpr → Prop) (left right : String × TypeDef) : Prop :=
  left.1 = right.1 ∧ SameBody related left.2 right.2

theorem exists_of_mem_left {related : α → β → Prop} {left : List α} {right : List β}
    (h : List.Forall₂ related left right) {a : α} (hmem : a ∈ left) : ∃ b ∈ right, related a b := by
  obtain ⟨i, hi, rfl⟩ := List.mem_iff_getElem.1 hmem
  exact ⟨_, List.getElem_mem _, h.get hi (h.length_eq ▸ hi)⟩

theorem forall₂_eq_and {good : α → Prop} {left right : List α} :
    List.Forall₂ (fun one other => one = other ∧ good one) left right ↔
      left = right ∧ ∀ item ∈ left, good item := by
  simp only [and_comm, List.forall₂_and_left, List.forall₂_eq_eq_eq]

/-- The parts of a type of the kind are of the kind. -/
structure Inherited (good : TypeExpr → Prop) : Prop where
  target {target : TypeExpr} : good (.pointer target) → good target
  held {length : UInt64} {element : TypeExpr} : good (.array length element) → good element
  element {element : TypeExpr} : good (.slice element) → good element
  alternatives {alternatives : List TypeExpr} :
    good (.union alternatives) → ∀ type ∈ alternatives, good type
  arguments {ref : TypeRef} : good ref.toType → ∀ type ∈ ref.arguments, good type

theorem Inherited.all : Inherited fun _ => True :=
  ⟨id, id, id, fun _ _ _ => trivial, fun _ _ _ => trivial⟩

/-- A type of the kind has the shape of itself. -/
theorem Inherited.shape (h : Inherited good) (hsame : left = right ∧ good left) :
    SameShape (fun one other => one = other ∧ good one) left right := by
  obtain ⟨rfl, htype⟩ := hsame
  cases left with
  | primitive name => exact .primitive name
  | param name => exact .param name
  | pointer target => exact .pointer ⟨rfl, h.target htype⟩
  | array length element => exact .array length ⟨rfl, h.held htype⟩
  | slice element => exact .slice ⟨rfl, h.element htype⟩
  | union alternatives => exact .union (forall₂_eq_and.2 ⟨rfl, h.alternatives htype⟩)
  | named name qualifier arguments origin =>
    have href : good (TypeRef.toType ⟨name, qualifier, arguments, origin⟩) := htype
    exact .named name (forall₂_eq_and.2 ⟨rfl, h.arguments href⟩)

/-- The types that questions go on to from a definition.  What a record holds is left
alone. -/
def TypeBody.opened : TypeBody → List TypeExpr
  | .record _ => []
  | .union alternatives => alternatives
  | .alias target => [target]

theorem TypeBody.opened_subset (body : TypeBody) : body.opened ⊆ body.components := by
  cases body <;> simp [opened, components]

theorem SameBody.of_opened (h : ∀ part ∈ definition.body.opened, good part) :
    SameBody (fun one other => one = other ∧ good one) definition definition := by
  cases hbody : definition.body with
  | record fields => exact .record hbody hbody
  | union alternatives =>
    refine .union hbody hbody (forall₂_eq_and.2 ⟨rfl, ?_⟩)
    simpa [hbody, TypeBody.opened] using h
  | «alias» target =>
    exact .alias hbody hbody ⟨rfl, h target (by simp [hbody, TypeBody.opened])⟩ rfl

/-- A definition with good components has the same kind of body as itself. -/
theorem SameBody.refl (h : ∀ component ∈ definition.body.components, good component) :
    SameBody (fun one other => one = other ∧ good one) definition definition :=
  .of_opened fun part hpart => h part (definition.body.opened_subset hpart)

/-! ## Ways of comparing -/

/-- A way of comparing questions about types. -/
structure TypeParallel : Type 1 where
  /-- The two questions compare, and so do their answers. -/
  holds {α β : Type} (same : α → β → Prop) (left : TypeQuery α) (right : TypeQuery β) : Prop
  related : TypeExpr → TypeExpr → Prop
  fuels : Nat → Nat → Prop
  pure {α β : Type} {same : α → β → Prop} {a : α} {b : β} (h : same a b) :
    holds same (pure a) (pure b)
  throw {α β : Type} {same : α → β → Prop} {cause : Diagnostic}
    (h : cause.isPlanning = false) (hcause : cause.Ordinary) :
    holds same (throw cause) (throw cause)
  bind {α β γ δ : Type} {same : α → β → Prop} {next : γ → δ → Prop} {left : TypeQuery α}
    {right : TypeQuery β} {leftRest : α → TypeQuery γ} {rightRest : β → TypeQuery δ}
    (h : holds same left right)
    (hrest : ∀ a b, same a b → holds next (leftRest a) (rightRest b)) :
    holds next (left >>= leftRest) (right >>= rightRest)
  /-- The question on the left has no fuel left. -/
  exhausted {α β : Type} {same : α → β → Prop} {fuel : Nat} {right : TypeQuery β}
    (h : fuels 0 fuel) (hright : fuel = 0 → right = MonadExcept.throw .limitReached) :
    holds same (MonadExcept.throw .limitReached : TypeQuery α) right
  fuels_succ {fuel fuel' : Nat} (h : fuels (fuel + 1) fuel') :
    ∃ less, fuel' = less + 1 ∧ fuels fuel less
  head {left right : TypeExpr} (h : related left right) : SameHead related left right
  name {left right : TypeExpr} (h : related left right) :
    holds Eq (canonicalName left) (canonicalName right)
  locate {left right : TypeRef} (h : related left.toType right.toType) :
    holds (SameFound related) (locate left) (locate right)

theorem exists_succ_of_eq (h : fuel + 1 = fuel') : ∃ less, fuel' = less + 1 ∧ fuel = less :=
  ⟨fuel, h.symm, rfl⟩

theorem exists_succ_of_le (h : fuel + 1 ≤ fuel') : ∃ less, fuel' = less + 1 ∧ fuel ≤ less :=
  ⟨fuel' - 1, by omega, by omega⟩

namespace TypeParallel

variable (p : TypeParallel)

theorem ite {c : Prop} [Decidable c] {left left' : TypeQuery α} {right right' : TypeQuery β}
    (h : p.holds same left right) (h' : p.holds same left' right') :
    p.holds same (if c then left else left') (if c then right else right') := by
  split
  · exact h
  · exact h'

theorem foldlM {ι κ : Type} {items : ι → κ → Prop} {leftStep : α → ι → TypeQuery α}
    {rightStep : β → κ → TypeQuery β}
    (hstep : ∀ i j, items i j → ∀ a b, same a b → p.holds same (leftStep a i) (rightStep b j))
    {left : List ι} {right : List κ} (hitems : List.Forall₂ items left right) {a : α} {b : β}
    (h : same a b) : p.holds same (left.foldlM leftStep a) (right.foldlM rightStep b) := by
  induction hitems generalizing a b with
  | nil => exact p.pure h
  | cons hij _ ih =>
    rw [List.foldlM_cons, List.foldlM_cons]
    exact p.bind (hstep _ _ hij a b h) fun _ _ hab => ih hab

/-- Questions about good types, each compared with itself: the table keeps a property, the
answers are good types again, and refusals have mild causes. -/
def within {inv : TypeTable → Prop} {mild : Diagnostic → Prop} {good : TypeExpr → Prop}
    (ordinary : ∀ {cause}, cause.Ordinary → mild cause) (inherited : Inherited good)
    (name : ∀ {type}, good type → Guards inv (fun _ => True) mild (canonicalName type))
    (locate : ∀ {ref : TypeRef}, good ref.toType →
      Guards inv (fun found => ∀ part ∈ found.2.body.opened, good part) mild
        (Accord.locate ref)) : TypeParallel where
  holds same left _ := Guards inv (fun a => ∃ b, same a b) mild left
  related one other := one = other ∧ good one
  fuels := Eq
  pure h := Guards.pure ⟨_, h⟩
  throw _ hcause := Guards.throw (ordinary hcause)
  bind h hrest := Guards.bind h fun a ⟨b, hab⟩ => hrest a b hab
  exhausted _ _ := Guards.throw (ordinary trivial)
  fuels_succ := exists_succ_of_eq
  head h := (inherited.shape h).head
  name := by
    rintro type _ ⟨rfl, h⟩
    exact (name h).mono fun name _ => ⟨name, rfl⟩
  locate := by
    rintro ref other ⟨_, h⟩
    exact (locate h).mono fun answer hanswer => ⟨answer, rfl, .of_opened hanswer⟩

end TypeParallel

/-! ## Names, definitions and aliases -/

section Aliases

variable (p : TypeParallel)

theorem canonicalNames_parallel {left right : List TypeExpr}
    (h : List.Forall₂ p.related left right) :
    p.holds Eq (canonicalNames left) (canonicalNames right) := by
  induction h with
  | nil => exact p.pure rfl
  | cons htype _ ih =>
    rw [canonicalNames, canonicalNames]
    refine p.bind (p.name htype) fun name name' hname => ?_
    refine p.bind ih fun names names' hnames => p.pure ?_
    rw [hname, hnames]

theorem retrieve_parallel {left right : TypeRef} (h : p.related left.toType right.toType) :
    p.holds (SameBody p.related) (retrieve left) (retrieve right) :=
  p.bind (p.locate h) fun _ _ hfound => p.pure hfound.2

theorem TypeRef.ref?_toType (ref : TypeRef) : ref.toType.ref? = some ref :=
  rfl

theorem TypeExpr.eq_of_ref? {ref : TypeRef} (h : type.ref? = some ref) : type = ref.toType := by
  cases type with
  | named name qualifier arguments origin =>
    cases h
    rfl
  | _ => cases h

theorem TypeRef.toType_inj {left right : TypeRef} (h : left.toType = right.toType) :
    left = right := by
  obtain ⟨name, qualifier, arguments, origin⟩ := left
  obtain ⟨name', qualifier', arguments', origin'⟩ := right
  cases h
  rfl

theorem unaliasFrom_parallel (hfuel : p.fuels fuel fuel') (seen : List String)
    (h : p.related left right) :
    p.holds p.related (unaliasFrom fuel seen left) (unaliasFrom fuel' seen right) := by
  induction fuel generalizing fuel' seen left right with
  | zero =>
    refine p.exhausted hfuel fun hzero => ?_
    rw [hzero]
    rfl
  | succ fuel ih =>
    obtain ⟨less, rfl, hless⟩ := p.fuels_succ hfuel
    unfold unaliasFrom
    cases p.head h with
    | union _ => exact p.pure h
    | other hleft hright _ _ =>
      rw [hleft, hright]
      exact p.pure h
    | ref leftRef rightRef =>
      rw [TypeRef.ref?_toType, TypeRef.ref?_toType]
      refine p.bind (retrieve_parallel p h) fun definition definition' hbody => ?_
      cases hbody with
      | record hbody hbody' | union hbody hbody' _ =>
        rw [hbody, hbody']
        exact p.pure h
      | «alias» hbody hbody' htargets hnames =>
        rw [hbody, hbody', hnames]
        refine p.bind (p.name h) fun name name' hname => ?_
        rw [hname]
        exact p.ite (p.throw rfl trivial) (ih hless _ htargets)

theorem unalias_parallel (hfuel : p.fuels fuel fuel') (h : p.related left right) :
    p.holds p.related (unalias fuel left) (unalias fuel' right) :=
  unaliasFrom_parallel p hfuel [] h

variable (hshape : ∀ {left right}, p.related left right → SameShape p.related left right)

include hshape

theorem dereference_parallel (hfuel : p.fuels fuel fuel') (h : p.related left right) :
    p.holds p.related (dereference fuel left) (dereference fuel' right) := by
  induction fuel generalizing fuel' left right with
  | zero =>
    refine p.exhausted hfuel fun hzero => ?_
    rw [hzero]
    rfl
  | succ fuel ih =>
    obtain ⟨less, rfl, hless⟩ := p.fuels_succ hfuel
    cases hshape h with
    | pointer htargets =>
      exact p.bind (unalias_parallel p hless htargets) fun _ _ hbare => ih hless hbare
    | _ => exact p.pure h

omit hshape in
theorem verifyAll_parallel_of {left right : List TypeExpr}
    (hparts : ∀ part ∈ left, ∀ {other : TypeExpr}, p.related part other →
      p.holds (fun _ _ => True) (verify part) (verify other))
    (h : List.Forall₂ p.related left right) :
    p.holds (fun _ _ => True) (verifyAll left) (verifyAll right) := by
  induction h with
  | nil => exact p.pure trivial
  | cons htype _ ih =>
    obtain ⟨hfirst, hrest⟩ := List.forall_mem_cons.1 hparts
    exact p.bind (hfirst htype) fun _ _ _ => ih hrest

theorem verify_parallel (left : TypeExpr) {right : TypeExpr} (h : p.related left right) :
    p.holds (fun _ _ => True) (verify left) (verify right) := by
  induction left using TypeExpr.induct generalizing right with
  | step left ih =>
    cases hshape h with
    | primitive | param => exact p.pure trivial
    | pointer hparts | slice hparts | array _ hparts =>
      rw [verify, verify]
      exact ih _ (.head _) hparts
    | union halternatives => exact verifyAll_parallel_of p ih halternatives
    | @named name qualifier qualifier' arguments arguments' origin origin' harguments =>
      refine p.bind (verifyAll_parallel_of p ih harguments) fun _ _ _ => ?_
      have hretrieve := @retrieve_parallel p ⟨name, qualifier, arguments, origin⟩
        ⟨name, qualifier', arguments', origin'⟩ h
      exact p.bind hretrieve fun _ _ _ => p.pure trivial

theorem verifyAll_parallel (left : List TypeExpr) {right : List TypeExpr}
    (h : List.Forall₂ p.related left right) :
    p.holds (fun _ _ => True) (verifyAll left) (verifyAll right) :=
  verifyAll_parallel_of p (fun part _ => verify_parallel p hshape part) h

end Aliases

/-! ## Alternatives -/

/-- The alternatives written in a type that is no alias. -/
def directAlternativesOf : TypeExpr → TypeQuery (Option (List TypeExpr))
  | .union alternatives => return some alternatives
  | .named name qualifier arguments origin => do
    match (← retrieve ⟨name, qualifier, arguments, origin⟩).body with
    | .union alternatives => return some alternatives
    | _ => return none
  | _ => return none

theorem directAlternatives_eq (fuel : Nat) (type : TypeExpr) :
    directAlternatives fuel type = unalias fuel type >>= directAlternativesOf :=
  rfl

/-- Gathers one alternative of a union whose name ends the path. -/
def gatherOne (fuel : Nat) (path : List String) (gathered : Gathered)
    (alternative : TypeExpr) : TypeQuery Gathered := do
  match ← directAlternatives fuel alternative with
  | some _ => gather fuel path alternative gathered
  | none => return gathered.add (← canonicalName alternative) alternative

theorem gather_eq (fuel : Nat) (path : List String) (type : TypeExpr) (gathered : Gathered) :
    gather (fuel + 1) path type gathered =
      directAlternatives fuel type >>= fun direct =>
        match direct with
        | none => pure gathered
        | some direct =>
          canonicalName type >>= fun name =>
            if path.contains name then pure gathered
            else direct.foldlM (gatherOne fuel (name :: path)) gathered :=
  rfl

/-- Two lists of gathered types that are related, under the same names. -/
structure SameGathered (related : TypeExpr → TypeExpr → Prop) (left right : Gathered) : Prop where
  types : List.Forall₂ related left.types right.types
  names : left.names = right.names

theorem SameGathered.add {left right : Gathered} (h : SameGathered related left right)
    (name : String) {type' : TypeExpr} (htype : related type type') :
    SameGathered related (left.add name type) (right.add name type') := by
  unfold Gathered.add
  rw [h.names]
  split
  · exact h
  · exact ⟨List.rel_append h.types (.cons htype .nil), rfl⟩

theorem Gathered.add_good (hgathered : ∀ type ∈ gathered.types, good type) (name : String)
    (htype : good type) : ∀ other ∈ (gathered.add name type).types, good other := by
  unfold Gathered.add
  split
  · exact hgathered
  · exact List.forall_mem_append.2 ⟨hgathered, List.forall_mem_singleton.2 htype⟩

section Alternatives

variable (p : TypeParallel)

theorem directAlternativesOf_parallel (h : p.related left right) :
    p.holds (Option.Rel (List.Forall₂ p.related)) (directAlternativesOf left)
      (directAlternativesOf right) := by
  cases p.head h with
  | union halternatives => exact p.pure (.some halternatives)
  | other hleft hright hleft' hright' =>
    have hnone : ∀ {type : TypeExpr}, type.ref? = none → (∀ types, type ≠ .union types) →
        directAlternativesOf type = pure none := by
      intro type href hunion
      cases type with
      | named => cases href
      | union types => exact absurd rfl (hunion types)
      | _ => rfl
    rw [hnone hleft hleft', hnone hright hright']
    exact p.pure .none
  | ref leftRef rightRef =>
    refine p.bind (retrieve_parallel p h) fun definition definition' hbody => ?_
    cases hbody with
    | record hbody hbody' | «alias» hbody hbody' _ _ =>
      rw [hbody, hbody']
      exact p.pure .none
    | union hbody hbody' halternatives =>
      rw [hbody, hbody']
      exact p.pure (.some halternatives)

theorem directAlternatives_parallel (hfuel : p.fuels fuel fuel') (h : p.related left right) :
    p.holds (Option.Rel (List.Forall₂ p.related)) (directAlternatives fuel left)
      (directAlternatives fuel' right) := by
  rw [directAlternatives_eq, directAlternatives_eq]
  exact p.bind (unalias_parallel p hfuel h) fun _ _ hbare => directAlternativesOf_parallel p hbare

/-- Gathering one alternative compares if gathering does. -/
theorem gatherOne_parallel (hfuel : p.fuels fuel fuel') {path : List String}
    (hgather : ∀ {left right : TypeExpr}, p.related left right → ∀ {gathered gathered' : Gathered},
      SameGathered p.related gathered gathered' → p.holds (SameGathered p.related)
        (gather fuel path left gathered) (gather fuel' path right gathered'))
    (h : p.related left right)
    {gathered' : Gathered} (hgathered : SameGathered p.related gathered gathered') :
    p.holds (SameGathered p.related) (gatherOne fuel path gathered left)
      (gatherOne fuel' path gathered' right) := by
  refine p.bind (directAlternatives_parallel p hfuel h) fun inner inner' hinner => ?_
  cases hinner with
  | some _ => exact hgather h hgathered
  | none =>
    refine p.bind (p.name h) fun own own' hown => ?_
    rw [hown]
    exact p.pure (hgathered.add own' h)

theorem gather_parallel {fuel fuel' : Nat} (hfuel : p.fuels fuel fuel') (path : List String)
    {left right : TypeExpr} (h : p.related left right) {gathered gathered' : Gathered}
    (hgathered : SameGathered p.related gathered gathered') :
    p.holds (SameGathered p.related) (gather fuel path left gathered)
      (gather fuel' path right gathered') := by
  induction fuel generalizing fuel' path left right gathered gathered' with
  | zero =>
    refine p.exhausted hfuel fun hzero => ?_
    rw [hzero]
    rfl
  | succ fuel ih =>
    obtain ⟨less, rfl, hless⟩ := p.fuels_succ hfuel
    rw [gather_eq, gather_eq]
    refine p.bind (directAlternatives_parallel p hless h) fun direct direct' hdirect => ?_
    cases hdirect with
    | none => exact p.pure hgathered
    | some halternatives =>
      refine p.bind (p.name h) fun name name' hname => ?_
      rw [hname]
      refine p.ite (p.pure hgathered) (p.foldlM ?_ halternatives hgathered)
      exact fun _ _ halternative _ _ hsofar =>
        gatherOne_parallel p hless (ih hless _) halternative hsofar

theorem gatherAll_parallel {fuel fuel' : Nat} (hfuel : p.fuels fuel fuel') (path : List String)
    {left right : List TypeExpr} (h : List.Forall₂ p.related left right)
    {gathered gathered' : Gathered} (hgathered : SameGathered p.related gathered gathered') :
    p.holds (SameGathered p.related) (left.foldlM (gatherOne fuel path) gathered)
      (right.foldlM (gatherOne fuel' path) gathered') := by
  refine p.foldlM ?_ h hgathered
  exact fun _ _ htype _ _ hsofar =>
    gatherOne_parallel p hfuel (gather_parallel p hfuel path) htype hsofar

theorem alternatives_parallel (hfuel : p.fuels fuel fuel') (h : p.related left right) :
    p.holds (List.Forall₂ p.related) (alternatives fuel left) (alternatives fuel' right) :=
  p.bind (gather_parallel p hfuel [] h ⟨.nil, rfl⟩) fun _ _ hgathered => p.pure hgathered.types

end Alternatives

end Accord
