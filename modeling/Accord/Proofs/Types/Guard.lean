import Accord.Proofs.Types.Parallel
import Accord.Types.Containment

/-!
# Types that questions do not lead out of

Questions about types go from a type to its parts, and from a reference to the components of
the definition behind it.  `Enclosed` says of a kind of types that both lead to types of the
same kind again, and of tables and diagnostics that naming and looking up stay within bounds.
Naming and looking up are refused for one kind of cause only (`canonicalName_unknown`).
Then every question about types stays within bounds and leads to types of that kind.
-/

namespace Accord

open Query

variable {type : TypeExpr} {named : TypeExpr → String → Prop}

theorem canonicalNames_eq_mapM (types : List TypeExpr) :
    canonicalNames types = types.mapM canonicalName := by
  induction types with
  | nil => rfl
  | cons type rest ih => rw [canonicalNames, ih, List.mapM_cons]

/-! ## Unknown types -/

/-- The cause is that a type is unknown. -/
def Diagnostic.Unknown (cause : Diagnostic) : Prop :=
  ∃ name origin, cause = .unknownType name origin

theorem Diagnostic.Unknown.ne_limitReached {cause : Diagnostic} (h : cause.Unknown) :
    cause ≠ .limitReached := by
  obtain ⟨_, _, rfl⟩ := h
  nofun

theorem locateNamed_unknown (ref : TypeRef) (names : List String) :
    Guards (fun _ => True) (fun _ => True) Diagnostic.Unknown (locateNamed ref names) := by
  intro table _
  rw [locateNamed]
  split
  · exact .ok ⟨trivial, trivial⟩
  · exact .error ⟨trivial, _, _, rfl⟩

section Naming

variable {inv : TypeTable → Prop} {mild : Diagnostic → Prop} (hlocate : ∀ ref names,
  Guards inv (fun _ => True) mild (locateNamed ref names))

include hlocate

/-- Naming a type does nothing but look up types. -/
theorem canonicalName_guarded (type : TypeExpr) :
    Guards inv (fun _ => True) mild (canonicalName type) := by
  induction type using TypeExpr.induct with
  | step type ih =>
    have hall := fun types (hsub : types ⊆ type.children) =>
      canonicalNames_eq_mapM types ▸ Guards.mapM fun part hmem => ih part (hsub hmem)
    cases type with
    | primitive | param => exact .pure trivial
    | pointer part | slice part | array _ part =>
      exact (ih part (.head _)).bind fun _ _ => .pure trivial
    | union => exact (hall _ (List.Subset.refl _)).bind fun _ _ => .pure trivial
    | named name qualifier arguments origin =>
      have hall := hall arguments (List.Subset.refl _)
      exact hall.bind fun names _ => (hlocate _ names).bind fun _ _ =>
        hall.bind fun _ _ => .pure trivial

theorem canonicalNames_guarded (types : List TypeExpr) :
    Guards inv (fun _ => True) mild (canonicalNames types) := by
  rw [canonicalNames_eq_mapM]
  exact (Guards.mapM fun type _ => canonicalName_guarded hlocate type).mono fun _ _ => trivial

end Naming

/-- A type has no name only because a type inside is unknown. -/
theorem canonicalName_unknown (type : TypeExpr) :
    Guards (fun _ => True) (fun _ => True) Diagnostic.Unknown (canonicalName type) :=
  canonicalName_guarded locateNamed_unknown type

theorem locate_unknown (ref : TypeRef) :
    Guards (fun _ => True) (fun _ => True) Diagnostic.Unknown (locate ref) :=
  (canonicalNames_guarded locateNamed_unknown ref.arguments).bind fun names _ =>
    locateNamed_unknown ref names

/-! ## Gathering -/

/-- The types gathered have the names under which they were gathered, each name once. -/
structure Gathered.Collects (named : TypeExpr → String → Prop) (gathered : Gathered) : Prop where
  names : List.Forall₂ named gathered.types gathered.names.reverse
  nodup : gathered.names.Nodup

theorem Gathered.Collects.nil : ({} : Gathered).Collects named :=
  ⟨.nil, .nil⟩

theorem Gathered.Collects.add {gathered : Gathered}
    (h : gathered.Collects named) {name : String} (hname : named type name) :
    (gathered.add name type).Collects named := by
  unfold Gathered.add
  split
  · exact h
  · rename_i hnew
    refine ⟨?_, List.nodup_cons.2 ⟨by simpa using hnew, h.nodup⟩⟩
    rw [List.reverse_cons]
    exact List.rel_append h.names (.cons hname .nil)

theorem Gathered.mem_names_add (gathered : Gathered) (name : String) (type : TypeExpr) :
    gathered.names ⊆ (gathered.add name type).names ∧ name ∈ (gathered.add name type).names := by
  rw [Gathered.add]
  split
  · rename_i hmem
    exact ⟨List.Subset.refl _, by simpa using hmem⟩
  · exact ⟨List.subset_cons_self _ _, List.mem_cons_self⟩

/-- Gathering goes from a type to those written below it, and adds those that have no alternatives
themselves. -/
theorem gather_guards {inv : TypeTable → Prop} {mild : Diagnostic → Prop}
    {good below single : TypeExpr → Prop}
    (hlimit : mild .limitReached) (hbelow : ∀ type, below type → good type)
    (hdirect : ∀ fuel {type}, good type → Guards inv (fun direct => (direct = none → single type) ∧
      ∀ types, direct = some types → ∀ part ∈ types, below part) mild
      (directAlternatives fuel type))
    (hname : ∀ {type}, good type → Guards inv (named type) mild (canonicalName type)) (fuel : Nat)
    (path : List String) (htype : good type) {gathered : Gathered}
    (h : gathered.Collects fun part name => below part ∧ single part ∧ named part name) :
    Guards inv (Gathered.Collects fun part name => below part ∧ single part ∧ named part name) mild
      (gather fuel path type gathered) := by
  induction fuel generalizing path type gathered with
  | zero => exact .throw hlimit
  | succ fuel ih =>
    rw [gather_eq]
    refine (hdirect fuel htype).bind fun direct hparts => ?_
    cases direct with
    | none => exact .pure h
    | some types =>
      refine (hname htype).bind fun own _ => .ite (.pure h)
        (.foldlM (fun part hmem sofar hsofar => ?_) h)
      have hpart := hparts.2 types rfl part hmem
      refine (hdirect fuel (hbelow part hpart)).bind fun inner hinner => ?_
      cases inner with
      | some _ => exact ih _ (hbelow part hpart) hsofar
      | none =>
        exact (hname (hbelow part hpart)).bind fun _ hown =>
          .pure (hsofar.add ⟨hpart, hinner.1 rfl, hown⟩)

/-! ## Kinds of types -/

/-- A kind of types that questions about types do not lead out of. -/
structure Enclosed (inv : TypeTable → Prop) (mild : Diagnostic → Prop)
    (good : TypeExpr → Prop) : Prop extends Inherited good where
  ordinary {cause : Diagnostic} : cause.Ordinary → mild cause
  canonicalName {type : TypeExpr} :
    good type → Guards inv (fun _ => True) mild (canonicalName type)
  locate {ref : TypeRef} : good ref.toType →
    Guards inv (fun found => ∀ type ∈ found.2.body.components, good type) mild (locate ref)

variable {inv : TypeTable → Prop} {mild : Diagnostic → Prop} {good : TypeExpr → Prop}
  (h : Enclosed inv mild good)

include h

/-! ## Questions -/

theorem retrieve_guards {ref : TypeRef} (href : good ref.toType) :
    Guards inv (fun found => ∀ type ∈ found.body.components, good type) mild (retrieve ref) :=
  (h.locate href).bind fun _ hfound => Guards.pure hfound

/-- Questions about types of the kind, each compared with itself. -/
def Enclosed.parallel : TypeParallel :=
  .within h.ordinary h.toInherited h.canonicalName fun href =>
    (h.locate href).mono fun _ hfound part hpart =>
      hfound part (TypeBody.opened_subset _ hpart)

theorem canonicalNames_guards {types : List TypeExpr} (htypes : ∀ type ∈ types, good type) :
    Guards inv (fun _ => True) mild (canonicalNames types) :=
  Guards.mono (canonicalNames_parallel h.parallel (forall₂_eq_and.2 ⟨rfl, htypes⟩))
    fun _ _ => trivial

theorem verify_guards (type : TypeExpr) (htype : good type) :
    Guards inv (fun _ => True) mild (verify type) :=
  Guards.mono (verify_parallel h.parallel h.toInherited.shape type ⟨rfl, htype⟩) fun _ _ => trivial

theorem verifyAll_guards (types : List TypeExpr) (htypes : ∀ type ∈ types, good type) :
    Guards inv (fun _ => True) mild (verifyAll types) :=
  Guards.mono (verifyAll_parallel h.parallel h.toInherited.shape types
    (forall₂_eq_and.2 ⟨rfl, htypes⟩))
    fun _ _ => trivial

theorem unalias_guards (fuel : Nat) (htype : good type) :
    Guards inv good mild (unalias fuel type) :=
  Guards.mono (unalias_parallel h.parallel rfl ⟨rfl, htype⟩) fun _ ⟨_, hsame⟩ => hsame.2

theorem dereference_guards (fuel : Nat) (htype : good type) :
    Guards inv good mild (dereference fuel type) :=
  Guards.mono (dereference_parallel h.parallel h.toInherited.shape rfl ⟨rfl, htype⟩)
    fun _ ⟨_, hsame⟩ => hsame.2

theorem alternatives_guards (fuel : Nat) (htype : good type) :
    Guards inv (fun covered => ∀ type ∈ covered, good type) mild (alternatives fuel type) :=
  Guards.mono (alternatives_parallel h.parallel rfl ⟨rfl, htype⟩)
    fun _ ⟨_, hsame⟩ => (forall₂_eq_and.1 hsame).2

/-! ## Walks -/

/-- What is done with a definition that a walk reaches stays within bounds. -/
def EntersWithin (inv : TypeTable → Prop) (mild : Diagnostic → Prop) (good : TypeExpr → Prop)
    (enter : String → TypeDef → TypeQuery Unit) : Prop :=
  ∀ key definition, (∀ type ∈ definition.body.components, good type) →
    Guards inv (fun _ => True) mild (enter key definition)

omit h in
theorem verifyAll_eq_forM (types : List TypeExpr) : verifyAll types = types.forM verify := by
  induction types with
  | nil => rfl
  | cons type rest ih => rw [verifyAll, ih, List.forM]

omit h in
theorem walkTypes_eq_forM (enter : String → TypeDef → TypeQuery Unit) (types : List TypeExpr) :
    walkTypes enter types = types.forM (walkType enter) := by
  induction types with
  | nil => rfl
  | cons type rest ih => rw [walkTypes, ih, List.forM]

theorem walkType_guards {enter : String → TypeDef → TypeQuery Unit}
    (henter : EntersWithin inv mild good enter) (type : TypeExpr) (htype : good type) :
    Guards inv (fun _ => True) mild (walkType enter type) := by
  induction type using TypeExpr.induct with
  | step type ih =>
    unfold walkType
    refine Guards.ite (Guards.pure trivial) ?_
    cases type with
    | primitive | param => exact Guards.pure trivial
    | pointer target => exact verify_guards h target (h.target htype)
    | slice element => exact verify_guards h element (h.element htype)
    | array _ element => exact ih element (.head _) (h.held htype)
    | union alternatives =>
      simp only [walkTypes_eq_forM]
      exact Guards.forM fun part hmem => ih part hmem (h.alternatives htype part hmem)
    | named name qualifier arguments origin =>
      have href : good (TypeRef.toType ⟨name, qualifier, arguments, origin⟩) := htype
      refine (h.canonicalName htype).bind fun key _ => ?_
      exact (retrieve_guards h href).bind fun definition hdefinition =>
        henter key definition hdefinition

theorem walkDefinition_guards (fuel : Nat) (path : List String) (key : String)
    {definition : TypeDef} (hdefinition : ∀ type ∈ definition.body.components, good type) :
    Guards inv (fun _ => True) mild (walkDefinition fuel path key definition) := by
  induction fuel generalizing path key definition with
  | zero => exact Guards.throw (h.ordinary trivial)
  | succ fuel ih =>
    refine Guards.ite (Guards.throw (h.ordinary trivial)) ?_
    rw [walkTypes_eq_forM]
    exact Guards.forM fun part hmem => walkType_guards h
      (fun next found hfound => ih (key :: path) next hfound) part (hdefinition part hmem)

theorem checkContainment_guards (fuel : Nat)
    (hstored : ∀ table, inv table → ∀ entry ∈ table.stored,
      ∀ type ∈ entry.2.body.components, good type) :
    Guards inv (fun _ => True) mild (checkContainment fuel) :=
  Guards.get.bind fun table htable => Guards.forM fun entry hentry =>
    walkDefinition_guards h fuel [] entry.1 (hstored table htable entry hentry)

end Accord
