import Accord.Proofs.Package.Lookup
import Accord.Proofs.Program.Monomorphic

/-!
# Walking the definitions is exact

Where nothing is generic, walking the stored definitions comes to an end, and it ends well if and
only if every reference in a definition resolves and no definition contains itself by value
(`checkContainment_exact`).  An error tells which of the two is wrong, and where.

* `TypeExpr.held` are the references that a value of a type is made of, and `TypeTable.Contains`
  relates a definition to those that its values hold.
* `walkType_ends` says what a walk over one type does, given what entering a definition does.
  Refusals are traced from there down the path (`walkDefinition_blames`), and a walk that ends
  well is followed along the relation (`walkDefinition_fresh`).
* A walk ends because the keys on its path differ, and the table has finitely many
  (`walkDefinition_settles`).
-/

namespace Accord

open Query TypeTable TypeExpr

variable {cause : Diagnostic} {types : List TypeExpr} {fuel : Nat} {key : String}
  {definition : TypeDef} {ref : TypeRef}

/-! ## References -/

namespace TypeExpr

mutual

/-- The references that a value of the type is made of: those behind pointers and in slices are
left out. -/
def held : TypeExpr → List TypeRef
  | .primitive _ => []
  | .param _ => []
  | .pointer _ => []
  | .slice _ => []
  | .array _ element => element.held
  | .union alternatives => heldAll alternatives
  | .named name qualifier arguments origin => [⟨name, qualifier, arguments, origin⟩]

/-- The references that values of several types are made of. -/
def heldAll : List TypeExpr → List TypeRef
  | [] => []
  | type :: rest => type.held ++ heldAll rest

end

theorem heldAll_eq (types : List TypeExpr) : heldAll types = types.flatMap held := by
  induction types with
  | nil => rfl
  | cons type rest ih => rw [heldAll, ih, List.flatMap_cons]

end TypeExpr

/-- The references in a definition. -/
def TypeDef.refs (definition : TypeDef) : List TypeRef :=
  refsAll definition.body.components

/-- The references that a value of the defined type is made of. -/
def TypeDef.held (definition : TypeDef) : List TypeRef :=
  heldAll definition.body.components

/-- The reference stands for a definition. -/
def TypeTable.Resolves (base : TypeTable) (ref : TypeRef) : Prop :=
  ∃ definition, (retrieve ref).answer base = .ok definition

/-- A value of the first definition holds a value of the second. -/
def TypeTable.Contains (base : TypeTable) (outer inner : TypeDef) : Prop :=
  ∃ ref ∈ outer.held, (retrieve ref).answer base = .ok inner

/-- The reason why a reference among the given ones cannot be resolved. -/
def TypeTable.Unresolved (base : TypeTable) (refs : List TypeRef) (cause : Diagnostic) : Prop :=
  ∃ ref ∈ refs, ¬ base.Resolves ref ∧ cause = .unknownType ref.render ref.origin

theorem TypeTable.Unresolved.mono {base : TypeTable} {refs more : List TypeRef}
    (h : base.Unresolved refs cause) (hsubset : refs ⊆ more) : base.Unresolved more cause := by
  obtain ⟨ref, hmem, hcause⟩ := h
  exact ⟨ref, hsubset hmem, hcause⟩

/-! ## Tables without generic definitions -/

/-- Nothing is generic, there are no instances, and keys and definitions belong together. -/
structure TypeTable.Concrete (base : TypeTable) : Prop extends base.Monomorphic where
  instances : base.instances = []
  distinct : base.Distinct
  homed : base.Homed

section Concrete

variable {base : TypeTable}

theorem TypeTable.Reached.distinct (h : base.Reached) : base.Distinct := by
  induction h with
  | empty project => exact List.nodup_nil
  | stored _ hstore ih => exact ih.store hstore
  | @located table grown ref names _ _ _ _ _ hlocate ih =>
    have hkept : Keeps Distinct (locateNamed ref names) := Lasting.locateNamed ref names
    have hgrown := hkept table ih
    rwa [after_of_ok hlocate] at hgrown

/-- A table is concrete if no definition takes or mentions type parameters. -/
theorem TypeTable.Reached.concrete (h : base.Reached) (hplain : base.Plain)
    (hgenerics : ∀ entry ∈ base.stored, entry.2.isGeneric = false)
    (hclosed : ∀ entry ∈ base.stored, ∀ component ∈ entry.2.body.components,
      component.isGeneric = false) : base.Concrete := by
  have hrecords : base.OnlyRecordsGeneric := fun entry hentry hgeneric => by
    rw [hgenerics entry hentry] at hgeneric
    cases hgeneric
  have hkeyed := (orderly_of_reached h ⟨hplain, hrecords⟩).keyed
  exact { hkeyed.ungeneric hgenerics hclosed fun _ => anyGeneric_eq_false.1 with
          instances := hkeyed.instances_eq_nil hgenerics, distinct := h.distinct, homed := h.homed }

variable (hbase : base.Concrete)

include hbase

theorem TypeTable.Concrete.stored_of_find? (h : base.find? key = some definition) :
    (key, definition) ∈ base.stored := by
  rw [find?, hbase.instances, Option.or_eq_some_iff] at h
  rcases h with hstored | ⟨_, hinstance⟩
  · exact mem_of_lookup hstored
  · cases hinstance

theorem TypeTable.Concrete.definition_unique {key : String} {definition other : TypeDef}
    (h : (key, definition) ∈ base.stored) (h' : (key, other) ∈ base.stored) :
    definition = other := by
  have hfind := hbase.distinct.find?_of_stored h
  rw [hbase.distinct.find?_of_stored h'] at hfind
  cases hfind
  rfl

theorem TypeTable.Concrete.key_unique {other : String} (h : (key, definition) ∈ base.stored)
    (h' : (other, definition) ∈ base.stored) : key = other := by
  obtain ⟨package, hpackage, hkey⟩ := hbase.homed _ h
  obtain ⟨package', hpackage', hkey'⟩ := hbase.homed _ h'
  rw [hpackage] at hpackage'
  cases hpackage'
  exact hkey.trans hkey'.symm

end Concrete

/-! ## Looking references up -/

/-- The reference has the key as its name and stands for the definition. -/
structure TypeTable.StandsFor (base : TypeTable) (ref : TypeRef) (key : String)
    (definition : TypeDef) : Prop where
  name : canonicalName ref.toType base = .ok key base
  found : retrieve ref base = .ok definition base

section LookUps

variable {base : TypeTable} (hbase : base.Concrete)

include hbase

theorem locateNamed_ends {names : List String}
    (hnames : canonicalNames ref.arguments base = .ok names base) :
    Guards (· = base) (fun found => base.Resolves ref ∧
        (found.1 ++ "::" ++ ref.name ++ argumentSuffix names, found.2) ∈ base.stored)
      (base.Unresolved [ref]) (locateNamed ref names) := by
  intro s hs
  rw [show s = base from hs]
  have hretrieve : retrieve ref base =
      (locateNamed ref names >>= fun found => pure found.2) base := by
    rw [retrieve, locate, bind_assoc, bind_of_ok hnames]
  cases hsearch : base.search ref (argumentSuffix names) (base.scopesOf ref) with
  | none =>
    have hlocate : locateNamed ref names base =
        .error (.unknownType ref.render ref.origin) base := by simp only [locateNamed, hsearch]
    rw [hlocate]
    refine .error ⟨rfl, ref, List.mem_singleton_self ref, ?_, rfl⟩
    rintro ⟨definition, hfound⟩
    obtain ⟨t, hrun⟩ := answer_eq_ok.1 hfound
    rw [hretrieve, bind_of_error hlocate] at hrun
    cases hrun
  | some found =>
    obtain ⟨package, definition, grown⟩ := found
    have hlocate : locateNamed ref names base = .ok (package, definition) grown := by
      simp only [locateNamed, hsearch]
    obtain ⟨rfl, hfind⟩ := hbase.toUngeneric.of_search hsearch
    rw [hlocate]
    refine .ok ⟨rfl, ⟨definition, answer_eq_ok.2 ⟨grown, ?_⟩⟩, hbase.stored_of_find? hfind⟩
    rw [hretrieve, bind_of_ok hlocate]
    rfl

omit hbase in
/-- What each type does with its references, the types do with all of them. -/
theorem TypeTable.Unresolved.of_mem :
    (∃ type ∈ types, base.Unresolved type.refs cause) → base.Unresolved (refsAll types) cause := by
  rintro ⟨type, hmem, ref, href, hcause⟩
  exact ⟨ref, refsAll_eq types ▸ List.mem_flatMap.2 ⟨type, hmem, href⟩, hcause⟩

omit hbase in
theorem canonicalNames_resolve
    (h : ∀ type ∈ types, Guards (· = base) (fun _ => ∀ ref ∈ type.refs, base.Resolves ref)
      (base.Unresolved type.refs) (canonicalName type)) :
    Guards (· = base) (fun _ => ∀ ref ∈ refsAll types, base.Resolves ref)
      (base.Unresolved (refsAll types)) (canonicalNames types) := by
  rw [canonicalNames_eq_mapM]
  refine ((Guards.mapM_each h).relax fun _ => .of_mem).mono fun names hnames => ?_
  refine forall_mem_refsAll.2 fun type hmem => ?_
  exact (exists_of_mem_left hnames hmem).elim fun _ h => h.2

/-- A type has a name if its references resolve. -/
theorem canonicalName_ends (type : TypeExpr) :
    Guards (· = base) (fun _ => ∀ ref ∈ type.refs, base.Resolves ref)
      (base.Unresolved type.refs) (canonicalName type) := by
  induction type using TypeExpr.induct with
  | step type ih =>
    cases type with
    | primitive | param => exact .pure (List.forall_mem_nil _)
    | pointer part | slice part | array _ part => exact (ih part (.head _)).bind fun _ h => .pure h
    | union => exact (canonicalNames_resolve ih).bind fun _ h => .pure h
    | named name qualifier arguments origin =>
      have hnames := (canonicalNames_resolve ih).relax fun _ h =>
        h.mono (List.subset_cons_self (⟨name, qualifier, arguments, origin⟩ : TypeRef) _)
      unfold canonicalName
      refine (hnames.answered.relax fun _ => And.left).bind fun names ⟨hall, hrun⟩ => ?_
      refine ((locateNamed_ends hbase hrun).relax fun _ h => h.mono (by simp)).bind
        fun found hfound => hnames.bind fun _ _ => .pure ?_
      exact List.forall_mem_cons.2 ⟨hfound.1, hall⟩

theorem retrieve_ends (ref : TypeRef) :
    Guards (· = base) (fun _ => base.Resolves ref) (base.Unresolved ref.toType.refs)
      (retrieve ref) := by
  have hnames := (canonicalNames_resolve fun type (_ : type ∈ ref.arguments) =>
    canonicalName_ends hbase type).answered.relax fun _ h => h.1.mono (List.subset_cons_self ref _)
  have hlocate : Guards (· = base) (fun _ => base.Resolves ref) (base.Unresolved ref.toType.refs)
      (locate ref) := hnames.bind fun names ⟨_, hrun⟩ =>
    ((locateNamed_ends hbase hrun).relax fun _ h => h.mono (by simp)).mono fun _ => And.left
  exact hlocate.bind fun _ hfound => .pure hfound

/-- A reference that resolves stands for a stored definition, and the key of the definition is
its name. -/
theorem TypeTable.Resolves.standsFor (h : base.Resolves ref) :
    ∃ key definition, base.StandsFor ref key definition ∧ (key, definition) ∈ base.stored := by
  obtain ⟨definition, hfound⟩ := h
  obtain ⟨last, hrun⟩ := answer_eq_ok.1 hfound
  obtain ⟨found, mid, hlocate, hrest⟩ := bind_eq_ok.1 hrun
  obtain ⟨rfl, rfl⟩ := pure_eq_ok.1 hrest
  obtain ⟨names, named, hnames, hlocate'⟩ := bind_eq_ok.1 hlocate
  obtain ⟨rfl, _⟩ := (canonicalNames_resolve (fun type _ => canonicalName_ends hbase type) _
    rfl).of_run hnames
  obtain ⟨rfl, _, hstored⟩ := (locateNamed_ends hbase hnames _ rfl).of_run hlocate'
  refine ⟨_, found.2, ⟨?_, hrun⟩, hstored⟩
  rw [canonicalName_toType, bind_of_ok hlocate, bind_of_ok hnames]
  rfl

end LookUps

/-! ## What a walk does -/

section Walks

variable {base : TypeTable} (hbase : base.Concrete)

include hbase

/-- A type is verified if its references resolve. -/
theorem verify_ends (type : TypeExpr) :
    Guards (· = base) (fun _ => ∀ ref ∈ type.refs, base.Resolves ref)
      (base.Unresolved type.refs) (verify type) := by
  induction type using TypeExpr.induct with
  | step type ih =>
    have hall :=
      ((Guards.forM_each ih).relax fun _ => Unresolved.of_mem).mono fun _ => forall_mem_refsAll.2
    rw [← verifyAll_eq_forM] at hall
    cases type with
    | primitive | param => exact .pure (List.forall_mem_nil _)
    | pointer part | slice part | array _ part => exact ih part (.head _)
    | union => exact hall
    | named name qualifier arguments origin =>
      refine (hall.relax fun _ h => h.mono (List.subset_cons_self _ _)).bind fun _ hall => ?_
      exact (retrieve_ends hbase ⟨name, qualifier, arguments, origin⟩).bind fun _ hfound =>
        .pure (List.forall_mem_cons.2 ⟨hfound, hall⟩)

variable {enter : String → TypeDef → TypeQuery Unit}

/-- All references that the types are made of stand for definitions that were entered. -/
def TypeTable.Entered (base : TypeTable) (enter : String → TypeDef → TypeQuery Unit)
    (refs : List TypeRef) : Prop :=
  ∀ ref ∈ refs, ∃ key definition, base.StandsFor ref key definition ∧
    (key, definition) ∈ base.stored ∧ enter key definition base = .ok () base

/-- Entering a definition that one of the references stands for was refused. -/
def TypeTable.Stopped (base : TypeTable) (enter : String → TypeDef → TypeQuery Unit)
    (refs : List TypeRef) (cause : Diagnostic) : Prop :=
  ∃ ref ∈ refs, ∃ key definition, base.StandsFor ref key definition ∧
    (key, definition) ∈ base.stored ∧ ∃ t, enter key definition base = .error cause t

/-- A walk checks that references resolve, and enters what those stand for that are held. -/
abbrev TypeTable.Walks (base : TypeTable) (enter : String → TypeDef → TypeQuery Unit)
    (refs held : List TypeRef) (walk : TypeQuery Unit) : Prop :=
  Guards (· = base) (fun _ => (∀ ref ∈ refs, base.Resolves ref) ∧ base.Entered enter held)
    (fun cause => base.Unresolved refs cause ∨ base.Stopped enter held cause) walk

variable (henter : ∀ key definition, Keeps (· = base) (enter key definition))

include henter

theorem walkRef_ends (ref : TypeRef) :
    base.Walks enter ref.toType.refs [ref]
      (do
        let key ← canonicalName ref.toType
        let definition ← retrieve ref
        enter key definition) := by
  refine ((canonicalName_ends hbase ref.toType).answered.relax fun _ h => .inl h.1).bind
    fun key ⟨hall, hrun⟩ => ?_
  obtain ⟨other, definition, hstands, hstored⟩ :=
    Resolves.standsFor hbase (hall ref List.mem_cons_self)
  obtain rfl : key = other := by
    cases hrun.symm.trans hstands.name
    rfl
  refine ((retrieve_ends hbase ref).answered.relax fun _ h => .inl h.1).bind fun found hfound => ?_
  obtain rfl : found = definition := by
    cases hfound.2.symm.trans hstands.found
    rfl
  refine ((Guards.of_keeps (henter key found)).answered.relax fun cause h => .inr ?_).mono
    fun _ h => ⟨hall, List.forall_mem_singleton.2 ⟨key, found, hstands, hstored, h.2⟩⟩
  exact ⟨ref, List.mem_singleton_self ref, key, found, hstands, hstored, base, h.2⟩

omit hbase henter in
theorem walkTypes_ends_of
    (h : ∀ type ∈ types, base.Walks enter type.refs type.held (walkType enter type)) :
    base.Walks enter (refsAll types) (heldAll types) (walkTypes enter types) := by
  rw [walkTypes_eq_forM]
  have hwalk := Guards.forM_each h
  refine (hwalk.relax fun cause ⟨type, hmem, hcause⟩ => ?_).mono fun _ hall => ?_
  · refine ⟨forall_mem_refsAll.2 fun type hmem => (hall type hmem).1, ?_⟩
    rw [Entered, heldAll_eq, List.forall_mem_flatMap]
    exact fun type hmem => (hall type hmem).2
  · refine hcause.imp (fun h => .of_mem ⟨type, hmem, h⟩) fun ⟨ref, href, hstopped⟩ => ?_
    exact ⟨ref, heldAll_eq types ▸ List.mem_flatMap.2 ⟨type, hmem, href⟩, hstopped⟩

theorem walkType_ends (type : TypeExpr) (hclosed : type.isGeneric = false) :
    base.Walks enter type.refs type.held (walkType enter type) := by
  induction type using TypeExpr.induct with
  | step type ih =>
    unfold walkType
    rw [if_neg (by simp [hclosed])]
    cases type with
    | primitive | param => exact .pure ⟨List.forall_mem_nil _, List.forall_mem_nil _⟩
    | pointer part | slice part =>
      exact ((verify_ends hbase part).relax fun _ => .inl).mono fun _ h =>
        ⟨h, List.forall_mem_nil _⟩
    | array _ element => exact ih element (.head _) hclosed
    | union =>
      exact walkTypes_ends_of fun part hmem =>
        ih part hmem (anyGeneric_eq_false.1 hclosed part hmem)
    | named name qualifier arguments origin =>
      exact walkRef_ends hbase henter ⟨name, qualifier, arguments, origin⟩

end Walks

/-! ## Definitions -/

/-- What an error of the check tells: a definition that contains itself, or a reference that does
not resolve. -/
inductive TypeTable.Blamed (base : TypeTable) : Diagnostic → Prop where
  | limit : Blamed base .limitReached
  | cycle {key : String} {definition : TypeDef} (stored : (key, definition) ∈ base.stored)
      (returns : Relation.TransGen base.Contains definition definition) :
      Blamed base (.selfContaining definition.name)
  | unknown {key : String} {definition : TypeDef} {ref : TypeRef}
      (stored : (key, definition) ∈ base.stored) (mem : ref ∈ definition.refs)
      (unresolved : ¬ base.Resolves ref) : Blamed base (.unknownType ref.render ref.origin)

section Definitions

variable {base : TypeTable} (hbase : base.Concrete) {path : List String} {inner : TypeDef}
  {t : TypeTable}

theorem TypeTable.StandsFor.contains {ref : TypeRef} (h : base.StandsFor ref key inner)
    (hmem : ref ∈ definition.held) : base.Contains definition inner :=
  ⟨ref, hmem, answer_eq_ok.2 ⟨base, h.found⟩⟩

theorem TypeTable.Entered.of_contains {enter : String → TypeDef → TypeQuery Unit}
    (h : base.Entered enter definition.held) (hcontains : base.Contains definition inner) :
    ∃ key, (key, inner) ∈ base.stored ∧ enter key inner base = .ok () base := by
  obtain ⟨ref, hmem, hfound⟩ := hcontains
  obtain ⟨key, found, hstands, hstored, hentered⟩ := h ref hmem
  obtain rfl : found = inner := by
    have hsame := answer_eq_ok.2 ⟨base, hstands.found⟩
    rw [hfound] at hsame
    cases hsame
    rfl
  exact ⟨key, hstored, hentered⟩

include hbase

theorem walkDefinition_ends (fuel : Nat) (path : List String)
    (hstored : (key, definition) ∈ base.stored) :
    Guards (· = base) (fun _ => key ∉ path ∧ (∀ ref ∈ definition.refs, base.Resolves ref) ∧
        base.Entered (walkDefinition fuel (key :: path)) definition.held)
      (fun cause => (key ∈ path ∧ cause = .selfContaining definition.name) ∨
        base.Unresolved definition.refs cause ∨
        base.Stopped (walkDefinition fuel (key :: path)) definition.held cause)
      (walkDefinition (fuel + 1) path key definition) := by
  have := hbase.toUngeneric.lasting
  unfold walkDefinition
  split
  · rename_i hmem
    exact .throw (Or.inl ⟨by simpa using hmem, rfl⟩)
  · rename_i hfresh
    have hwalk := walkTypes_ends_of fun type hmem => walkType_ends hbase
      (walkDefinition_keeps fuel (key :: path)) type
      (hbase.component definition ⟨key, Or.inl hstored⟩ type hmem)
    exact (hwalk.relax fun _ => .inr).mono fun _ h => ⟨by simpa using hfresh, h⟩

/-- Every error of a walk has its reason.  The definitions on the path contain the one that is
walked, so one that is met again contains itself. -/
theorem walkDefinition_blames (hstored : (key, definition) ∈ base.stored)
    (hpath : ∀ passed ∈ path, ∃ outer, (passed, outer) ∈ base.stored ∧
      Relation.TransGen base.Contains outer definition)
    (hrun : walkDefinition fuel path key definition base = .error cause t) : base.Blamed cause := by
  induction fuel generalizing path key definition t with
  | zero =>
    cases hrun
    exact .limit
  | succ fuel ih =>
    have hends := walkDefinition_ends hbase fuel path hstored base rfl
    rcases (hends.of_refusal hrun).2 with ⟨hmem, rfl⟩ | ⟨ref, hmem, hunresolved, rfl⟩ |
      ⟨ref, hmem, other, inner, hstands, hinner, last, hstopped⟩
    · obtain ⟨outer, houter, hleads⟩ := hpath key hmem
      obtain rfl := hbase.definition_unique houter hstored
      exact .cycle hstored hleads
    · exact .unknown hstored hmem hunresolved
    · have hcontains := hstands.contains hmem
      refine ih hinner (List.forall_mem_cons.2 ⟨?_, fun passed hpassed => ?_⟩) hstopped
      · exact ⟨definition, hstored, .single hcontains⟩
      · obtain ⟨outer, houter, hleads⟩ := hpath passed hpassed
        exact ⟨outer, houter, hleads.tail hcontains⟩

/-- A walk that ends well has met none of the definitions of its path. -/
theorem walkDefinition_fresh (hstored : (key, definition) ∈ base.stored)
    (hrun : walkDefinition fuel path key definition base = .ok () t)
    (hleads : Relation.ReflTransGen base.Contains definition inner) {other : String}
    (hinner : (other, inner) ∈ base.stored) : other ∉ path := by
  induction fuel generalizing path key definition t with
  | zero => cases hrun
  | succ fuel ih =>
    obtain ⟨_, hfresh, _, hentered⟩ :=
      (walkDefinition_ends hbase fuel path hstored _ rfl).of_run hrun
    rcases hleads.cases_head with rfl | ⟨next, hcontains, hrest⟩
    · rwa [hbase.key_unique hinner hstored]
    · obtain ⟨middle, hnext, hwalked⟩ := hentered.of_contains hcontains
      exact fun hpassed => ih hnext hwalked hrest (List.mem_cons_of_mem _ hpassed)

theorem walkDefinition_acyclic (hstored : (key, definition) ∈ base.stored)
    (hrun : walkDefinition fuel [] key definition base = .ok () t) :
    (∀ ref ∈ definition.refs, base.Resolves ref) ∧
      ¬ Relation.TransGen base.Contains definition definition := by
  cases fuel with
  | zero => cases hrun
  | succ fuel =>
    obtain ⟨_, _, hresolve, hentered⟩ :=
      (walkDefinition_ends hbase fuel [] hstored _ rfl).of_run hrun
    refine ⟨hresolve, fun hreturns => ?_⟩
    obtain ⟨next, hcontains, hrest⟩ := Relation.TransGen.head'_iff.1 hreturns
    obtain ⟨middle, hnext, hwalked⟩ := hentered.of_contains hcontains
    exact walkDefinition_fresh hbase hnext hwalked hrest hstored List.mem_cons_self

/-- What the check of all definitions finds out. -/
theorem checkContainment_ends (fuel : Nat) :
    Guards (· = base) (fun _ => ∀ entry ∈ base.stored,
        (∀ ref ∈ entry.2.refs, base.Resolves ref) ∧
          ¬ Relation.TransGen base.Contains entry.2 entry.2)
      base.Blamed (checkContainment fuel) := by
  have := hbase.toUngeneric.lasting
  refine Guards.get.bind ?_
  rintro _ rfl
  refine (Guards.forM_each fun entry hmem => ?_).relax fun cause ⟨_, _, hblamed⟩ => hblamed
  refine ((Guards.of_keeps (walkDefinition_keeps fuel [] entry.1 entry.2)).answered.relax
    fun cause h => ?_).mono fun _ h => walkDefinition_acyclic hbase hmem h.2
  exact walkDefinition_blames hbase hmem (List.forall_mem_nil _) h.2

end Definitions

/-! ## Walks come to an end -/

section Settling

variable {base : TypeTable} (hbase : base.Concrete)

include hbase

theorem verify_settles (type : TypeExpr) :
    Settles (· = base) (fun _ => True) fun _ => verify type := by
  refine ((verify_ends hbase type).settles fun cause h => ?_).mono fun _ _ => trivial
  obtain ⟨_, _, _, rfl⟩ := h
  simp

variable {enter : Nat → String → TypeDef → TypeQuery Unit}
  (henter : ∀ key definition, key ∈ base.keys →
    Settles (· = base) (fun _ => True) fun fuel => enter fuel key definition)

include henter

theorem walkType_settles (type : TypeExpr) :
    Settles (· = base) (fun _ => True) fun fuel => walkType (enter fuel) type := by
  induction type using TypeExpr.induct with
  | step type ih =>
    unfold walkType
    refine Settles.ite (fun _ => Settles.pure trivial) fun _ => ?_
    cases type with
    | primitive | param => exact Settles.pure trivial
    | pointer part | slice part => exact verify_settles hbase part
    | array _ element => exact ih element (.head _)
    | union alternatives =>
      simp only [walkTypes_eq_forM]
      exact Settles.forM ih
    | named name qualifier arguments origin =>
      have hmono := hbase.toUngeneric
      refine (canonicalName_settles hmono _).bind fun key hkey => ?_
      refine (retrieve_settles hmono _).bind fun definition _ => ?_
      exact henter key definition (hkey _ rfl)

omit henter

/-- Each step of a walk enters a definition that is not on the path. -/
theorem walkDefinition_settles (path : List String) (key : String) (definition : TypeDef)
    (hkey : key ∈ base.keys) :
    Settles (· = base) (fun _ => True) fun fuel => walkDefinition fuel path key definition := by
  induction hleft : base.left path using Nat.strong_induction_on
    generalizing path key definition with
  | _ left ih =>
    refine Settles.succ ?_
    simp only [walkDefinition]
    refine Settles.ite (fun _ => Settles.throw (by simp)) fun hnew => ?_
    have hfewer := left_cons_lt hkey (by simpa using hnew)
    simp only [walkTypes_eq_forM]
    refine Settles.forM fun part _ => walkType_settles hbase (fun other inner hother => ?_) part
    exact ih _ (hleft ▸ hfewer) (key :: path) other inner hother rfl

theorem checkContainment_settles : Settles (· = base) (fun _ => True) checkContainment := by
  intro s hs
  subst hs
  refine Settles.forM (fun (entry : String × TypeDef) hmem => ?_) s rfl
  exact walkDefinition_settles hbase [] entry.1 entry.2
    (List.mem_append_left _ (List.mem_map_of_mem hmem))

end Settling

/-- Where nothing is generic, the check of the stored definitions comes to an end.  It ends well
if and only if every reference anywhere in a definition resolves and no definition contains
itself by value.  An error says which definition contains itself, or which reference does not
resolve, and there are no other errors. -/
theorem checkContainment_exact {base : TypeTable} (hreached : base.Reached) (hplain : base.Plain)
    (hgenerics : ∀ entry ∈ base.stored, entry.2.isGeneric = false)
    (hclosed : ∀ entry ∈ base.stored, ∀ component ∈ entry.2.body.components,
      component.isGeneric = false) :
    ∃ bound outcome, (∀ fuel, bound ≤ fuel → (checkContainment fuel).answer base = outcome) ∧
      (outcome = .ok () ↔
        (∀ entry ∈ base.stored, ∀ ref ∈ entry.2.refs, base.Resolves ref) ∧
          ∀ entry ∈ base.stored, ¬ Relation.TransGen base.Contains entry.2 entry.2) ∧
      (∀ name, outcome = .error (.selfContaining name) → ∃ entry ∈ base.stored,
        entry.2.name = name ∧ Relation.TransGen base.Contains entry.2 entry.2) ∧
      (∀ text origin, outcome = .error (.unknownType text origin) → ∃ entry ∈ base.stored,
        ∃ ref ∈ entry.2.refs, ref.render = text ∧ ref.origin = origin ∧ ¬ base.Resolves ref) ∧
      ∀ cause, outcome = .error cause →
        (∃ name, cause = .selfContaining name) ∨ ∃ text origin, cause = .unknownType text origin := by
  have hbase := hreached.concrete hplain hgenerics hclosed
  obtain ⟨outcome, hlimit, bound, hrun⟩ := (checkContainment_settles hbase).outcome rfl
  have hends := checkContainment_ends hbase bound base rfl
  have hanswer := hrun bound (Nat.le_refl bound)
  rw [answer] at hanswer
  refine ⟨bound, outcome, hrun, ?_⟩
  cases hresult : checkContainment bound base with
  | ok done t =>
    rw [hresult] at hends hanswer
    obtain rfl := hanswer
    have hgood := hends.of_ok.2
    refine ⟨⟨fun _ => ⟨fun entry hmem => (hgood entry hmem).1, fun entry hmem => ?_⟩, fun _ => rfl⟩,
      by simp, by simp, by simp⟩
    exact (hgood entry hmem).2
  | error cause t =>
    rw [hresult] at hends hanswer
    obtain rfl := hanswer
    cases hends.of_error.2 with
    | limit => exact absurd rfl hlimit
    | @cycle key definition hstored hreturns =>
      refine ⟨⟨by simp, fun h => absurd hreturns (h.2 _ hstored)⟩, ?_, by simp, by simp⟩
      rintro name ⟨⟩
      exact ⟨_, hstored, rfl, hreturns⟩
    | @unknown key definition ref hstored hmem hunresolved =>
      refine ⟨⟨by simp, fun h => absurd (h.1 _ hstored ref hmem) hunresolved⟩, by simp, ?_, by simp⟩
      rintro text origin ⟨⟩
      exact ⟨_, hstored, ref, hmem, rfl, rfl, hunresolved⟩

/-- A leaf is an integer. -/
def leafDef : TypeDef := { name := "Leaf", origin := "main.mer", body := .alias .int }

/-- A twig holds two leaves and points to a twig. -/
def twigDef : TypeDef :=
  { name := "Twig", origin := "main.mer",
    body := .record [{ name := "next", type := .pointer (.named "Twig" none [] "main.mer") },
      { name := "leaves", type := .array 2 (.named "Leaf" none [] "main.mer") }] }

/-- The table that holds both. -/
def twigTable : TypeTable :=
  { project := mainFile
    stored := [("app::Leaf", leafDef), ("app::Twig", twigDef)] }

/-- A twig points to twigs and does not contain any, so the check ends well. -/
theorem twigTable_accepted :
    ∃ bound, ∀ fuel, bound ≤ fuel → (checkContainment fuel).answer twigTable = .ok () := by
  have hreached : twigTable.Reached := by
    have hstores : [leafDef, twigDef].foldlM TypeTable.store { project := twigTable.project } =
        .ok twigTable := rfl
    exact (stored_of_foldlM hstores (.empty _)).1
  obtain ⟨bound, outcome, hrun, hok, _⟩ := checkContainment_exact hreached
    ⟨by decide, by decide⟩ (by decide) (by decide)
  have hleaf : ∀ inner, ¬ twigTable.Contains leafDef inner := by
    rintro inner ⟨ref, hmem, _⟩
    cases hmem
  have htwig : ∀ inner, twigTable.Contains twigDef inner → inner = leafDef := by
    rintro inner ⟨ref, hmem, hfound⟩
    obtain rfl := List.mem_singleton.1 hmem
    cases hfound
    rfl
  refine ⟨bound, fun fuel hle => (hrun fuel hle).trans (hok.2 ⟨?_, ?_⟩)⟩
  · have htwigs : twigTable.Resolves ⟨"Twig", none, [], "main.mer"⟩ := ⟨twigDef, by cbv⟩
    have hleaves : twigTable.Resolves ⟨"Leaf", none, [], "main.mer"⟩ := ⟨leafDef, by cbv⟩
    refine List.forall_mem_cons.2 ⟨List.forall_mem_nil _, List.forall_mem_singleton.2 ?_⟩
    exact List.forall_mem_cons.2 ⟨htwigs, List.forall_mem_singleton.2 hleaves⟩
  · refine List.forall_mem_cons.2
      ⟨fun hreturns => ?_, List.forall_mem_singleton.2 fun hreturns => ?_⟩
    · obtain ⟨next, hcontains, _⟩ := Relation.TransGen.head'_iff.1 hreturns
      exact hleaf next hcontains
    · obtain ⟨next, hcontains, hrest⟩ := Relation.TransGen.head'_iff.1 hreturns
      obtain rfl := htwig next hcontains
      rcases hrest.cases_head with heq | ⟨last, hcontains', _⟩
      · exact absurd (congrArg TypeDef.name heq) (by decide)
      · exact hleaf last hcontains'

end Accord
