import Accord.Proofs.Types.Containment
import Accord.Proofs.Types.Grounded
import Accord.Proofs.Types.Monomorphic

/-!
# Chains of aliases

Following aliases from a type stops at the first type that is no reference to an alias, at a
reference that nothing is known about, or at an alias that has been passed before.  Where no
alias takes type arguments, the chain is the same in every table with the same definitions, and
each of the three is found out exactly when it is there.

* `TypeTable.Follows` is one step of a chain.  `TypeTable.Rests`, `TypeTable.Dangles` and
  `TypeTable.Circles` are the ways in which a chain may come out, and no two of them go together
  (`TypeTable.Rests.not_dangles`, `TypeTable.not_circles_of_ends`).
* `unaliasFrom_follows` says what each outcome means, and `unaliasFrom_settles_of_fixed` that
  there is one.  Aliases passed are remembered by name, and a table has finitely many of them.
* A program that has been built has no chain that comes back (`not_circles_of_cleared`): the
  walk over the definitions would have gone round with it.
-/

namespace Accord

open Query Relation TypeTable TypeRef

variable {again ref : TypeRef} {package : String} {definition : TypeDef} {table : TypeTable}
  {last next type : TypeExpr} {project : Project}

/-! ## Chains -/

/-- No definition that takes type arguments is an alias, and so no instance is. -/
structure TypeTable.FixedAliases (base : TypeTable) : Prop where
  stored : ∀ entry ∈ base.stored, entry.2.isGeneric = true → entry.2.body.isAlias = false
  instances : ∀ entry ∈ base.instances, entry.2.body.isAlias = false

theorem TypeBody.isAlias_substitute (rules : Substitution) (body : TypeBody) :
    (body.substitute rules).isAlias = body.isAlias := by
  cases body <;> rfl

/-- One step along a chain: from a reference to an alias to the target of the alias. -/
inductive TypeTable.Follows (base : TypeTable) : TypeExpr → TypeExpr → Prop where
  | intro {ref : TypeRef} {package : String} {definition : TypeDef} {target : TypeExpr}
      (declared : base.declaration? ref = some (package, definition))
      (body : definition.body = .alias target) : Follows base ref.toType target

/-- The chain ends well: the type is no reference to an alias, and if it is a reference, what it
refers to is known. -/
structure TypeTable.Rests (base : TypeTable) (type : TypeExpr) : Prop where
  last : ∀ next, ¬ base.Follows type next
  known : ∀ ref : TypeRef, type = ref.toType → (base.spelling? type).isSome = true

/-- The type is a reference in which something is unknown. -/
def TypeTable.Dangles (base : TypeTable) (type : TypeExpr) : Prop :=
  ∃ ref : TypeRef, type = ref.toType ∧ base.spelling? type = none

/-- The chain comes back to an alias that it has passed. -/
def TypeTable.Circles (base : TypeTable) (type : TypeExpr) : Prop :=
  ∃ ref again : TypeRef, ReflTransGen base.Follows type ref.toType ∧
    TransGen base.Follows ref.toType again.toType ∧
    base.declaration? again = base.declaration? ref

section Chains

variable {base : TypeTable} {other : TypeExpr}

theorem TypeTable.follows_ref : base.Follows ref.toType next ↔ ∃ package definition,
    base.declaration? ref = some (package, definition) ∧ definition.body = .alias next := by
  constructor
  · intro h
    generalize hwhole : ref.toType = whole at h
    cases h with
    | intro hdeclared hbody =>
      obtain rfl := toType_inj hwhole
      exact ⟨_, _, hdeclared, hbody⟩
  · rintro ⟨package, definition, hdeclared, hbody⟩
    exact .intro hdeclared hbody

theorem TypeTable.Follows.exists_ref (h : base.Follows type next) :
    ∃ ref : TypeRef, type = ref.toType := by
  cases h
  exact ⟨_, rfl⟩

/-- References to one alias lead to one type. -/
theorem TypeTable.Follows.of_declaration (h : base.Follows ref.toType next)
    (hsame : base.declaration? again = base.declaration? ref) : base.Follows again.toType next := by
  obtain ⟨package, definition, hdeclared, hbody⟩ := follows_ref.1 h
  exact .intro (hsame.trans hdeclared) hbody

theorem TypeTable.Follows.unique (h : base.Follows type next) (h' : base.Follows type other) :
    next = other := by
  obtain ⟨ref, rfl⟩ := h.exists_ref
  obtain ⟨_, _, hdeclared, hbody⟩ := follows_ref.1 h
  obtain ⟨_, _, hdeclared', hbody'⟩ := follows_ref.1 h'
  rw [hdeclared] at hdeclared'
  cases hdeclared'
  rw [hbody] at hbody'
  exact TypeBody.alias.inj hbody'

/-- Two types at which a chain stops are one. -/
theorem TypeTable.Follows.ends_unique {last' : TypeExpr}
    (h : ReflTransGen base.Follows type last) (hlast : ∀ next, ¬ base.Follows last next)
    (h' : ReflTransGen base.Follows type last') (hlast' : ∀ next, ¬ base.Follows last' next) :
    last = last' := by
  have hunique : Relator.RightUnique base.Follows := fun _ _ _ => Follows.unique
  rcases ReflTransGen.total_of_right_unique hunique h h' with hforth | hback
  · rcases hforth.cases_head with rfl | ⟨next, hnext, _⟩
    · rfl
    · exact absurd hnext (hlast next)
  · rcases hback.cases_head with rfl | ⟨next, hnext, _⟩
    · rfl
    · exact absurd hnext (hlast' next)

/-- From a type at which a chain stops it has not come back. -/
theorem TypeTable.Follows.not_returns (h : ReflTransGen base.Follows type last)
    (hlast : ∀ next, ¬ base.Follows last next) : ¬ TransGen base.Follows type type := by
  induction h using ReflTransGen.head_induction_on with
  | refl =>
    intro hreturns
    obtain ⟨next, hnext, _⟩ := TransGen.head'_iff.1 hreturns
    exact hlast next hnext
  | head hstep _ ih =>
    intro hreturns
    obtain ⟨next, hnext, hrest⟩ := TransGen.head'_iff.1 hreturns
    obtain rfl := hstep.unique hnext
    exact ih (TransGen.tail' hrest hstep)

/-- What a chain that comes back to an alias goes round with. -/
theorem TypeTable.Circles.returns (h : base.Circles type) : ∃ next,
    ReflTransGen base.Follows type next ∧ TransGen base.Follows next next ∧
      ∃ ref : TypeRef, base.Follows ref.toType next := by
  obtain ⟨ref, again, hreaches, hround, hsame⟩ := h
  obtain ⟨next, hnext, hrest⟩ := TransGen.head'_iff.1 hround
  refine ⟨next, hreaches.tail hnext, TransGen.tail' hrest (hnext.of_declaration hsame), ref, hnext⟩

/-- A chain that stops does not come back. -/
theorem TypeTable.not_circles_of_ends (h : ReflTransGen base.Follows type last)
    (hlast : ∀ next, ¬ base.Follows last next) : ¬ base.Circles type := by
  intro hcircles
  obtain ⟨next, hreaches, hreturns, _⟩ := hcircles.returns
  have hunique : Relator.RightUnique base.Follows := fun _ _ _ => Follows.unique
  rcases ReflTransGen.total_of_right_unique hunique hreaches h with hforth | hback
  · exact Follows.not_returns hforth hlast hreturns
  · rcases hback.cases_head with rfl | ⟨other, hother, _⟩
    · exact Follows.not_returns .refl hlast hreturns
    · exact hlast other hother

end Chains

/-! ## What is found for a reference -/

/-- The canonical name of a reference without type arguments is the key of its definition. -/
theorem TypeTable.spelling_of_declaration {base : TypeTable} (harguments : ref.arguments = [])
    (h : base.declaration? ref = some (package, definition)) :
    base.spelling? ref.toType = some (typeKey package ref.name ref.arguments.length) := by
  rw [toType, spelling?, harguments, spellings?, Option.bind_some, ← harguments, home?,
    show (⟨ref.name, ref.qualifier, ref.arguments, ref.origin⟩ : TypeRef) = ref from rfl, h,
    harguments]
  rfl

section Fixed

variable {base : TypeTable} (hbase : base.Spelled) (hfixed : base.FixedAliases)

include hbase

theorem TypeTable.Follows.plain {next : TypeExpr} (h : base.Follows type next) : next.plain := by
  obtain ⟨ref, rfl⟩ := h.exists_ref
  obtain ⟨_, _, hdeclared, hbody⟩ := follows_ref.1 h
  have hplain := hbase.plainBody ⟨_, .inl (mem_stored_of_declaration hdeclared)⟩
  exact hplain next (by simp [hbody, TypeBody.components])

theorem TypeTable.plain_of_follows (hplain : type.plain)
    (h : ReflTransGen base.Follows type last) : last.plain := by
  cases h with
  | refl => exact hplain
  | tail _ hstep => exact hstep.plain hbase

/-- References under whose names one key is stored refer to one definition. -/
theorem TypeTable.declaration_of_typeKey (hplain : ref.plain)
    (hplain' : again.plain) {package' : String} {definition' : TypeDef}
    (h : base.declaration? ref = some (package, definition))
    (h' : base.declaration? again = some (package', definition'))
    (hkey : typeKey package' again.name again.arguments.length =
      typeKey package ref.name ref.arguments.length) :
    base.declaration? again = base.declaration? ref := by
  have hscope := hbase.scopes hplain package (lookup_of_declaration h).1
  have hscope' := hbase.scopes hplain' package' (lookup_of_declaration h').1
  obtain ⟨rfl, hsame, hlength⟩ := typeKey_inj hscope' (plain_iff.1 hplain').1 hscope
    (plain_iff.1 hplain).1 hkey
  rw [h, h', declaration_unique h' h hsame hlength]

/-- What is declared for a reference takes as many type arguments as there are. -/
theorem TypeTable.isGeneric_of_declaration (hplain : ref.plain)
    (h : base.declaration? ref = some (package, definition)) :
    definition.isGeneric ↔ ref.arguments ≠ [] := by
  obtain ⟨hscope, hlookup⟩ := lookup_of_declaration h
  have hlength := hbase.generics_of_lookup (hbase.scopes hplain package hscope)
    (plain_iff.1 hplain).1 hlookup
  rw [TypeDef.isGeneric, Bool.not_eq_true', List.isEmpty_eq_false_iff, ← List.length_pos_iff,
    ← List.length_pos_iff, hlength]

/-- Instances that references ask for have the shape of what is generic. -/
theorem TypeTable.Entry.shaped {shape : TypeBody → Prop}
    (hshape : ∀ rules body, shape body → shape (body.substitute rules))
    (hstored : ∀ entry ∈ base.stored, entry.2.isGeneric → shape entry.2.body)
    {entry : String × TypeDef} (h : base.Entry (fun type => type.plain) entry) :
    shape entry.2.body := by
  cases h with
  | intro hplain harguments hdeclared _ =>
    have hgeneric := (isGeneric_of_declaration hbase hplain hdeclared).2 harguments
    exact hshape _ _ (hstored _ (mem_stored_of_declaration hdeclared) hgeneric)

include hfixed

theorem TypeTable.FixedAliases.grown (h : base.PlainlyGrown table) :
    table.FixedAliases where
  stored := by
    rw [h.stored]
    exact hfixed.stored
  instances entry hentry := by
    rcases h.entries entry hentry with hold | hnew
    · exact hfixed.instances entry hold
    · exact hnew.shaped hbase (fun rules body => (body.isAlias_substitute rules).trans)
        hfixed.stored

/-- References to aliases have no type arguments. -/
theorem TypeTable.Follows.arguments (hplain : ref.plain) (h : base.Follows ref.toType next) :
    ref.arguments = [] := by
  obtain ⟨package, definition, hdeclared, hbody⟩ := follows_ref.1 h
  by_contra harguments
  have hgeneric := (isGeneric_of_declaration hbase hplain hdeclared).2 harguments
  have hother := hfixed.stored _ (mem_stored_of_declaration hdeclared) hgeneric
  simp [hbody, TypeBody.isAlias] at hother

/-- The canonical name of a reference to an alias is the key of the alias. -/
theorem TypeTable.Follows.spelling {ref : TypeRef} (hplain : ref.plain) {next : TypeExpr}
    (h : base.Follows ref.toType next) : ∃ package definition,
      base.declaration? ref = some (package, definition) ∧
      base.spelling? ref.toType = some (typeKey package ref.name ref.arguments.length) := by
  obtain ⟨package, definition, hdeclared, _⟩ := follows_ref.1 h
  exact ⟨package, definition, hdeclared,
    spelling_of_declaration (h.arguments hbase hfixed hplain) hdeclared⟩

/-- References to aliases that have one name refer to one alias. -/
theorem TypeTable.Follows.declaration_of_spelling (hplain : ref.plain)
    (hplain' : again.plain) {next' : TypeExpr} (h : base.Follows ref.toType next)
    (h' : base.Follows again.toType next')
    (hname : base.spelling? again.toType = base.spelling? ref.toType) :
    base.declaration? again = base.declaration? ref := by
  obtain ⟨package, definition, hdeclared, hspelling⟩ := h.spelling hbase hfixed hplain
  obtain ⟨package', definition', hdeclared', hspelling'⟩ := h'.spelling hbase hfixed hplain'
  rw [hspelling, hspelling', Option.some.injEq] at hname
  exact declaration_of_typeKey hbase hplain hplain' hdeclared hdeclared' hname

theorem TypeTable.Dangles.stops (h : base.Dangles type)
    (hplain : type.plain) : ∀ next, ¬ base.Follows type next := by
  obtain ⟨ref, rfl, hnone⟩ := h
  intro next hnext
  obtain ⟨_, _, _, hspelling⟩ := hnext.spelling hbase hfixed hplain
  rw [hnone] at hspelling
  cases hspelling

/-- A chain that ends well meets nothing unknown. -/
theorem TypeTable.Rests.not_dangles {bare : TypeExpr} (hplain : type.plain)
    (h : ReflTransGen base.Follows type bare) (hrests : base.Rests bare)
    (h' : ReflTransGen base.Follows type last) : ¬ base.Dangles last := by
  intro hdangles
  have hlast := hdangles.stops hbase hfixed (plain_of_follows hbase hplain h')
  obtain rfl := Follows.ends_unique h hrests.last h' hlast
  obtain ⟨ref, heq, hnone⟩ := hdangles
  have hknown := hrests.known ref heq
  rw [hnone] at hknown
  cases hknown

/-- What is found for a reference is an alias exactly if the chain goes on, and then it is the
alias that the chain goes on with. -/
structure TypeTable.Shows (base : TypeTable) (ref : TypeRef) (found : TypeDef) : Prop where
  known : (base.spelling? ref.toType).isSome = true
  target : ∀ target, found.body = .alias target → base.Follows ref.toType target
  other : found.body.isAlias = false → ∀ next, ¬ base.Follows ref.toType next

theorem TypeTable.AnswerTo.shows (hplain : ref.plain) {answer : String × TypeDef}
    {names : List String} (htable : base.PlainlyGrown table)
    (hnames : base.SpellsAll ref.arguments names) (h : base.AnswerTo ref names answer table) :
    base.Shows ref answer.2 := by
  have hknown : (base.spelling? ref.toType).isSome := by
    rw [toType, spelling?, hnames.spellings, Option.bind_some, h.home]
    rfl
  obtain ⟨generic, hdeclared, heq⟩ := h.declared
  by_cases harguments : ref.arguments = []
  · rw [heq harguments]
    refine ⟨hknown, fun target hbody => .intro hdeclared hbody, fun hother next hnext => ?_⟩
    obtain ⟨_, _, hdeclared', hbody⟩ := follows_ref.1 hnext
    rw [hdeclared] at hdeclared'
    cases hdeclared'
    simp [hbody, TypeBody.isAlias] at hother
  · have hother := (hfixed.grown hbase htable).instances _ (h.entered harguments)
    refine ⟨hknown, fun target hbody => ?_, fun _ next hnext => ?_⟩
    · simp [hbody, TypeBody.isAlias] at hother
    · exact harguments (hnext.arguments hbase hfixed hplain)

theorem retrieve_shows (hplain : ref.plain) :
    Guards base.PlainlyGrown (base.Shows ref)
      (fun cause => base.spelling? ref.toType = none ∧ cause.Unknown) (retrieve ref) :=
  retrieve_answers hbase hplain fun htable hnames hanswer =>
    hanswer.shows hbase hfixed hplain htable hnames

/-! ## Following -/

/-- The outcome says how the chain from a type comes out. -/
structure TypeTable.Tells (base : TypeTable) (type : TypeExpr)
    (outcome : Except Diagnostic TypeExpr) : Prop where
  rests : ∀ bare, outcome = .ok bare ↔ ReflTransGen base.Follows type bare ∧ base.Rests bare
  circles : (∃ name, outcome = .error (.cyclicAlias name)) ↔ base.Circles type
  dangles : (∃ name origin, outcome = .error (.unknownType name origin)) ↔
    ∃ last, ReflTransGen base.Follows type last ∧ base.Dangles last

theorem TypeTable.tells_ok {bare : TypeExpr} (hplain : type.plain)
    (h : ReflTransGen base.Follows type bare) (hrests : base.Rests bare) :
    base.Tells type (.ok bare) where
  rests other := by
    refine ⟨fun heq => Except.ok.inj heq ▸ ⟨h, hrests⟩, fun hother => ?_⟩
    rw [Follows.ends_unique h hrests.last hother.1 hother.2.last]
  circles := ⟨nofun, fun hcircles => absurd hcircles (not_circles_of_ends h hrests.last)⟩
  dangles := ⟨nofun, fun ⟨_, hreaches, hlast⟩ =>
    absurd hlast (hrests.not_dangles hbase hfixed hplain h hreaches)⟩

theorem TypeTable.tells_unknown (hplain : type.plain)
    (h : ReflTransGen base.Follows type last) (hdangles : base.Dangles last) {cause : Diagnostic}
    (hcause : cause.Unknown) : base.Tells type (.error cause) := by
  have hlast := hdangles.stops hbase hfixed (plain_of_follows hbase hplain h)
  obtain ⟨name, origin, rfl⟩ := hcause
  refine ⟨fun bare => ⟨nofun, fun hbare => ?_⟩, ⟨nofun, fun hcircles => ?_⟩, ?_⟩
  · exact absurd hdangles (hbare.2.not_dangles hbase hfixed hplain hbare.1 h)
  · exact absurd hcircles (not_circles_of_ends h hlast)
  · exact ⟨fun _ => ⟨last, h, hdangles⟩, fun _ => ⟨name, origin, rfl⟩⟩

theorem TypeTable.tells_cyclic (hplain : type.plain)
    (h : base.Circles type) (name : String) : base.Tells type (.error (.cyclicAlias name)) := by
  refine ⟨fun bare => ⟨nofun, fun hbare => ?_⟩, ⟨fun _ => h, fun _ => ⟨name, rfl⟩⟩, nofun, ?_⟩
  · exact absurd h (not_circles_of_ends hbare.1 hbare.2.last)
  · rintro ⟨last, hreaches, hdangles⟩
    have hlast := hdangles.stops hbase hfixed (plain_of_follows hbase hplain hreaches)
    exact absurd h (not_circles_of_ends hreaches hlast)

/-- Why following aliases from a type is refused. -/
inductive TypeTable.Stops (base : TypeTable) (start : TypeExpr) : Diagnostic → Prop where
  | exhausted : Stops base start .limitReached
  | unknown {cause : Diagnostic} {last : TypeExpr} (unknown : cause.Unknown)
      (reaches : ReflTransGen base.Follows start last) (dangles : base.Dangles last) :
      Stops base start cause
  | cyclic (name : String) (circles : base.Circles start) : Stops base start (.cyclicAlias name)

/-- Behind a chain of aliases stands the type that it ends in, and a refusal says what the chain
meets.  The aliases passed before are on the same chain. -/
theorem unaliasFrom_follows (fuel : Nat) {start : TypeExpr} {seen : List String}
    (hplain : type.plain) (hstart : ReflTransGen base.Follows start type)
    (hseen : ∀ name ∈ seen, ∃ ref : TypeRef, ref.plain ∧
      ReflTransGen base.Follows start ref.toType ∧ TransGen base.Follows ref.toType type ∧
      base.spelling? ref.toType = some name) :
    Guards base.PlainlyGrown
      (fun bare => ReflTransGen base.Follows start bare ∧ base.Rests bare) (base.Stops start)
      (unaliasFrom fuel seen type) := by
  induction fuel generalizing type seen with
  | zero => exact Guards.throw .exhausted
  | succ fuel ih =>
    unfold unaliasFrom
    cases href : type.ref? with
    | none =>
      have hnone (ref : TypeRef) : type ≠ ref.toType := by
        rintro rfl
        cases href
      refine Guards.pure ⟨hstart, fun next hnext => ?_, fun ref heq => absurd heq (hnone ref)⟩
      obtain ⟨ref, heq⟩ := hnext.exists_ref
      exact hnone ref heq
    | some ref =>
      obtain rfl := TypeExpr.eq_of_ref? href
      refine ((retrieve_shows hbase hfixed hplain).relax fun cause hcause => ?_).bind
        fun found hfound => ?_
      · exact .unknown hcause.2 hstart ⟨ref, rfl, hcause.1⟩
      have hrests (hother : found.body.isAlias = false) : base.Rests ref.toType :=
        ⟨hfound.other hother, fun _ _ => hfound.known⟩
      cases hbody : found.body with
      | record _ | union _ => exact Guards.pure ⟨hstart, hrests (by simp [hbody, TypeBody.isAlias])⟩
      | «alias» target =>
        have hstep := hfound.target target hbody
        refine ((canonicalName_named hbase hplain).relax fun cause hcause => ?_).bind
          fun name hname => ?_
        · exact .unknown hcause.2 hstart ⟨ref, rfl, hcause.1⟩
        split
        · -- An alias of this name was passed before, and so it is this one.
          rename_i hagain
          obtain ⟨earlier, hplain', hreaches, hround, hspelling⟩ :=
            hseen name (by simpa using hagain)
          obtain ⟨next, hnext, _⟩ := TransGen.head'_iff.1 hround
          refine Guards.throw (.cyclic _ ⟨earlier, ref, hreaches, hround, ?_⟩)
          exact hnext.declaration_of_spelling hbase hfixed hplain' hplain hstep
            (hname.trans hspelling.symm)
        · refine ih (hstep.plain hbase) (hstart.tail hstep) (List.forall_mem_cons.2 ⟨?_, ?_⟩)
          · exact ⟨ref, hplain, hstart, .single hstep, hname⟩
          · intro other hother
            obtain ⟨earlier, hplain', hreaches, hround, hspelling⟩ := hseen other hother
            exact ⟨earlier, hplain', hreaches, hround.tail hstep, hspelling⟩

theorem unalias_follows (fuel : Nat) (hplain : type.plain) :
    Guards base.PlainlyGrown
      (fun bare => ReflTransGen base.Follows type bare ∧ base.Rests bare) (base.Stops type)
      (unalias fuel type) :=
  unaliasFrom_follows hbase hfixed fuel hplain .refl (by simp)

/-- Every alias that is passed is one fewer to pass. -/
theorem unaliasFrom_settles_of_fixed (hplain : type.plain) (seen : List String) :
    Settles base.PlainlyGrown (fun _ => True) fun fuel => unaliasFrom fuel seen type := by
  induction hleft : base.left seen using Nat.strong_induction_on generalizing seen type with
  | _ left ih =>
    refine Settles.succ ?_
    simp only [unaliasFrom]
    cases href : type.ref? with
    | none => exact Settles.pure trivial
    | some ref =>
      obtain rfl := TypeExpr.eq_of_ref? href
      refine ((retrieve_shows hbase hfixed hplain).settles
        fun _ hcause => hcause.2.ne_limitReached).bind fun found hfound => ?_
      cases hbody : found.body with
      | «alias» target =>
        have hstep := hfound.target target hbody
        refine ((canonicalName_named hbase hplain).settles
          fun _ hcause => hcause.2.ne_limitReached).bind fun name hname => ?_
        refine Settles.ite (fun _ => Settles.throw (by simp)) fun hnew => ?_
        obtain ⟨_, definition, hdeclared, hspelling⟩ := hstep.spelling hbase hfixed hplain
        rw [hname, Option.some.injEq] at hspelling
        have hkey : name ∈ base.keys := by
          rw [hspelling]
          exact List.mem_append_left _ (List.mem_map_of_mem (mem_stored_of_declaration hdeclared))
        have hfewer := left_cons_lt hkey (by simpa using hnew)
        exact ih _ (hleft ▸ hfewer) (hstep.plain hbase) (name :: seen) rfl
      | _ => exact Settles.pure trivial

/-- A type in which a chain ends well stands for itself. -/
theorem unalias_of_rests (hplain : type.plain) (hrests : base.Rests type)
    (htable : base.PlainlyGrown table) (fuel : Nat) :
    (unalias (fuel + 1) type).answer table = .ok type := by
  rw [unalias, answer, unaliasFrom]
  cases href : type.ref? with
  | none => rfl
  | some ref =>
    obtain rfl := TypeExpr.eq_of_ref? href
    obtain ⟨found, t, hrun, _, hshows⟩ :=
      (retrieve_shows hbase hfixed hplain table htable).exists_ok fun _ _ hnone => by
        simpa [hnone.2.1] using hrests.known ref rfl
    simp only [bind_of_ok hrun]
    cases hbody : found.body with
    | «alias» target => exact absurd (hshows.target target hbody) (hrests.last target)
    | _ => rfl

/-- With enough fuel following aliases has one outcome, which says how the chain comes out, and
following them twice has the same outcome. -/
theorem unalias_outcome (hplain : type.plain) (htable : base.PlainlyGrown table) :
    ∃ outcome bound, outcome ≠ .error .limitReached ∧
      (∀ fuel, bound ≤ fuel → (unalias fuel type).answer table = outcome) ∧
      base.Tells type outcome ∧
      ∀ fuel, bound ≤ fuel → (unalias fuel type >>= unalias fuel).answer table = outcome := by
  obtain ⟨result, hends, bound, hrun⟩ :=
    unaliasFrom_settles_of_fixed hbase hfixed hplain [] table htable
  have hrun : ∀ fuel, bound ≤ fuel → unalias fuel type table = result := hrun
  have hlast := unalias_follows hbase hfixed bound hplain table htable
  rw [hrun bound (Nat.le_refl bound)] at hlast
  cases result with
  | ok bare t =>
    obtain ⟨ht, hreaches, hrests⟩ := hlast.of_ok
    refine ⟨.ok bare, bound, nofun, fun fuel hle => ?_,
      tells_ok hbase hfixed hplain hreaches hrests, fun fuel hle => ?_⟩
    · rw [answer, hrun fuel hle]
    · rw [answer, bind_of_ok (hrun fuel hle)]
      cases fuel with
      | zero => exact absurd (hrun 0 hle) throw_ne_ok
      | succ less =>
        exact unalias_of_rests hbase hfixed (plain_of_follows hbase hplain hreaches) hrests ht less
  | error cause t =>
    have htells : base.Tells type (.error cause) := by
      cases hlast.of_error.2 with
      | exhausted => exact absurd rfl hends.of_error
      | unknown hunknown hreaches hdangles =>
        exact tells_unknown hbase hfixed hplain hreaches hdangles hunknown
      | cyclic name hcircles => exact tells_cyclic hbase hfixed hplain hcircles name
    refine ⟨.error cause, bound, by simpa using hends.of_error, fun fuel hle => ?_, htells,
      fun fuel hle => ?_⟩
    · rw [answer, hrun fuel hle]
    · rw [answer, bind_of_error (hrun fuel hle)]

/-! ## Definitions that have been walked -/

/-- A reference to an alias mentions no parameter. -/
theorem TypeTable.Follows.closed (h : base.Follows type next) (hplain : type.plain) :
    type.isGeneric = false := by
  obtain ⟨ref, rfl⟩ := h.exists_ref
  rw [toType, h.arguments hbase hfixed hplain]
  rfl

/-- What is found for a reference to an alias is the alias. -/
theorem TypeTable.Follows.retrieved (h : base.Follows ref.toType next) (hplain : ref.plain) :
    ∃ found, (retrieve ref).answer base = .ok found ∧ found.body = .alias next := by
  obtain ⟨_, _, _, hspelling⟩ := h.spelling hbase hfixed hplain
  obtain ⟨found, t, hrun, _, hshows⟩ :=
    (retrieve_shows hbase hfixed hplain base (hbase.grownBy _)).exists_ok fun _ _ hnone =>
      nomatch hnone.2.1.symm.trans hspelling
  refine ⟨found, answer_eq_ok.2 ⟨t, hrun⟩, ?_⟩
  cases hbody : found.body with
  | «alias» target => rw [(hshows.target target hbody).unique h]
  | _ =>
    have hother : found.body.isAlias = false := by simp [hbody, TypeBody.isAlias]
    exact absurd h (hshows.other hother next)

/-- An alias holds its target. -/
theorem TypeTable.Follows.holds (h : base.Follows type next) (hplain : type.plain)
    (hclosed : next.isGeneric = false) : base.Holds type next := by
  obtain ⟨ref, rfl⟩ := h.exists_ref
  obtain ⟨found, hfound, hbody⟩ := h.retrieved hbase hfixed hplain
  exact holds_ref.2 ⟨found, hfound, by simp [hbody, TypeBody.components], hclosed⟩

/-- If following what a type holds ends, no chain of aliases comes back to it. -/
theorem not_returns_of_acc (hplain : type.plain)
    (hacc : Acc (fun inner outer => base.Holds outer inner) type) :
    ¬ TransGen base.Follows type type := by
  induction hacc with
  | intro type _ ih =>
    intro hreturns
    -- The next type is on the same round, so it is a reference to an alias too.
    obtain ⟨next, hnext, hrest⟩ := TransGen.head'_iff.1 hreturns
    have hround : TransGen base.Follows next next := TransGen.tail' hrest hnext
    obtain ⟨_, hstep, _⟩ := TransGen.head'_iff.1 hround
    have hnextPlain := hnext.plain hbase
    have hholds := hnext.holds hbase hfixed hplain (hstep.closed hbase hfixed hnextPlain)
    exact ih next hholds hnextPlain hround

theorem not_circles_of_cleared
    (hcleared : ∀ entry ∈ base.stored, ∀ part ∈ entry.2.body.components,
      part.isGeneric = false → base.Cleared [entry.1] part) (type : TypeExpr) :
    ¬ base.Circles type := by
  intro hcircles
  obtain ⟨next, _, hreturns, ref, hstep⟩ := hcircles.returns
  obtain ⟨_, hnext, _⟩ := TransGen.head'_iff.1 hreturns
  have hplain := hstep.plain hbase
  obtain ⟨package, definition, hdeclared, hbody⟩ := follows_ref.1 hstep
  have hpath := hcleared _ (mem_stored_of_declaration hdeclared) next
    (by simp [hbody, TypeBody.components]) (hnext.closed hbase hfixed hplain)
  exact not_returns_of_acc hbase hfixed hplain hpath.acc hreturns

end Fixed

/-! ## Tables with a history, and programs -/

theorem Project.fixedAliases_tableAfter {steps : List TableStep}
    (hfiles : ∀ file ∈ project.files, file.plain)
    (hsteps : ∀ step ∈ steps, step.plain)
    (hfixed : ∀ entry ∈ (project.tableAfter steps).stored, entry.2.isGeneric →
      entry.2.body.isAlias = false) :
    (project.tableAfter steps).FixedAliases where
  stored := hfixed
  instances entry hentry := by
    obtain ⟨package, generic, arguments, _, _, hstores, harguments, hlength, hmade, _⟩ :=
      Project.instantiates_of_instance hfiles hsteps hentry
    have hstored := ((Project.recorded_of_plain hfiles hsteps).stored
      (typeKey package generic.name generic.generics.length, generic)).2 ⟨package, hstores, rfl⟩
    have hgeneric : generic.isGeneric := by
      rw [TypeDef.isGeneric, Bool.not_eq_true', List.isEmpty_eq_false_iff,
        ← List.length_pos_iff, hlength]
      exact List.length_pos_iff.2 harguments
    rw [hmade, TypeDef.instantiate, TypeBody.isAlias_substitute]
    exact hfixed _ hstored hgeneric

theorem fixedAliases_of_build {fuel : Nat} {program : Program}
    (hbuild : Program.build fuel project = .ok program) (hplain : project.Plain)
    (hfixed : ∀ definition ∈ project.files.flatMap (·.types), definition.isGeneric →
      definition.body.isAlias = false)
    {questions : List TypeQuestion} (hquestions : ∀ question ∈ questions, question.subject.plain) :
    (questions.foldl TypeQuestion.ask program.types).FixedAliases := by
  obtain ⟨base, _, _, hbase, _, _, _⟩ := Program.build_eq_ok hbuild
  obtain ⟨hspelled, hinstances, hgrown, _⟩ := grown_of_build hbuild hplain hbase
  obtain ⟨_, _, _, hentries⟩ := stored_of_foldlM hbase (.empty project)
  have hstored : base.FixedAliases := by
    refine ⟨fun entry hentry => ?_, by simp [hinstances]⟩
    rcases hentries entry hentry with hnone | ⟨hmem, _⟩
    · cases hnone
    · exact hfixed entry.2 hmem
  exact hstored.grown hspelled (asked_grows hspelled.confines hquestions hgrown)

/-- With plain names and without generic aliases, following aliases comes to an end, and the
outcome tells how the chain comes out: an answer is the type in which it ends, a cycle is
reported exactly if it comes back to an alias, and an unknown type exactly if it reaches a
reference in which something is unknown.  So following them twice is following them once, and in
a program that has been built no cycle is ever reported. -/
theorem unalias_exact {project : Project} {steps : List TableStep}
    (hfiles : ∀ file ∈ project.files, file.plain = true)
    (hsteps : ∀ step ∈ steps, step.plain = true)
    (hfixed : ∀ entry ∈ (project.tableAfter steps).stored, entry.2.isGeneric = true →
      entry.2.body.isAlias = false) {type : TypeExpr} (hplain : type.plain = true) :
    let table := project.tableAfter steps
    (∃ outcome bound, outcome ≠ .error .limitReached ∧
      (∀ fuel, bound ≤ fuel → (unalias fuel type).answer table = outcome) ∧
      (∀ bare, outcome = .ok bare ↔ ReflTransGen table.Follows type bare ∧ table.Rests bare) ∧
      ((∃ name, outcome = .error (.cyclicAlias name)) ↔ table.Circles type) ∧
      ((∃ name origin, outcome = .error (.unknownType name origin)) ↔
        ∃ last, ReflTransGen table.Follows type last ∧ table.Dangles last) ∧
      ∀ fuel, bound ≤ fuel → (unalias fuel type >>= unalias fuel).answer table = outcome) ∧
    ∀ fuel program, Program.build fuel project = .ok program → project.Plain →
      (∀ definition ∈ project.files.flatMap (·.types), definition.isGeneric = true →
        definition.body.isAlias = false) →
      ∀ questions : List TypeQuestion,
        (∀ question ∈ questions, question.subject.plain = true) → ∀ fuel name,
        (unalias fuel type).answer (questions.foldl TypeQuestion.ask program.types) ≠
          .error (.cyclicAlias name) := by
  intro table
  have hbase : table.Spelled := (Project.recorded_of_plain hfiles hsteps).spelled
  have haliases : table.FixedAliases := Project.fixedAliases_tableAfter hfiles hsteps hfixed
  constructor
  · obtain ⟨outcome, bound, hlimit, hrun, htells, htwice⟩ :=
      unalias_outcome hbase haliases hplain (hbase.grownBy _)
    exact ⟨outcome, bound, hlimit, hrun, htells.rests, htells.circles, htells.dangles, htwice⟩
  · intro buildFuel program hbuild hproject hdefinitions questions hquestions fuel name hanswer
    obtain ⟨hspelled, hcleared⟩ := cleared_of_asked hbuild hproject hquestions rfl
    have hasked := fixedAliases_of_build hbuild hproject hdefinitions hquestions
    have hfaults := (unalias_follows hspelled hasked fuel hplain).faults_of_answer
      (hspelled.grownBy _) _ hanswer
    cases hfaults with
    | unknown hunknown _ _ =>
      obtain ⟨_, _, heq⟩ := hunknown
      cases heq
    | cyclic _ hcircles => exact not_circles_of_cleared hspelled hasked hcleared type hcircles

/-! ## A chain that ends, and one that does not -/

/-- A name for another type. -/
def aliasOf (name : String) (target : TypeExpr) : TypeDef :=
  { name, origin := "main.mer", body := .alias target }

/-- A reference to a definition without type parameters. -/
def mainRef (name : String) : TypeRef :=
  ⟨name, none, [], "main.mer"⟩

/-- Items that go by two more names. -/
def renamedItems : Project :=
  { files := [{ name := "main.mer", package := "app"
                types := [itemIn "main.mer", aliasOf "Thing" (mainRef "Item").toType,
                  aliasOf "Stuff" (mainRef "Thing").toType] }] }

/-- The same names, and two that stand for each other. -/
def pingPong : List TableStep :=
  [.store (itemIn "main.mer"), .store (aliasOf "Thing" (mainRef "Item").toType),
    .store (aliasOf "Stuff" (mainRef "Thing").toType),
    .store (aliasOf "Ping" (mainRef "Pong").toType),
    .store (aliasOf "Pong" (mainRef "Ping").toType)]

theorem tableAfter_pingPong : renamedItems.tableAfter pingPong =
    { project := renamedItems
      stored := [("app::Item", itemIn "main.mer"),
        ("app::Thing", aliasOf "Thing" (mainRef "Item").toType),
        ("app::Stuff", aliasOf "Stuff" (mainRef "Thing").toType),
        ("app::Ping", aliasOf "Ping" (mainRef "Pong").toType),
        ("app::Pong", aliasOf "Pong" (mainRef "Ping").toType)] } :=
  rfl

/-- The program of the items. -/
def renamedProgram : Program :=
  { types :=
      { project := renamedItems
        stored := [("app::Item", itemIn "main.mer"),
          ("app::Thing", aliasOf "Thing" (mainRef "Item").toType),
          ("app::Stuff", aliasOf "Stuff" (mainRef "Thing").toType)] } }

/-- Behind the second name stands an item, and two names for each other are a cycle; the program
of the items reports none. -/
theorem stuff_is_an_item :
    (∀ file ∈ renamedItems.files, file.plain = true) ∧
      (∀ step ∈ pingPong, step.plain = true) ∧
      (∀ entry ∈ (renamedItems.tableAfter pingPong).stored, entry.2.isGeneric = true →
        entry.2.body.isAlias = false) ∧
      (∃ bound, ∀ fuel, bound ≤ fuel →
        (unalias fuel (mainRef "Stuff").toType).answer (renamedItems.tableAfter pingPong) =
          .ok (mainRef "Item").toType) ∧
      (∃ bound name, ∀ fuel, bound ≤ fuel →
        (unalias fuel (mainRef "Ping").toType).answer (renamedItems.tableAfter pingPong) =
          .error (.cyclicAlias name)) ∧
      Program.build defaultFuel renamedItems = .ok renamedProgram ∧
      ∀ fuel name, (unalias fuel (mainRef "Stuff").toType).answer renamedProgram.types ≠
        .error (.cyclicAlias name) := by
  have hfiles : ∀ file ∈ renamedItems.files, file.plain = true := by decide
  have hsteps : ∀ step ∈ pingPong, step.plain = true := by decide
  have hfixed : ∀ entry ∈ (renamedItems.tableAfter pingPong).stored, entry.2.isGeneric = true →
      entry.2.body.isAlias = false := by
    rw [tableAfter_pingPong]
    decide
  have hbuild : Program.build defaultFuel renamedItems = .ok renamedProgram := rfl
  have hproject : renamedItems.Plain := ⟨hfiles, by decide, by simp [renamedItems]⟩
  have hstuffPlain : (mainRef "Stuff").toType.plain = true := by decide
  have hpingPlain : (mainRef "Ping").toType.plain = true := by decide
  -- One step is what the table declares.
  have hstep {name next : String} {package : String}
      (h : (renamedItems.tableAfter pingPong).declaration? (mainRef name) =
        some (package, aliasOf name (mainRef next).toType)) :
      (renamedItems.tableAfter pingPong).Follows (mainRef name).toType (mainRef next).toType :=
    .intro h rfl
  have hrests : (renamedItems.tableAfter pingPong).Rests (mainRef "Item").toType := by
    refine ⟨fun next hnext => ?_, fun _ _ => rfl⟩
    obtain ⟨_, _, hdeclared, hbody⟩ := follows_ref.1 hnext
    cases hdeclared
    cases hbody
  obtain ⟨⟨outcome, bound, _, hrun, hok, _⟩, hprogram⟩ :=
    unalias_exact hfiles hsteps hfixed hstuffPlain
  obtain ⟨⟨outcome', bound', _, hrun', _, hcyclic, _⟩, _⟩ :=
    unalias_exact hfiles hsteps hfixed hpingPlain
  have hstuff : outcome = .ok (mainRef "Item").toType :=
    (hok _).2 ⟨.head (@hstep "Stuff" "Thing" "app" rfl)
      (.head (@hstep "Thing" "Item" "app" rfl) .refl), hrests⟩
  obtain ⟨name, hping⟩ := hcyclic.2 ⟨mainRef "Ping", mainRef "Ping", .refl,
    .tail (.single (@hstep "Ping" "Pong" "app" rfl)) (@hstep "Pong" "Ping" "app" rfl), rfl⟩
  refine ⟨hfiles, hsteps, hfixed, ⟨bound, fun fuel hle => (hrun fuel hle).trans hstuff⟩,
    ⟨bound', name, fun fuel hle => (hrun' fuel hle).trans hping⟩, hbuild, ?_⟩
  exact hprogram defaultFuel renamedProgram hbuild hproject (by decide) [] (by simp)

end Accord
