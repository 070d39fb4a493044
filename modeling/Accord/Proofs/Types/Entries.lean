import Accord.Proofs.Types.Spelling

/-!
# Where instances come from

Questions about types enter instances of generic definitions, deep inside: naming a type
looks its references up, following an alias names it, and a definition that is found leads to
further types.  Every instance that is entered on the way was asked for by some reference,
and stands under the key that the canonical names of its type arguments spell.

* `TypeTable.Entry` is what such an instance is, and `TypeTable.GrownBy` the tables that
  have grown by nothing else.
* `TypeTable.Confines` says of a kind of types that questions do not lead out of it.
* `canonicalName_spells` says what naming a type of the kind answers, and when it is refused;
  `locate_answer` says it of look-ups.
* `TypeQuestion.ask_grows` says that questions about types of the kind enter instances for
  references of the kind only.
-/

namespace Accord

open Query TypeTable TypeRef

variable {base table : TypeTable} {names : List String} {package : String}
  {generic found : TypeDef} {ref : TypeRef}

/-! ## Instances -/

theorem TypeBody.opened_substitute (rules : Substitution) (body : TypeBody) :
    (body.substitute rules).opened = body.opened.map (·.substitute rules) := by
  cases body with
  | record fields => rfl
  | union alternatives => exact TypeExpr.substituteAll_eq_map rules alternatives
  | «alias» target => rfl

theorem TypeBody.substitute_nil (body : TypeBody) : body.substitute [] = body := by
  cases body with
  | record fields => simp [TypeBody.substitute, TypeExpr.substitute_nil]
  | union alternatives =>
    simp [TypeBody.substitute, TypeExpr.substituteAll_eq_map, TypeExpr.substitute_nil]
  | «alias» target => rw [TypeBody.substitute, TypeExpr.substitute_nil]

/-- An instance that a reference of the kind asks for, under the key that the canonical names
of the type arguments spell. -/
inductive TypeTable.Entry (base : TypeTable) (good : TypeExpr → Prop) :
    String × TypeDef → Prop where
  | intro {ref : TypeRef} {package : String} {generic : TypeDef} {names : List String}
      (kind : good ref.toType) (arguments : ref.arguments ≠ [])
      (declared : base.declaration? ref = some (package, generic))
      (spelled : base.SpellsAll ref.arguments names) :
      Entry base good (package ++ "::" ++ ref.name ++ argumentSuffix names,
        generic.instantiate (.ofLists generic.generics ref.arguments))

/-- A table that has grown from another by instances that references of the kind asked for. -/
structure TypeTable.GrownBy (base : TypeTable) (good : TypeExpr → Prop) (table : TypeTable) :
    Prop extends base.SpelledOver table where
  entries : ∀ entry ∈ table.instances, entry ∈ base.instances ∨ base.Entry good entry

/-- Plain tables that have grown from another by instances. -/
abbrev TypeTable.PlainlyGrown (base : TypeTable) : TypeTable → Prop :=
  base.GrownBy fun type => type.plain = true

theorem TypeTable.Spelled.grownBy (h : base.Spelled) (good : TypeExpr → Prop) :
    base.GrownBy good base :=
  ⟨⟨.refl base, h⟩, fun _ hentry => .inl hentry⟩

/-- Questions about types of the kind lead to types of the kind only. -/
structure TypeTable.Confines (base : TypeTable) (good : TypeExpr → Prop) : Prop
    extends Inherited good where
  plain {type : TypeExpr} : good type → type.plain = true
  declared {ref : TypeRef} {package : String} {generic : TypeDef} : good ref.toType →
    base.declaration? ref = some (package, generic) →
      ∀ part ∈ (generic.instantiate (.ofLists generic.generics ref.arguments)).body.opened,
        good part
  instances : ∀ entry ∈ base.instances, ∀ part ∈ entry.2.body.opened, good part

/-- Questions about types with plain names lead to types with plain names only. -/
theorem TypeTable.Spelled.confines (h : base.Spelled) :
    base.Confines fun type => type.plain where
  toInherited := inherited_plain
  plain := id
  declared {ref package generic} href hdeclared part hpart := by
    have hbody := h.plainBody ⟨_, .inl (mem_stored_of_declaration hdeclared)⟩
    exact hbody.instance href part (TypeBody.opened_subset _ hpart)
  instances entry hentry part hpart :=
    h.instanceBodies entry hentry part (TypeBody.opened_subset _ hpart)

/-! ## Looking up -/

section Growth

variable {good : TypeExpr → Prop} {answer : String × TypeDef}

/-- What a look-up answers: the package that declares the reference, and the declared
definition or the instance under the key of the reference. -/
structure TypeTable.AnswerTo (base : TypeTable) (ref : TypeRef) (names : List String)
    (answer : String × TypeDef) (table : TypeTable) : Prop where
  package : isPlainName answer.1 = true
  declared : ∃ generic, base.declaration? ref = some (answer.1, generic) ∧
    (ref.arguments = [] → answer.2 = generic)
  entered : ref.arguments ≠ [] →
    (answer.1 ++ "::" ++ ref.name ++ argumentSuffix names, answer.2) ∈ table.instances

theorem TypeTable.AnswerTo.home (h : base.AnswerTo ref names answer table) :
    base.home? ref = some answer.1 := by
  obtain ⟨generic, hdeclared, _⟩ := h.declared
  rw [home?, hdeclared]
  rfl

theorem TypeTable.AnswerTo.spelling (h : base.AnswerTo ref names answer table)
    (hnames : base.SpellsAll ref.arguments names) : base.spelling? ref.toType =
      some (answer.1 ++ "::" ++ ref.name ++ argumentSuffix names) := by
  rw [TypeRef.toType, spelling?, hnames.spellings, Option.bind_some, h.home]
  rfl

theorem TypeTable.AnswerTo.opened (h : base.AnswerTo ref names answer table)
    (hgood : base.Confines good) (htable : base.GrownBy good table) (href : good ref.toType) :
    ∀ part ∈ answer.2.body.opened, good part := by
  by_cases harguments : ref.arguments = []
  · obtain ⟨generic, hdeclared, heq⟩ := h.declared
    have hopened := hgood.declared href hdeclared
    rw [harguments, Substitution.ofLists, List.zip_nil_right, TypeDef.instantiate,
      TypeBody.substitute_nil] at hopened
    rw [heq harguments]
    exact hopened
  · have hentry := htable.entries _ (h.entered harguments)
    generalize (answer.1 ++ "::" ++ ref.name ++ argumentSuffix names) = key at hentry
    rcases hentry with hold | hnew
    · exact hgood.instances (key, answer.2) hold
    · generalize hpair : (key, answer.2) = entry at hnew
      cases hnew with
      | intro hother _ hdeclared _ =>
        rw [congrArg Prod.snd hpair]
        exact hgood.declared hother hdeclared

theorem locateNamed_answer (hgood : base.Confines good) (href : good ref.toType)
    (hnames : base.SpellsAll ref.arguments names) (htable : base.GrownBy good table) :
    Ends (fun answer t => base.GrownBy good t ∧ base.AnswerTo ref names answer t)
      (fun cause t => base.GrownBy good t ∧ base.home? ref = none ∧ cause = ref.unknown)
      (locateNamed ref names table) := by
  have hplain : ref.plain := hgood.plain href
  have hcases := htable.spelled.toKeyed.locateNamed_cases hnames.length hplain hnames.texts
  rw [htable.declaration?_eq] at hcases
  cases hdeclared : base.declaration? ref with
  | none =>
    rw [hdeclared] at hcases
    rw [hcases]
    exact .error ⟨htable, by rw [home?, hdeclared]; rfl, rfl⟩
  | some declaration =>
    obtain ⟨package, generic⟩ := declaration
    rw [hdeclared] at hcases
    obtain ⟨hpackage, found, grown, hlocate, hfound⟩ := hcases
    have hlookup := (lookup_of_declaration hdeclared).2
    rw [← htable.stored] at hlookup
    have hspelled := htable.spelled.of_found hplain hnames.length hnames.texts hpackage hlookup hfound
    have hfind := hfound.find? hnames.length htable.spelled.toKeyed hplain hpackage hlookup
    rw [hlocate]
    refine .ok ⟨?_, hpackage, ⟨generic, hdeclared, fun hnil => ?_⟩, fun harguments => ?_⟩
    · cases hfound with
      | made harguments =>
        exact ⟨⟨⟨htable.project, htable.stored⟩, hspelled⟩, List.forall_mem_cons.2
          ⟨.inr (.intro href harguments hdeclared hnames), htable.entries⟩⟩
      | _ => exact htable
    · cases hfound with
      | stored => rfl
      | _ => contradiction
    · exact (hspelled.find_instanceKey hpackage (plain_iff.1 hplain).1
        (names_ne_nil hnames.length harguments) hnames.texts hfind).2

end Growth

/-! ## Naming -/

section Questions

variable {good : TypeExpr → Prop}

/-- Without names for its type arguments, a reference has no name. -/
theorem TypeTable.spelling?_of_unnamed (h : base.spellings? ref.arguments = none) :
    base.spelling? ref.toType = none := by
  rw [toType, spelling?, h]
  rfl

/-- A reference that is declared nowhere has no name. -/
theorem TypeTable.spelling?_of_homeless (h : base.home? ref = none) :
    base.spelling? ref.toType = none := by
  rw [toType, spelling?, h]
  cases base.spellings? ref.arguments <;> rfl

theorem locateNamed_home (hgood : base.Confines good) (href : good ref.toType)
    (hnames : base.SpellsAll ref.arguments names) :
    Guards (base.GrownBy good)
      (fun answer => base.home? ref = some answer.1 ∧ isPlainName answer.1)
      (fun cause => base.home? ref = none ∧ cause = ref.unknown) (locateNamed ref names) :=
  fun _ htable => (locateNamed_answer hgood href hnames htable).mono
    (fun _ _ h => ⟨h.1, h.2.home, h.2.package⟩) fun _ _ h => h

mutual

/-- What is reported of a type: the first reference inside that is declared nowhere.  Type
arguments come before the reference that has them. -/
def TypeTable.unknown? (base : TypeTable) : TypeExpr → Option Diagnostic
  | .primitive _ => none
  | .param _ => none
  | .pointer target => base.unknown? target
  | .slice element => base.unknown? element
  | .array _ element => base.unknown? element
  | .union alternatives => base.unknowns? alternatives
  | .named name qualifier arguments origin =>
    let ref : TypeRef := ⟨name, qualifier, arguments, origin⟩
    (base.unknowns? arguments).or (if (base.home? ref).isNone then some ref.unknown else none)

/-- What is reported of several types: the first that is reported of one of them. -/
def TypeTable.unknowns? (base : TypeTable) : List TypeExpr → Option Diagnostic
  | [] => none
  | type :: rest => (base.unknown? type).or (base.unknowns? rest)

end

theorem TypeTable.unknown?_ref (h : base.unknowns? ref.arguments = none) :
    base.unknown? ref.toType = if (base.home? ref).isNone then some ref.unknown else none := by
  rw [toType, unknown?, h]
  rfl

/-- The query answers the canonical name of the type, or reports the first reference inside that is
unknown. -/
abbrev TypeTable.Announces (base : TypeTable) (good : TypeExpr → Prop) (type : TypeExpr)
    (query : TypeQuery String) : Prop :=
  Guards (base.GrownBy good) (fun name => base.Spells type name ∧ base.unknown? type = none)
    (fun cause => base.spelling? type = none ∧ base.unknown? type = some cause) query

/-- A type is named if what it is written around is. -/
theorem named_around {part whole : TypeExpr} {around : String → String}
    (hspelling : base.spelling? whole = (base.spelling? part).map around)
    (hunknown : base.unknown? whole = base.unknown? part)
    (htext : ∀ {name}, ArgumentText name → ArgumentText (around name))
    (h : base.Announces good part (canonicalName part)) :
    base.Announces good whole (canonicalName part >>= fun name => pure (around name)) := by
  rw [Announces, hspelling, hunknown]
  refine (h.relax fun _ hnone => ⟨by rw [hnone.1]; rfl, hnone.2⟩).bind fun name hname =>
    Guards.pure ⟨⟨htext hname.1.text, ?_⟩, hname.2⟩
  rw [hspelling, hname.1.spelling]
  rfl

mutual

/-- Naming a type of the kind answers its canonical name, and is refused only if it has none,
for the first reference inside that is unknown. -/
theorem canonicalName_exact (hgood : base.Confines good) : (type : TypeExpr) → good type →
    base.Announces good type (canonicalName type)
  | .primitive _, h | .param _, h => Guards.pure ⟨⟨argumentText_of_plain (hgood.plain h), rfl⟩, rfl⟩
  | .pointer target, h =>
    named_around rfl rfl argumentText_pointer (canonicalName_exact hgood target (hgood.target h))
  | .slice element, h =>
    named_around rfl rfl argumentText_slice (canonicalName_exact hgood element (hgood.element h))
  | .array length element, h =>
    named_around rfl rfl (argumentText_array length.toNat)
      (canonicalName_exact hgood element (hgood.held h))
  | .union alternatives, h => by
    have halternatives := canonicalNames_exact hgood alternatives (hgood.alternatives h)
    refine (halternatives.relax fun _ hnone => ⟨?_, hnone.2⟩).bind fun names hnames =>
      Guards.pure ⟨⟨argumentText_union hnames.1.texts, ?_⟩, hnames.2⟩
    · rw [spelling?, hnames.1.spellings]
      rfl
    · rw [spelling?, hnone.1]
      rfl
  | .named name qualifier arguments origin, h => by
    let ref : TypeRef := ⟨name, qualifier, arguments, origin⟩
    have href : good ref.toType := h
    have harguments := (canonicalNames_exact hgood arguments (hgood.arguments href)).relax
      fun cause hnone => show base.spelling? ref.toType = none ∧
        base.unknown? ref.toType = some cause from
          ⟨spelling?_of_unnamed hnone.1, by rw [toType, unknown?, hnone.2]; rfl⟩
    unfold canonicalName
    refine harguments.bind fun names hnames => ?_
    obtain ⟨hnames, hknown⟩ := hnames
    have hunknown : base.unknown? ref.toType = _ := unknown?_ref hknown
    refine ((locateNamed_home hgood href hnames).relax fun cause hnone => ?_).bind ?_
    · refine ⟨spelling?_of_homeless hnone.1, hunknown.trans ?_⟩
      rw [hnone.1, hnone.2]
      rfl
    rintro ⟨package, _⟩ ⟨hhome, hpackage⟩
    refine harguments.bind fun names hnames => Guards.pure ⟨⟨?_, ?_⟩, ?_⟩
    · exact argumentText_instance hpackage (plain_iff.1 (hgood.plain href)).1 hnames.1.texts
    · rw [spelling?, hnames.1.spellings, Option.bind_some, hhome]
      rfl
    · refine hunknown.trans ?_
      rw [hhome]
      rfl

theorem canonicalNames_exact (hgood : base.Confines good) : (types : List TypeExpr) →
    (∀ type ∈ types, good type) →
    Guards (base.GrownBy good)
      (fun names => base.SpellsAll types names ∧ base.unknowns? types = none)
      (fun cause => base.spellings? types = none ∧ base.unknowns? types = some cause)
      (canonicalNames types)
  | [], _ => Guards.pure ⟨⟨rfl, by simp, rfl⟩, rfl⟩
  | type :: rest, h => by
    obtain ⟨htype, hrest⟩ := List.forall_mem_cons.1 h
    unfold canonicalNames
    refine ((canonicalName_exact hgood type htype).relax fun _ hnone => ?_).bind
      fun name hname => ?_
    · rw [spellings?, unknowns?, hnone.1, hnone.2]
      exact ⟨rfl, rfl⟩
    obtain ⟨hname, hknown⟩ := hname
    refine ((canonicalNames_exact hgood rest hrest).relax fun _ hnone => ?_).bind
      fun names hnames => Guards.pure ⟨⟨by simp [hnames.1.length], ?_, ?_⟩, ?_⟩
    · rw [spellings?, unknowns?, hname.spelling, hknown, Option.bind_some, hnone.1, hnone.2]
      exact ⟨rfl, rfl⟩
    · exact List.forall_mem_cons.2 ⟨hname.text, hnames.1.texts⟩
    · rw [spellings?, hname.spelling, Option.bind_some, hnames.1.spellings]
      rfl
    · rw [unknowns?, hknown, hnames.2]
      rfl

end

section

variable (hgood : base.Confines good)

include hgood

theorem canonicalName_spells (type : TypeExpr) (h : good type) :
    Guards (base.GrownBy good) (base.Spells type) (fun _ => base.spelling? type = none)
      (canonicalName type) :=
  ((canonicalName_exact hgood type h).mono fun _ hname => hname.1).relax fun _ hnone => hnone.1

theorem canonicalNames_spells (types : List TypeExpr) (h : ∀ type ∈ types, good type) :
    Guards (base.GrownBy good) (base.SpellsAll types) (fun _ => base.spellings? types = none)
      (canonicalNames types) :=
  ((canonicalNames_exact hgood types h).mono fun _ hnames => hnames.1).relax
    fun _ hnone => hnone.1

/-- Types of the kind are named by their canonical names. -/
theorem answer_canonicalName (htable : base.GrownBy good table) (h : good type) {name : String} :
    (canonicalName type).answer table = .ok name ↔ base.spelling? type = some name :=
  ((canonicalName_spells hgood type h).mono fun _ hname => hname.spelling).answer_iff htable

theorem answer_canonicalNames (htable : base.GrownBy good table)
    {types : List TypeExpr} (h : ∀ type ∈ types, good type) :
    (canonicalNames types).answer table = .ok names ↔ base.spellings? types = some names :=
  ((canonicalNames_spells hgood types h).mono fun _ hnames => hnames.spellings).answer_iff htable

/-- A look-up of a reference of the kind answers what is declared, and is refused only if the
reference has no canonical name. -/
theorem locate_answer (href : good ref.toType) (htable : base.GrownBy good table) :
    Ends (fun answer t => base.GrownBy good t ∧
        ∃ names, base.SpellsAll ref.arguments names ∧ base.AnswerTo ref names answer t)
      (fun _ t => base.GrownBy good t ∧ base.spelling? ref.toType = none) (locate ref table) := by
  have harguments := (canonicalNames_spells hgood _ (hgood.arguments href)).relax
    fun _ => spelling?_of_unnamed
  refine (harguments table htable).bind fun names t h => ?_
  obtain ⟨ht, hnames⟩ := h
  exact (locateNamed_answer hgood href hnames ht).mono
    (fun _ _ hanswer => ⟨hanswer.1, names, hnames, hanswer.2⟩)
    fun _ _ hnone => ⟨hnone.1, spelling?_of_homeless hnone.2.1⟩

end

/-! ## Aliases, alternatives and walks through a type -/

/-- Questions about types of the kind, each compared with itself: the table grows by
instances for references of the kind, and the answers are of the kind. -/
def TypeTable.Confines.growth (hgood : base.Confines good) : TypeParallel :=
  @TypeParallel.within (base.GrownBy good) (fun _ => True) good (fun _ => trivial)
    hgood.toInherited
    (fun h => ((canonicalName_spells hgood _ h).mono fun _ _ => trivial).relax
      fun _ _ => trivial)
    fun h table htable => by
      refine (locate_answer hgood h htable).mono (fun answer t hanswer => ?_) fun _ _ hnone =>
        ⟨hnone.1, trivial⟩
      obtain ⟨ht, names, _, hanswer⟩ := hanswer
      exact ⟨ht, hanswer.opened hgood ht h⟩

theorem verify_grows (hgood : base.Confines good) (type : TypeExpr) (h : good type) :
    Keeps (base.GrownBy good) (verify type) :=
  (verify_parallel hgood.growth hgood.toInherited.shape type ⟨rfl, h⟩).keeps

end Questions

/-! ## Questions -/

/-- A question about a type. -/
inductive TypeQuestion where
  | locate (ref : TypeRef)
  | retrieve (ref : TypeRef)
  | name (type : TypeExpr)
  | unalias (fuel : Nat) (type : TypeExpr)
  | alternatives (fuel : Nat) (type : TypeExpr)
  | verify (type : TypeExpr)

namespace TypeQuestion

/-- The type that a question is about. -/
def subject : TypeQuestion → TypeExpr
  | .locate ref => ref.toType
  | .retrieve ref => ref.toType
  | .name type => type
  | .unalias _ type => type
  | .alternatives _ type => type
  | .verify type => type

/-- The table after a question, whether it is answered or refused. -/
def ask (table : TypeTable) : TypeQuestion → TypeTable
  | .locate ref => (Accord.locate ref).after table
  | .retrieve ref => (Accord.retrieve ref).after table
  | .name type => (canonicalName type).after table
  | .unalias fuel type => (Accord.unalias fuel type).after table
  | .alternatives fuel type => (Accord.alternatives fuel type).after table
  | .verify type => (Accord.verify type).after table

/-- A question about a type of the kind enters instances for references of the kind only. -/
theorem ask_grows {good : TypeExpr → Prop} (hgood : base.Confines good) {question : TypeQuestion}
    (h : good question.subject) (htable : base.GrownBy good table) :
    base.GrownBy good (question.ask table) := by
  cases question with
  | locate ref => exact (hgood.growth.locate ⟨rfl, h⟩).keeps table htable
  | retrieve ref => exact (retrieve_parallel hgood.growth ⟨rfl, h⟩).keeps table htable
  | name type => exact (canonicalName_spells hgood type h).keeps table htable
  | unalias fuel type => exact (unalias_parallel hgood.growth rfl ⟨rfl, h⟩).keeps table htable
  | alternatives fuel type =>
    exact (alternatives_parallel hgood.growth rfl ⟨rfl, h⟩).keeps table htable
  | verify type => exact verify_grows hgood type h table htable

/-- What survives look-ups survives questions. -/
theorem ask_keeps {inv : TypeTable → Prop} [Lasting inv] (question : TypeQuestion) (h : inv table) :
    inv (question.ask table) := by
  cases question with
  | locate ref => exact locate_keeps ref table h
  | retrieve ref => exact retrieve_keeps ref table h
  | name type => exact canonicalName_keeps type table h
  | unalias fuel type => exact unalias_keeps fuel type table h
  | alternatives fuel type => exact alternatives_keeps fuel type table h
  | verify type => exact verify_keeps type table h

end TypeQuestion

end Accord
