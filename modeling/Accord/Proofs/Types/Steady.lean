import Accord.Proofs.Types.Orderly

/-!
# Questions about types are steady

Two tables with the same definitions may hold different instances.  Naming a
type, following its aliases and listing its alternatives have the same outcome in both:
each of these questions is steady under `TypeTable.Twins`.

Along the way a property of types is carried from a type to those that a question leads
to.  `TypeTable.Hereditary` lists what the property has to satisfy.
-/

namespace Accord

open Query

variable {ref : TypeRef} {names : List String} {package : String}
  {declared left right found : TypeDef} {type : TypeExpr}

/-- Two tables with the definitions of a third. -/
def TypeTable.Twins (base left right : TypeTable) : Prop :=
  base.Variant left ∧ base.Variant right

/-- A property that passes from a type to the alternatives written in it, and from a
reference to what its definition is made of. -/
structure TypeTable.Hereditary (base : TypeTable) (good : TypeExpr → Prop) : Prop where
  plain : ∀ {type}, good type → type.plain = true
  alternatives : ∀ {alternatives}, good (.union alternatives) →
    ∀ alternative ∈ alternatives, good alternative
  components : ∀ {ref package declared}, good ref.toType → ref.arguments = [] →
    base.declaration? ref = some (package, declared) →
    ∀ component ∈ declared.body.components, good component

section Variant

variable {base table grown : TypeTable}

/-- On variants of a table a steady query answers what it answers on the table itself. -/
theorem Query.Steady.guards {α : Type} {good : α → Prop} {query : TypeQuery α}
    (h : Steady base.Twins good query) (hbase : base.Variant base) :
    Guards base.Variant (fun a => good a ∧ ∃ after, query base = .ok a after) (fun _ => True)
      query := by
  intro s hs
  have hsame := h s base ⟨hs, hbase⟩
  generalize query s = left, query base = right at hsame ⊢
  cases hsame with
  | ok hab hst => exact .ok ⟨hst.1, hab.2, _, by rw [hab.1]⟩
  | error hst => exact .error ⟨hst.1, trivial⟩

/-- A look-up leads from one variant to another. -/
theorem TypeTable.Variant.located (h : base.Variant table) {answer : String × TypeDef}
    (href : ref.plain) (hlength : names.length = ref.arguments.length)
    (hnames : ∀ name ∈ names, ArgumentText name)
    (hlocate : locateNamed ref names table = .ok answer grown) : base.Variant grown := by
  have hover := locateNamed_keeps ref names table h.toOver
  rw [after_of_ok hlocate] at hover
  exact ⟨hover, .located h.reached href hlength hnames hlocate, h.plain.of_over
    ⟨hover.project.trans h.project.symm, hover.stored.trans h.stored.symm⟩⟩

theorem TypeTable.mem_stored_of_declaration (h : base.declaration? ref = some (package, declared)) :
    (typeKey package ref.name ref.arguments.length, declared) ∈ base.stored :=
  mem_of_lookup (lookup_of_declaration h).2

/-- References of one name and number of type arguments that are found in one package refer
to one definition. -/
theorem TypeTable.declaration_unique {left right : TypeRef} {declared' : TypeDef}
    (hleft : base.declaration? left = some (package, declared))
    (hright : base.declaration? right = some (package, declared'))
    (hname : left.name = right.name) (hlength : left.arguments.length = right.arguments.length) :
    declared = declared' := by
  have hlookup := (lookup_of_declaration hleft).2
  rw [hname, hlength, (lookup_of_declaration hright).2] at hlookup
  cases hlookup
  rfl

theorem TypeTable.Stable.hereditary (h : base.Stable) :
    base.Hereditary (fun type => type.plain) where
  plain := id
  alternatives := TypeExpr.plainAll_iff.1
  components := by
    intro ref package declared _ _ hdeclared component hmem
    have hplain := h.definitions _ (mem_stored_of_declaration hdeclared)
    simp only [TypeDef.plain, Bool.and_eq_true, List.all_eq_true] at hplain
    exact hplain.2 component hmem

end Variant

variable {base : TypeTable}

/-- What is steady leaves a variant of the table behind, also when it fails. -/
theorem keeps_of_steady {α : Type} {good : α → Prop} {query : TypeQuery α}
    (h : Steady base.Twins good query) : Keeps base.Variant query := by
  intro s hs
  have hboth := h s s ⟨hs, hs⟩
  rw [after]
  cases hrun : query s with
  | ok a t =>
    rw [hrun] at hboth
    cases hboth with
    | ok _ htwins => exact htwins.1
  | error e t =>
    rw [hrun] at hboth
    cases hboth with
    | error htwins => exact htwins.1

/-! ## Names -/

/-- The answer to a look-up of a reference: its package, and a definition found for what is
declared there. -/
def TypeTable.Located (base : TypeTable) (ref : TypeRef) (answer : String × TypeDef) : Prop :=
  isPlainName answer.1 = true ∧ ∃ declared,
    base.declaration? ref = some (answer.1, declared) ∧ FoundFor ref declared answer.2

theorem locateNamed_agree (hplain : ref.plain)
    (hlength : names.length = ref.arguments.length) (hnames : ∀ name ∈ names, ArgumentText name) :
    Agree base.Twins (fun left right => base.Located ref left ∧ base.Located ref right)
      (locateNamed ref names) (locateNamed ref names) := by
  rintro left right ⟨hleft, hright⟩
  cases hdeclared : base.declaration? ref with
  | none =>
    have hl := locateNamed_of_none hleft.orderly hplain hlength hnames
      ((hleft.declaration?_eq ref).trans hdeclared)
    have hr := locateNamed_of_none hright.orderly hplain hlength hnames
      ((hright.declaration?_eq ref).trans hdeclared)
    rw [hl, hr]
    exact .error ⟨hleft, hright⟩
  | some declaration =>
    obtain ⟨package, declared⟩ := declaration
    obtain ⟨hpackage, found, grown, hl, _, hfound⟩ :=
      locateNamed_of_declaration hleft.orderly hplain hlength hnames
        ((hleft.declaration?_eq ref).trans hdeclared)
    obtain ⟨_, found', grown', hr, _, hfound'⟩ :=
      locateNamed_of_declaration hright.orderly hplain hlength hnames
        ((hright.declaration?_eq ref).trans hdeclared)
    rw [hl, hr]
    exact .ok ⟨⟨hpackage, declared, hdeclared, hfound⟩, ⟨hpackage, declared, hdeclared, hfound'⟩⟩
      ⟨hleft.located hplain hlength hnames hl, hright.located hplain hlength hnames hr⟩

/-- Two answers to one look-up name the same package. -/
theorem TypeTable.Located.package_eq {left right : String × TypeDef}
    (hleft : base.Located ref left) (hright : base.Located ref right) : left.1 = right.1 := by
  obtain ⟨_, declared, hl, _⟩ := hleft
  obtain ⟨_, declared', hr, _⟩ := hright
  have hsame : (left.1, declared) = (right.1, declared') := Option.some.inj (hl.symm.trans hr)
  exact (Prod.mk.inj hsame).1

/-- The name of a reference is spelled by its package and the names of its arguments. -/
theorem canonicalName_toType (ref : TypeRef) :
    canonicalName ref.toType =
      locate ref >>= fun located => canonicalNames ref.arguments >>= fun names =>
        pure (located.1 ++ "::" ++ ref.name ++ argumentSuffix names) := by
  rw [TypeRef.toType, canonicalName, locate, bind_assoc]

mutual

theorem canonicalName_steady : (type : TypeExpr) → type.plain →
    Steady base.Twins ArgumentText (canonicalName type)
  | .primitive _, h | .param _, h => Steady.pure (argumentText_of_plain h)
  | .pointer target, h =>
    (canonicalName_steady target h).bind fun _ hname => Steady.pure (argumentText_pointer hname)
  | .slice element, h =>
    (canonicalName_steady element h).bind fun _ hname => Steady.pure (argumentText_slice hname)
  | .array length element, h =>
    (canonicalName_steady element h).bind fun _ hname =>
      Steady.pure (argumentText_array length.toNat hname)
  | .union alternatives, h =>
    (canonicalNames_steady alternatives h).bind fun _ hnames =>
      Steady.pure (argumentText_union hnames.2)
  | .named name qualifier arguments origin, h => by
    have hplain : (⟨name, qualifier, arguments, origin⟩ : TypeRef).plain := h
    have harguments := (TypeRef.plain_iff.1 hplain).2.2
    unfold canonicalName
    refine (canonicalNames_steady arguments harguments).bind fun names hnames => ?_
    refine Agree.bind (locateNamed_agree hplain hnames.1 hnames.2) fun left right hboth => ?_
    obtain ⟨hleft, hright⟩ := hboth
    have hpackage := hleft.package_eq hright
    refine (canonicalNames_steady arguments harguments).bindAgree fun names' hnames' => ?_
    rw [hpackage]
    exact Steady.pure (argumentText_instance hright.1 (TypeRef.plain_iff.1 hplain).1 hnames'.2)

theorem canonicalNames_steady : (types : List TypeExpr) → TypeExpr.plainAll types →
    Steady base.Twins
      (fun names => names.length = types.length ∧ ∀ name ∈ names, ArgumentText name)
      (canonicalNames types)
  | [], _ => Steady.pure ⟨rfl, by simp⟩
  | type :: rest, h => by
    rw [TypeExpr.plainAll, Bool.and_eq_true] at h
    unfold canonicalNames
    refine (canonicalName_steady type h.1).bind fun name hname => ?_
    refine (canonicalNames_steady rest h.2).bind fun names hnames => ?_
    exact Steady.pure ⟨by simp [hnames.1], List.forall_mem_cons.2 ⟨hname, hnames.2⟩⟩

end

theorem locate_agree (hplain : ref.plain) :
    Agree base.Twins (fun left right => base.Located ref left ∧ base.Located ref right)
      (locate ref) (locate ref) :=
  (canonicalNames_steady ref.arguments (TypeRef.plain_iff.1 hplain).2.2).bindAgree
    fun _ hnames => locateNamed_agree hplain hnames.1 hnames.2

/-- A definition found for a reference. -/
def TypeTable.Retrieved (base : TypeTable) (ref : TypeRef) (found : TypeDef) : Prop :=
  ∃ package declared, base.declaration? ref = some (package, declared) ∧
    FoundFor ref declared found

theorem retrieve_agree (hplain : ref.plain) :
    Agree base.Twins (fun left right => base.Retrieved ref left ∧ base.Retrieved ref right)
      (retrieve ref) (retrieve ref) := by
  refine Agree.bind (locate_agree hplain) fun left right hboth => Agree.pure ?_
  obtain ⟨⟨_, declared, hl, hfound⟩, ⟨_, declared', hr, hfound'⟩⟩ := hboth
  exact ⟨⟨_, declared, hl, hfound⟩, ⟨_, declared', hr, hfound'⟩⟩

/-- Two definitions found for one reference are the same, or both are records. -/
theorem TypeTable.Retrieved.eq_or_record (hleft : base.Retrieved ref left)
    (hright : base.Retrieved ref right) :
    (ref.arguments = [] ∧ left = right ∧
        ∃ package, base.declaration? ref = some (package, left)) ∨
      (left.body.isRecord ∧ right.body.isRecord) := by
  obtain ⟨package, declared, hl, hfound⟩ := hleft
  obtain ⟨package', declared', hr, hfound'⟩ := hright
  rw [hl] at hr
  cases hr
  rcases hfound with ⟨harguments, rfl⟩ | ⟨harguments, _, hrecord⟩
  · rcases hfound' with ⟨_, rfl⟩ | ⟨hne, _⟩
    · exact Or.inl ⟨harguments, rfl, package, hl⟩
    · exact absurd harguments hne
  · rcases hfound' with ⟨hnil, _⟩ | ⟨_, _, hrecord'⟩
    · exact absurd hnil harguments
    · exact Or.inr ⟨hrecord, hrecord'⟩

theorem TypeTable.Retrieved.of_run (hplain : ref.plain) {table after : TypeTable}
    (htable : base.Variant table) (hrun : retrieve ref table = .ok found after) :
    base.Retrieved ref found ∧ base.Variant after := by
  obtain ⟨_, _, _, hfound, htwins⟩ := (retrieve_agree hplain).ok_right ⟨htable, htable⟩ hrun
  exact ⟨hfound.1, htwins.1⟩

/-- What is found for a reference is its declaration, or a record. -/
theorem TypeTable.Retrieved.declared_or_record (h : base.Retrieved ref found) :
    (ref.arguments = [] ∧ ∃ package, base.declaration? ref = some (package, found)) ∨
      found.body.isRecord := by
  rcases h.eq_or_record h with ⟨hnil, _, hdeclared⟩ | ⟨hrecord, _⟩
  · exact Or.inl ⟨hnil, hdeclared⟩
  · exact Or.inr hrecord

/-! ## Aliases and alternatives -/

section Hereditary

variable {good : TypeExpr → Prop}

/-- Two definitions found for one good reference have the same kind of body. -/
theorem TypeTable.Retrieved.sameBody (hgood : base.Hereditary good) (h : good ref.toType)
    (hleft : base.Retrieved ref left) (hright : base.Retrieved ref right) :
    SameBody (fun one other => one = other ∧ good one) left right := by
  rcases hleft.eq_or_record hright with ⟨hnil, rfl, package, hdeclared⟩ | ⟨hrecord, hrecord'⟩
  · exact .refl (hgood.components h hnil hdeclared)
  · have hfields : ∀ {definition : TypeDef}, definition.body.isRecord →
        ∃ fields, definition.body = .record fields := by
      intro definition hdefinition
      cases hbody : definition.body with
      | record fields => exact ⟨fields, rfl⟩
      | _ => simp [hbody, TypeBody.isRecord] at hdefinition
    obtain ⟨fields, hbody⟩ := hfields hrecord
    obtain ⟨fields', hbody'⟩ := hfields hrecord'
    exact .record hbody hbody'

/-- The comparison of questions on related types in two tables with the same definitions. -/
def acrossTwins (base : TypeTable) (related : TypeExpr → TypeExpr → Prop)
    (head : ∀ {left right}, related left right → SameHead related left right)
    (name : ∀ {left right}, related left right →
      Agree base.Twins Eq (canonicalName left) (canonicalName right))
    (locate : ∀ {left right : TypeRef}, related left.toType right.toType →
      Agree base.Twins (SameFound related) (locate left) (locate right)) : TypeParallel where
  holds same left right := Agree base.Twins same left right
  related := related
  fuels := Eq
  pure h := Agree.pure h
  throw _ _ := Agree.throw _
  bind h hrest := Agree.bind h hrest
  exhausted h hright := by
    rw [hright h.symm]
    exact Agree.throw _
  fuels_succ := exists_succ_of_eq
  head := head
  name := name
  locate := locate

/-- The comparison of one question with itself, on good types in two tables with the same
definitions. -/
def steadily (hgood : base.Hereditary good) : TypeParallel :=
  acrossTwins base (fun left right => left = right ∧ good left)
    (by
      rintro left _ ⟨rfl, h⟩
      cases left with
      | named name qualifier arguments origin =>
        let ref : TypeRef := ⟨name, qualifier, arguments, origin⟩
        exact .ref ref ref
      | union alternatives => exact .union (forall₂_eq_and.2 ⟨rfl, hgood.alternatives h⟩)
      | _ => exact .other rfl rfl (by simp) (by simp))
    (by
      rintro left _ ⟨rfl, h⟩
      exact Agree.mono (canonicalName_steady left (hgood.plain h)) fun _ _ hsame => hsame.1)
    (by
      rintro left right ⟨hsame, h⟩
      obtain rfl := TypeRef.toType_inj hsame
      refine Agree.mono (locate_agree (hgood.plain h)) fun found found' hfound => ?_
      have hpackage := hfound.1.package_eq hfound.2
      obtain ⟨⟨_, declared, hl, hleft⟩, ⟨_, declared', hr, hright⟩⟩ := hfound
      exact ⟨hpackage,
        TypeTable.Retrieved.sameBody hgood h ⟨_, declared, hl, hleft⟩ ⟨_, declared', hr, hright⟩⟩)

section

variable (hgood : base.Hereditary good)

include hgood

theorem unaliasFrom_steady (fuel : Nat) (seen : List String)
    (h : good type) : Steady base.Twins good (unaliasFrom fuel seen type) :=
  unaliasFrom_parallel (steadily hgood) rfl seen ⟨rfl, h⟩

theorem unalias_steady (fuel : Nat) (h : good type) : Steady base.Twins good (unalias fuel type) :=
  unaliasFrom_steady hgood fuel [] h

theorem directAlternativesOf_steady {bare : TypeExpr} (hbare : good bare) :
    Steady base.Twins (fun direct => ∀ types, direct = some types → ∀ t ∈ types, good t)
      (directAlternativesOf bare) := by
  have hparallel := directAlternativesOf_parallel (steadily hgood) ⟨rfl, hbare⟩
  refine Agree.mono hparallel fun direct direct' hdirect => ?_
  cases hdirect with
  | none => simp
  | some hsame => simpa using forall₂_eq_and.1 hsame

theorem directAlternatives_steady (fuel : Nat) (h : good type) :
    Steady base.Twins (fun direct => ∀ types, direct = some types → ∀ t ∈ types, good t)
      (directAlternatives fuel type) := by
  rw [directAlternatives_eq]
  exact (unalias_steady hgood fuel h).bind fun _ hbare => directAlternativesOf_steady hgood hbare

theorem gatherAll_steady (fuel : Nat) (path : List String)
    {types : List TypeExpr} {gathered : Gathered} (htypes : ∀ t ∈ types, good t)
    (hgathered : ∀ t ∈ gathered.types, good t) :
    Steady base.Twins (fun result => ∀ t ∈ result.types, good t)
      (types.foldlM (gatherOne fuel path) gathered) := by
  have hfuel : (steadily hgood).fuels fuel fuel := rfl
  have hparallel := gatherAll_parallel (steadily hgood) hfuel path
    (forall₂_eq_and.2 ⟨rfl, htypes⟩) ⟨forall₂_eq_and.2 ⟨rfl, hgathered⟩, rfl⟩
  refine Agree.mono hparallel fun result result' hresult => ?_
  obtain ⟨hsame, hgood⟩ := forall₂_eq_and.1 hresult.types
  have hnames := hresult.names
  cases result
  cases result'
  cases hsame
  cases hnames
  exact ⟨rfl, hgood⟩

theorem alternatives_steady (fuel : Nat) (h : good type) :
    Steady base.Twins (fun types => ∀ t ∈ types, good t) (alternatives fuel type) :=
  Agree.mono (alternatives_parallel (steadily hgood) rfl ⟨rfl, h⟩)
    fun _ _ hsame => forall₂_eq_and.1 hsame

end

end Hereditary

end Accord
