import Accord.Proofs.Text.Words
import Accord.Proofs.Types.Replay

/-!
# Types with parameters among types without

Instances of generic definitions are entered for types with parameters and for types without
alike, and all of them are kept under their canonical names.  If no primitive has the name of a
parameter, the two are told apart by their names: a canonical name has a parameter among its
words exactly if the type has one inside (`canonicalName_guards`).  So an instance that is found
for a type without parameters was made for one, and has no parameters inside
(`TypeTable.Kept`).

* `TypeExpr.Kept` says of a type that its parameters are among given ones, and that no primitive
  has a name that is taken.
* `enclosed_kept` and `enclosed_closed` say that questions about types lead from such types to
  such types, with parameters and without.
-/

namespace Accord

open Query TypeTable TypeExpr TypeRef

variable {types : List TypeExpr} {rules : Substitution} {type : TypeExpr} {ref : TypeRef}

/-! ## Types that keep to parameters -/

namespace TypeExpr

mutual

/-- Whether the parameters in a type are among the given ones, and no primitive has a name
that is taken. -/
def keepsTo (own taken : List String) : TypeExpr → Bool
  | .primitive name => !taken.contains name
  | .param name => own.contains name
  | .named _ _ arguments _ => allKeepTo own taken arguments
  | .pointer target => target.keepsTo own taken
  | .array _ element => element.keepsTo own taken
  | .slice element => element.keepsTo own taken
  | .union alternatives => allKeepTo own taken alternatives

/-- Whether that holds for every type of a list. -/
def allKeepTo (own taken : List String) : List TypeExpr → Bool
  | [] => true
  | type :: rest => type.keepsTo own taken && allKeepTo own taken rest

end

variable {own other taken : List String}

theorem allKeepTo_iff : allKeepTo own taken types ↔ ∀ type ∈ types, type.keepsTo own taken := by
  induction types with
  | nil => simp [allKeepTo]
  | cons type rest ih => simp [allKeepTo, ih]

theorem isGeneric_of_keepsTo_nil (type : TypeExpr) (h : type.keepsTo [] taken) :
    type.isGeneric = false := by
  induction type using induct with
  | step type ih =>
    cases type <;> simp_all [keepsTo, allKeepTo_iff, isGeneric, anyGeneric_eq_false, children]

/-- A type may keep to other parameters if each one of its own is replaced by a type that does,
or is one of the others. -/
theorem keepsTo_substitute (hown : ∀ name ∈ own, (rules.find? name).isSome ∨ name ∈ other)
    (hrules : ∀ entry ∈ rules, entry.2.keepsTo other taken) (type : TypeExpr)
    (h : type.keepsTo own taken) : (type.substitute rules).keepsTo other taken := by
  induction type using induct with
  | step type ih =>
    cases type with
    | param name =>
      rw [substitute]
      cases hfind : rules.find? name with
      | some type => exact hrules _ (mem_of_lookup hfind)
      | none =>
        have hmem : name ∈ own := by simpa [keepsTo] using h
        have hother : name ∈ other := by simpa [hfind] using hown name hmem
        simpa [keepsTo] using hother
    | _ => simp_all [keepsTo, allKeepTo_iff, substitute, substituteAll_eq_map, children]

/-- A type that keeps to some parameters keeps to more. -/
theorem keepsTo_mono (hsub : own ⊆ other) (h : type.keepsTo own taken) :
    type.keepsTo other taken := by
  have hmono : (type.substitute []).keepsTo other taken :=
    keepsTo_substitute (fun name hname => .inr (hsub hname)) (by simp) type h
  rwa [substitute_nil] at hmono

/-- A type without parameters keeps to none. -/
theorem keepsTo_nil_of_closed (type : TypeExpr) (h : type.keepsTo own taken)
    (hclosed : type.isGeneric = false) : type.keepsTo [] taken := by
  induction type using induct with
  | step type ih =>
    cases type <;> simp_all [keepsTo, allKeepTo_iff, isGeneric, anyGeneric_eq_false, children]

/-- Names are plain, parameters are among the given ones, and no primitive has a name that is
taken. -/
structure Kept (own taken : List String) (type : TypeExpr) : Prop where
  plain : type.plain = true
  keeps : type.keepsTo own taken = true

instance (own taken : List String) : DecidablePred (Kept own taken) := fun type =>
  decidable_of_iff (type.plain = true ∧ type.keepsTo own taken = true)
    ⟨fun h => ⟨h.1, h.2⟩, fun h => ⟨h.plain, h.keeps⟩⟩

theorem Kept.mono (h : type.Kept own taken) (hsub : own ⊆ other) : type.Kept other taken :=
  ⟨h.plain, keepsTo_mono hsub h.keeps⟩

theorem Kept.closed (h : type.Kept own taken) (hclosed : type.isGeneric = false) :
    type.Kept [] taken :=
  ⟨h.plain, keepsTo_nil_of_closed type h.keeps hclosed⟩

theorem Kept.isGeneric (h : type.Kept [] taken) : type.isGeneric = false :=
  isGeneric_of_keepsTo_nil type h.keeps

theorem Kept.substitute (h : type.Kept own taken)
    (hown : ∀ name ∈ own, (rules.find? name).isSome ∨ name ∈ other)
    (hrules : ∀ entry ∈ rules, entry.2.Kept other taken) :
    (type.substitute rules).Kept other taken :=
  ⟨plain_substitute (fun entry hentry => (hrules entry hentry).plain) type h.plain,
    keepsTo_substitute hown (fun entry hentry => (hrules entry hentry).keeps) type h.keeps⟩

theorem Kept.of_all (hplain : plainAll types) (hkeeps : allKeepTo own taken types) :
    ∀ type ∈ types, type.Kept own taken :=
  fun type hmem => ⟨plainAll_iff.1 hplain type hmem, allKeepTo_iff.1 hkeeps type hmem⟩

theorem Kept.alternatives (h : (TypeExpr.union types).Kept own taken) :
    ∀ type ∈ types, type.Kept own taken :=
  Kept.of_all h.plain h.keeps

theorem Kept.arguments (h : ref.toType.Kept own taken) :
    ∀ type ∈ ref.arguments, type.Kept own taken :=
  Kept.of_all (plain_iff.1 h.plain).2.2 h.keeps

end TypeExpr

/-! ## Tables -/

/-- Definitions have their own parameters only, and instances that are named without parameters
have none. -/
structure TypeTable.Kept (parameters : List String) (table : TypeTable) : Prop
    extends table.Spelled where
  generics : ∀ entry ∈ table.stored, entry.2.generics ⊆ parameters
  stored : ∀ entry ∈ table.stored, ∀ type ∈ entry.2.body.components,
    type.Kept entry.2.generics parameters
  instanceOpen : ∀ entry ∈ table.instances, ∀ type ∈ entry.2.body.components,
    type.Kept parameters parameters
  instanceClosed : ∀ entry ∈ table.instances, ¬ MentionsWord parameters entry.1.toList →
    ∀ type ∈ entry.2.body.components, type.Kept [] parameters

section Search

variable {table grown : TypeTable} {names : List String} {package : String}
  {generic found : TypeDef} {parameters : List String} (hplain : ref.plain = true)
  (hlength : names.length = ref.arguments.length) (hnames : ∀ name ∈ names, ArgumentText name)
  (hparameters : ∀ name ∈ parameters, isPlainName name = true)
  (hkept : ∀ type ∈ ref.arguments, type.Kept parameters parameters)
  (hmentions : (∃ name ∈ names, MentionsWord parameters name.toList) ↔
    anyGeneric ref.arguments = true)

include hplain hlength hnames hparameters hkept hmentions

theorem TypeTable.Kept.of_found (h : table.Kept parameters) (hpackage : isPlainName package)
    (hlookup : table.stored.lookup (typeKey package ref.name ref.arguments.length) = some generic)
    (hfound : table.Found ref (ref.keyIn package names) generic found grown) :
    grown.Kept parameters ∧ (∀ type ∈ found.body.components, type.Kept parameters parameters) ∧
      (anyGeneric ref.arguments = false →
        ∀ type ∈ found.body.components, type.Kept [] parameters) := by
  have hname := (plain_iff.1 hplain).1
  have hspelled := h.toSpelled.of_found hplain hlength hnames hpackage hlookup hfound
  -- The key has a parameter among its words exactly if the reference has one inside.
  have hkey : MentionsWord parameters
      (ref.keyIn package names).toList ↔ anyGeneric ref.arguments :=
    (mentionsWord_instance hparameters hpackage hname names).trans hmentions
  have hcount := h.generics_of_lookup hpackage hname hlookup
  cases hfound with
  | stored harguments =>
    have hgenerics : generic.generics = [] :=
      List.eq_nil_of_length_eq_zero (hcount.trans (by simp [harguments]))
    have hstored := h.stored _ (mem_of_lookup hlookup)
    rw [hgenerics] at hstored
    exact ⟨h, fun type htype => (hstored type htype).mono (by simp), fun _ => hstored⟩
  | known harguments hfind =>
    have hmem : (ref.keyIn package names, found) ∈ table.instances :=
      (h.find_instanceKey hpackage hname (names_ne_nil hlength harguments) hnames hfind).2
    refine ⟨h, h.instanceOpen _ hmem, fun hclosed => h.instanceClosed _ hmem ?_⟩
    rw [hkey, hclosed]
    exact Bool.false_ne_true
  | made =>
    have hmem := mem_of_lookup hlookup
    -- Every parameter of the definition is replaced by an argument.
    have hbound := Substitution.find?_ofLists_isSome hcount.le
    have hcomponents : ∀ {own : List String},
        (∀ type ∈ ref.arguments, type.Kept own parameters) →
          ∀ type ∈ (generic.instantiate
            (.ofLists generic.generics ref.arguments)).body.components,
              type.Kept own parameters := by
      intro own hown type htype
      rw [TypeDef.instantiate, TypeBody.components_substitute] at htype
      obtain ⟨component, hcomponent, rfl⟩ := List.mem_map.1 htype
      refine (h.stored _ hmem component hcomponent).substitute
        (fun name hname => .inl (hbound name hname)) fun entry hentry => ?_
      exact hown _ (List.of_mem_zip hentry).2
    have hclosed : anyGeneric ref.arguments = false →
        ∀ type ∈ ref.arguments, type.Kept [] parameters := fun hnone type htype =>
      (hkept type htype).closed (anyGeneric_eq_false.1 hnone type htype)
    refine ⟨?_, hcomponents hkept, fun hnone => hcomponents (hclosed hnone)⟩
    refine
      { toSpelled := hspelled
        generics := h.generics
        stored := h.stored
        instanceOpen := List.forall_mem_cons.2 ⟨hcomponents hkept, h.instanceOpen⟩
        instanceClosed := List.forall_mem_cons.2 ⟨fun hnone => ?_, h.instanceClosed⟩ }
    rw [hkey, Bool.not_eq_true] at hnone
    exact hcomponents (hclosed hnone)

theorem locateNamed_guards :
    Guards (Kept parameters)
      (fun answer => isPlainName answer.1 ∧
        (∀ type ∈ answer.2.body.components, type.Kept parameters parameters) ∧
          (anyGeneric ref.arguments = false →
            ∀ type ∈ answer.2.body.components, type.Kept [] parameters))
      Diagnostic.Ordinary (locateNamed ref names) := by
  intro table htable
  have hcases := htable.toKeyed.locateNamed_cases hlength hplain hnames
  cases hdeclared : table.declaration? ref with
  | none =>
    rw [hdeclared] at hcases
    rw [hcases]
    exact .error ⟨htable, trivial⟩
  | some declaration =>
    rw [hdeclared] at hcases
    obtain ⟨hpackage, found, grown, hlocate, hfound⟩ := hcases
    obtain ⟨hgrown, hcomponents⟩ := htable.of_found hplain hlength hnames hparameters hkept hmentions
      hpackage (lookup_of_declaration hdeclared).2 hfound
    rw [hlocate]
    exact .ok ⟨hgrown, hpackage, hcomponents⟩

end Search

/-! ## Names -/

section Names

variable {parameters : List String}

/-- Names of types that can stand between others, with a parameter among their words exactly if
one of the types has one inside. -/
structure NamesOf (parameters : List String) (types : List TypeExpr) (names : List String) :
    Prop where
  length : names.length = types.length
  texts : ∀ name ∈ names, ArgumentText name
  mentions : (∃ name ∈ names, MentionsWord parameters name.toList) ↔
    anyGeneric types = true

mutual

/-- A canonical name has a parameter among its words exactly if the type has one inside. -/
theorem canonicalName_guards (hparameters : ∀ name ∈ parameters, isPlainName name) :
    (type : TypeExpr) → type.Kept parameters parameters →
      Guards (Kept parameters)
        (fun name => ArgumentText name ∧
          (MentionsWord parameters name.toList ↔ type.isGeneric))
        Diagnostic.Ordinary (canonicalName type)
  | .primitive name, h => by
    refine Guards.pure ⟨argumentText_of_plain h.plain, ?_⟩
    have htaken : name ∉ parameters := by simpa [keepsTo] using h.keeps
    simpa [mentionsWord_plain h.plain, isGeneric] using htaken
  | .param name, h => by
    refine Guards.pure ⟨argumentText_of_plain h.plain, ?_⟩
    have hown : name ∈ parameters := by simpa [keepsTo] using h.keeps
    simpa [mentionsWord_plain h.plain, isGeneric] using hown
  | .pointer target, h => by
    refine (canonicalName_guards hparameters target ⟨h.plain, h.keeps⟩).bind fun name hname => ?_
    refine Guards.pure ⟨argumentText_pointer hname.1, ?_⟩
    rw [String.toList_append]
    exact (mentionsWord_cons hparameters rfl name.toList).trans hname.2
  | .slice element, h => by
    refine (canonicalName_guards hparameters element ⟨h.plain, h.keeps⟩).bind fun name hname => ?_
    refine Guards.pure ⟨argumentText_slice hname.1, ?_⟩
    rw [String.toList_append]
    exact (mentionsWord_cons hparameters rfl name.toList).trans hname.2
  | .array length element, h => by
    refine (canonicalName_guards hparameters element ⟨h.plain, h.keeps⟩).bind fun name hname => ?_
    refine Guards.pure ⟨argumentText_array length.toNat hname.1, ?_⟩
    exact (mentionsWord_array hparameters length.toNat name).trans hname.2
  | .union alternatives, h => by
    refine (canonicalNames_guards_kept hparameters alternatives h.alternatives).bind
      fun names hnames => ?_
    refine Guards.pure ⟨argumentText_union hnames.texts, ?_⟩
    exact (mentionsWord_joinWith hparameters (by simp) (by simp [isSeparator]) names).trans
      hnames.mentions
  | .named name qualifier arguments origin, h => by
    have href : (toType ⟨name, qualifier, arguments, origin⟩).Kept parameters parameters := h
    have hplain : (⟨name, qualifier, arguments, origin⟩ : TypeRef).plain := h.plain
    unfold canonicalName
    refine (canonicalNames_guards_kept hparameters arguments href.arguments).bind
      fun names hnames => ?_
    refine (locateNamed_guards hplain hnames.length hnames.texts hparameters href.arguments
      hnames.mentions).bind fun answer hanswer => ?_
    refine (canonicalNames_guards_kept hparameters arguments href.arguments).bind
      fun names' hnames' => ?_
    have hname := (plain_iff.1 hplain).1
    refine Guards.pure ⟨argumentText_instance hanswer.1 hname hnames'.texts, ?_⟩
    exact (mentionsWord_instance hparameters hanswer.1 hname names').trans hnames'.mentions

theorem canonicalNames_guards_kept (hparameters : ∀ name ∈ parameters, isPlainName name) :
    (types : List TypeExpr) → (∀ type ∈ types, type.Kept parameters parameters) →
      Guards (Kept parameters) (NamesOf parameters types) Diagnostic.Ordinary
        (canonicalNames types)
  | [], _ => Guards.pure ⟨rfl, by simp, by simp [anyGeneric]⟩
  | type :: rest, h => by
    obtain ⟨htype, hrest⟩ := List.forall_mem_cons.1 h
    unfold canonicalNames
    refine (canonicalName_guards hparameters type htype).bind fun name hname => ?_
    refine (canonicalNames_guards_kept hparameters rest hrest).bind fun names hnames => ?_
    refine Guards.pure ⟨by simp [hnames.length], ?_, ?_⟩
    · exact List.forall_mem_cons.2 ⟨hname.1, hnames.texts⟩
    · simp only [List.exists_mem_cons_iff, hname.2, hnames.mentions, anyGeneric, Bool.or_eq_true]

end

variable (hparameters : ∀ name ∈ parameters, isPlainName name = true)

include hparameters

theorem locate_guards (href : ref.toType.Kept parameters parameters) :
    Guards (Kept parameters)
      (fun answer => (∀ type ∈ answer.2.body.components, type.Kept parameters parameters) ∧
        (anyGeneric ref.arguments = false →
          ∀ type ∈ answer.2.body.components, type.Kept [] parameters))
      Diagnostic.Ordinary (locate ref) := by
  refine (canonicalNames_guards_kept hparameters ref.arguments href.arguments).bind
    fun names hnames => ?_
  exact (locateNamed_guards href.plain hnames.length hnames.texts hparameters href.arguments
    hnames.mentions).mono fun _ hanswer => hanswer.2

omit hparameters in
theorem TypeExpr.Kept.inherited {bound : List String} :
    Inherited (Kept bound parameters) where
  target h := ⟨h.plain, h.keeps⟩
  held h := ⟨h.plain, h.keeps⟩
  element h := ⟨h.plain, h.keeps⟩
  alternatives h := h.alternatives
  arguments h := h.arguments

/-- Questions about types lead from types with parameters to such types. -/
theorem enclosed_kept : Enclosed (Kept parameters) Diagnostic.Ordinary
    (Kept parameters parameters) where
  toInherited := Kept.inherited
  ordinary h := h
  canonicalName h := (canonicalName_guards hparameters _ h).mono fun _ _ => trivial
  locate h := (locate_guards hparameters h).mono fun _ hanswer => hanswer.1

/-- Questions about types lead from types without parameters to such types. -/
theorem enclosed_closed : Enclosed (Kept parameters) Diagnostic.Ordinary
    (Kept [] parameters) where
  toInherited := Kept.inherited
  ordinary h := h
  canonicalName h :=
    (canonicalName_guards hparameters _ (h.mono (by simp))).mono fun _ _ => trivial
  locate h := (locate_guards hparameters (h.mono (by simp))).mono fun _ hanswer =>
    hanswer.2 h.isGeneric

end Names

end Accord
