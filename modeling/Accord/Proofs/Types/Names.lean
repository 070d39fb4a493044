import Accord.Proofs.Generic.Substitution
import Accord.Proofs.Types.Ground

/-!
# Canonical names of types

`TypeTable.Names` relates a type to its canonical name, whatever instances a table holds.

* `names_pointer` and its like take the name of a type apart, along the type.
* `exists_names_substitute` says that replacing parameters by types with names leaves a
  type with a name.
-/

namespace Accord

open Query List TypeExpr TypeRef TypeTable

variable {type : TypeExpr} {name : String} {table after : TypeTable} {types : List TypeExpr}
  {names : List String}

/-! ## Names -/

/-- The canonical name of the type. -/
def TypeTable.Names (base : TypeTable) (type : TypeExpr) (name : String) : Prop :=
  ∃ after, canonicalName type base = .ok name after

section Names

variable {base : TypeTable}

theorem TypeTable.Names.unique {name' : String} (h : base.Names type name)
    (h' : base.Names type name') : name = name' := by
  obtain ⟨after, hrun⟩ := h
  obtain ⟨after', hrun'⟩ := h'
  rw [hrun] at hrun'
  cases hrun'
  rfl

/-- Types with names have a list of names. -/
theorem exists_forall₂_names (h : ∀ type ∈ types, ∃ name, base.Names type name) :
    ∃ names, Forall₂ base.Names types names := by
  induction types with
  | nil => exact ⟨[], .nil⟩
  | cons type rest ih =>
    obtain ⟨⟨name, hname⟩, hrest⟩ := forall_mem_cons.1 h
    obtain ⟨names, hnames⟩ := ih hrest
    exact ⟨name :: names, .cons hname hnames⟩

theorem exists_name_of_mem
    (h : Forall₂ base.Names types names) {type : TypeExpr} (hmem : type ∈ types) :
    ∃ name, base.Names type name :=
  (exists_of_mem_left h hmem).imp fun _ => And.right

variable (hbase : base.Variant base)

include hbase

theorem TypeTable.Names.of_run (hplain : type.plain) (htable : base.Variant table)
    (hrun : canonicalName type table = .ok name after) :
    base.Names type name ∧ base.Variant after := by
  obtain ⟨_, after', hrun', htwins⟩ := (canonicalName_steady type hplain).ok ⟨htable, hbase⟩ hrun
  exact ⟨⟨after', hrun'⟩, htwins.1⟩

theorem TypeTable.Names.run (hplain : type.plain) (h : base.Names type name)
    (htable : base.Variant table) :
    ∃ after, base.Variant after ∧ canonicalName type table = .ok name after := by
  obtain ⟨after, hrun⟩ := h
  obtain ⟨_, after', hrun', htwins⟩ := (canonicalName_steady type hplain).ok ⟨hbase, htable⟩ hrun
  exact ⟨after', htwins.2, hrun'⟩

/-- The names of several types, one by one. -/
theorem forall₂_names_of_run (hplain : ∀ type ∈ types, type.plain)
    (htable : base.Variant table) (hrun : canonicalNames types table = .ok names after) :
    Forall₂ base.Names types names ∧ base.Variant after := by
  induction types generalizing names table with
  | nil =>
    obtain ⟨rfl, rfl⟩ := pure_eq_ok.1 hrun
    exact ⟨.nil, htable⟩
  | cons type rest ih =>
    obtain ⟨hfirst, hrest⟩ := forall_mem_cons.1 hplain
    rw [canonicalNames] at hrun
    obtain ⟨name, mid, hname, hrun⟩ := bind_eq_ok.1 hrun
    obtain ⟨others, last, hothers, hrun⟩ := bind_eq_ok.1 hrun
    obtain ⟨rfl, rfl⟩ := pure_eq_ok.1 hrun
    obtain ⟨hnames, hmid⟩ := Names.of_run hbase hfirst htable hname
    obtain ⟨hall, hlast⟩ := ih hrest hmid hothers
    exact ⟨.cons hnames hall, hlast⟩

theorem canonicalNames_of_forall₂ (hplain : ∀ type ∈ types, type.plain)
    (h : Forall₂ base.Names types names) (htable : base.Variant table) :
    ∃ after, base.Variant after ∧ canonicalNames types table = .ok names after := by
  induction h generalizing table with
  | nil => exact ⟨table, htable, rfl⟩
  | @cons type name rest names hname _ ih =>
    obtain ⟨hfirst, hrest⟩ := forall_mem_cons.1 hplain
    obtain ⟨mid, hmid, hrun⟩ := hname.run hbase hfirst htable
    obtain ⟨after, hafter, hrun'⟩ := ih hrest hmid
    refine ⟨after, hafter, ?_⟩
    rw [canonicalNames, bind_of_ok hrun, bind_of_ok hrun']
    rfl

/-! ## Names along types -/

omit hbase in
/-- A name that is made of another one. -/
theorem names_iff {part : TypeExpr} {wrap : String → String}
    (h : canonicalName type = do return wrap (← canonicalName part)) :
    base.Names type name ↔ ∃ inner, base.Names part inner ∧ name = wrap inner := by
  rw [Names, h]
  constructor
  · rintro ⟨after, hrun⟩
    obtain ⟨inner, mid, hinner, hrun⟩ := bind_eq_ok.1 hrun
    obtain ⟨rfl, _⟩ := pure_eq_ok.1 hrun
    exact ⟨inner, ⟨mid, hinner⟩, rfl⟩
  · rintro ⟨inner, ⟨mid, hinner⟩, rfl⟩
    exact ⟨mid, bind_of_ok hinner⟩

omit hbase in
theorem names_pointer {target : TypeExpr} :
    base.Names (.pointer target) name ↔ ∃ inner, base.Names target inner ∧ name = "#" ++ inner :=
  names_iff rfl

omit hbase in
theorem names_slice {element : TypeExpr} :
    base.Names (.slice element) name ↔ ∃ inner, base.Names element inner ∧ name = "$" ++ inner :=
  names_iff rfl

omit hbase in
theorem names_array {length : UInt64} {element : TypeExpr} :
    base.Names (.array length element) name ↔
      ∃ inner, base.Names element inner ∧ name = "[" ++ toString length.toNat ++ "]" ++ inner :=
  names_iff rfl

theorem TypeTable.Names.ref {ref : TypeRef} (hplain : ref.plain) (h : base.Names ref.toType name) :
    ∃ package declared names, isPlainName package ∧
      base.declaration? ref = some (package, declared) ∧
      Forall₂ base.Names ref.arguments names ∧
      name = package ++ "::" ++ ref.name ++ argumentSuffix names := by
  obtain ⟨after, hrun⟩ := h
  rw [canonicalName_toType] at hrun
  obtain ⟨located, mid, hlocate, hrun⟩ := bind_eq_ok.1 hrun
  obtain ⟨names, last, hnames, hrun⟩ := bind_eq_ok.1 hrun
  obtain ⟨rfl, _⟩ := pure_eq_ok.1 hrun
  obtain ⟨_, _, _, ⟨⟨hpackage, declared, hdeclared, _⟩, _⟩, hmid⟩ :=
    (locate_agree hplain).ok_right ⟨hbase, hbase⟩ hlocate
  have harguments := plainAll_iff.1 (plain_iff.1 hplain).2.2
  obtain ⟨hall, _⟩ := forall₂_names_of_run hbase harguments hmid.1 hnames
  exact ⟨located.1, declared, names, hpackage, hdeclared, hall, rfl⟩

/-- A reference to something declared has a name if its arguments have. -/
theorem TypeTable.Names.of_declaration {ref : TypeRef} (hplain : ref.plain)
    (hnames : Forall₂ base.Names ref.arguments names) {package : String} {declared : TypeDef}
    (hdeclared : base.declaration? ref = some (package, declared)) :
    ∃ name, base.Names ref.toType name := by
  have hall := (plain_iff.1 hplain).2.2
  have harguments := plainAll_iff.1 hall
  obtain ⟨mid, hmid, hrun⟩ := canonicalNames_of_forall₂ hbase harguments hnames hbase
  obtain ⟨hlength, htexts⟩ := ((canonicalNames_steady _ hall).ok ⟨hbase, hbase⟩ hrun).1
  obtain ⟨_, found, grown, hlocate, _⟩ := locateNamed_of_declaration hmid.orderly hplain hlength
    htexts ((hmid.declaration?_eq ref).trans hdeclared)
  obtain ⟨after, _, hrun'⟩ := canonicalNames_of_forall₂ hbase harguments hnames
    (hmid.located hplain hlength htexts hlocate)
  refine ⟨package ++ "::" ++ ref.name ++ argumentSuffix names, after, ?_⟩
  rw [canonicalName_toType, locate, bind_assoc, bind_of_ok hrun, bind_of_ok hlocate,
    bind_of_ok hrun']
  rfl

/-- A reference that has a name refers to something. -/
theorem TypeTable.Names.retrieves {ref : TypeRef} (hplain : ref.plain)
    (h : base.Names ref.toType name) (htable : base.Variant table) :
    ∃ found after, retrieve ref table = .ok found after ∧ base.Retrieved ref found := by
  obtain ⟨last, hrun⟩ := h
  rw [canonicalName_toType] at hrun
  obtain ⟨located, mid, hlocate, _⟩ := bind_eq_ok.1 hrun
  obtain ⟨located', after, hlocate', _⟩ := (locate_agree hplain).ok_right ⟨hbase, htable⟩ hlocate
  have hretrieve : retrieve ref table = .ok located'.2 after := by
    rw [retrieve, bind_of_ok hlocate']
    rfl
  exact ⟨located'.2, after, hretrieve, (Retrieved.of_run hplain htable hretrieve).1⟩

theorem TypeTable.Names.union {alternatives : List TypeExpr}
    (hplain : ∀ type ∈ alternatives, type.plain) (h : Forall₂ base.Names alternatives names) :
    base.Names (.union alternatives) (joinWith " | " names) := by
  obtain ⟨after, _, hrun⟩ := canonicalNames_of_forall₂ hbase hplain h hbase
  refine ⟨after, ?_⟩
  rw [canonicalName, bind_of_ok hrun]
  rfl

end Names

/-! ## Simple types -/

namespace TypeExpr

mutual

/-- Whether a sum without a name occurs inside. -/
def hasSum : TypeExpr → Bool
  | .primitive _ => false
  | .param _ => false
  | .named _ _ arguments _ => anySum arguments
  | .pointer target => target.hasSum
  | .array _ element => element.hasSum
  | .slice element => element.hasSum
  | .union _ => true

/-- Whether a sum without a name occurs in some type of a list. -/
def anySum : List TypeExpr → Bool
  | [] => false
  | type :: rest => type.hasSum || anySum rest

end

theorem anySum_eq_false : anySum types = false ↔ ∀ type ∈ types, type.hasSum = false := by
  induction types with
  | nil => simp [anySum]
  | cons type rest ih => simp [anySum, ih]

end TypeExpr

/-- A type with plain names in which no sum is written. -/
structure TypeExpr.Pattern (type : TypeExpr) : Prop where
  plain : type.plain = true
  sumless : type.hasSum = false

/-! ## Names under substitution -/

/-- Replaces type parameters in the arguments of a reference. -/
def TypeRef.substitute (rules : Substitution) (ref : TypeRef) : TypeRef :=
  { ref with arguments := substituteAll rules ref.arguments }

theorem TypeTable.declaration?_substitute (base : TypeTable) (rules : Substitution)
    (ref : TypeRef) : base.declaration? (ref.substitute rules) = base.declaration? ref := by
  have hlength : (ref.substitute rules).arguments.length = ref.arguments.length := by
    simp [TypeRef.substitute, TypeExpr.substituteAll_eq_map]
  unfold declaration?
  rw [hlength]
  rfl

section Substitute

variable {base : TypeTable} {rules : Substitution}

theorem exists_names_substitute (hbase : base.Variant base)
    (hrules : ∀ entry ∈ rules, entry.2.plain)
    (hnamed : ∀ {name type}, rules.find? name = some type → ∃ text, base.Names type text)
    (type : TypeExpr) (hplain : type.plain) (hsumless : type.hasSum = false)
    (h : base.Names type name) : ∃ name', base.Names (type.substitute rules) name' := by
  induction type using induct generalizing name with
  | step type ih =>
    cases type with
    | primitive => exact ⟨name, h⟩
    | param text =>
      rw [TypeExpr.substitute]
      cases hfind : rules.find? text with
      | none => exact ⟨name, h⟩
      | some type => exact hnamed hfind
    | pointer target =>
      obtain ⟨_, hinner, _⟩ := names_pointer.1 h
      obtain ⟨_, hinner'⟩ := ih target (.head _) hplain hsumless hinner
      exact ⟨_, names_pointer.2 ⟨_, hinner', rfl⟩⟩
    | slice element =>
      obtain ⟨_, hinner, _⟩ := names_slice.1 h
      obtain ⟨_, hinner'⟩ := ih element (.head _) hplain hsumless hinner
      exact ⟨_, names_slice.2 ⟨_, hinner', rfl⟩⟩
    | array length element =>
      obtain ⟨_, hinner, _⟩ := names_array.1 h
      obtain ⟨_, hinner'⟩ := ih element (.head _) hplain hsumless hinner
      exact ⟨_, names_array.2 ⟨_, hinner', rfl⟩⟩
    | union => cases hsumless
    | named text qualifier arguments origin =>
      let ref : TypeRef := ⟨text, qualifier, arguments, origin⟩
      have href : ref.plain := hplain
      have href' : (ref.substitute rules).plain := plain_substitute hrules _ hplain
      obtain ⟨_, declared, _, _, hdeclared, hall, _⟩ := @TypeTable.Names.ref _ base hbase ref href h
      have harguments : ∀ type ∈ substituteAll rules arguments,
          ∃ name, base.Names type name := by
        rw [substituteAll_eq_map, forall_mem_map]
        intro type hmem
        obtain ⟨name, hname⟩ := exists_name_of_mem hall hmem
        exact ih type hmem (plainAll_iff.1 (plain_iff.1 href).2.2 type hmem)
          (anySum_eq_false.1 hsumless type hmem) hname
      obtain ⟨names, hnames⟩ := exists_forall₂_names harguments
      exact Names.of_declaration hbase href' hnames
        ((base.declaration?_substitute rules ref).trans hdeclared)

end Substitute

end Accord
