import Accord.Proofs.Query.Settle
import Accord.Proofs.Types.Resolved

/-!
# Tables without generic definitions

Where nothing is generic, questions about types leave the table as it is, and each of them
comes to an end.  Following aliases and expanding unions goes on only to definitions that have
not been passed before, and the table has finitely many: `TypeTable.left` counts those that are
left.  A sum without a name is expanded into its parts, which are smaller.

* `unalias_settles` and `alternatives_settles` say so.  What is asked of the type at hand and of
  those in definitions, say that they mention no parameter, holds of what is found too.
* What stands behind a type is no alias (`TypeTable.Bare`), and the alternatives of a type are
  no unions (`TypeTable.Single`).
-/

namespace Accord

open Query TypeTable TypeExpr

variable {arity : Nat} {package name : String} {table : TypeTable} {definition : TypeDef}
  {type bare : TypeExpr} {types : List TypeExpr}

/-- Nothing is stored under the key of a generic definition, and what definitions and good sums
are made of is good. -/
structure TypeTable.Ungeneric (table : TypeTable) (good : TypeExpr → Prop) : Prop where
  keys : ∀ package name arity, 0 < arity → table.find? (typeKey package name arity) = none
  component : ∀ definition, table.Has definition →
    ∀ component ∈ definition.body.components, good component
  part : ∀ parts, good (.union parts) → ∀ part ∈ parts, good part

/-- Nothing is generic, and no parameter stands in a definition. -/
abbrev TypeTable.Monomorphic (table : TypeTable) : Prop :=
  table.Ungeneric (·.isGeneric = false)

/-- The key of a generic definition ends with a bracket. -/
theorem getLast?_typeKey_pos (package name : String) (h : 0 < arity) :
    (typeKey package name arity).toList.getLast? = some '>' := by
  have hne : ¬ (arity == 0) := by simpa using Nat.pos_iff_ne_zero.1 h
  have hbracket : (">" : String).toList = ['>'] := rfl
  rw [typeKey, if_neg hne]
  simp only [String.toList_append, List.getLast?_append, hbracket, List.getLast?_singleton,
    Option.some_or]

/-- The key of a definition without type parameters ends as its name does. -/
theorem mem_of_getLast?_typeKey_zero {c : Char} (hc : c ≠ ':')
    (h : (typeKey package name 0).toList.getLast? = some c) : c ∈ name.toList := by
  have hkey : (typeKey package name 0).toList = package.toList ++ [':', ':'] ++ name.toList := by
    simp [typeKey]
  rw [hkey] at h
  by_cases hempty : name.toList = []
  · rw [hempty, List.append_nil, List.getLast?_append] at h
    cases h
    exact absurd rfl hc
  · rw [List.getLast?_append_of_ne_nil _ hempty] at h
    exact List.mem_of_getLast? h

/-- Nothing stands under the key of a generic definition if nothing stored is generic. -/
theorem TypeTable.find?_typeKey_pos (hinstances : table.instances = [])
    (hstored : ∀ entry ∈ table.stored, '>' ∉ entry.2.name.toList ∧
      ∃ package, entry.1 = typeKey package entry.2.name 0)
    (harity : 0 < arity) : table.find? (typeKey package name arity) = none := by
  cases hfind : table.find? (typeKey package name arity) with
  | none => rfl
  | some definition =>
    rw [find?, hinstances, Option.or_eq_some_iff] at hfind
    rcases hfind with hfound | ⟨_, hfound⟩
    · obtain ⟨hname, home, hkey⟩ := hstored _ (mem_of_lookup hfound)
      have hlast := getLast?_typeKey_pos package name harity
      have hkey : typeKey package name arity = typeKey home definition.name 0 := hkey
      rw [hkey] at hlast
      exact absurd (mem_of_getLast?_typeKey_zero (by decide) hlast) hname
    · cases hfound

section Keyed

variable (h : table.Keyed) (hgeneric : ∀ entry ∈ table.stored, entry.2.isGeneric = false)

include h hgeneric

/-- An instance would have a generic definition. -/
theorem TypeTable.Keyed.instances_eq_nil : table.instances = [] := by
  refine List.eq_nil_iff_forall_not_mem.2 fun entry hmem => ?_
  obtain ⟨package, name, texts, hpackage, hname, hne, _, _, hsome⟩ := h.instanceKeys entry hmem
  obtain ⟨generic, hlookup⟩ := Option.isSome_iff_exists.1 hsome
  have hnone : generic.generics = [] := by
    simpa [TypeDef.isGeneric] using hgeneric _ (mem_of_lookup hlookup)
  have harity := h.generics_of_lookup hpackage hname hlookup
  rw [hnone] at harity
  exact hne (List.eq_nil_of_length_eq_zero harity.symm)

theorem TypeTable.Keyed.ungeneric {good : TypeExpr → Prop}
    (hcomponent : ∀ entry ∈ table.stored, ∀ component ∈ entry.2.body.components, good component)
    (hpart : ∀ parts, good (.union parts) → ∀ part ∈ parts, good part) : table.Ungeneric good := by
  have hinstances := h.instances_eq_nil hgeneric
  refine ⟨fun package name arity => find?_typeKey_pos hinstances fun entry hmem => ?_, ?_, hpart⟩
  · have hdefinition := h.definitions _ hmem
    simp only [TypeDef.plain, Bool.and_eq_true] at hdefinition
    have hnone : entry.2.generics = [] := by simpa [TypeDef.isGeneric] using hgeneric _ hmem
    obtain ⟨home, _, hkey⟩ := h.keys _ hmem
    rw [hnone] at hkey
    exact ⟨not_mem_of_plain hdefinition.1 (by decide), home, hkey⟩
  · rintro definition ⟨key, hmem | hmem⟩
    · exact hcomponent _ hmem
    · rw [hinstances] at hmem
      cases hmem

end Keyed

/-- The keys of the definitions and instances of a table. -/
def TypeTable.keys (table : TypeTable) : List String :=
  table.stored.map (·.1) ++ table.instances.map (·.1)

theorem TypeTable.mem_keys_of_find? {key : String} (h : table.find? key = some definition) :
    key ∈ table.keys := by
  rw [find?, Option.or_eq_some_iff] at h
  rw [keys, List.mem_append]
  rcases h with hstored | ⟨_, hinstance⟩
  · exact Or.inl (List.mem_map_of_mem (mem_of_lookup hstored))
  · exact Or.inr (List.mem_map_of_mem (mem_of_lookup hinstance))

/-- How many keys of the table are not among those passed. -/
def TypeTable.left (table : TypeTable) (passed : List String) : Nat :=
  (table.keys.filter (!passed.contains ·)).length

section Left

variable {passed : List String}

theorem TypeTable.left_cons_le : table.left (name :: passed) ≤ table.left passed := by
  unfold left
  apply List.Sublist.length_le
  apply List.monotone_filter_right
  intro key hkey
  simp only [List.contains_cons, Bool.not_or, Bool.and_eq_true] at hkey
  exact hkey.2

theorem TypeTable.left_cons_lt (hmem : name ∈ table.keys) (hnew : passed.contains name = false) :
    table.left (name :: passed) < table.left passed := by
  have hsplit : table.keys.filter (!(name :: passed).contains ·) =
      (table.keys.filter (!passed.contains ·)).filter (· != name) := by
    rw [List.filter_filter]
    congr 1
    funext key
    rw [List.contains_cons, Bool.not_or]
    rfl
  unfold left
  rw [hsplit]
  apply List.length_filter_lt_length_iff_exists.2
  refine ⟨name, List.mem_filter.2 ⟨hmem, ?_⟩, by simp⟩
  rw [hnew]
  rfl

end Left

/-! ## Look-ups -/

section LookUps

variable {good : TypeExpr → Prop} (hmono : table.Ungeneric good)

include hmono

theorem TypeTable.Ungeneric.of_search {ref : TypeRef} {suffix home : String} {found : TypeTable}
    {packages : List String}
    (h : table.search ref suffix packages = some (home, definition, found)) :
    found = table ∧ table.find? (home ++ "::" ++ ref.name ++ suffix) = some definition := by
  cases (finds_of_search h).2 with
  | there hfind => exact ⟨rfl, hfind⟩
  | entered harguments _ hfind =>
    rw [hmono.keys home ref.name _ (List.length_pos_iff.2 harguments)] at hfind
    cases hfind

/-- Look-ups leave the table as it is. -/
theorem TypeTable.Ungeneric.lasting : Lasting (· = table) := by
  refine ⟨fun ref names s hs => ?_⟩
  subst hs
  rw [after, Accord.locateNamed]
  cases hsearch : s.search ref (argumentSuffix names) (s.scopesOf ref) with
  | none => rfl
  | some found => exact (hmono.of_search hsearch).1

/-- A look-up finds a definition under the key that the name of the reference spells. -/
theorem locateNamed_finds (ref : TypeRef) (names : List String) :
    Guards (· = table)
      (fun found =>
        table.find? (found.1 ++ "::" ++ ref.name ++ argumentSuffix names) = some found.2)
      Diagnostic.Unknown (locateNamed ref names) := by
  intro s hs
  subst hs
  unfold locateNamed
  cases hsearch : s.search ref (argumentSuffix names) (s.scopesOf ref) with
  | none => exact .error ⟨rfl, _, _, rfl⟩
  | some found =>
    obtain ⟨package, definition, grown⟩ := found
    obtain ⟨rfl, hfind⟩ := hmono.of_search hsearch
    exact .ok ⟨rfl, hfind⟩

theorem canonicalNames_known (types : List TypeExpr) :
    Guards (· = table) (fun _ => True) Diagnostic.Unknown (canonicalNames types) :=
  canonicalNames_guarded
    (fun ref names => (locateNamed_finds hmono ref names).mono fun _ _ => trivial) types

/-- The name of a reference is a key of the table. -/
theorem canonicalName_settles (type : TypeExpr) :
    Settles (· = table) (fun name => ∀ ref, type.ref? = some ref → name ∈ table.keys)
      fun _ => canonicalName type := by
  suffices hname : Guards (· = table) (fun name => ∀ ref, type.ref? = some ref → name ∈ table.keys)
      Diagnostic.Unknown (canonicalName type) from
    hname.settles fun _ => Diagnostic.Unknown.ne_limitReached
  cases type with
  | named name qualifier arguments origin =>
    have hnames := (canonicalNames_known hmono arguments).answered.relax fun _ => And.left
    refine hnames.bind fun names hrun => (locateNamed_finds hmono _ names).bind
      fun found hfound => hnames.bind fun names' hrun' => ?_
    -- The table has not changed in between, so the arguments have the names they had.
    cases hrun.2.symm.trans hrun'.2
    exact .pure fun _ _ => mem_keys_of_find? hfound
  | _ =>
    refine (canonicalName_guarded (fun ref names =>
      (locateNamed_finds hmono ref names).mono fun _ _ => trivial) _).mono fun _ _ => ?_
    simp [ref?]

theorem locate_settles (ref : TypeRef) :
    Settles (· = table) (fun found => table.Has found.2) fun _ => locate ref := by
  have hlocate := (canonicalNames_known hmono ref.arguments).bind fun names _ =>
    (locateNamed_finds hmono ref names).mono fun _ hfound => has_of_find? hfound
  exact hlocate.settles fun _ => Diagnostic.Unknown.ne_limitReached

theorem retrieve_settles (ref : TypeRef) :
    Settles (· = table) (fun definition => table.Has definition ∧
      retrieve ref table = .ok definition table) fun _ => retrieve ref := by
  have hretrieve : Settles (· = table) table.Has fun _ => retrieve ref :=
    (locate_settles hmono ref).bind fun _ hfound => Settles.pure hfound
  exact hretrieve.answered.mono fun _ hfound => ⟨hfound.1, hfound.2.choose_spec⟩

end LookUps

/-! ## Aliases -/

/-- The type is no reference to an alias. -/
def TypeTable.Bare (table : TypeTable) (type : TypeExpr) : Prop :=
  ∀ ref, type.ref? = some ref →
    ∃ definition, retrieve ref table = .ok definition table ∧ definition.body.isAlias = false

theorem TypeTable.Bare.unaliases_eq (h : table.Bare type) (hbare : table.Unaliases type bare) :
    bare = type := by
  obtain ⟨fuel, after, hrun⟩ := hbare
  cases fuel with
  | zero => exact absurd hrun throw_ne_ok
  | succ fuel =>
    unfold unalias unaliasFrom at hrun
    cases href : type.ref? with
    | none =>
      rw [href] at hrun
      exact (pure_eq_ok.1 hrun).1.symm
    | some ref =>
      obtain ⟨definition, hretrieve, hbody⟩ := h ref href
      rw [href] at hrun
      simp only [bind_of_ok hretrieve] at hrun
      cases hshape : definition.body with
      | «alias» target => simp [hshape, TypeBody.isAlias] at hbody
      | record _ | union _ =>
        rw [hshape] at hrun
        exact (pure_eq_ok.1 hrun).1.symm

section Aliases

variable {good : TypeExpr → Prop} (hmono : table.Ungeneric good)

include hmono

theorem unaliasFrom_settles (seen : List String) (type : TypeExpr) (hgood : good type) :
    Settles (· = table) (fun bare => good bare ∧ table.Bare bare)
      fun fuel => unaliasFrom fuel seen type := by
  induction hleft : table.left seen using Nat.strong_induction_on generalizing seen type with
  | _ left ih =>
    refine Settles.succ ?_
    simp only [unaliasFrom]
    cases href : type.ref? with
    | none => exact Settles.pure ⟨hgood, by simp [Bare, href]⟩
    | some ref =>
      refine (retrieve_settles hmono ref).bind fun definition hdefinition => ?_
      obtain ⟨hhas, hretrieve⟩ := hdefinition
      have hbare (hbody : definition.body.isAlias = false) : table.Bare type := by
        intro other hother
        rw [href] at hother
        cases hother
        exact ⟨definition, hretrieve, hbody⟩
      cases hbody : definition.body with
      | record _ | union _ => exact Settles.pure ⟨hgood, hbare (by simp [hbody, TypeBody.isAlias])⟩
      | «alias» target =>
        refine (canonicalName_settles hmono type).bind fun name hname => ?_
        refine Settles.ite (fun _ => Settles.throw (by simp)) fun hseen => ?_
        have hfewer := left_cons_lt (hname ref href) (by simpa using hseen)
        have htarget : good target :=
          hmono.component definition hhas target (by simp [hbody, TypeBody.components])
        exact ih _ (hleft ▸ hfewer) (name :: seen) target htarget rfl

theorem unalias_settles (hgood : good type) :
    Settles (· = table) (fun bare => good bare ∧ table.Bare bare)
      fun fuel => unalias fuel type :=
  unaliasFrom_settles hmono [] type hgood

theorem TypeTable.Unaliases.good_bare (hgood : good type) (h : table.Unaliases type bare) :
    good bare ∧ table.Bare bare := by
  obtain ⟨fuel, after, hrun⟩ := h
  exact ((unalias_settles hmono hgood).good_of_ok (fun hle => unalias_below hle type) rfl hrun).1

end Aliases

/-! ## Alternatives -/

/-- The type is no union, also not behind aliases. -/
def TypeTable.Single (table : TypeTable) (type : TypeExpr) : Prop :=
  ∃ fuel, directAlternatives fuel type table = .ok none table

section Alternatives

variable {good : TypeExpr → Prop} (hmono : table.Ungeneric good)

include hmono

theorem directAlternativesOf_settles (hgood : good type) :
    Settles (· = table)
      (fun direct => ∀ types, direct = some types → (∀ t ∈ types, good t) ∧
        (type.ref? = none → type = .union types))
      fun _ => directAlternativesOf type := by
  cases type with
  | union alternatives =>
    refine Settles.pure ?_
    rintro _ ⟨⟩
    exact ⟨hmono.part alternatives hgood, fun _ => rfl⟩
  | named name qualifier arguments origin =>
    refine (retrieve_settles hmono _).bind fun definition hdefinition => ?_
    cases hbody : definition.body with
    | record _ | «alias» _ => exact Settles.pure (by simp)
    | union alternatives =>
      refine Settles.pure ?_
      rintro _ ⟨⟩
      refine ⟨fun t ht => ?_, by simp [ref?]⟩
      exact hmono.component definition hdefinition.1 t
        (by simpa [hbody, TypeBody.components] using ht)
  | _ => exact Settles.pure (by simp)

theorem directAlternatives_settles (hgood : good type) :
    Settles (· = table)
      (fun direct => ∀ types, direct = some types → (∀ t ∈ types, good t) ∧
        (type.ref? = none → type = .union types))
      fun fuel => directAlternatives fuel type := by
  simp only [directAlternatives_eq]
  refine (unalias_settles hmono hgood).answered.bind fun bare hbare => ?_
  obtain ⟨⟨hbareGood, _⟩, fuel, hrun⟩ := hbare
  refine (directAlternativesOf_settles hmono hbareGood).mono fun direct hdirect types htypes => ?_
  refine ⟨(hdirect types htypes).1, fun href => ?_⟩
  obtain rfl := (Unaliases.self href).unique ⟨fuel, table, hrun⟩
  exact (hdirect types htypes).2 href

omit hmono in
/-- Gathering comes to an end: each step passes a key that was not passed before, or goes to a
smaller type. -/
theorem gather_settles (table : TypeTable) {inv : TypeTable → Prop} (single : TypeExpr → Prop)
    {named : TypeExpr → String → Prop}
    (hdirect : ∀ {type}, good type → Settles inv (fun direct => (direct = none → single type) ∧
      ∀ types, direct = some types → (∀ part ∈ types, good part) ∧
        (type = .union types ∨ ∀ name, named type name → name ∈ table.keys))
      fun fuel => directAlternatives fuel type)
    (hname : ∀ {type}, good type → Settles inv (named type) fun _ => canonicalName type)
    (path : List String) (type : TypeExpr) (hgood : good type) (gathered : Gathered)
    (hgathered : ∀ t ∈ gathered.types, good t ∧ single t) :
    Settles inv (fun found => ∀ t ∈ found.types, good t ∧ single t)
      fun fuel => gather fuel path type gathered := by
  refine Settles.succ ?_
  simp only [gather_eq]
  refine (hdirect hgood).bind fun direct hparts => ?_
  cases direct with
  | none => exact Settles.pure hgathered
  | some alternatives =>
    obtain ⟨hall, hkey⟩ := hparts.2 alternatives rfl
    refine (hname hgood).bind fun name hown => ?_
    refine Settles.ite (fun _ => Settles.pure hgathered) fun hnew => ?_
    refine Settles.foldlM (fun alternative hmem sofar hsofar => ?_) hgathered
    have hgood' := hall alternative hmem
    refine (hdirect hgood').bind fun inner hinner => ?_
    cases inner with
    | some _ =>
      exact gather_settles table single hdirect hname (name :: path) alternative hgood' sofar hsofar
    | none =>
      exact (hname hgood').bind fun own _ =>
        Settles.pure (Gathered.add_good hsofar own ⟨hgood', hinner.1 rfl⟩)
termination_by (table.left path, sizeOf type)
decreasing_by
  rcases hkey with rfl | hkey
  · have hsize : sizeOf alternative < sizeOf (TypeExpr.union alternatives) := by
      have := List.sizeOf_lt_of_mem hmem
      simp only [TypeExpr.union.sizeOf_spec]
      omega
    have hle : table.left (name :: path) ≤ table.left path := left_cons_le
    rcases Nat.lt_or_eq_of_le hle with hlt | heq
    · exact .left _ _ hlt
    · rw [heq]
      exact .right _ hsize
  · exact .left _ _ (left_cons_lt (hkey name hown) (by simpa using hnew))

theorem alternatives_settles (hgood : good type) :
    Settles (· = table) (fun types => ∀ t ∈ types, good t ∧ table.Single t)
      fun fuel => alternatives fuel type := by
  refine (gather_settles table table.Single (fun {type} h => ?_)
    (fun _ => canonicalName_settles hmono _) [] type hgood {} (List.forall_mem_nil _)).bind
    fun _ hgathered => Settles.pure hgathered
  refine (directAlternatives_settles hmono h).answered.mono fun direct ⟨hdirect, fuel, hrun⟩ =>
    ⟨?_, fun types htypes => ⟨(hdirect types htypes).1, ?_⟩⟩
  · rintro rfl
    exact ⟨fuel, hrun⟩
  · cases href : type.ref? with
    | none => exact .inl ((hdirect types htypes).2 href)
    | some ref => exact .inr fun name hname => hname ref rfl

theorem TypeTable.Flattens.good_single (hgood : good type) (h : table.Flattens type types) :
    ∀ t ∈ types, good t ∧ table.Single t := by
  obtain ⟨fuel, after, hrun⟩ := h
  exact ((alternatives_settles hmono hgood).good_of_ok
    (fun hle => alternatives_below hle type) rfl hrun).1

/-- What stands behind a type that is no union has no alternatives. -/
theorem TypeTable.Single.flattens_eq (hgood : good type) (h : table.Single type)
    (hbare : table.Unaliases type bare) (htypes : table.Flattens bare types) : types = [] := by
  -- Nothing is written in the type behind the aliases, so gathering stops at once.
  have hnone : directAlternativesOf bare table = .ok none table := by
    obtain ⟨fuel, hrun⟩ := h
    rw [directAlternatives_eq] at hrun
    obtain ⟨bare', after, hunalias, hdirect⟩ := bind_eq_ok.1 hrun
    obtain ⟨⟨hgood', _⟩, rfl⟩ := (unalias_settles hmono hgood).good_of_ok
      (fun hle => unalias_below hle type) rfl hunalias
    obtain rfl := hbare.unique ⟨fuel, _, hunalias⟩
    exact hdirect
  obtain ⟨hgood', hself⟩ := hbare.good_bare hmono hgood
  obtain ⟨fuel, direct, after, hdirect, hnil⟩ := htypes.direct
  rw [directAlternatives_eq] at hdirect
  obtain ⟨bare', after', hunalias, hwritten⟩ := bind_eq_ok.1 hdirect
  obtain ⟨_, rfl⟩ := (unalias_settles hmono hgood').good_of_ok
    (fun hle => unalias_below hle bare) rfl hunalias
  obtain rfl := hself.unaliases_eq ⟨fuel, _, hunalias⟩
  rw [hnone] at hwritten
  cases hwritten
  exact hnil rfl

end Alternatives

end Accord
