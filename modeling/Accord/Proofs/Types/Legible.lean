import Accord.Proofs.Types.Reading
import Accord.Proofs.Types.Spelling

/-!
# Types that are read back from their names

`TypeExpr.legible` asks for the types that can be told by their names: names hold no separator,
and sums stand at the top or as type arguments.  With the packages of its references put in place,
such a type is read from its name in one way, so legible types that have one name match
(`matches_of_spelling`).
-/

namespace Accord

variable {types : List TypeExpr} {names : List String} {text : String} {right left : TypeExpr}

/-- Whether a name holds no separator of any key, those of calls included. -/
def isIdentifier (name : String) : Bool :=
  isPlainName name && name.toList.all fun c => c ≠ '(' && c ≠ ';'

theorem plain_of_identifier {name : String} (h : isIdentifier name) : isPlainName name :=
  (Bool.and_eq_true_iff.1 h).1

namespace TypeExpr

mutual

/-- Whether a type can be read back from its name, if the parameters are the given ones. -/
def legible (parameters : List String) : TypeExpr → Bool
  | .primitive name => isIdentifier name && !parameters.contains name
  | .param name => isIdentifier name && parameters.contains name
  | .pointer target => !target.isUnion && target.legible parameters
  | .array _ element => !element.isUnion && element.legible parameters
  | .slice element => !element.isUnion && element.legible parameters
  | .union alternatives => decide (2 ≤ alternatives.length) &&
      alternatives.all (fun type => !type.isUnion) && allLegible parameters alternatives
  | .named name qualifier arguments _ =>
    isIdentifier name && qualifier.all isIdentifier && allLegible parameters arguments

/-- Whether that holds for every type of a list. -/
def allLegible (parameters : List String) : List TypeExpr → Bool
  | [] => true
  | type :: rest => type.legible parameters && allLegible parameters rest

end

variable {parameters : List String}

theorem allLegible_iff : allLegible parameters types ↔ ∀ type ∈ types, type.legible parameters := by
  induction types with
  | nil => simp [allLegible]
  | cons type rest ih => simp [allLegible, ih]

theorem plainAll_of_parts (hplain : ∀ type ∈ types, type.legible parameters → type.plain)
    (h : allLegible parameters types) : plainAll types :=
  plainAll_iff.2 fun type hmem => hplain type hmem (allLegible_iff.1 h type hmem)

theorem plain_of_legible (type : TypeExpr) (h : type.legible parameters) : type.plain := by
  induction type using TypeExpr.induct with
  | step type ih =>
    cases type with
    | primitive | param => exact plain_of_identifier (Bool.and_eq_true_iff.1 h).1
    | pointer part | array _ part | slice part =>
      exact ih part (.head _) (Bool.and_eq_true_iff.1 h).2
    | union alternatives => exact plainAll_of_parts ih (Bool.and_eq_true_iff.1 h).2
    | named name qualifier arguments origin =>
      simp only [legible, Bool.and_eq_true] at h
      simp only [plain, Bool.and_eq_true]
      refine ⟨⟨plain_of_identifier h.1.1, ?_⟩, plainAll_of_parts ih h.2⟩
      cases qualifier with
      | none => rfl
      | some package => exact plain_of_identifier h.1.2

theorem worded_of_legible (type : TypeExpr) (h : type.legible parameters) :
    type.worded parameters parameters (fun _ _ => true) := by
  induction type using TypeExpr.induct with
  | step type ih =>
    have hword {name : String} (hname : isIdentifier name) : isWord name :=
      word_of_plain (plain_of_identifier hname)
    cases type <;> simp_all [legible, worded, allLegible_iff, allWorded_iff, children]

theorem plainAll_of_legible (types : List TypeExpr) (h : allLegible parameters types) :
    plainAll types :=
  plainAll_of_parts (fun type _ => type.plain_of_legible) h

end TypeExpr

section ReadBack

variable {base : TypeTable} {parameters own taken : List String}
  {sound : Option String → String → Bool}

/-- The packages of references have plain names. -/
theorem plain_of_home (hbase : base.Keyed) {ref : TypeRef} (href : ref.plain)
    {home : String} (h : base.home? ref = some home) : isPlainName home := by
  obtain ⟨⟨package, declared⟩, hdeclared, rfl⟩ := Option.map_eq_some_iff.1 h
  exact hbase.scopes href package (TypeTable.lookup_of_declaration hdeclared).1

/-- The names of several types, taken apart. -/
theorem spellings_iff :
    base.spellings? types = some names ↔
      List.Forall₂ (fun type name => base.spelling? type = some name) types names := by
  induction types generalizing names with
  | nil =>
    rw [TypeTable.spellings?, List.forall₂_nil_left_iff]
    exact ⟨fun h => (Option.some.inj h).symm, fun h => by rw [h]⟩
  | cons type rest ih =>
    simp only [TypeTable.spellings?, Option.bind_eq_some_iff, Option.map_eq_some_iff, ih,
      List.forall₂_cons_left_iff]
    exact ⟨fun ⟨name, hname, names', hnames, heq⟩ => ⟨name, names', hname, hnames, heq.symm⟩,
      fun ⟨name, names', hname, hnames, heq⟩ => ⟨name, hname, names', hnames, heq.symm⟩⟩

theorem forall_of_spellings {good : String → Prop}
    (hgood : ∀ type ∈ types, ∀ name, base.spelling? type = some name → good name)
    (h : base.spellings? types = some names) : ∀ name ∈ names, good name := by
  intro name hmem
  obtain ⟨type, htype, hname⟩ := exists_of_mem_left (spellings_iff.1 h).flip hmem
  exact hgood type htype name hname

theorem spellings_length (h : base.spellings? types = some names) : names.length = types.length :=
  (spellings_iff.1 h).length_eq.symm

/-- A name is made of the names written in the type, of digits, and of marks between them. -/
theorem forall_mem_spelling {fine : Char → Prop} (good : TypeExpr → Prop)
    (hmarks : ∀ c ∈ ['#', '$', '[', ']', ':', '<', ',', '>'], fine c)
    (hdigits : ∀ c : Char, c.isDigit → fine c)
    (hchildren : ∀ {type}, good type → ∀ part ∈ type.children, good part)
    (hprimitive : ∀ {name}, good (.primitive name) → ∀ c ∈ name.toList, fine c)
    (hparam : ∀ {name}, good (.param name) → ∀ c ∈ name.toList, fine c)
    (hunion : ∀ {parts}, good (.union parts) → fine ' ' ∧ fine '|')
    (href : ∀ {ref home}, good (TypeRef.toType ref) → base.home? ref = some home →
      (∀ c ∈ home.toList, fine c) ∧ ∀ c ∈ ref.name.toList, fine c)
    (type : TypeExpr) (h : good type) (hname : base.spelling? type = some text) :
    ∀ c ∈ text.toList, fine c := by
  induction type using TypeExpr.induct generalizing text with
  | step type ih =>
    have hpart {part : TypeExpr} (hmem : part ∈ type.children) {inner : String}
        (hinner : base.spelling? part = some inner) : ∀ c ∈ inner.toList, fine c :=
      ih part hmem (hchildren h part hmem) hinner
    have hjoined {separator : String} (hseparator : ∀ c ∈ separator.toList, fine c)
        {types : List TypeExpr} (hsub : types ⊆ type.children) {names : List String}
        (hnames : base.spellings? types = some names) :
        ∀ c ∈ (joinWith separator names).toList, fine c :=
      @joinWith_closed (fun text => ∀ c ∈ text, fine c) (List.forall_mem_nil _)
        (fun h h' => List.forall_mem_append.2 ⟨h, h'⟩) _ hseparator _
        (forall_of_spellings (fun _ hmem _ => hpart (hsub hmem)) hnames)
    simp only [List.forall_mem_cons] at hmarks
    cases type with
    | primitive =>
      cases hname
      exact hprimitive h
    | param =>
      cases hname
      exact hparam h
    | pointer | slice =>
      obtain ⟨inner, hinner, rfl⟩ := Option.map_eq_some_iff.1 hname
      simpa [String.toList_append, hmarks] using hpart (.head _) hinner
    | array length =>
      obtain ⟨inner, hinner, rfl⟩ := Option.map_eq_some_iff.1 hname
      have hinner := hpart (.head _) hinner
      have hlength (c : Char) (hc : c ∈ Nat.toDigits 10 length.toNat) : fine c :=
        hdigits c (Nat.isDigit_of_mem_toDigits (by decide) (by decide) hc)
      simp only [String.toList_append, List.forall_mem_append]
      simpa [hmarks] using ⟨hlength, hinner⟩
    | union =>
      obtain ⟨names, hnames, rfl⟩ := Option.map_eq_some_iff.1 hname
      exact hjoined (by simp [hunion h]) (List.Subset.refl _) hnames
    | named name qualifier arguments origin =>
      obtain ⟨names, hnames, hname⟩ := Option.bind_eq_some_iff.1 hname
      obtain ⟨home, hhome, rfl⟩ := Option.map_eq_some_iff.1 hname
      obtain ⟨hhome, hown⟩ := @href ⟨name, qualifier, arguments, origin⟩ home h hhome
      have hsuffix : ∀ c ∈ (argumentSuffix names).toList, fine c := by
        have hinner := @hjoined "," (by simp [hmarks]) arguments (List.Subset.refl _) names hnames
        cases names with
        | nil => exact List.forall_mem_nil _
        | cons =>
          simp only [argumentSuffix, angled, String.toList_append, List.forall_mem_append]
          simpa [hmarks] using hinner
      simp only [String.toList_append, List.forall_mem_append]
      simpa [hmarks] using ⟨⟨hhome, hown⟩, hsuffix⟩

/-- A name is not empty, unless it is the name of a sum of fewer than two alternatives. -/
theorem spelling_ne_nil {type : TypeExpr} (hplain : type.plain)
    (hmany : ∀ parts, type = .union parts → 2 ≤ parts.length)
    (h : base.spelling? type = some text) : text.toList ≠ [] := by
  cases type with
  | primitive | param =>
    cases h
    obtain ⟨first, rest, hlist, _⟩ := exists_head_of_plain hplain
    simp [hlist]
  | pointer | slice | array =>
    obtain ⟨inner, _, rfl⟩ := Option.map_eq_some_iff.1 h
    simp [String.toList_append]
  | union alternatives =>
    obtain ⟨names, hnames, rfl⟩ := Option.map_eq_some_iff.1 h
    have hcount := hmany alternatives rfl
    rw [← spellings_length hnames] at hcount
    rcases names with _ | ⟨first, _ | ⟨next, rest⟩⟩ <;> simp at hcount
    simp [toList_joinWith_cons]
  | named name qualifier arguments origin =>
    obtain ⟨names, _, h⟩ := Option.bind_eq_some_iff.1 h
    obtain ⟨home, _, rfl⟩ := Option.map_eq_some_iff.1 h
    simp [String.toList_append]

/-- The name of a type that can be read back is the spelling of the type with its packages in
place. -/
theorem spelled_placed (hbase : base.Keyed) (type : TypeExpr) (hplain : type.plain)
    (hworded : type.worded own taken sound) (h : base.spelling? type = some text) :
    (base.placed type).worded own taken TypeExpr.isPlaced ∧ (base.placed type).spelled = text := by
  induction type using TypeExpr.induct generalizing text with
  | step type ih =>
    have hall {types : List TypeExpr} {names : List String} (hsub : types ⊆ type.children)
        (hplains : TypeExpr.plainAll types)
        (hworded : TypeExpr.allWorded own taken sound types)
        (hnames : base.spellings? types = some names) :
        TypeExpr.allWorded own taken TypeExpr.isPlaced (base.placedAll types) ∧
          TypeExpr.spelledAll (base.placedAll types) = names := by
      rw [spellings_iff] at hnames
      induction hnames with
      | nil => exact ⟨rfl, rfl⟩
      | cons hname _ ihrest =>
        obtain ⟨hplain, hplains⟩ := Bool.and_eq_true_iff.1 hplains
        obtain ⟨hfirst, hrest⟩ := Bool.and_eq_true_iff.1 hworded
        obtain ⟨hfirst, hspelled⟩ := ih _ (hsub (.head _)) hplain hfirst hname
        obtain ⟨hrest, hspelleds⟩ := ihrest (fun _ hmem => hsub (.tail _ hmem)) hplains hrest
        simp [TypeTable.placedAll, TypeExpr.allWorded, TypeExpr.spelledAll, *]
    have hpart {part : TypeExpr} (hmem : part ∈ type.children) (hplain : part.plain)
        (hpart : (!part.isUnion && part.worded own taken sound)) {inner : String}
        (hinner : base.spelling? part = some inner) :
        (!(base.placed part).isUnion &&
          (base.placed part).worded own taken TypeExpr.isPlaced) ∧
          (base.placed part).spelled = inner := by
      obtain ⟨hunion, hworded⟩ := Bool.and_eq_true_iff.1 hpart
      obtain ⟨hworded, hspelled⟩ := ih part hmem hplain hworded hinner
      exact ⟨by rw [hworded, base.isUnion_placed, hunion]; rfl, hspelled⟩
    cases type with
    | primitive _ | param _ =>
      cases h
      exact ⟨hworded, rfl⟩
    | pointer _ | array _ _ | slice _ =>
      obtain ⟨inner, hinner, rfl⟩ := Option.map_eq_some_iff.1 h
      obtain ⟨hworded, rfl⟩ := hpart (.head _) hplain hworded hinner
      exact ⟨hworded, rfl⟩
    | union alternatives =>
      obtain ⟨names, hnames, rfl⟩ := Option.map_eq_some_iff.1 h
      simp only [TypeExpr.worded, Bool.and_eq_true] at hworded
      obtain ⟨hall, rfl⟩ := hall (List.Subset.refl _) hplain hworded.2 hnames
      refine ⟨?_, rfl⟩
      rw [TypeTable.placed, TypeExpr.worded, TypeExpr.children] at *
      rw [hall]
      simpa [TypeTable.placedAll_eq_map, base.isUnion_placed] using hworded.1
    | named name qualifier arguments origin =>
      have href : (⟨name, qualifier, arguments, origin⟩ : TypeRef).plain := hplain
      obtain ⟨names, hnames, h⟩ := Option.bind_eq_some_iff.1 h
      obtain ⟨home, hhome, rfl⟩ := Option.map_eq_some_iff.1 h
      simp only [TypeExpr.worded, Bool.and_eq_true] at hworded
      obtain ⟨hall, rfl⟩ :=
        hall (List.Subset.refl _) (TypeRef.plain_iff.1 href).2.2 hworded.2 hnames
      have hplaced := hhome
      rw [TypeTable.home?] at hplaced
      rw [TypeTable.placed, hplaced]
      rw [TypeExpr.children] at *
      refine ⟨?_, rfl⟩
      simp [TypeExpr.worded, TypeExpr.isPlaced, hworded.1.1, hall,
        word_of_plain (plain_of_home hbase href hhome)]

/-- Types that are one with the packages in place match. -/
theorem matches_of_placed (left : TypeExpr) (hleft : left.plain)
    (hright : right.plain) (h : base.placed left = base.placed right) :
    base.Matches left right := by
  induction left using TypeExpr.induct generalizing right with
  | step left ih =>
    have hall {types types' : List TypeExpr} (hsub : types ⊆ left.children)
        (hplain : TypeExpr.plainAll types) (hplain' : TypeExpr.plainAll types')
        (hsame : base.placedAll types = base.placedAll types') :
        List.Forall₂ base.Matches types types' := by
      induction types generalizing types' with
      | nil =>
        cases types' with
        | nil => exact .nil
        | cons => cases hsame
      | cons type rest ihrest =>
        cases types' with
        | nil => cases hsame
        | cons type' rest' =>
          obtain ⟨hfirst, hrest⟩ := List.cons.inj hsame
          rw [TypeExpr.plainAll, Bool.and_eq_true] at hplain hplain'
          exact .cons (ih type (hsub (by simp)) hplain.1 hplain'.1 hfirst)
            (ihrest (fun _ hmem => hsub (by simp [hmem])) hplain.2 hplain'.2 hrest)
    cases left with
    | primitive name =>
      cases right <;> simp_all [TypeTable.placed]
      exact .primitive hright
    | param name =>
      cases right <;> simp_all [TypeTable.placed]
      exact .param hright
    | pointer target =>
      cases right <;> simp only [TypeTable.placed, reduceCtorEq, TypeExpr.pointer.injEq] at h
      exact .pointer (ih target (.head _) hleft hright h)
    | array length element =>
      cases right <;> simp only [TypeTable.placed, reduceCtorEq, TypeExpr.array.injEq] at h
      rw [h.1]
      exact .array _ (ih element (.head _) hleft hright h.2)
    | slice element =>
      cases right <;> simp only [TypeTable.placed, reduceCtorEq, TypeExpr.slice.injEq] at h
      exact .slice (ih element (.head _) hleft hright h)
    | union alternatives =>
      cases right <;> simp only [TypeTable.placed, reduceCtorEq, TypeExpr.union.injEq] at h
      exact .union (hall (List.Subset.refl _) hleft hright h)
    | named name qualifier arguments origin =>
      cases right <;> simp only [TypeTable.placed, reduceCtorEq, TypeExpr.named.injEq] at h
      obtain ⟨rfl, hhomes, harguments, _⟩ := h
      exact .named hleft hright hhomes (hall (List.Subset.refl _) (Bool.and_eq_true_iff.1 hleft).2
        (Bool.and_eq_true_iff.1 hright).2 harguments)

/-- Types that can be read back match if they have one name. -/
theorem matches_of_worded (hbase : base.Keyed) (hleft : left.plain)
    (hright : right.plain) (hworded : left.worded own taken sound)
    (hworded' : right.worded taken own sound) (htext : base.spelling? left = some text)
    (htext' : base.spelling? right = some text) : base.Matches left right := by
  obtain ⟨hplaced, hspelled⟩ := spelled_placed hbase left hleft hworded htext
  obtain ⟨hplaced', hspelled'⟩ := spelled_placed hbase right hright hworded' htext'
  exact matches_of_placed left hleft hright
    (TypeExpr.eq_of_spelled _ hplaced hplaced' (hspelled.trans hspelled'.symm))

/-- Legible types of one name match. -/
theorem matches_of_spelling (hbase : base.Keyed) (hleft : left.legible parameters)
    (hright : right.legible parameters) (htext : base.spelling? left = some text)
    (htext' : base.spelling? right = some text) :
    base.Matches left right :=
  matches_of_worded hbase (left.plain_of_legible hleft) (right.plain_of_legible hright)
    (left.worded_of_legible hleft) (right.worded_of_legible hright) htext htext'

theorem matches_of_spellings (hbase : base.Keyed) {left right : List TypeExpr}
    (hleft : ∀ type ∈ left, type.legible parameters)
    (hright : ∀ type ∈ right, type.legible parameters)
    (hnames : base.spellings? left = some names) (hnames' : base.spellings? right = some names) :
    List.Forall₂ base.Matches left right := by
  rw [spellings_iff] at hnames hnames'
  induction hnames generalizing right with
  | nil =>
    cases hnames'
    exact .nil
  | cons hname _ ih =>
    cases hnames' with
    | cons hname' hnames' =>
      obtain ⟨htype, hothers⟩ := List.forall_mem_cons.1 hleft
      obtain ⟨htype', hothers'⟩ := List.forall_mem_cons.1 hright
      exact .cons (matches_of_spelling hbase htype htype' hname hname')
        (ih hothers hothers' hnames')

end ReadBack

end Accord
