import Accord.Proofs.Generic.Action
import Accord.Proofs.Types.Aliases
import Mathlib.Order.Lattice.Nat
import Mathlib.Data.Prod.Lex

/-!
# Expanding unions

What a union is made of, seen apart from the code: `Spreads` gives the alternatives behind the
aliases of a type, and `Alternative` leads from a union to one of them.  Expanding a type follows
the same relation, but tells types apart by their names and does not enter a name that is on its
path.  Nothing gets lost by that: of the ways to a name that are left, a shortest one runs through
names of lower and lower ranks, so none of them is on the path (`exists_lower`, `gather_complete`).
The exception is a sum of one union, which has the name of that union.
-/

namespace Accord

open List Query Relation TypeTable TypeExpr

/-! ## What a union is made of -/

/-- The alternatives of a union. -/
def TypeBody.union? : TypeBody → Option (List TypeExpr)
  | .union alternatives => some alternatives
  | _ => none

/-- The alternatives that are written in a type, or in the definition that it refers to. -/
def TypeTable.written? (base : TypeTable) : TypeExpr → Option (List TypeExpr)
  | .union alternatives => some alternatives
  | .named name qualifier arguments origin =>
    (base.declaration? ⟨name, qualifier, arguments, origin⟩).bind (·.2.body.union?)
  | _ => none

/-- Behind its aliases the type is a union of the given alternatives. -/
def TypeTable.Spreads (base : TypeTable) (type : TypeExpr) (alternatives : List TypeExpr) : Prop :=
  ∃ bare, ReflTransGen base.Follows type bare ∧ base.written? bare = some alternatives

/-- The type is a union. -/
def TypeTable.IsSum (base : TypeTable) (type : TypeExpr) : Prop :=
  ∃ alternatives, base.Spreads type alternatives

/-- From a union to one of its alternatives. -/
def TypeTable.Alternative (base : TypeTable) (type part : TypeExpr) : Prop :=
  ∃ alternatives, base.Spreads type alternatives ∧ part ∈ alternatives

/-- No sum of one alternative that is a union is reached. -/
def TypeTable.Unmasked (base : TypeTable) (type : TypeExpr) : Prop :=
  ∀ part, ReflTransGen base.Alternative type (.union [part]) → ¬ base.IsSum part

section Spreads

variable {base : TypeTable} {type bare : TypeExpr} {alternatives others : List TypeExpr}
  {ref again : TypeRef}

theorem TypeTable.written?_eq_some (h : base.written? bare = some alternatives) :
    bare = .union alternatives ∨ ∃ (ref : TypeRef) (package : String) (definition : TypeDef),
      bare = ref.toType ∧ base.declaration? ref = some (package, definition) ∧
      definition.body = .union alternatives := by
  cases bare with
  | union others => exact .inl (congrArg _ (Option.some.inj h))
  | named name qualifier arguments origin =>
    obtain ⟨⟨package, definition⟩, hdeclared, hbody⟩ := Option.bind_eq_some_iff.1 h
    refine .inr ⟨_, package, definition, rfl, hdeclared, ?_⟩
    cases hcase : definition.body <;> simp_all [TypeBody.union?]
  | _ => cases h

theorem TypeTable.not_follows_of_written (h : base.written? bare = some alternatives)
    (next : TypeExpr) : ¬ base.Follows bare next := by
  intro hstep
  obtain ⟨ref, rfl⟩ := hstep.exists_ref
  obtain ⟨_, _, hdeclared, hbody⟩ := follows_ref.1 hstep
  simp [written?, TypeRef.toType, hdeclared, hbody, TypeBody.union?] at h

theorem TypeTable.spreads_iff (h : ReflTransGen base.Follows type bare)
    (hlast : ∀ next, ¬ base.Follows bare next) :
    base.Spreads type alternatives ↔ base.written? bare = some alternatives := by
  refine ⟨fun ⟨other, hreaches, hwritten⟩ => ?_, fun hwritten => ⟨bare, h, hwritten⟩⟩
  rwa [Follows.ends_unique h hlast hreaches (not_follows_of_written hwritten)]

theorem TypeTable.Spreads.unique (h : base.Spreads type alternatives)
    (h' : base.Spreads type others) : alternatives = others := by
  obtain ⟨bare, hreaches, hwritten⟩ := h
  have hother := (spreads_iff hreaches (not_follows_of_written hwritten)).1 h'
  exact Option.some.inj (hwritten.symm.trans hother)

/-- A union is a sum, or refers to a definition that is no record. -/
theorem TypeTable.Spreads.shape (h : base.Spreads type alternatives) :
    type = .union alternatives ∨ ∃ (ref : TypeRef) (package : String) (definition : TypeDef),
      type = ref.toType ∧ base.declaration? ref = some (package, definition) ∧
      definition.body.isRecord = false := by
  obtain ⟨bare, hreaches, hwritten⟩ := h
  rcases hreaches.cases_head with rfl | ⟨next, hstep, _⟩
  · refine (written?_eq_some hwritten).imp_right
      fun ⟨ref, package, definition, heq, hdeclared, hbody⟩ =>
      ⟨ref, package, definition, heq, hdeclared, by rw [hbody]; rfl⟩
  · obtain ⟨ref, rfl⟩ := hstep.exists_ref
    obtain ⟨package, definition, hdeclared, hbody⟩ := follows_ref.1 hstep
    exact .inr ⟨ref, package, definition, rfl, hdeclared, by rw [hbody]; rfl⟩

/-- References to one definition have the same alternatives. -/
theorem TypeTable.Spreads.of_declaration (h : base.Spreads ref.toType alternatives)
    (hsame : base.declaration? again = base.declaration? ref) :
    base.Spreads again.toType alternatives := by
  obtain ⟨bare, hreaches, hwritten⟩ := h
  rcases hreaches.cases_head with rfl | ⟨next, hstep, hrest⟩
  · exact ⟨_, .refl, (congrArg (Option.bind · _) hsame).trans hwritten⟩
  · exact ⟨bare, .head (hstep.of_declaration hsame) hrest, hwritten⟩

end Spreads

/-! ## Types that can be told by their names -/

/-- Sums stand at the top only. -/
inductive TypeExpr.Flat : TypeExpr → Prop where
  | sumless {type : TypeExpr} (sumless : type.hasSum = false) : Flat type
  | sum {alternatives : List TypeExpr} (parts : ∀ part ∈ alternatives, Flat part) :
      Flat (.union alternatives)

/-- A type with plain names in which every reference is known, with sums at the top only. -/
structure TypeTable.Tidy (base : TypeTable) (type : TypeExpr) : Prop where
  plain : type.plain = true
  known : ∃ name, base.spelling? type = some name
  flat : type.Flat

/-- Definitions without type parameters are made of tidy types. -/
structure TypeTable.Regular (base : TypeTable) : Prop where
  variant : base.Variant base
  tidy : ∀ entry ∈ base.stored, entry.2.isGeneric = false →
    ∀ part ∈ entry.2.body.components, base.Tidy part

section Tidy

variable {base : TypeTable} {type part last : TypeExpr} {parts : List TypeExpr} {name : String}

theorem spelling_union : base.spelling? (.union parts) = some name ↔ ∃ names,
    Forall₂ (fun part own => base.spelling? part = some own) parts names ∧
      joinWith " | " names = name := by
  simp only [spelling?, Option.map_eq_some_iff, spellings_iff]

theorem TypeTable.Tidy.of_mem (h : base.Tidy (.union parts)) (hmem : part ∈ parts) :
    base.Tidy part := by
  obtain ⟨name, hname⟩ := h.known
  obtain ⟨names, hnames, _⟩ := spelling_union.1 hname
  obtain ⟨own, _, hown⟩ := exists_of_mem_left hnames hmem
  refine ⟨plainAll_iff.1 h.plain part hmem, ⟨own, hown⟩, ?_⟩
  cases h.flat with
  | sumless hsum => cases hsum
  | sum hparts => exact hparts part hmem

/-- The name of a tidy type that is no sum is built without sums. -/
theorem TypeTable.Tidy.sumless (h : base.Tidy type) (hunion : type.isUnion = false) :
    type.hasSum = false := by
  cases h.flat with
  | sumless hsum => exact hsum
  | sum => cases hunion

/-- A definition that is no record has no type parameters. -/
theorem TypeTable.Variant.arguments (hbase : base.Variant base) {ref : TypeRef} (hplain : ref.plain)
    {package : String} {definition : TypeDef}
    (h : base.declaration? ref = some (package, definition))
    (hbody : definition.body.isRecord = false) : ref.arguments = [] := by
  by_contra harguments
  have hrecord := hbase.plain.generics _ (mem_stored_of_declaration h)
    ((isGeneric_of_declaration hbase.spelled hplain h).2 harguments)
  rw [hbody] at hrecord
  cases hrecord

theorem TypeTable.Regular.hereditary (hbase : base.Regular) : base.Hereditary base.Tidy where
  plain h := h.plain
  alternatives h _ := h.of_mem
  components h hnil hdeclared := by
    have hgeneric := mt (isGeneric_of_declaration hbase.variant.spelled h.plain hdeclared).1
      (not_not.2 hnil)
    exact hbase.tidy _ (mem_stored_of_declaration hdeclared) (by simpa using hgeneric)

theorem names_iff_spelling (hbase : base.Variant base) (hplain : type.plain) :
    base.Names type name ↔ base.spelling? type = some name :=
  answer_eq_ok.symm.trans
    (answer_canonicalName hbase.spelled.confines (hbase.spelled.grownBy _) hplain)

variable {good : TypeExpr → Prop} (hbase : base.Variant base) (hgood : base.Hereditary good)

include hbase

theorem TypeTable.Tidy.of_names (hplain : type.plain) (hname : ∃ name, base.Names type name)
    (hflat : type.Flat) : base.Tidy type :=
  ⟨hplain, hname.imp fun _ => (names_iff_spelling hbase hplain).1, hflat⟩

theorem TypeTable.Regular.of_names (h : ∀ entry ∈ base.stored, entry.2.isGeneric = false →
    ∀ part ∈ entry.2.body.components, (∃ name, base.Names part name) ∧ part.Flat) :
    base.Regular := by
  refine ⟨hbase, fun entry hentry hgeneric part hpart => ?_⟩
  obtain ⟨hname, hflat⟩ := h entry hentry hgeneric part hpart
  exact .of_names hbase (hbase.spelled.plainBody ⟨_, .inl hentry⟩ part hpart) hname hflat

include hgood

theorem TypeTable.Hereditary.follows (h : good type)
    (hreaches : ReflTransGen base.Follows type last) :
    good last := by
  induction hreaches with
  | refl => exact h
  | tail _ hstep ih =>
    obtain ⟨ref, rfl⟩ := hstep.exists_ref
    obtain ⟨_, _, hdeclared, hbody⟩ := follows_ref.1 hstep
    exact hgood.components ih (hstep.arguments hbase.spelled hbase.fixedAliases (hgood.plain ih))
      hdeclared _ (by simp [hbody, TypeBody.components])

theorem TypeTable.Hereditary.alternative (h : good type) (hstep : base.Alternative type part) :
    good part := by
  obtain ⟨alternatives, ⟨bare, hreaches, hwritten⟩, hmem⟩ := hstep
  have hbare := hgood.follows hbase h hreaches
  rcases written?_eq_some hwritten with rfl | ⟨ref, _, _, rfl, hdeclared, hbody⟩
  · exact hgood.alternatives hbare part hmem
  · exact hgood.components hbare
      (hbase.arguments (hgood.plain hbare) hdeclared (by rw [hbody]; rfl))
      hdeclared part (by simpa [hbody, TypeBody.components] using hmem)

theorem TypeTable.Hereditary.reached (h : good type)
    (hreaches : ReflTransGen base.Alternative type last) : good last := by
  induction hreaches with
  | refl => exact h
  | tail _ hstep ih => exact hgood.alternative hbase ih hstep

end Tidy

/-! ## Words of names -/

/-- The characters between the names of alternatives. -/
def isBar (c : Char) : Bool :=
  c == ' ' || c == '|'

/-- The word stands in the text between bars. -/
def HasWord (text word : String) : Prop :=
  word.toList ≠ [] ∧ word.toList ∈ text.toList.splitOnP isBar

section Words

variable {names : List String} {name word : String}

/-- The words of joined names are the words of the names. -/
theorem hasWord_joinWith :
    HasWord (joinWith " | " names) word ↔ ∃ name ∈ names, HasWord name word := by
  by_cases hword : word.toList = []
  · simp [HasWord, hword]
  induction names with
  | nil => simp [joinWith, HasWord, hword]
  | cons name rest ih =>
    cases rest with
    | nil => simp [joinWith]
    | cons next rest =>
      have hbars (front behind : List Char) : (front ++ (" | ".toList ++ behind)).splitOnP isBar =
          front.splitOnP isBar ++ ([[], []] ++ behind.splitOnP isBar) := by
        change (front ++ ' ' :: ([] ++ '|' :: ([] ++ ' ' :: behind))).splitOnP isBar = _
        rw [splitOnP_append_cons _ _ rfl, splitOnP_append_cons _ _ rfl,
          splitOnP_append_cons _ _ rfl]
        rfl
      rw [exists_mem_cons_iff, ← ih, HasWord, toList_joinWith_cons, hbars]
      simp [HasWord, hword]

/-- A joined name is longer than each of its parts. -/
theorem length_joinWith (hmem : name ∈ names) :
    name.length + names.length ≤ (joinWith " | " names).length + 1 := by
  induction names generalizing name with
  | nil => cases hmem
  | cons first rest ih =>
    cases rest with
    | nil => simp [mem_singleton.1 hmem, joinWith]
    | cons next rest =>
      have hnext := ih (mem_cons_self ..)
      have hlength : (joinWith " | " (first :: next :: rest)).length =
          first.length + 3 + (joinWith " | " (next :: rest)).length := by
        simp [joinWith, String.length_append]
        rfl
      rcases mem_cons.1 hmem with rfl | hrest
      · simp only [length_cons] at *
        omega
      · have := ih hrest
        simp only [length_cons] at *
        omega

/-- A text that is one word. -/
structure Solid (text : List Char) : Prop where
  nonempty : text ≠ []
  barless : ∀ c ∈ text, isBar c = false

theorem Solid.hasWord (h : Solid name.toList) : HasWord name word ↔ word = name := by
  rw [HasWord, splitOnP_eq_singleton h.barless, mem_singleton, String.toList_inj]
  exact and_iff_right_of_imp fun heq => heq ▸ h.nonempty

theorem barless_of_plain (h : isPlainName name) : ∀ c ∈ name.toList, isBar c = false := by
  intro c hc
  by_contra hbar
  simp only [isBar, Bool.not_eq_false, Bool.or_eq_true, beq_iff_eq] at hbar
  rcases hbar with rfl | rfl <;> exact not_mem_of_plain h rfl hc

end Words

section Names

variable {base : TypeTable} {type : TypeExpr} {name own : String}

/-- The name of a type in which no sum is written is one word. -/
theorem solid_of_spelling (hbase : base.Keyed) (type : TypeExpr) (hplain : type.plain)
    (hsum : type.hasSum = false) (h : base.spelling? type = some name) : Solid name.toList := by
  refine ⟨spelling_ne_nil hplain (by rintro parts rfl; cases hsum) h, ?_⟩
  refine forall_mem_spelling (fun type => type.plain ∧ type.hasSum = false) (by simp [isBar])
    (fun c hc => ?_) (fun {type} h => ?_) (fun h => barless_of_plain h.1)
    (fun h => barless_of_plain h.1) (fun h => nomatch h.2)
    (fun h hhome => ⟨barless_of_plain (plain_of_home hbase h.1 hhome),
      barless_of_plain (TypeRef.plain_iff.1 h.1).1⟩) type ⟨hplain, hsum⟩ h
  · by_contra hbar
    simp only [isBar, Bool.not_eq_false, Bool.or_eq_true, beq_iff_eq] at hbar
    rcases hbar with rfl | rfl <;> cases hc
  · cases type <;> simp_all [children, TypeExpr.plain, plainAll_iff, hasSum, anySum_eq_false]

/-- A type without sums can be read back. -/
theorem worded_of_sumless (type : TypeExpr) {own : List String} (hplain : type.plain)
    (hown : ∀ name ∈ type.parameters, name ∈ own) (hsum : type.hasSum = false) :
    type.worded own [] (fun _ _ => true) := by
  induction type using induct with
  | step type ih =>
    have hunion {part : TypeExpr} (hpart : part.hasSum = false) : part.isUnion = false := by
      cases part <;> trivial
    cases type with
    | named name qualifier arguments origin =>
      simp only [parameters, parametersAll_eq, mem_flatMap] at hown
      simp only [TypeExpr.plain, plainAll_iff, Bool.and_eq_true] at hplain
      simp only [worded, allWorded_iff, word_of_plain hplain.1.1, Bool.true_and]
      exact fun part hmem => ih part hmem (hplain.2 part hmem)
        (fun name hname => hown name ⟨part, hmem, hname⟩) (anySum_eq_false.1 hsum part hmem)
    | _ => simp_all [children, worded, hasSum, parameters, TypeExpr.plain, word_of_plain]

theorem parameters_of_closed (type : TypeExpr) (h : type.isGeneric = false) :
    type.parameters = [] := by
  induction type using induct with
  | step type ih =>
    cases type <;> simp_all [children, parameters, parametersAll_eq, isGeneric, anyGeneric_eq_false]

/-- Sums apart, only references to the same definition have the name of a union. -/
theorem TypeTable.Spreads.of_spelling (hbase : base.Regular) {other : TypeExpr}
    {alternatives : List TypeExpr} (h : base.Spreads type alternatives) (htype : base.Tidy type)
    (hunion : type.isUnion = false) (hother : base.Tidy other) (hunion' : other.isUnion = false)
    (hname : base.spelling? type = some name) (hname' : base.spelling? other = some name) :
    base.Spreads other alternatives := by
  rcases h.shape with rfl | ⟨ref, package, definition, rfl, hdeclared, hbody⟩
  · cases hunion
  have hnil := hbase.variant.arguments htype.plain hdeclared hbody
  have hworded : ref.toType.worded [] other.parameters (fun _ _ => true) := by
    simp [TypeRef.toType, worded, hnil, allWorded,
      word_of_plain (TypeRef.plain_iff.1 htype.plain).1]
  have hmatches := matches_of_worded hbase.variant.spelled.toKeyed hother.plain htype.plain
    (worded_of_sumless other hother.plain (fun _ => id) (hother.sumless hunion')) hworded hname'
    hname
  obtain ⟨text, qualifier, arguments, origin⟩ := ref
  cases hmatches with
  | named _ _ hhomes harguments =>
    rw [home?, home?, hdeclared] at hhomes
    obtain ⟨⟨_, definition'⟩, hdeclared', rfl⟩ := Option.map_eq_some_iff.1 hhomes
    obtain rfl := declaration_unique hdeclared' hdeclared rfl harguments.length_eq
    exact h.of_declaration (hdeclared'.trans hdeclared.symm)

end Names

/-! ## Ways to a name -/

/-- Through that many definitions the word leads to the goal.  Where it leads depends on the word
only, since the types of one name have the same alternatives. -/
def TypeTable.Gives (base : TypeTable) (goal : String) : Nat → String → Prop
  | 0, word => word = goal
  | count + 1, word => ∃ type part name next, base.Tidy type ∧ type.isUnion = false ∧
    base.spelling? type = some word ∧ base.Alternative type part ∧
    base.spelling? part = some name ∧ HasWord name next ∧ base.Gives goal count next

/-- The lengths of the ways from the words of a name to the goal. -/
def TypeTable.ways (base : TypeTable) (goal name : String) : Set Nat :=
  {count | ∃ word, HasWord name word ∧ base.Gives goal count word}

/-- How far a name is from the goal; of two that are equally far, the shorter name comes first. -/
noncomputable def TypeTable.rank (base : TypeTable) (goal name : String) : ℕ ×ₗ ℕ :=
  toLex (sInf (base.ways goal name), name.length)

/-- The name of a type that is no union. -/
def TypeTable.Leaf (base : TypeTable) (goal : String) : Prop :=
  ∃ last, base.Tidy last ∧ ¬ base.IsSum last ∧ base.spelling? last = some goal

section Ways

variable {base : TypeTable} {type part last : TypeExpr} {goal own name word : String}
  {alternatives : List TypeExpr} {count : Nat}

theorem TypeTable.rank_lt (h : count ∈ base.ways goal name)
    (hlt : count < sInf (base.ways goal own) ∨
      count = sInf (base.ways goal own) ∧ name.length < own.length) :
    base.rank goal name < base.rank goal own := by
  have hle : sInf (base.ways goal name) ≤ count := Nat.sInf_le h
  rw [rank, rank, Prod.Lex.toLex_lt_toLex]
  dsimp only
  omega

theorem isUnion_of_not_sum (h : ¬ base.IsSum type) : type.isUnion = false := by
  cases type with
  | union parts => exact absurd ⟨parts, _, .refl, rfl⟩ h
  | _ => rfl

theorem hasWord_union {parts : List TypeExpr} (h : base.spelling? (.union parts) = some name) :
    HasWord name word ↔
      ∃ part ∈ parts, ∃ own, base.spelling? part = some own ∧ HasWord own word := by
  obtain ⟨names, hnames, rfl⟩ := spelling_union.1 h
  rw [hasWord_joinWith]
  constructor
  · rintro ⟨own, hmem, hword⟩
    obtain ⟨part, hpart, hown⟩ := exists_of_mem_left (Forall₂.flip hnames) hmem
    exact ⟨part, hpart, own, hown, hword⟩
  · rintro ⟨part, hpart, own, hown, hword⟩
    obtain ⟨other, hmem, hother⟩ := exists_of_mem_left hnames hpart
    exact ⟨own, Option.some.inj (hown.symm.trans hother) ▸ hmem, hword⟩

theorem length_lt_union {parts : List TypeExpr} (h : base.spelling? (.union parts) = some name)
    (hmem : part ∈ parts) (hown : base.spelling? part = some own) (hmany : 2 ≤ parts.length) :
    own.length < name.length := by
  obtain ⟨names, hnames, rfl⟩ := spelling_union.1 h
  obtain ⟨other, hother, hspelling⟩ := exists_of_mem_left hnames hmem
  obtain rfl := Option.some.inj (hown.symm.trans hspelling)
  have hlength := length_joinWith hother
  have hsame := hnames.length_eq
  omega

variable (hbase : base.Regular)

include hbase

/-- Sums apart, a name is one word. -/
theorem TypeTable.Tidy.hasWord (h : base.Tidy type) (hunion : type.isUnion = false)
    (hname : base.spelling? type = some name) : HasWord name word ↔ word = name :=
  (solid_of_spelling hbase.variant.spelled.toKeyed type h.plain (h.sumless hunion) hname).hasWord

/-- Words from which a way starts are names of unions. -/
theorem eq_goal_of_gives (h : base.Tidy type) (hsingle : ¬ base.IsSum type)
    (hname : base.spelling? type = some name) (hgives : base.Gives goal count name) :
    name = goal := by
  cases count with
  | zero => exact hgives
  | succ count =>
    obtain ⟨other, _, _, _, hother, hunion, hname', ⟨alternatives, hspreads, _⟩, _⟩ := hgives
    exact absurd ⟨alternatives, hspreads.of_spelling hbase hother hunion h
      (isUnion_of_not_sum hsingle) hname' hname⟩ hsingle

theorem nonempty_ways (h : base.Tidy type) (hown : base.spelling? type = some own)
    (hreaches : ReflTransGen base.Alternative type last) (hsingle : ¬ base.IsSum last)
    (hgoal : base.spelling? last = some goal) : (base.ways goal own).Nonempty := by
  induction hreaches using ReflTransGen.head_induction_on generalizing own with
  | refl =>
    obtain rfl := Option.some.inj (hown.symm.trans hgoal)
    exact ⟨0, own, (h.hasWord hbase (isUnion_of_not_sum hsingle) hown).2 rfl, rfl⟩
  | @head type part hstep _ ih =>
    have hpart := hbase.hereditary.alternative hbase.variant h hstep
    obtain ⟨name, hname⟩ := hpart.known
    obtain ⟨count, word, hword, hgives⟩ := ih hpart hname
    obtain ⟨alternatives, hspreads, hmem⟩ := id hstep
    rcases hspreads.shape with rfl | ⟨ref, _, _, rfl, _⟩
    · exact ⟨count, word, (hasWord_union hown).2 ⟨part, hmem, name, hname, hword⟩, hgives⟩
    · exact ⟨count + 1, own, (h.hasWord hbase rfl hown).2 rfl, _, part, name, word, h, rfl, hown,
        hstep, hname, hword, hgives⟩

/-- From a union a shortest way goes on to one of its alternatives, of a lower rank. -/
theorem exists_lower (h : base.Tidy type) (hown : base.spelling? type = some own)
    (hspreads : base.Spreads type alternatives) (hunmasked : base.Unmasked type)
    (hends : base.Leaf goal) (hways : (base.ways goal own).Nonempty) :
    ∃ part ∈ alternatives, ∃ name, base.spelling? part = some name ∧
      (base.ways goal name).Nonempty ∧
      (base.IsSum part → base.rank goal name < base.rank goal own) := by
  obtain ⟨word, hword, hgives⟩ := Nat.sInf_mem hways
  rcases hspreads.shape with rfl | ⟨ref, _, _, rfl, _⟩
  · obtain ⟨part, hmem, name, hname, hword⟩ := (hasWord_union hown).1 hword
    refine ⟨part, hmem, name, hname, ⟨_, word, hword, hgives⟩, fun hsum =>
      rank_lt ⟨word, hword, hgives⟩ (.inr ⟨rfl, ?_⟩)⟩
    match alternatives, hmem with
    | [_], hmem =>
      obtain rfl := mem_singleton.1 hmem
      exact absurd hsum (hunmasked part .refl)
    | _ :: _ :: _, hmem => exact length_lt_union hown hmem hname (by simp)
  · obtain rfl := (h.hasWord hbase rfl hown).1 hword
    cases hcount : sInf (base.ways goal word) with
    | zero =>
      -- The goal is the name of no union.
      rw [hcount] at hgives
      obtain ⟨last, hlast, hsingle, hgoal⟩ := hends
      rw [← show word = goal from hgives] at hgoal
      exact absurd ⟨_, hspreads.of_spelling hbase h rfl hlast (isUnion_of_not_sum hsingle) hown
        hgoal⟩ hsingle
    | succ less =>
      rw [hcount] at hgives
      obtain ⟨other, part, name, next, hother, hunion, hname', ⟨others, hothers, hmem⟩, hname, hnext,
        hrest⟩ := hgives
      obtain rfl := (hothers.of_spelling hbase hother hunion h rfl hname' hown).unique hspreads
      exact ⟨part, hmem, name, hname, ⟨less, next, hnext, hrest⟩, fun _ =>
        rank_lt ⟨next, hnext, hrest⟩ (.inl (by omega))⟩

end Ways

/-! ## Gathering -/

/-- The goal is reached from the type if it is no union, or along names of lower ranks than those
that have been passed. -/
structure TypeTable.Awaits (base : TypeTable) (path : List String) (type : TypeExpr)
    (goal : String) : Prop where
  unmasked : base.Unmasked type
  leaf : base.Leaf goal
  ways : ∀ own, base.spelling? type = some own → (base.ways goal own).Nonempty ∧
    (base.IsSum type → ∀ passed ∈ path, base.rank goal own < base.rank goal passed)

section Gathering

variable {base : TypeTable} {root type : TypeExpr} {name own goal : String} {gathered : Gathered}
  {path : List String} {alternatives : List TypeExpr}

/-- Each step adds what is asked of its item, and what has been added stays. -/
theorem Query.Guards.foldlM_each {σ α ι : Type} {inv : σ → Prop} {mild : Diagnostic → Prop}
    {names : α → List String} (wanted : ι → String → Prop) {step : α → ι → Query σ α}
    {items : List ι}
    (hstep : ∀ i ∈ items, ∀ a, Guards inv
      (fun b => names a ⊆ names b ∧ ∀ goal, wanted i goal → goal ∈ names b) mild (step a i))
    (a : α) :
    Guards inv (fun b => names a ⊆ names b ∧ ∀ i ∈ items, ∀ goal, wanted i goal → goal ∈ names b)
      mild (items.foldlM step a) := by
  induction items generalizing a with
  | nil => exact .pure ⟨Subset.refl _, by simp⟩
  | cons i rest ih =>
    obtain ⟨hfirst, hrest⟩ := forall_mem_cons.1 hstep
    rw [foldlM_cons]
    refine (hfirst a).bind fun b ⟨hkept, hnew⟩ => (ih hrest b).mono fun c ⟨hlater, hall⟩ => ?_
    exact ⟨Subset.trans hkept hlater,
      forall_mem_cons.2 ⟨fun goal hgoal => hlater (hnew goal hgoal), hall⟩⟩

variable (hbase : base.Regular)

include hbase

theorem TypeTable.Awaits.alternative (h : base.Awaits path type goal) (htype : base.Tidy type)
    (hown : base.spelling? type = some own) (hspreads : base.Spreads type alternatives) :
    ∃ part ∈ alternatives, base.Awaits (own :: path) part goal := by
  obtain ⟨hways, hranks⟩ := h.ways own hown
  obtain ⟨part, hmem, name, hname, hnext, hlower⟩ :=
    exists_lower hbase htype hown hspreads h.unmasked h.leaf hways
  refine ⟨part, hmem, fun inner hreaches => h.unmasked inner (hreaches.head ⟨_, hspreads, hmem⟩),
    h.leaf, fun other hother => ?_⟩
  obtain rfl := Option.some.inj (hname.symm.trans hother)
  refine ⟨hnext, fun hsum => forall_mem_cons.2 ⟨hlower hsum, fun passed hpassed => ?_⟩⟩
  exact (hlower hsum).trans (hranks ⟨_, hspreads⟩ passed hpassed)

theorem TypeTable.Awaits.eq_goal (h : base.Awaits path type goal) (htype : base.Tidy type)
    (hsingle : ¬ base.IsSum type) (hname : base.spelling? type = some name) : name = goal := by
  obtain ⟨count, word, hword, hgives⟩ := (h.ways name hname).1
  obtain rfl := (htype.hasWord hbase (isUnion_of_not_sum hsingle) hname).1 hword
  exact eq_goal_of_gives hbase htype hsingle hname hgives

theorem TypeTable.Tidy.named (h : base.Tidy type) : Guards base.PlainlyGrown
    (fun name => base.spelling? type = some name) (fun _ => False) (canonicalName type) := by
  obtain ⟨name, hname⟩ := h.known
  refine (canonicalName_named hbase.variant.spelled h.plain).relax fun cause hcause => ?_
  cases hname.symm.trans hcause.1

/-- What is looked up for a tidy reference holds the alternatives that are declared. -/
theorem directAlternativesOf_written (h : base.Tidy type) : Guards base.PlainlyGrown
    (· = base.written? type) (fun _ => False) (directAlternativesOf type) := by
  cases type with
  | named text qualifier arguments origin =>
    let ref : TypeRef := ⟨text, qualifier, arguments, origin⟩
    have hplain : ref.plain := h.plain
    have hretrieve : Guards base.PlainlyGrown
        (fun found => found.body.union? = base.written? ref.toType) (fun _ => False)
        (retrieve ref) := by
      refine (retrieve_answers hbase.variant.spelled hplain
        fun {answer _ table} htable _ hanswer => ?_).relax fun cause hcause => ?_
      · obtain ⟨generic, hdeclared, heq⟩ := hanswer.declared
        have hwritten : base.written? ref.toType = generic.body.union? :=
          congrArg (Option.bind · _) hdeclared
        rw [hwritten]
        by_cases hnil : ref.arguments = []
        · rw [heq hnil]
        -- What is generic is a record, and so are its instances.
        have hgeneric := hbase.variant.plain.generics _ (mem_stored_of_declaration hdeclared)
          ((isGeneric_of_declaration hbase.variant.spelled hplain hdeclared).2 hnil)
        have hmade : ∀ entry ∈ table.instances, entry.2.body.isRecord := fun entry hentry =>
          (htable.entries entry hentry).elim (hbase.variant.orderly.instanceRecords entry)
            fun hnew => hnew.shaped hbase.variant.spelled
              (fun rules body => (body.isRecord_substitute rules).trans)
              hbase.variant.plain.generics
        have hfound := hmade _ (hanswer.entered hnil)
        cases hbody : answer.2.body <;> cases hbody' : generic.body <;>
          simp_all [TypeBody.isRecord, TypeBody.union?]
      · obtain ⟨name, hname⟩ := h.known
        cases hname.symm.trans hcause.1
    refine hretrieve.bind fun found hfound => ?_
    cases hbody : found.body <;> (rw [hbody] at hfound; exact Guards.pure hfound)
  | _ => exact Guards.pure rfl

theorem directAlternatives_spreads (fuel : Nat) (h : base.Tidy type)
    (hends : ¬ base.Circles type) : Guards base.PlainlyGrown
      (fun direct => ∀ alternatives, base.Spreads type alternatives ↔ direct = some alternatives)
      (· = .limitReached) (directAlternatives fuel type) := by
  rw [directAlternatives_eq]
  refine ((unalias_follows hbase.variant.spelled hbase.variant.fixedAliases fuel h.plain).relax
    fun cause hcause => ?_).bind fun bare ⟨hreaches, hrests⟩ => ?_
  · cases hcause with
    | exhausted => rfl
    | unknown _ hreaches hdangles =>
      obtain ⟨ref, rfl, hnone⟩ := hdangles
      obtain ⟨name, hname⟩ := (hbase.hereditary.follows hbase.variant h hreaches).known
      cases hname.symm.trans hnone
    | cyclic _ hcircles => exact absurd hcircles hends
  · refine ((directAlternativesOf_written hbase (hbase.hereditary.follows hbase.variant h
      hreaches)).mono ?_).relax fun _ => False.elim
    rintro _ rfl alternatives
    exact spreads_iff hreaches hrests.last

theorem directAlternatives_ends (h : base.Tidy type) :
    Settles base.PlainlyGrown (fun _ => True) fun fuel => directAlternatives fuel type := by
  have hspelled := hbase.variant.spelled
  have hfixed := hbase.variant.fixedAliases
  simp only [directAlternatives_eq]
  refine ((unaliasFrom_settles_of_fixed hspelled hfixed h.plain []).guarded
    fun fuel => unalias_follows hspelled hfixed fuel h.plain).bind fun bare ⟨_, hreaches, _⟩ => ?_
  exact ((directAlternativesOf_written hbase (hbase.hereditary.follows hbase.variant h
    hreaches)).settles fun _ => False.elim).mono fun _ _ => trivial

/-- The name of a union is a key of the table, unless the union is a sum. -/
theorem mem_keys_of_spreads (h : base.Tidy type) (hspreads : base.Spreads type alternatives)
    (hown : base.spelling? type = some own) : type = .union alternatives ∨ own ∈ base.keys := by
  refine hspreads.shape.imp_right ?_
  rintro ⟨ref, package, definition, rfl, hdeclared, hbody⟩
  have hspelling :=
    spelling_of_declaration (hbase.variant.arguments h.plain hdeclared hbody) hdeclared
  rw [← Option.some.inj (hspelling.symm.trans hown)]
  exact mem_append_left _ (mem_map_of_mem (mem_stored_of_declaration hdeclared))

section Root

variable (hroot : base.Tidy root)
  (hends : ∀ part, ReflTransGen base.Alternative root part → ¬ base.Circles part)

include hroot hends

/-- What is gathered from a type are types that it leads to and that are no unions, one for each
name. -/
theorem gather_collects (fuel : Nat) :
    Guards base.PlainlyGrown (Gathered.Collects fun part name =>
      TransGen base.Alternative root part ∧ ¬ base.IsSum part ∧ base.spelling? part = some name)
      (· = .limitReached) (gather fuel [] root {}) := by
  have htidy {part : TypeExpr} (hpart : ReflTransGen base.Alternative root part) :=
    hbase.hereditary.reached hbase.variant hroot hpart
  refine gather_guards (by exact rfl) (fun _ => TransGen.to_reflTransGen)
    (fun fuel type hpart => ?_)
    (fun hpart => ((htidy hpart).named hbase).relax fun _ => False.elim) fuel [] .refl .nil
  refine (directAlternatives_spreads hbase fuel (htidy hpart) (hends type hpart)).mono
    fun direct hdirect => ⟨?_, ?_⟩
  · rintro rfl ⟨alternatives, hspreads⟩
    exact nomatch (hdirect alternatives).1 hspreads
  · rintro types rfl part hmem
    exact .tail' hpart ⟨types, (hdirect types).2 rfl, hmem⟩

theorem gather_ends :
    Settles base.PlainlyGrown (fun _ => True) fun fuel => gather fuel [] root {} := by
  have htidy {part : TypeExpr} (hpart : ReflTransGen base.Alternative root part) :=
    hbase.hereditary.reached hbase.variant hroot hpart
  refine (gather_settles base (fun _ => True) (fun {type} hpart => ?_)
    (fun hpart => ((htidy hpart).named hbase).settles fun _ => False.elim) [] root .refl {}
    (forall_mem_nil _)).mono fun _ _ => trivial
  refine ((directAlternatives_ends hbase (htidy hpart)).guarded fun fuel =>
    directAlternatives_spreads hbase fuel (htidy hpart) (hends type hpart)).mono
    fun direct ⟨_, hdirect⟩ => ⟨fun _ => trivial, fun types htypes => ?_⟩
  have hspreads := (hdirect types).2 htypes
  exact ⟨fun part hmem => hpart.tail ⟨types, hspreads, hmem⟩,
    (em (type = .union types)).imp_right fun hunion name hname =>
      (mem_keys_of_spreads hbase (htidy hpart) hspreads hname).resolve_left hunion⟩

/-- Gathering goes on along the names of lower and lower ranks, which have not been passed. -/
theorem gather_complete (fuel : Nat) (path : List String) (gathered : Gathered)
    (hpart : ReflTransGen base.Alternative root type) :
    Guards base.PlainlyGrown (fun found => gathered.names ⊆ found.names ∧
      ∀ goal, base.IsSum type ∧ base.Awaits path type goal → goal ∈ found.names)
      (· = .limitReached) (gather fuel path type gathered) := by
  induction fuel generalizing path type gathered with
  | zero => exact .throw rfl
  | succ fuel ih =>
    have htidy {part : TypeExpr} (hpart : ReflTransGen base.Alternative root part) :=
      hbase.hereditary.reached hbase.variant hroot hpart
    have hdirect {part : TypeExpr} (hpart : ReflTransGen base.Alternative root part) :=
      directAlternatives_spreads hbase fuel (htidy hpart) (hends part hpart)
    have hname {part : TypeExpr} (hpart : ReflTransGen base.Alternative root part) :=
      @Guards.relax (· = .limitReached) _ _ _ _ _ _ ((htidy hpart).named hbase) fun _ => False.elim
    rw [gather_eq]
    refine (hdirect hpart).bind fun direct hwritten => ?_
    cases direct with
    | none =>
      refine .pure ⟨Subset.refl _, fun goal ⟨⟨alternatives, hspreads⟩, _⟩ => ?_⟩
      exact nomatch (hwritten alternatives).1 hspreads
    | some alternatives =>
      have hspreads := (hwritten alternatives).2 rfl
      refine (hname hpart).bind fun own hown => ?_
      by_cases hmem : own ∈ path
      · rw [if_pos (contains_iff_mem.2 hmem)]
        refine .pure ⟨Subset.refl _, fun goal ⟨hsum, hawaits⟩ => ?_⟩
        exact absurd ((hawaits.ways own hown).2 hsum own hmem) (lt_irrefl _)
      rw [if_neg (by simpa using hmem)]
      refine (Guards.foldlM_each (base.Awaits (own :: path))
        (fun part hmem sofar => ?_) gathered).mono
        fun found ⟨hkept, hall⟩ => ⟨hkept, fun goal ⟨_, hawaits⟩ => ?_⟩
      · have hpart := hpart.tail ⟨alternatives, hspreads, hmem⟩
        refine (hdirect hpart).bind fun inner hinner => ?_
        cases inner with
        | some others =>
          exact (ih _ sofar hpart).mono fun found ⟨hkept, hall⟩ =>
            ⟨hkept, fun goal hawaits => hall goal ⟨⟨others, (hinner others).2 rfl⟩, hawaits⟩⟩
        | none =>
          have hsingle : ¬ base.IsSum part := fun ⟨others, hothers⟩ =>
            nomatch (hinner others).1 hothers
          refine (hname hpart).bind fun name hown => .pure ?_
          obtain ⟨hkept, hadded⟩ := sofar.mem_names_add name part
          exact ⟨hkept, fun goal hawaits =>
            hawaits.eq_goal hbase (htidy hpart) hsingle hown ▸ hadded⟩
      · obtain ⟨part, hmem, hnext⟩ := hawaits.alternative hbase (htidy hpart) hown hspreads
        exact hall part hmem goal hnext

end Root

end Gathering

/-! ## Tables with a history -/

section Exact

variable {base : TypeTable} {type : TypeExpr} {name : String}

/-- Where no sums stand in definitions, a sum is met only at the start. -/
theorem unmasked_of_sumless
    (h : ∀ entry ∈ base.stored, ∀ part ∈ entry.2.body.components, part.isUnion = false)
    (htype : ∀ parts, type = .union parts →
      parts.length ≠ 1 ∧ ∀ part ∈ parts, part.isUnion = false) : base.Unmasked type := by
  have hstep {one part : TypeExpr} (hone : one = type ∨ one.isUnion = false)
      (hstep : base.Alternative one part) : part.isUnion = false := by
    obtain ⟨alternatives, ⟨bare, hreaches, hwritten⟩, hmem⟩ := hstep
    rcases written?_eq_some hwritten with rfl | ⟨ref, _, _, rfl, hdeclared, hbody⟩
    · rcases hreaches.cases_tail with rfl | ⟨last, _, hlast⟩
      · exact hone.elim (fun heq => (htype _ heq.symm).2 part hmem) nofun
      · obtain ⟨ref, rfl⟩ := hlast.exists_ref
        obtain ⟨_, _, hdeclared, hbody⟩ := follows_ref.1 hlast
        have hunion := h _ (mem_stored_of_declaration hdeclared) (.union alternatives)
          (by simp [hbody, TypeBody.components])
        cases hunion
    · exact h _ (mem_stored_of_declaration hdeclared) part
        (by simpa [hbody, TypeBody.components] using hmem)
  have hreached {last : TypeExpr} (hreaches : ReflTransGen base.Alternative type last) :
      last = type ∨ last.isUnion = false := by
    induction hreaches with
    | refl => exact .inl rfl
    | tail _ hnext ih => exact .inr (hstep ih hnext)
  intro part hreaches
  rcases hreached hreaches with heq | hunion
  · exact absurd rfl (htype _ heq.symm).1
  · cases hunion

variable (hbase : base.Regular)

include hbase

/-- Expanding a type comes to an end.  It lists types that are no unions and that the type leads
to, each name once, and if no sum of one union is met, it lists all of their names. -/
theorem exists_alternatives (h : base.Tidy type)
    (hends : ∀ part, ReflTransGen base.Alternative type part → ¬ base.Circles part) :
    ∃ types names bound,
      (∀ fuel, bound ≤ fuel → ∃ after, alternatives fuel type base = .ok types after) ∧
      Forall₂ base.Names types names ∧ names.Nodup ∧
      (∀ found ∈ types, TransGen base.Alternative type found ∧ ¬ base.IsSum found) ∧
      (base.Unmasked type → ∀ last name, TransGen base.Alternative type last →
        ¬ base.IsSum last → base.Names last name → name ∈ names) := by
  obtain ⟨gathered, after, bound, ⟨_, hnames, hnodup⟩, ⟨_, hall⟩, hrun⟩ :=
    ((gather_ends hbase h hends).guarded (gather_collects hbase h hends)).exists_ok
      (fun fuel => gather_complete hbase h hends fuel [] {} .refl) (hbase.variant.spelled.grownBy _)
  have htidy {part : TypeExpr} (hpart : TransGen base.Alternative type part) :=
    hbase.hereditary.reached hbase.variant h hpart.to_reflTransGen
  refine ⟨gathered.types, gathered.names.reverse, bound, fun fuel hle => ⟨after, ?_⟩,
    hnames.imp fun part name ⟨hpart, _, hname⟩ =>
      (names_iff_spelling hbase.variant (htidy hpart).plain).2 hname,
    nodup_reverse.2 hnodup, fun found hmem => ?_,
    fun hunmasked last name hreaches hsingle hname => ?_⟩
  · rw [alternatives, bind_of_ok (hrun fuel hle)]
    rfl
  · obtain ⟨_, _, hpart, hsingle, _⟩ := exists_of_mem_left hnames hmem
    exact ⟨hpart, hsingle⟩
  · have hlast := htidy hreaches
    have hgoal := (names_iff_spelling hbase.variant hlast.plain).1 hname
    obtain ⟨_, ⟨alternatives, hspreads, _⟩, _⟩ := TransGen.head'_iff.1 hreaches
    refine mem_reverse.2 (hall name ⟨⟨alternatives, hspreads⟩, hunmasked,
      ⟨last, hlast, hsingle, hgoal⟩, fun own hown => ⟨?_, by simp⟩⟩)
    exact nonempty_ways hbase h hown hreaches.to_reflTransGen hsingle hgoal

end Exact

/-- Two unions, each among the alternatives of the other. -/
def leftUnion : TypeDef :=
  { name := "Left", origin := "main.mer", body := .union [(mainRef "Right").toType, .char] }

def rightUnion : TypeDef :=
  { name := "Right", origin := "main.mer", body := .union [(mainRef "Left").toType, .int] }

/-- The table that holds both. -/
def mutualUnions : TypeTable :=
  { project := mainFile
    stored := [("app::Left", leftUnion), ("app::Right", rightUnion)] }

theorem left_spreads :
    mutualUnions.Spreads (mainRef "Left").toType [(mainRef "Right").toType, .char] :=
  ⟨_, .refl, by cbv⟩

theorem not_isSum_primitive {base : TypeTable} (name : String) :
    ¬ base.IsSum (.primitive name) := by
  rintro ⟨alternatives, hspreads⟩
  rcases hspreads.shape with heq | ⟨_, _, _, heq, _⟩ <;> cases heq

end Accord
