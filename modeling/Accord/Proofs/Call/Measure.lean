import Accord.Proofs.Assign.Conversion
import Accord.Proofs.Assign.Widen

/-!
# Aliases weigh what they stand for

The measure of a function does not change if a reference to an alias in the type of a parameter
is replaced by the target of the alias, at any depth outside of sums
(`specificity_of_unrolled`).  Type parameters may stand anywhere.

* `TypeTable.Answers` says of a query with fuel that it has an answer.  A query that is made of two
  has the answers that these have, one after the other (`answers_bind`), since more fuel and other
  instances do not change an answer (`outlasting`).
* So the weight of a type is the one of the type behind its aliases (`answers_weigh`), and weights
  add up one by one (`answers_weighAll_cons`).

The alternatives of a sum are counted by their names.  An alias among them has a name of its own,
and is counted beside its target (`alias_counted_beside_target`).
-/

namespace Accord

open List Query TypeTable

variable {type other : TypeExpr} {types front rest : List TypeExpr} {converts : Bool}
  {weight start total : Weight} {ref : TypeRef} {base : TypeTable}

/-! ## Answers -/

/-- The query has the answer if there is enough fuel. -/
def TypeTable.Answers {α : Type} (base : TypeTable) (query : Nat → TypeQuery α) (a : α) : Prop :=
  ∃ fuel after, query fuel base = .ok a after

/-- The comparison of a question with the same one, asked with more fuel in another table with the
same definitions: where the first has an answer, so has the second. -/
def outlasting (hplain : base.Stable) : TypeParallel where
  holds same left right := ∀ s t, base.Twins s t → ∀ a u, left s = .ok a u →
    ∃ b v, right t = .ok b v ∧ same a b ∧ base.Twins u v
  related := SamePlain
  fuels := (· ≤ ·)
  pure h s t hst a u hrun := by
    obtain ⟨rfl, rfl⟩ := pure_eq_ok.1 hrun
    exact ⟨_, t, rfl, h, hst⟩
  throw _ _ _ _ _ _ _ hrun := by cases hrun
  bind h hrest s t hst c w hrun := by
    obtain ⟨a, u, hleft, hrun⟩ := bind_eq_ok.1 hrun
    obtain ⟨b, v, hright, hsame, huv⟩ := h s t hst a u hleft
    obtain ⟨d, x, hlast, hnext⟩ := hrest a b hsame u v huv c w hrun
    exact ⟨d, x, (bind_of_ok hright).trans hlast, hnext⟩
  exhausted _ _ _ _ _ _ _ hrun := by cases hrun
  fuels_succ := exists_succ_of_le
  head := (alongside hplain.aligns).head
  name h _ _ hst _ _ hrun := (hplain.aligns.name h).ok_right hst hrun
  locate h _ _ hst _ _ hrun := (hplain.aligns.locate h).ok_right hst hrun

section Answers

variable {α β : Type} {same : α → α → Prop} {first : Nat → TypeQuery α}
  {next : Nat → α → TypeQuery β} {b : β}

theorem answers_map {f : α → β} : base.Answers (fun fuel => first fuel >>= fun a => pure (f a)) b ↔
    ∃ a, base.Answers first a ∧ b = f a := by
  constructor
  · rintro ⟨fuel, after, hrun⟩
    obtain ⟨a, last, hfirst, hrun⟩ := bind_eq_ok.1 hrun
    exact ⟨a, ⟨fuel, last, hfirst⟩, (pure_eq_ok.1 hrun).1.symm⟩
  · rintro ⟨a, ⟨fuel, after, hrun⟩, rfl⟩
    exact ⟨fuel, after, bind_of_ok hrun⟩

theorem answers_bind (hbase : base.Variant base) (hsame : ∀ {a b}, same a b → a = b)
    (hfirst : ∀ {fuel more}, fuel ≤ more →
      (outlasting hbase.plain).holds same (first fuel) (first more))
    (hnext : ∀ {a b}, same a b → ∀ {fuel more}, fuel ≤ more →
      (outlasting hbase.plain).holds Eq (next fuel a) (next more b)) :
    base.Answers (fun fuel => first fuel >>= next fuel) b ↔
      ∃ a, base.Answers first a ∧ base.Answers (fun fuel => next fuel a) b := by
  constructor
  · rintro ⟨fuel, w, hrun⟩
    obtain ⟨a, u, hleft, hrun⟩ := bind_eq_ok.1 hrun
    obtain ⟨_, _, _, haa, hu, _⟩ := hfirst (le_refl fuel) base base ⟨hbase, hbase⟩ a u hleft
    obtain rfl := hsame haa
    obtain ⟨_, v, hlast, rfl, _⟩ := hnext haa (le_refl fuel) u base ⟨hu, hbase⟩ b w hrun
    exact ⟨a, ⟨fuel, u, hleft⟩, fuel, v, hlast⟩
  · rintro ⟨a, ⟨fuel, u, hleft⟩, fuel', v, hrun⟩
    obtain ⟨_, w, hleft, haa, _, hw⟩ :=
      hfirst (le_max_left fuel fuel') base base ⟨hbase, hbase⟩ a u hleft
    obtain rfl := hsame haa
    obtain ⟨_, x, hlast, rfl, _⟩ := hnext haa (le_max_right fuel fuel') base w ⟨hbase, hw⟩ b v hrun
    exact ⟨max fuel fuel', x, (bind_of_ok hleft).trans hlast⟩

end Answers

/-! ## Weights -/

/-- The weights of the types, added to a weight. -/
def weighAll (converts : Bool) (types : List TypeExpr) (start : Weight) (fuel : Nat) :
    TypeQuery Weight :=
  types.foldlM (fun weight type => do return weight + (← weigh fuel converts type)) start

section Weigh

variable (hbase : base.Variant base)

include hbase

theorem weighAll_lasts (hplain : ∀ type ∈ types, type.plain) {fuel more : Nat} (hle : fuel ≤ more) :
    (outlasting hbase.plain).holds Eq (weighAll converts types start fuel)
      (weighAll converts types start more) :=
  weighAll_parallel (outlasting hbase.plain)
    (weigh_parallel (outlasting hbase.plain) SamePlain.shape hle converts)
    (samePlain_all.2 ⟨rfl, hplain⟩) start

/-- A type weighs what stands behind its aliases. -/
theorem answers_weigh (hplain : type.plain) :
    base.Answers (weigh · converts type) weight ↔
      ∃ bare, base.Unaliases type bare ∧ base.Answers (weighBare · converts bare) weight := by
  have hsucc : base.Answers (weigh · converts type) weight ↔
      base.Answers (fun fuel => unalias fuel type >>= weighBare fuel converts) weight := by
    constructor
    · rintro ⟨fuel, after, hrun⟩
      cases fuel with
      | zero => cases hrun
      | succ fuel => exact ⟨fuel, after, hrun⟩
    · rintro ⟨fuel, after, hrun⟩
      exact ⟨fuel + 1, after, hrun⟩
  let p := outlasting hbase.plain
  exact hsucc.trans (answers_bind hbase And.left
    (fun hle => unalias_parallel p hle ⟨rfl, hplain⟩) fun h _ _ hle =>
      weighBare_parallel p SamePlain.shape hle converts
        (weigh_parallel p SamePlain.shape hle false) h)

theorem answers_weigh_self (hplain : type.plain) (hself : base.Unaliases type type) :
    base.Answers (weigh · converts type) weight ↔
      base.Answers (weighBare · converts type) weight := by
  refine (answers_weigh hbase hplain).trans ⟨?_, fun hweight => ⟨type, hself, hweight⟩⟩
  rintro ⟨bare, hbare, hweight⟩
  rwa [← hbare.unique hself]

theorem answers_weighAll_cons (hplain : ∀ part ∈ type :: rest, part.plain) :
    base.Answers (weighAll converts (type :: rest) start) total ↔
      ∃ part, base.Answers (weigh · converts type) part ∧
        base.Answers (weighAll converts rest (start + part)) total := by
  obtain ⟨htype, hrest⟩ := forall_mem_cons.1 hplain
  have hcons : weighAll converts (type :: rest) start = fun fuel =>
      weigh fuel converts type >>= fun part => weighAll converts rest (start + part) fuel := by
    funext fuel
    simp only [weighAll, foldlM_cons, bind_assoc, pure_bind]
  rw [hcons]
  refine answers_bind hbase id (fun hle => weigh_parallel (outlasting hbase.plain)
    SamePlain.shape hle converts ⟨rfl, htype⟩) ?_
  rintro part _ rfl fuel more hle
  exact weighAll_lasts hbase hrest hle

omit hbase in
/-- What is true of the old types and of the new one is true of all new ones. -/
theorem forall_mem_replaced {good : TypeExpr → Prop} (h : ∀ part ∈ front ++ type :: rest, good part)
    (hother : good other) : ∀ part ∈ front ++ other :: rest, good part := by
  simp only [forall_mem_append, forall_mem_cons] at h ⊢
  exact ⟨h.1, hother, h.2.2⟩

/-- Types that weigh the same weigh the same among others. -/
theorem answers_weighAll_replaced
    (h : ∀ part, base.Answers (weigh · converts type) part ↔
      base.Answers (weigh · converts other) part)
    (hplain : ∀ part ∈ front ++ type :: rest, part.plain) (hother : other.plain) :
    base.Answers (weighAll converts (front ++ type :: rest) start) total ↔
      base.Answers (weighAll converts (front ++ other :: rest) start) total := by
  have hall := forall_mem_replaced hplain hother
  induction front generalizing start with
  | nil =>
    rw [nil_append, nil_append, answers_weighAll_cons hbase hplain, answers_weighAll_cons hbase hall]
    simp only [h]
  | cons first front ih =>
    rw [cons_append] at hplain hall ⊢
    rw [cons_append, answers_weighAll_cons hbase hplain, answers_weighAll_cons hbase hall]
    simp only [ih (forall_mem_cons.1 hplain).2 (forall_mem_cons.1 hall).2]

/-- What has no alternatives weighs as much as its type arguments. -/
theorem answers_weighBare_ref (hplain : ref.plain) (h : base.Flattens ref.toType []) :
    base.Answers (weighBare · converts ref.toType) weight ↔
      ∃ inner, base.Answers (weighAll false ref.arguments {}) inner ∧
        weight = { complexity := ref.arguments.length } + inner + {} := by
  have harguments := TypeExpr.plainAll_iff.1 (TypeRef.plain_iff.1 hplain).2.2
  let p := outlasting hbase.plain
  refine (answers_bind hbase id (weighAll_lasts hbase harguments) ?_).trans
    (exists_congr fun inner => and_congr_right fun _ => answers_map.trans ⟨?_, fun hweight => ?_⟩)
  · rintro inner _ rfl fuel more hle
    refine p.bind (weighUnion_parallel p hle ⟨rfl, hplain⟩) ?_
    rintro own _ rfl
    exact p.pure rfl
  · rintro ⟨own, hown, rfl⟩
    obtain ⟨covered, hcovered, rfl⟩ := answers_map.1 hown
    rw [Flattens.unique hcovered h]
    rfl
  · exact ⟨{}, answers_map.2 ⟨[], h, rfl⟩, hweight⟩

end Weigh

/-! ## Replacing aliases -/

/-- One reference to an alias is replaced by the target of the alias, at some depth of a type but
not inside a sum. -/
inductive TypeTable.Unrolls (base : TypeTable) : TypeExpr → TypeExpr → Prop where
  | here {type target : TypeExpr} (step : base.AliasOf type target) : Unrolls base type target
  | target {type other : TypeExpr} (inner : Unrolls base type other) :
      Unrolls base (.pointer type) (.pointer other)
  | held (length : UInt64) {type other : TypeExpr} (inner : Unrolls base type other) :
      Unrolls base (.array length type) (.array length other)
  | element {type other : TypeExpr} (inner : Unrolls base type other) :
      Unrolls base (.slice type) (.slice other)
  | argument (name : String) (qualifier : Option String) (front rest : List TypeExpr)
      (origin : String) {type other : TypeExpr} (inner : Unrolls base type other) :
      Unrolls base (.named name qualifier (front ++ type :: rest) origin)
        (.named name qualifier (front ++ other :: rest) origin)

/-- The targets of aliases have names. -/
def TypeTable.NamedTargets (base : TypeTable) : Prop :=
  ∀ entry ∈ base.stored, ∀ target, entry.2.body = .alias target → ∃ name, base.Names target name

section Unrolls

variable (hbase : base.Variant base) (htargets : base.NamedTargets)

include hbase

/-- A reference with type arguments is to a record, and has no alternatives. -/
theorem flattens_of_arguments (hplain : ref.plain) {name : String}
    (hname : base.Names ref.toType name) (hne : ref.arguments ≠ []) :
    base.Flattens ref.toType [] := by
  obtain ⟨fuel, mid, hself⟩ := hname.unaliases hbase hplain hne
  obtain ⟨_, _, hmid⟩ := Unaliases.of_run hbase hbase.plain.hereditary hplain hbase hself
  obtain ⟨found, after, hretrieve, hfound⟩ := hname.retrieves hbase hplain hmid
  have hdirect : directAlternatives fuel ref.toType base = .ok none after := by
    rw [directAlternatives, bind_of_ok hself]
    show (retrieve ref >>= _) mid = _
    rw [bind_of_ok hretrieve]
    rcases hfound.declared_or_record with ⟨hnil, _⟩ | hrecord
    · exact absurd hnil hne
    · cases hbody : found.body with
      | record fields => rfl
      | _ => simp [hbody, TypeBody.isRecord] at hrecord
  refine ⟨fuel + 1, after, ?_⟩
  rw [alternatives, gather, bind_assoc, bind_of_ok hdirect]
  rfl

include htargets

/-- Replacing an alias leaves a type with a name, and does not change its weight. -/
theorem TypeTable.Unrolls.weighs_alike (h : base.Unrolls type other) (hplain : type.plain)
    (hname : ∃ name, base.Names type name) :
    other.plain ∧ (∃ name, base.Names other name) ∧ ∀ converts weight,
      base.Answers (weigh · converts type) weight ↔
        base.Answers (weigh · converts other) weight := by
  have hdeep {type other : TypeExpr} (hplain : type.plain) (hother : other.plain)
      (hself : base.Unaliases type type) (hself' : base.Unaliases other other)
      (h : ∀ converts weight, base.Answers (weighBare · converts type) weight ↔
        base.Answers (weighBare · converts other) weight) (converts : Bool) (weight : Weight) :
      base.Answers (weigh · converts type) weight ↔
        base.Answers (weigh · converts other) weight := by
    rw [answers_weigh_self hbase hplain hself, answers_weigh_self hbase hother hself', h]
  induction h with
  | here step =>
    obtain ⟨ref, rfl⟩ := step.exists_ref
    obtain ⟨package, definition, hdeclared, hbody⟩ :=
      follows_ref.1 ((aliasOf_iff_follows hbase hplain).1 step)
    have hother := step.plain hbase hplain
    refine ⟨hother, htargets _ (mem_stored_of_declaration hdeclared) _ hbody,
      fun converts weight => ?_⟩
    rw [answers_weigh hbase hplain, answers_weigh hbase hother]
    exact exists_congr fun bare => and_congr_left' (step.unaliases_iff hbase hplain)
  | target _ ih =>
    obtain ⟨_, hname⟩ := hname
    obtain ⟨inner, hinner, _⟩ := names_pointer.1 hname
    obtain ⟨hother, ⟨inner', hinner'⟩, hiff⟩ := ih hplain ⟨inner, hinner⟩
    exact ⟨hother, ⟨_, names_pointer.2 ⟨inner', hinner', rfl⟩⟩,
      hdeep hplain hother (.self rfl) (.self rfl) fun _ => hiff false⟩
  | held _ _ ih =>
    obtain ⟨_, hname⟩ := hname
    obtain ⟨inner, hinner, _⟩ := names_array.1 hname
    obtain ⟨hother, ⟨inner', hinner'⟩, _⟩ := ih hplain ⟨inner, hinner⟩
    exact ⟨hother, ⟨_, names_array.2 ⟨inner', hinner', rfl⟩⟩,
      hdeep hplain hother (.self rfl) (.self rfl) fun _ _ => Iff.rfl⟩
  | element _ ih =>
    obtain ⟨_, hname⟩ := hname
    obtain ⟨inner, hinner, _⟩ := names_slice.1 hname
    obtain ⟨hother, ⟨inner', hinner'⟩, _⟩ := ih hplain ⟨inner, hinner⟩
    exact ⟨hother, ⟨_, names_slice.2 ⟨inner', hinner', rfl⟩⟩,
      hdeep hplain hother (.self rfl) (.self rfl) fun _ _ => Iff.rfl⟩
  | @argument text qualifier front rest origin type other _ ih =>
    let ref (part : TypeExpr) : TypeRef := ⟨text, qualifier, front ++ part :: rest, origin⟩
    have href : (ref type).plain := hplain
    obtain ⟨hword, hqualifier, harguments⟩ := TypeRef.plain_iff.1 href
    obtain ⟨_, hname⟩ := hname
    obtain ⟨package, declared, names, _, hdeclared, hall, _⟩ :=
      @Names.ref _ base hbase (ref type) href hname
    have hparts := TypeExpr.plainAll_iff.1 harguments
    have hmem : type ∈ front ++ type :: rest := mem_append_right _ (.head _)
    obtain ⟨hother, hnamed, hiff⟩ := ih (hparts type hmem) (exists_name_of_mem hall hmem)
    have href' : (ref other).plain := TypeRef.plain_iff.2
      ⟨hword, hqualifier, TypeExpr.plainAll_iff.2 (forall_mem_replaced hparts hother)⟩
    obtain ⟨names', hnames'⟩ := exists_forall₂_names
      (forall_mem_replaced (fun _ hpart => exists_name_of_mem hall hpart) hnamed)
    have hlength : (ref other).arguments.length = (ref type).arguments.length := by simp [ref]
    have hdeclared' : base.declaration? (ref other) = some (package, declared) := by
      rw [← hdeclared, declaration?, declaration?, hlength]
      rfl
    obtain ⟨name', hname'⟩ := Names.of_declaration hbase href' hnames' hdeclared'
    have hne (part : TypeExpr) : (ref part).arguments ≠ [] := by simp [ref]
    refine ⟨href', ⟨name', hname'⟩, hdeep href href' (Names.unaliases hbase href hname (hne type))
      (Names.unaliases hbase href' hname' (hne other)) fun converts weight => ?_⟩
    have hflat := flattens_of_arguments hbase href hname (hne type)
    have hflat' := flattens_of_arguments hbase href' hname' (hne other)
    refine (answers_weighBare_ref hbase href hflat).trans
      (.trans ?_ (answers_weighBare_ref hbase href' hflat').symm)
    rw [hlength]
    exact exists_congr fun inner => and_congr_left'
      (answers_weighAll_replaced hbase (hiff false) hparts hother)

end Unrolls

/-! ## Functions -/

/-- The measure of a function adds up the weights of its parameter types. -/
theorem specificity_iff {function : FunctionDef} {specificity : Specificity} :
    (∃ fuel, (function.specificity fuel).answer base = .ok specificity) ↔
      ∃ weight, base.Answers (weighAll true function.parameterTypes {}) weight ∧
        specificity = { generic := function.isGeneric, weight } :=
  (exists_congr fun _ => answer_eq_ok).trans answers_map

/-- Where only records are generic and the targets of aliases have names, replacing an alias by its
target in the type of a parameter, at any depth outside of sums, does not change the measure of a
function. -/
theorem specificity_of_unrolled {base : TypeTable} (hreached : base.Reached) (hplain : base.Plain)
    (hgenerics : base.OnlyRecordsGeneric) (htargets : base.NamedTargets)
    {function other : FunctionDef} (hgeneric : other.isGeneric = function.isGeneric)
    {front rest : List TypeExpr} {type replaced : TypeExpr}
    (htypes : function.parameterTypes = front ++ type :: rest)
    (hothers : other.parameterTypes = front ++ replaced :: rest) (hfunction : function.Plain)
    (hname : ∃ name, base.Names type name) (h : base.Unrolls type replaced)
    (specificity : Specificity) :
    (∃ fuel, (function.specificity fuel).answer base = .ok specificity) ↔
      ∃ fuel, (other.specificity fuel).answer base = .ok specificity := by
  have hbase := hreached.variant ⟨hplain, hgenerics⟩
  have hall : ∀ part ∈ front ++ type :: rest, part.plain = true :=
    fun part hmem => hfunction part (htypes ▸ hmem)
  obtain ⟨hreplaced, _, hiff⟩ :=
    h.weighs_alike hbase htargets (hall type (mem_append_right _ (.head _))) hname
  rw [specificity_iff, specificity_iff, htypes, hothers, hgeneric]
  exact exists_congr fun weight => and_congr_left'
    (answers_weighAll_replaced hbase (hiff true) hall hreplaced)

/-- A function of one parameter. -/
def takingOne (type : TypeExpr) : FunctionDef :=
  { name := "f", parameters := [{ name := "x", type }], origin := "main.mer" }

/-- A box of boxes of integers. -/
def nestedBox : TypeExpr :=
  (boxOf (boxOf .int).toType).toType

def crateDef : TypeDef := aliasOf "Crate" nestedBox

def crateTable : TypeTable :=
  { project := mainFile
    stored := [("app::Box<1>", boxDef), ("app::Crate", crateDef)] }

/-- A pointer to a crate carries two type arguments, and so does a pointer to a box of boxes. -/
theorem crate_pointer_measured :
    ((takingOne (.pointer (mainRef "Crate").toType)).specificity 8).answer crateTable =
        .ok { generic := false, weight := { complexity := 2 } } ∧
      ∃ fuel, ((takingOne (.pointer nestedBox)).specificity fuel).answer crateTable =
        .ok { generic := false, weight := { complexity := 2 } } := by
  have hreached : crateTable.Reached := by
    have hstores : [boxDef, crateDef].foldlM TypeTable.store { project := crateTable.project } =
        .ok crateTable := rfl
    exact (stored_of_foldlM hstores (.empty _)).1
  have htargets : crateTable.NamedTargets := by
    intro entry hentry target hbody
    simp only [crateTable, mem_cons, not_mem_nil, or_false] at hentry
    rcases hentry with rfl | rfl <;> cases hbody
    exact ⟨_, _, by cbv⟩
  have hcrate : crateTable.AliasOf (mainRef "Crate").toType nestedBox :=
    aliasOf_ref.2 ⟨crateDef, by cbv, rfl⟩
  have hfunction : (takingOne (.pointer (mainRef "Crate").toType)).Plain := by
    unfold FunctionDef.Plain
    decide
  have hmeasure : ((takingOne (.pointer (mainRef "Crate").toType)).specificity 8).answer
      crateTable = .ok { generic := false, weight := { complexity := 2 } } := by cbv
  refine ⟨hmeasure, (@specificity_of_unrolled crateTable hreached ⟨by decide, by decide⟩
    (by decide) htargets (takingOne (.pointer (mainRef "Crate").toType))
    (takingOne (.pointer nestedBox)) rfl [] [] _ _ rfl rfl hfunction ?_ (.target (.here hcrate))
    _).1 ⟨8, hmeasure⟩⟩
  exact ⟨_, _, by cbv⟩

/-- Beside its target an alias is counted as an alternative of its own. -/
theorem alias_counted_beside_target :
    wordTable.AliasOf letter.toType .char ∧
      ((takingOne (.union [.char, letter.toType])).specificity 8).answer wordTable =
        .ok { generic := false, weight := { unions := 1, cases := 2 } } ∧
      ((takingOne (.union [.char, .char])).specificity 8).answer wordTable =
        .ok { generic := false, weight := { unions := 1, cases := 1 } } :=
  ⟨aliasOf_ref.2 ⟨letterDef, by cbv, rfl⟩, by cbv, by cbv⟩

end Accord
