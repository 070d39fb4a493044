import Accord.Proofs.Query.Settle
import Accord.Proofs.Types.Transparent
import Mathlib.Data.Fintype.Card

/-!
# Chains of pointers

`dereference` goes through pointers, and through aliases between them.

* `TypeTable.Leads` is one step on this way, and a type is grounded if no endless chain of steps
  leads on from it.
* A loop that goes through pointers comes to an end from a grounded type if it does from types
  that are no pointers (`settles_of_pointers`).  The table may grow on the way.
* If everything on the chain has a canonical name, a type that is no pointer is reached
  (`pointee_answers`).
* Where aliases have no type parameters, a chain runs through finitely many types.  So it is
  endless exactly if it returns (`TypeTable.SimpleAliases.grounded_iff`), and a type from which a
  type that is no pointer is reached is grounded (`grounded_of_pointee`).
-/

namespace Accord

open Query TypeTable TypeExpr TypeRef

variable {ref : TypeRef} {names seen : List String} {table after : TypeTable}
  {type next last bare : TypeExpr} {types : List TypeExpr} {fuel : Nat}

/-! ## Chains -/

/-- One step behind a type: from a pointer to its target, and from an alias to what it stands
for.  Instances are remembered by the names of their type arguments, so what is handed out may
have been made for others of the same names. -/
inductive TypeTable.Leads (base : TypeTable) : TypeExpr → TypeExpr → Prop where
  | pointer (target : TypeExpr) : Leads base (.pointer target) target
  | «alias» {ref : TypeRef} {package : String} {definition : TypeDef} {target : TypeExpr}
      {names : List String} {arguments : List TypeExpr}
      (declared : base.declaration? ref = some (package, definition))
      (body : definition.body = .alias target)
      (named : base.spellings? ref.arguments = some names)
      (alike : base.spellings? arguments = some names)
      (plain : plainAll arguments = true) :
      Leads base ref.toType (target.substitute (.ofLists definition.generics arguments))

/-- No endless chain leads on from the type. -/
def TypeTable.Grounded (base : TypeTable) (type : TypeExpr) : Prop :=
  Acc (fun next type => base.Leads type next) type

section Chains

variable {base : TypeTable}

theorem TypeTable.Grounded.step (h : base.Grounded type) (hleads : base.Leads type next) :
    base.Grounded next :=
  h.inv hleads

theorem TypeTable.Grounded.of_reaches (h : base.Grounded type)
    (hreaches : Relation.ReflTransGen base.Leads type next) : base.Grounded next := by
  induction hreaches with
  | refl => exact h
  | tail _ hstep ih => exact ih.step hstep

theorem TypeTable.leads_ref : base.Leads ref.toType next ↔
    ∃ package definition target names arguments,
      base.declaration? ref = some (package, definition) ∧ definition.body = .alias target ∧
      base.spellings? ref.arguments = some names ∧ base.spellings? arguments = some names ∧
      plainAll arguments ∧
      next = target.substitute (.ofLists definition.generics arguments) := by
  constructor
  · intro h
    generalize hwhole : ref.toType = whole at h
    cases h with
    | pointer => cases hwhole
    | «alias» hdeclared hbody hnamed halike hplain =>
      obtain rfl := toType_inj hwhole
      exact ⟨_, _, _, _, _, hdeclared, hbody, hnamed, halike, hplain, rfl⟩
  · rintro ⟨package, definition, target, names, arguments, hdeclared, hbody, hnamed, halike,
      hplain, rfl⟩
    exact .alias hdeclared hbody hnamed halike hplain

/-- A type that is neither a pointer nor a reference leads nowhere. -/
theorem TypeTable.Leads.pointer_or_ref (h : base.Leads type next) :
    type = .pointer next ∨ ∃ ref : TypeRef, type = ref.toType := by
  cases h with
  | pointer => exact .inl rfl
  | «alias» => exact .inr ⟨_, rfl⟩

end Chains

/-! ## Following a chain -/

/-- The first type behind aliases and pointers that is no pointer itself. -/
def pointee (fuel : Nat) (type : TypeExpr) : TypeQuery TypeExpr := do
  dereference fuel (← unalias fuel type)

section Following

variable {base : TypeTable} (hbase : base.Spelled) (hinstances : base.instances = [])

include hbase hinstances

/-- What is found for a reference: if it is an alias, the reference leads to its target, and
otherwise nowhere. -/
structure TypeTable.Stands (base : TypeTable) (ref : TypeRef) (found : TypeDef) : Prop where
  target : ∀ target, found.body = .alias target →
    target.plain = true ∧ base.Leads ref.toType target
  other : found.body.isAlias = false → ∀ next, ¬ base.Leads ref.toType next

theorem TypeTable.AnswerTo.stands (hplain : ref.plain) {answer : String × TypeDef}
    (htable : base.PlainlyGrown table) (hnames : base.SpellsAll ref.arguments names)
    (h : base.AnswerTo ref names answer table) : base.Stands ref answer.2 := by
  obtain ⟨package, found⟩ := answer
  have hopened : ∀ part ∈ found.body.opened, part.plain := h.opened hbase.confines htable hplain
  -- What is found was made of the declared definition for type arguments of the same names.
  obtain ⟨generic, arguments, hdeclared, halike, harguments, hfound⟩ : ∃ generic arguments,
      base.declaration? ref = some (package, generic) ∧ base.spellings? arguments = some names ∧
      plainAll arguments ∧
      found.body = generic.body.substitute (.ofLists generic.generics arguments) := by
    by_cases hnone : ref.arguments = []
    · obtain ⟨generic, hdeclared, heq⟩ := h.declared
      refine ⟨generic, ref.arguments, hdeclared, hnames.spellings, (plain_iff.1 hplain).2.2, ?_⟩
      rw [hnone, Substitution.ofLists, List.zip_nil_right, TypeBody.substitute_nil]
      exact congrArg TypeDef.body (heq hnone)
    · obtain ⟨other, generic, hother, hdeclared, halike, rfl⟩ := h.exists_entry hbase.confines
        htable hinstances hplain hnone hnames
      exact ⟨generic, other.arguments, hdeclared, halike.spellings, (plain_iff.1 hother).2.2, rfl⟩
  constructor
  · intro target hbody
    rw [show (package, found).2.body = found.body from rfl] at hbody
    refine ⟨hopened target (by simp [hbody, TypeBody.opened]), ?_⟩
    rw [hfound] at hbody
    cases hgeneric : generic.body with
    | «alias» own =>
      rw [hgeneric] at hbody
      cases hbody
      exact .alias hdeclared hgeneric hnames.spellings halike harguments
    | _ =>
      rw [hgeneric] at hbody
      cases hbody
  · intro hother next hleads
    obtain ⟨_, definition, own, _, _, hdeclared', hbody, _⟩ := leads_ref.1 hleads
    rw [hdeclared] at hdeclared'
    cases hdeclared'
    rw [hfound, hbody] at hother
    cases hother

omit hinstances in
/-- A reference that is looked up is found, unless it has no canonical name. -/
theorem retrieve_answers {good : TypeDef → Prop} (hplain : ref.plain)
    (hgood : ∀ {answer names table}, base.PlainlyGrown table → base.SpellsAll ref.arguments names →
      base.AnswerTo ref names answer table → good answer.2) :
    Guards base.PlainlyGrown good
      (fun cause => base.spelling? ref.toType = none ∧ cause.Unknown) (retrieve ref) := by
  have hlocate : Guards base.PlainlyGrown (fun answer => good answer.2)
      (fun _ => base.spelling? ref.toType = none) (locate ref) := by
    intro table htable
    refine (locate_answer hbase.confines hplain htable).mono (fun answer t h => ?_) fun _ _ h => h
    obtain ⟨ht, names, hnames, hanswer⟩ := h
    exact ⟨ht, hgood ht hnames hanswer⟩
  exact (hlocate.both (locate_unknown ref)).bind fun _ hanswer => Guards.pure hanswer.1

theorem retrieve_stands (hplain : ref.plain) :
    Guards base.PlainlyGrown (base.Stands ref)
      (fun cause => base.spelling? ref.toType = none ∧ cause.Unknown) (retrieve ref) :=
  retrieve_answers hbase hplain fun htable hnames hanswer =>
    hanswer.stands hbase hinstances hplain htable hnames

omit hinstances in
theorem canonicalName_named (hplain : type.plain) :
    Guards base.PlainlyGrown (fun name => base.spelling? type = some name)
      (fun cause => base.spelling? type = none ∧ cause.Unknown) (canonicalName type) :=
  ((canonicalName_spells hbase.confines type hplain).both (canonicalName_unknown type)).mono
    fun _ hname => hname.1.spelling

/-- Following aliases from a grounded type ends further down the chain. -/
theorem unaliasFrom_settles_of_grounded (h : base.Grounded type) (hplain : type.plain)
    (seen : List String) :
    Settles base.PlainlyGrown
      (fun bare => bare.plain ∧ Relation.ReflTransGen base.Leads type bare)
      fun fuel => unaliasFrom fuel seen type := by
  induction h generalizing seen with
  | intro type _ ih =>
    refine Settles.succ ?_
    simp only [unaliasFrom]
    cases href : type.ref? with
    | none => exact Settles.pure ⟨hplain, .refl⟩
    | some ref =>
      obtain rfl := eq_of_ref? href
      refine ((retrieve_stands hbase hinstances hplain).settles
        fun _ hcause => hcause.2.ne_limitReached).bind fun found hfound => ?_
      cases hbody : found.body with
      | «alias» target =>
        obtain ⟨htarget, hleads⟩ := hfound.target target hbody
        refine ((canonicalName_named hbase hplain).settles
          fun _ hcause => hcause.2.ne_limitReached).bind fun name _ => ?_
        refine Settles.ite (fun _ => Settles.throw (by simp)) fun _ => ?_
        exact (ih target hleads htarget (name :: seen)).mono
          fun bare hbare => ⟨hbare.1, .head hleads hbare.2⟩
      | _ => exact Settles.pure ⟨hplain, .refl⟩

theorem unalias_settles_of_grounded (h : base.Grounded type) (hplain : type.plain) :
    Settles base.PlainlyGrown
      (fun bare => bare.plain ∧ Relation.ReflTransGen base.Leads type bare)
      fun fuel => unalias fuel type :=
  unaliasFrom_settles_of_grounded hbase hinstances h hplain []

/-- A recursion that goes through pointers, from one index to the next, ends from a grounded type
if it ends from the types on the chain that are no pointers. -/
theorem settles_of_pointers {α ι : Type} {good : α → Prop} {valid : ι → Prop} {next : ι → ι}
    {query : ι → Nat → TypeExpr → TypeQuery α}
    (hpointer : ∀ i fuel target, query i (fuel + 1) (.pointer target) =
      unalias fuel target >>= query (next i) fuel)
    (hnext : ∀ i, valid i → valid (next i)) {type : TypeExpr} (h : base.Grounded type)
    (hplain : type.plain)
    (hother : ∀ i bare, valid i → Relation.ReflTransGen base.Leads type bare →
      bare.plain → (∀ target, bare ≠ .pointer target) →
      Settles base.PlainlyGrown good fun fuel => query i fuel bare) {i : ι} (hi : valid i) :
    Settles base.PlainlyGrown good fun fuel => query i fuel type := by
  have hacc := Acc.transGen h
  induction hacc generalizing i with
  | intro type _ ih =>
    cases htype : type with
    | pointer target =>
      subst htype
      have htarget : base.Leads (.pointer target) target := .pointer target
      refine Settles.succ ?_
      simp only [hpointer]
      refine (unalias_settles_of_grounded hbase hinstances (h.step htarget) hplain).bind
        fun bare hbare => ?_
      -- What stands behind the target is further down the chain.
      have hlater := Relation.TransGen.head' htarget hbare.2
      exact ih bare (Relation.transGen_swap.2 hlater) (h.of_reaches hlater.to_reflTransGen) hbare.1
        (fun j last hj hlast => hother j last hj (hlater.to_reflTransGen.trans hlast))
        (hnext i hi)
    | _ =>
      subst htype
      exact hother i _ hi .refl hplain (by simp)

/-- Going through pointers from a grounded type ends with a type that is no pointer. -/
theorem dereference_settles_of_grounded {type : TypeExpr} (h : base.Grounded type)
    (hplain : type.plain) :
    Settles base.PlainlyGrown
      (fun last => last.plain ∧ ∀ target, last ≠ .pointer target)
      fun fuel => dereference fuel type := by
  refine @settles_of_pointers base hbase hinstances TypeExpr Unit _ (fun _ => True) id
    (fun _ => dereference) (fun _ _ _ => rfl) (fun _ h => h) type h hplain ?_ () trivial
  intro _ bare _ _ hbare hother
  refine Settles.succ ?_
  cases bare with
  | pointer target => exact absurd rfl (hother target)
  | _ => exact Settles.pure ⟨hbare, hother⟩

theorem pointee_settles_of_grounded (h : base.Grounded type) (hplain : type.plain) :
    Settles base.PlainlyGrown
      (fun last => last.plain ∧ ∀ target, last ≠ .pointer target)
      fun fuel => pointee fuel type := by
  refine (unalias_settles_of_grounded hbase hinstances h hplain).bind fun bare hbare => ?_
  exact dereference_settles_of_grounded hbase hinstances (h.of_reaches hbare.2) hbare.1

end Following

/-! ## Chains with an end -/

/-- Everything that the type leads to has a canonical name. -/
def TypeTable.Traceable (base : TypeTable) (type : TypeExpr) : Prop :=
  ∀ last, Relation.ReflTransGen base.Leads type last → (base.spelling? last).isSome = true

section Answers

variable {base : TypeTable} (hbase : base.Spelled)

theorem TypeTable.Grounded.not_returns (h : base.Grounded type) :
    ¬ Relation.TransGen base.Leads type type := by
  have hacc := Acc.transGen h
  clear h
  induction hacc with
  | intro type _ ih => exact fun hloop => ih type (Relation.transGen_swap.2 hloop) hloop

include hbase

theorem TypeTable.Spelled.spellsAll (hplain : plainAll types)
    (hnames : base.spellings? types = some names) : base.SpellsAll types names := by
  obtain ⟨found, _, _, _, hspells⟩ := (canonicalNames_spells hbase.confines types
    (plainAll_iff.1 hplain) base (hbase.grownBy _)).exists_ok fun _ _ hnone =>
      nomatch hnone.2.symm.trans hnames
  obtain rfl := Option.some.inj (hspells.spellings.symm.trans hnames)
  exact hspells

/-- References of one canonical name lead to the same. -/
theorem TypeTable.Leads.of_spelling {left right : TypeRef} (hleft : left.plain)
    (hright : right.plain) {name : String} (hname : base.spelling? left.toType = some name)
    (hname' : base.spelling? right.toType = some name) (h : base.Leads left.toType next) :
    base.Leads right.toType next := by
  obtain ⟨package, definition, target, names, arguments, hdeclared, hbody, hnamed, halike, hplain,
    rfl⟩ := leads_ref.1 h
  rw [toType, spelling?, hnamed, Option.bind_some, home?, hdeclared] at hname
  obtain ⟨names', hnamed', hname'⟩ := Option.bind_eq_some_iff.1 hname'
  obtain ⟨home, hhome, hname'⟩ := Option.map_eq_some_iff.1 hname'
  obtain ⟨⟨_, definition'⟩, hdeclared', rfl⟩ := Option.map_eq_some_iff.1 hhome
  have hleft' := plain_iff.1 hleft
  have hright' := plain_iff.1 hright
  have hspells := hbase.spellsAll hleft'.2.2 hnamed
  have hspells' := hbase.spellsAll hright'.2.2 hnamed'
  obtain ⟨rfl, hsame, rfl⟩ := instanceKey_inj
    (hbase.scopes hleft _ (lookup_of_declaration hdeclared).1) hleft'.1 hspells.texts
    (hbase.scopes hright _ (lookup_of_declaration hdeclared').1) hright'.1 hspells'.texts
    ((Option.some.inj hname).trans hname'.symm)
  obtain rfl := declaration_unique hdeclared hdeclared' hsame
    (hspells.length.symm.trans hspells'.length)
  exact .alias hdeclared' hbody hnamed' halike hplain

variable (hinstances : base.instances = [])

include hinstances

/-- Only lack of fuel stops the way along aliases from a grounded type whose chain has names.
None of the names seen on the way returns. -/
theorem unaliasFrom_refuses (h : base.Grounded type) (hplain : type.plain)
    (htraceable : base.Traceable type) (fuel : Nat)
    (hseen : ∀ name ∈ seen, ∃ ref : TypeRef, ref.plain ∧ base.spelling? ref.toType = some name ∧
      Relation.TransGen base.Leads ref.toType type) :
    Guards base.PlainlyGrown
      (fun bare => bare.plain ∧ Relation.ReflTransGen base.Leads type bare)
      (· = .limitReached) (unaliasFrom fuel seen type) := by
  induction fuel generalizing seen type with
  | zero => exact Guards.throw rfl
  | succ fuel ih =>
    rw [unaliasFrom]
    cases href : type.ref? with
    | none => exact Guards.pure ⟨hplain, .refl⟩
    | some ref =>
      obtain rfl := eq_of_ref? href
      obtain ⟨text, htext⟩ := Option.isSome_iff_exists.1 (htraceable _ .refl)
      have hnamed {cause : Diagnostic} (hnone : base.spelling? ref.toType = none ∧ cause.Unknown) :
          cause = .limitReached := by
        rw [hnone.1] at htext
        cases htext
      refine ((retrieve_stands hbase hinstances hplain).relax fun _ => hnamed).bind
        fun found hfound => ?_
      cases hbody : found.body with
      | «alias» target =>
        obtain ⟨htarget, hleads⟩ := hfound.target target hbody
        refine ((canonicalName_named hbase hplain).relax fun _ => hnamed).bind fun name hname => ?_
        -- An alias of a name that was seen before leads to where that one led, and so back here.
        have hnew : seen.contains name = false := by
          rw [Bool.eq_false_iff]
          intro hcontains
          obtain ⟨earlier, hearlier, hsame, hloop⟩ := hseen name (by simpa using hcontains)
          obtain ⟨next, hnext, hback⟩ := Relation.TransGen.head'_iff.1 hloop
          have hagain := hnext.of_spelling hbase hearlier hplain hsame hname
          exact h.not_returns (Relation.TransGen.head' hagain hback)
        rw [hnew]
        refine (ih (h.step hleads) htarget (fun last hlast => htraceable last (.head hleads hlast))
          ?_).mono fun bare hbare => ⟨hbare.1, .head hleads hbare.2⟩
        refine List.forall_mem_cons.2 ⟨⟨ref, hplain, hname, .single hleads⟩, fun other hother => ?_⟩
        obtain ⟨earlier, hearlier, hsame, hloop⟩ := hseen other hother
        exact ⟨earlier, hearlier, hsame, hloop.tail hleads⟩
      | _ => exact Guards.pure ⟨hplain, .refl⟩

theorem unalias_refuses (h : base.Grounded type) (hplain : type.plain)
    (htraceable : base.Traceable type) (fuel : Nat) :
    Guards base.PlainlyGrown
      (fun bare => bare.plain ∧ Relation.ReflTransGen base.Leads type bare)
      (· = .limitReached) (unalias fuel type) :=
  unaliasFrom_refuses hbase hinstances h hplain htraceable fuel (by simp)

theorem dereference_refuses (h : base.Grounded type) (hplain : type.plain)
    (htraceable : base.Traceable type) (fuel : Nat) :
    Guards base.PlainlyGrown (fun _ => True) (· = .limitReached) (dereference fuel type) := by
  induction fuel generalizing type with
  | zero => exact Guards.throw rfl
  | succ fuel ih =>
    cases type with
    | pointer target =>
      have htarget : base.Leads (.pointer target) target := .pointer target
      refine (unalias_refuses hbase hinstances (h.step htarget) hplain
        (fun last hlast => htraceable last (.head htarget hlast)) fuel).bind fun bare hbare => ?_
      exact ih ((h.step htarget).of_reaches hbare.2) hbare.1
        fun last hlast => htraceable last (.head htarget (hbare.2.trans hlast))
    | _ => exact Guards.pure trivial

/-- From a grounded type whose chain has names, a type that is no pointer is reached. -/
theorem pointee_answers (h : base.Grounded type) (hplain : type.plain)
    (htraceable : base.Traceable type) (htable : base.PlainlyGrown table) :
    ∃ last, (∀ target, last ≠ .pointer target) ∧ ∃ bound, ∀ fuel, bound ≤ fuel →
      (pointee fuel type).answer table = .ok last := by
  have hrefuses (fuel : Nat) : Guards base.PlainlyGrown (fun _ => True) (· = .limitReached)
      (pointee fuel type) := by
    refine (unalias_refuses hbase hinstances h hplain htraceable fuel).bind fun bare hbare => ?_
    exact dereference_refuses hbase hinstances (h.of_reaches hbare.2) hbare.1
      (fun last hlast => htraceable last (hbare.2.trans hlast)) fuel
  obtain ⟨result, hends, bound, hrun⟩ :=
    pointee_settles_of_grounded hbase hinstances h hplain table htable
  beta_reduce at hrun
  have hbound := hrefuses bound table htable
  rw [hrun bound (Nat.le_refl bound)] at hbound
  cases result with
  | ok last after =>
    refine ⟨last, hends.of_ok.1.2, bound, fun fuel hle => ?_⟩
    rw [answer, hrun fuel hle]
  | error cause after => exact absurd hbound.of_error.2 hends.of_error

end Answers

/-! ## Aliases without type parameters -/

/-- Aliases have no type parameters, and mention none. -/
def TypeTable.SimpleAliases (base : TypeTable) : Prop :=
  ∀ entry ∈ base.stored, ∀ target, entry.2.body = .alias target →
    entry.2.generics = [] ∧ target.isGeneric = false

/-- The type and the types behind the pointers that it begins with. -/
def TypeExpr.spine : TypeExpr → List TypeExpr
  | .pointer target => .pointer target :: target.spine
  | type => [type]

theorem TypeExpr.mem_spine_self (type : TypeExpr) : type ∈ type.spine := by
  cases type <;> simp [spine]

theorem TypeExpr.mem_spine_of_pointer {target : TypeExpr} (h : .pointer target ∈ type.spine) :
    target ∈ type.spine := by
  fun_induction spine type with
  | case1 first ih =>
    rcases List.mem_cons.1 h with heq | hrest
    · cases heq
      exact List.mem_cons_of_mem _ (mem_spine_self _)
    · exact List.mem_cons_of_mem _ (ih hrest)
  | case2 type hother => exact absurd (List.mem_singleton.1 h).symm (hother target)

/-- The types that chains from the type may come to. -/
def TypeTable.onward (base : TypeTable) (type : TypeExpr) : List TypeExpr :=
  type.spine ++ base.stored.flatMap fun entry =>
    match entry.2.body with
    | .alias target => target.spine
    | _ => []

section Simple

variable {base : TypeTable} (hsimple : base.SimpleAliases)

include hsimple

/-- A reference to an alias leads to the target as it is written. -/
theorem TypeTable.SimpleAliases.target_of_leads (h : base.Leads ref.toType next) :
    ∃ package definition, base.declaration? ref = some (package, definition) ∧
      definition.body = .alias next ∧ ∃ entry ∈ base.stored, entry.2 = definition := by
  obtain ⟨package, definition, target, _, _, hdeclared, hbody, _, _, _, rfl⟩ := leads_ref.1 h
  have hstored := mem_stored_of_declaration hdeclared
  obtain ⟨hgenerics, _⟩ := hsimple _ hstored target hbody
  rw [hgenerics, Substitution.ofLists, List.zip_nil_left, substitute_nil]
  exact ⟨package, definition, hdeclared, hbody, _, hstored, rfl⟩

/-- There is one way on. -/
theorem TypeTable.SimpleAliases.leads_unique {other : TypeExpr} (h : base.Leads type next)
    (h' : base.Leads type other) : next = other := by
  rcases h.pointer_or_ref with rfl | ⟨ref, rfl⟩
  · rcases h'.pointer_or_ref with heq | ⟨ref, heq⟩
    · exact TypeExpr.pointer.inj heq
    · cases heq
  · obtain ⟨_, _, hdeclared, hbody, _⟩ := hsimple.target_of_leads h
    obtain ⟨_, _, hdeclared', hbody', _⟩ := hsimple.target_of_leads h'
    rw [hdeclared] at hdeclared'
    cases hdeclared'
    rw [hbody] at hbody'
    exact TypeBody.alias.inj hbody'

theorem TypeTable.SimpleAliases.mem_onward (h : Relation.ReflTransGen base.Leads type last) :
    last ∈ base.onward type := by
  induction h with
  | refl => exact List.mem_append_left _ type.mem_spine_self
  | tail _ hstep ih =>
    rcases hstep.pointer_or_ref with rfl | ⟨ref, rfl⟩
    · rcases List.mem_append.1 ih with hspine | hstored
      · exact List.mem_append_left _ (mem_spine_of_pointer hspine)
      · obtain ⟨entry, hentry, hmem⟩ := List.mem_flatMap.1 hstored
        refine List.mem_append_right _ (List.mem_flatMap.2 ⟨entry, hentry, ?_⟩)
        split at hmem
        · exact mem_spine_of_pointer hmem
        · cases hmem
    · obtain ⟨_, _, _, hbody, entry, hentry, rfl⟩ := hsimple.target_of_leads hstep
      refine List.mem_append_right _ (List.mem_flatMap.2 ⟨entry, hentry, ?_⟩)
      rw [hbody]
      exact mem_spine_self _

/-- A chain is endless only if it returns to a type that it has come from. -/
theorem TypeTable.SimpleAliases.grounded_iff :
    base.Grounded type ↔ ∀ last, Relation.ReflTransGen base.Leads type last →
      ¬ Relation.TransGen base.Leads last last := by
  constructor
  · exact fun h last hreaches => (h.of_reaches hreaches).not_returns
  · intro hnever
    let Onward := { last // Relation.ReflTransGen base.Leads type last }
    have hfinite : Finite Onward :=
      ((base.onward type).finite_toSet.subset fun last hlast => hsimple.mem_onward hlast).to_subtype
    let back : Onward → Onward → Prop := fun next last => Relation.TransGen base.Leads last.1 next.1
    have hwf : WellFounded back := by
      have : IsTrans Onward back := ⟨fun _ _ _ h h' => h'.trans h⟩
      have : Std.Irrefl back := ⟨fun last => hnever last.1 last.2⟩
      exact Finite.wellFounded_of_trans_of_irrefl back
    have hacc : ∀ last : Onward, base.Grounded last.1 := by
      intro last
      induction last using hwf.induction with
      | _ last ih =>
        exact Acc.intro _ fun next hnext => ih ⟨next, last.2.tail hnext⟩ (.single hnext)
    exact hacc ⟨type, .refl⟩

/-- Every type is grounded if the targets of aliases are. -/
theorem TypeTable.SimpleAliases.grounded_of_targets
    (h : ∀ entry ∈ base.stored, ∀ target, entry.2.body = .alias target → base.Grounded target)
    (type : TypeExpr) : base.Grounded type := by
  refine Acc.intro _ fun next hnext => ?_
  rcases hnext.pointer_or_ref with rfl | ⟨ref, rfl⟩
  · exact SimpleAliases.grounded_of_targets h next
  · obtain ⟨_, _, _, hbody, entry, hentry, rfl⟩ := hsimple.target_of_leads hnext
    exact h entry hentry next hbody

variable (hbase : base.Spelled) (hinstances : base.instances = [])

include hbase hinstances

/-- What stands behind aliases is no alias, and if it is grounded, so is the type before them. -/
theorem grounded_of_unaliasFrom (hplain : type.plain) (htable : base.PlainlyGrown table)
    (hrun : unaliasFrom fuel seen type table = .ok bare after) :
    base.PlainlyGrown after ∧ bare.plain ∧
      (∀ next, base.Leads bare next → bare = .pointer next) ∧
      (base.Grounded bare → base.Grounded type) := by
  induction fuel generalizing seen type table with
  | zero => exact absurd hrun throw_ne_ok
  | succ fuel ih =>
    rw [unaliasFrom] at hrun
    cases href : type.ref? with
    | none =>
      rw [href] at hrun
      obtain ⟨rfl, rfl⟩ := pure_eq_ok.1 hrun
      refine ⟨htable, hplain, fun next hnext => ?_, id⟩
      rcases hnext.pointer_or_ref with hpointer | ⟨ref, rfl⟩
      · exact hpointer
      · cases href
    | some ref =>
      obtain rfl := eq_of_ref? href
      rw [href] at hrun
      obtain ⟨found, middle, hfound, hrun⟩ := bind_eq_ok.1 hrun
      have hstands := retrieve_stands hbase hinstances hplain table htable
      rw [hfound] at hstands
      obtain ⟨hmiddle, hstands⟩ := hstands.of_ok
      cases hbody : found.body with
      | «alias» target =>
        rw [hbody] at hrun
        obtain ⟨name, named, hname, hrun⟩ := bind_eq_ok.1 hrun
        have hnamed := (canonicalName_named hbase hplain).keeps middle hmiddle
        rw [after_of_ok hname] at hnamed
        obtain ⟨htarget, hleads⟩ := hstands.target target hbody
        split at hrun
        · exact absurd hrun throw_ne_ok
        · obtain ⟨hafter, hbare, hend, hback⟩ := ih htarget hnamed hrun
          refine ⟨hafter, hbare, hend, fun hgrounded => Acc.intro _ fun next hnext => ?_⟩
          rw [hsimple.leads_unique hnext hleads]
          exact hback hgrounded
      | _ =>
        rw [hbody] at hrun
        obtain ⟨rfl, rfl⟩ := pure_eq_ok.1 hrun
        have hnowhere := hstands.other (by rw [hbody]; rfl)
        exact ⟨hmiddle, hplain, fun next hnext => absurd hnext (hnowhere next), id⟩

theorem grounded_of_dereference (hplain : bare.plain)
    (hend : ∀ next, base.Leads bare next → bare = .pointer next)
    (htable : base.PlainlyGrown table) (hrun : dereference fuel bare table = .ok last after) :
    base.Grounded bare := by
  induction fuel generalizing bare table with
  | zero => exact absurd hrun throw_ne_ok
  | succ fuel ih =>
    refine Acc.intro _ fun next hnext => ?_
    obtain rfl := hend next hnext
    have htarget : next.plain := hplain
    obtain ⟨found, middle, hfound, hrun⟩ := bind_eq_ok.1 hrun
    obtain ⟨hmiddle, hbare, hstop, hback⟩ :=
      grounded_of_unaliasFrom hsimple hbase hinstances htarget htable hfound
    exact hback (ih hbare hstop hmiddle hrun)

/-- A type is grounded if a type behind its pointers is reached. -/
theorem grounded_of_pointee (hplain : type.plain) (htable : base.PlainlyGrown table)
    (hanswer : (pointee fuel type).answer table = .ok last) : base.Grounded type := by
  obtain ⟨after, hrun⟩ := answer_eq_ok.1 hanswer
  obtain ⟨bare, middle, hbare, hrun⟩ := bind_eq_ok.1 hrun
  obtain ⟨hmiddle, hplain', hend, hback⟩ :=
    grounded_of_unaliasFrom hsimple hbase hinstances hplain htable hbare
  exact hback (grounded_of_dereference hsimple hbase hinstances hplain' hend hmiddle hrun)

end Simple

/-! ## Built programs -/

section Built

variable {base : TypeTable}

theorem TypeTable.spellings?_isSome (h : ∀ type ∈ types, (base.spelling? type).isSome) :
    (base.spellings? types).isSome := by
  induction types with
  | nil => rfl
  | cons type rest ih =>
    obtain ⟨htype, hrest⟩ := List.forall_mem_cons.1 h
    obtain ⟨name, hname⟩ := Option.isSome_iff_exists.1 htype
    rw [spellings?, hname, Option.bind_some, Option.isSome_map]
    exact ih hrest

/-- What a walk passes has a canonical name, and the table only grows. -/
theorem TypeTable.Spelled.walkable (hbase : base.Spelled) :
    Walkable base.PlainlyGrown fun type => (base.spelling? type).isSome where
  primitive _ := rfl
  param _ := rfl
  pointer h := by
    rw [spelling?, Option.isSome_map]
    exact h
  slice h := by
    rw [spelling?, Option.isSome_map]
    exact h
  array h := by
    rw [spelling?, Option.isSome_map]
    exact h
  union _ h := by
    rw [spelling?, Option.isSome_map]
    exact spellings?_isSome h
  canonicalName := by
    intro type hplain s name t hs hrun
    obtain ⟨ht, hname⟩ := (canonicalName_named hbase hplain s hs).of_run hrun
    exact ⟨ht, Option.isSome_iff_exists.2 ⟨name, hname⟩⟩
  retrieve := by
    intro ref hplain s found t hs hrun
    have hbody := ((walkable_spelledOver base).retrieve hplain s found t hs.toSpelledOver hrun).2.2
    obtain ⟨answer, last, hlocate, hlast⟩ := bind_eq_ok.1 hrun
    obtain ⟨rfl, rfl⟩ := pure_eq_ok.1 hlast
    obtain ⟨ht, names, hnames, hanswer⟩ := (locate_answer hbase.confines hplain hs).of_run hlocate
    exact ⟨ht, fun _ => Option.isSome_iff_exists.2 ⟨_, hanswer.spelling hnames⟩, hbody⟩

/-- The table of a program has grown from the definitions of the project, and what these mention
has a canonical name. -/
theorem grown_of_build {project : Project} {program : Program}
    (hbuild : Program.build fuel project = .ok program) (hplain : project.Plain)
    (hdefinitions : ofProject project = .ok base) :
    base.Spelled ∧ base.instances = [] ∧ base.PlainlyGrown program.types ∧
      ∀ entry ∈ base.stored, ∀ component ∈ entry.2.body.components,
        component.isGeneric = false → (base.spelling? component).isSome := by
  obtain ⟨types, walked, functions, htypes, hwalk, hfunctions, hprogram⟩ :=
    Program.build_eq_ok hbuild
  obtain rfl : types = base := Except.ok.inj (htypes.symm.trans hdefinitions)
  have hspelled := spelled_of_foldlM hplain.files hplain.types htypes
  obtain ⟨_, hproject, hinstances, _⟩ := stored_of_foldlM htypes (.empty project)
  obtain ⟨hwalked, hnamed⟩ := named_of_checkContainment hspelled.walkable (hspelled.grownBy _)
    (fun entry hentry => hspelled.plainBody ⟨entry.1, Or.inl hentry⟩) hwalk
  rw [hwalked.project, hproject] at hfunctions
  have hstores : Yields types.PlainlyGrown (OverloadTable.All FunctionDef.Plain)
      (OverloadTable.ofProject project) :=
    OverloadTable.ofProject_yields
      (fun hplain => (canonicalName_named hspelled hplain).keeps) id
      fun function hmem => (hplain.functions function hmem).1
  obtain ⟨hlast, _⟩ := hstores walked functions program.types hwalked hfunctions
  exact ⟨hspelled, hinstances, hlast, hnamed⟩

/-- Where aliases mention no type parameters, a type with a canonical name leads to types with
canonical names. -/
theorem TypeTable.SimpleAliases.traceable (hsimple : base.SimpleAliases)
    (hnamed : ∀ entry ∈ base.stored, ∀ component ∈ entry.2.body.components,
      component.isGeneric = false → (base.spelling? component).isSome)
    (htype : (base.spelling? type).isSome) :
    base.Traceable type := by
  intro last hreaches
  induction hreaches with
  | refl => exact htype
  | tail _ hstep ih =>
    rcases hstep.pointer_or_ref with rfl | ⟨ref, rfl⟩
    · rwa [spelling?, Option.isSome_map] at ih
    · obtain ⟨_, _, _, hbody, entry, hentry, rfl⟩ := hsimple.target_of_leads hstep
      exact hnamed entry hentry _ (by simp [hbody, TypeBody.components])
        (hsimple entry hentry _ hbody).2

end Built

end Accord
