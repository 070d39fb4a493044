import Accord.Proofs.Assign.Frame
import Accord.Proofs.Types.Monomorphic

/-!
# Comparisons that come to an end

Comparing two types asks for comparisons of their parts, and of what stands in the definitions
that they refer to.  Definitions may refer to themselves through pointers and slices, so there
are comparisons that ask for themselves again.

* `TypeTable.AskedBy` relates a comparison to one that may ask for it.  If no endless chain
  of comparisons leads on from a comparison, each asked for by the one before, then it comes
  to an end (`accepts_settles`).
* `TypeTable.Opens` relates a type to one that it is opened from.  A comparison goes into both
  of its types in step, so there is no endless chain of comparisons if one of the two types
  cannot be opened endlessly (`acc_askedBy_of_acc_opens`).

Two references to one definition are compared by name, and records are never opened.
-/

namespace Accord

open Query TypeRef List TypeExpr Relation

variable {mode : Mode} {source dest type bare other : TypeExpr} {question : Question}
  {accepted : List TypeExpr}

/-- A comparison to be made. -/
structure Question where
  mode : Mode
  source : TypeExpr
  dest : TypeExpr

/-- No parameter stands in the two types. -/
structure Question.Closed (question : Question) : Prop where
  source : question.source.isGeneric = false
  dest : question.dest.isGeneric = false

namespace TypeTable

variable (table : TypeTable)

/-- Two references to one definition, without type arguments. -/
def SameDeclared (left right : TypeExpr) : Prop :=
  ∃ leftRef rightRef : TypeRef, left = leftRef.toType ∧ right = rightRef.toType ∧
    leftRef.name = rightRef.name ∧ leftRef.arguments = [] ∧ rightRef.arguments = [] ∧
    ∃ package definition definition', locate leftRef table = .ok (package, definition) table ∧
      locate rightRef table = .ok (package, definition') table

/-- What comparing two types that are no aliases may ask for. -/
inductive AsksBare (mode : Mode) : TypeExpr → TypeExpr → Question → Prop where
  | targets {source dest : TypeExpr} :
      AsksBare mode (.pointer source) (.pointer dest) ⟨.strict, source, dest⟩
  | held {length : UInt64} {source dest : TypeExpr} :
      AsksBare mode (.array length source) (.array length dest) ⟨mode, source, dest⟩
  | elements {source dest : TypeExpr} :
      AsksBare mode (.slice source) (.slice dest) ⟨.strict, source, dest⟩
  | pointedElements {target source dest : TypeExpr} {length : UInt64}
      (pointed : table.Unaliases target (.array length source)) :
      AsksBare mode (.pointer target) (.slice dest) ⟨.strict, source, dest⟩
  | arguments {sourceRef destRef : TypeRef} {source dest : TypeExpr}
      (mem : (source, dest) ∈ sourceRef.arguments.zip destRef.arguments) :
      AsksBare mode sourceRef.toType destRef.toType ⟨.strict, source, dest⟩
  | alternative {source dest accepted : TypeExpr} {types : List TypeExpr}
      (apart : ¬ table.SameDeclared source dest) (flattens : table.Flattens dest types)
      (mem : accepted ∈ types) : AsksBare mode source dest ⟨mode, source, accepted⟩
  | alternatives {source dest offered accepted : TypeExpr} {types types' : List TypeExpr}
      (apart : ¬ table.SameDeclared source dest) (flattens : table.Flattens dest types)
      (mem : accepted ∈ types) (flattens' : table.Flattens source types')
      (mem' : offered ∈ types') : AsksBare mode source dest ⟨mode, offered, accepted⟩

/-- The first comparison may be asked for when the second is made.  A strict comparison is made
in both directions. -/
inductive AskedBy : Question → Question → Prop where
  | forth {question : Question} {mode : Mode} {source dest bare bareDest : TypeExpr}
      (sourceBare : table.Unaliases source bare) (destBare : table.Unaliases dest bareDest)
      (asks : table.AsksBare mode bare bareDest question) :
      AskedBy question ⟨mode, source, dest⟩
  | back {question : Question} {source dest bare bareDest : TypeExpr}
      (sourceBare : table.Unaliases source bare) (destBare : table.Unaliases dest bareDest)
      (asks : table.AsksBare .strict bareDest bare question) :
      AskedBy question ⟨.strict, source, dest⟩

/-- The first type stands in the second, behind its aliases: as a part or as an alternative. -/
inductive Opens : TypeExpr → TypeExpr → Prop where
  | target {type target : TypeExpr} (bare : table.Unaliases type (.pointer target)) :
      Opens target type
  | held {type held : TypeExpr} {length : UInt64} (bare : table.Unaliases type (.array length held)) :
      Opens held type
  | element {type element : TypeExpr} (bare : table.Unaliases type (.slice element)) :
      Opens element type
  | argument {type argument : TypeExpr} {ref : TypeRef} (bare : table.Unaliases type ref.toType)
      (mem : argument ∈ ref.arguments) : Opens argument type
  | alternative {type bareType alternative : TypeExpr} {types : List TypeExpr}
      (bare : table.Unaliases type bareType) (flattens : table.Flattens bareType types)
      (mem : alternative ∈ types) : Opens alternative type

end TypeTable

/-! ## Parts without parameters -/

section Closed

variable {table : TypeTable} (hmono : table.Monomorphic)

include hmono

theorem TypeTable.AsksBare.closed (h : table.AsksBare mode source dest question)
    (hsource : source.isGeneric = false) (hdest : dest.isGeneric = false) : question.Closed := by
  cases h with
  | targets | held | elements => exact ⟨hsource, hdest⟩
  | @pointedElements target _ _ _ hpointed =>
    have htarget : target.isGeneric = false := hsource
    exact ⟨(hpointed.good_bare hmono htarget).1, hdest⟩
  | arguments hmem =>
    obtain ⟨hleft, hright⟩ := of_mem_zip hmem
    exact ⟨anyGeneric_eq_false.1 hsource _ hleft, anyGeneric_eq_false.1 hdest _ hright⟩
  | alternative _ hflattens hmem => exact ⟨hsource, (hflattens.good_single hmono hdest _ hmem).1⟩
  | alternatives _ hflattens hmem hflattens' hmem' =>
    exact ⟨(hflattens'.good_single hmono hsource _ hmem').1,
      (hflattens.good_single hmono hdest _ hmem).1⟩

theorem TypeTable.AskedBy.closed {inner outer : Question} (h : table.AskedBy inner outer)
    (houter : outer.Closed) : inner.Closed := by
  cases h with
  | forth hsource hdest hasks =>
    exact hasks.closed hmono (hsource.good_bare hmono houter.source).1
      (hdest.good_bare hmono houter.dest).1
  | back hsource hdest hasks =>
    exact hasks.closed hmono (hdest.good_bare hmono houter.dest).1
      (hsource.good_bare hmono houter.source).1

end Closed

/-! ## Rules -/

/-- The table of a comparison under way has the property. -/
def CheckState.Has (inv : TypeTable → Prop) (state : CheckState) : Prop :=
  inv state.types

section Lift

variable {inv : TypeTable → Prop} {α : Type} {good : α → Prop}

theorem liftCheck_settles {query : Nat → TypeQuery α} (h : Settles inv good query) :
    Settles (CheckState.Has inv) good fun fuel => (liftM (query fuel) : Check α) :=
  .on (fun _ hs => hs) (fun _ _ _ ht => ht) h

theorem isolated_settles {check : Nat → Check α} (h : Settles (CheckState.Has inv) good check) :
    Settles (CheckState.Has inv) good fun fuel => (check fuel).isolated := by
  intro state hstate
  obtain ⟨result, hends, bound, hrun⟩ := h state hstate
  refine ⟨Check.isolated (fun _ => result) state, ?_, bound, fun fuel hle => ?_⟩
  · cases hends with
    | ok ha => exact .ok ha
    | error he => exact .error he
  · simp only [Check.isolated, hrun fuel hle]

theorem onTrial_settles {good : Bool → Prop} {check : Nat → Check Bool}
    (h : Settles (CheckState.Has inv) good check) :
    Settles (CheckState.Has inv) good fun fuel => (check fuel).onTrial := by
  intro state hstate
  obtain ⟨result, hends, bound, hrun⟩ := h state hstate
  refine ⟨Check.onTrial (fun _ => result) state, ?_, bound, fun fuel hle => ?_⟩
  · cases hends with
    | @ok accepted _ ha => cases accepted <;> exact .ok ha
    | error he => exact .error he
  · simp only [Check.onTrial, hrun fuel hle]

theorem run_settles {check : Nat → Check α} (inference : Inference)
    (h : Settles (CheckState.Has inv) good check) :
    Settles inv (fun answer => good answer.1) fun fuel => (check fuel).run inference := by
  intro types htypes
  obtain ⟨result, hends, bound, hrun⟩ := h { types, inference } htypes
  refine ⟨Check.run inference (fun _ => result) types, ?_, bound, fun fuel hle => ?_⟩
  · cases hends with
    | ok ha => exact .ok ha
    | error he => exact .error he
  · simp only [Check.run, hrun fuel hle]

end Lift

/-- The comparison comes to an end, whatever is known about parameters. -/
def Question.Settles (table : TypeTable) (judges : Nat → Judge) (question : Question) : Prop :=
  Query.Settles (CheckState.Has (· = table)) (fun _ => True)
    fun fuel => judges fuel question.mode question.source question.dest

section Rules

variable {table : TypeTable} {judges : Nat → Judge}

theorem sameArguments_settles {sources dests : List TypeExpr}
    (h : ∀ pair ∈ sources.zip dests,
      Question.Settles table judges ⟨.strict, pair.1, pair.2⟩) :
    Settles (CheckState.Has (· = table)) (fun _ => True)
      fun fuel => sameArguments (judges fuel) sources dests := by
  induction sources generalizing dests with
  | nil =>
    simp only [sameArguments]
    exact .pure trivial
  | cons source sources ih =>
    cases dests with
    | nil => exact .pure trivial
    | cons dest dests =>
      obtain ⟨hfirst, hrest⟩ := forall_mem_cons.1 h
      exact Settles.cond hfirst (fun _ => ih hrest) fun _ => Settles.pure trivial

theorem someAccepts_settles
    (h : ∀ alternative ∈ accepted, Question.Settles table judges ⟨mode, source, alternative⟩) :
    Settles (CheckState.Has (· = table)) (fun _ => True)
      fun fuel => someAccepts (judges fuel) mode source accepted := by
  induction accepted with
  | nil => exact .pure trivial
  | cons alternative rest ih =>
    obtain ⟨hfirst, hrest⟩ := forall_mem_cons.1 h
    exact Settles.cond (onTrial_settles hfirst) (fun _ => Settles.pure trivial) fun _ => ih hrest

theorem allAccepted_settles {offered : List TypeExpr}
    (h : ∀ source ∈ offered, ∀ alternative ∈ accepted,
      Question.Settles table judges ⟨mode, source, alternative⟩) :
    Settles (CheckState.Has (· = table)) (fun _ => True)
      fun fuel => allAccepted (judges fuel) mode accepted offered := by
  induction offered with
  | nil => exact .pure trivial
  | cons source rest ih =>
    obtain ⟨hfirst, hrest⟩ := forall_mem_cons.1 h
    exact .cond (someAccepts_settles hfirst) (fun _ => ih hrest) fun _ =>
      .pure trivial

variable (hmono : table.Monomorphic)

include hmono

/-- References that are not found to be the same are no references to one definition. -/
theorem sameDefinition_settles (source dest : TypeRef)
    (h : ∀ pair ∈ source.arguments.zip dest.arguments,
      Question.Settles table judges ⟨.strict, pair.1, pair.2⟩) :
    Settles (CheckState.Has (· = table))
      (fun same => same = false → ¬ table.SameDeclared source.toType dest.toType)
      fun fuel => sameDefinition (judges fuel) source dest := by
  unfold sameDefinition
  refine .ite (fun hdiffers => .pure fun _ hsame => ?_) fun hlike => ?_
  · obtain ⟨left, right, hleft, hright, hname, hnil, hnil', _⟩ := hsame
    obtain rfl := toType_inj hleft
    obtain rfl := toType_inj hright
    simp [hname, hnil, hnil'] at hdiffers
  · refine (liftCheck_settles (locate_settles hmono source).answered).bind fun found hfound => ?_
    refine (liftCheck_settles (locate_settles hmono dest).answered).bind fun found' hfound' => ?_
    obtain ⟨package, definition⟩ := found
    obtain ⟨package', definition'⟩ := found'
    obtain ⟨_, _, hlocate⟩ := hfound
    obtain ⟨_, _, hlocate'⟩ := hfound'
    refine .ite (fun hapart => .pure fun _ hsame => ?_) fun _ => ?_
    · obtain ⟨left, right, hleft, hright, _, _, _, _, _, _, hleft', hright'⟩ := hsame
      obtain rfl := toType_inj hleft
      obtain rfl := toType_inj hright
      rw [hlocate] at hleft'
      rw [hlocate'] at hright'
      cases hleft'
      cases hright'
      simp at hapart
    · -- Without type arguments there is nothing more to compare, and the answer is yes.
      by_cases hnil : source.arguments = [] ∧ dest.arguments = []
      · rw [hnil.1, hnil.2]
        exact .const fun state hstate => .ok ⟨by simp, hstate⟩
      · refine (onTrial_settles (sameArguments_settles h)).mono fun _ _ _ hsame => hnil ?_
        obtain ⟨left, right, hleft, hright, _, hleftNil, hrightNil, _⟩ := hsame
        rw [toType_inj hleft, toType_inj hright]
        exact ⟨hleftNil, hrightNil⟩

theorem memberOf_settles (hsource : source.isGeneric = false) (hdest : dest.isGeneric = false)
      (hone : ∀ accepted, table.Flattens dest accepted → ∀ alternative ∈ accepted,
      Question.Settles table judges ⟨mode, source, alternative⟩) (hboth : ∀ accepted offered,
      table.Flattens dest accepted → table.Flattens source offered → ∀ part ∈ offered, ∀
      alternative ∈ accepted, Question.Settles table judges ⟨mode, part, alternative⟩) :
    Settles (CheckState.Has (· = table)) (fun _ => True)
      fun fuel => memberOf fuel (judges fuel) mode source dest := by
  unfold memberOf
  refine (liftCheck_settles (alternatives_settles hmono hdest).answered).bind
    fun accepted haccepted => ?_
  have hflattens : table.Flattens dest accepted := haccepted.2.imp fun _ hrun => ⟨table, hrun⟩
  refine .ite (fun _ => .pure trivial) fun _ => ?_
  refine .cond (someAccepts_settles (hone accepted hflattens)) (fun _ => .pure trivial) fun _ => ?_
  refine (liftCheck_settles (alternatives_settles hmono hsource).answered).bind
    fun offered hoffered => ?_
  have hflattens' : table.Flattens source offered := hoffered.2.imp fun _ hrun => ⟨table, hrun⟩
  refine .ite (fun _ => .pure trivial) fun _ => ?_
  exact onTrial_settles (allAccepted_settles (hboth accepted offered hflattens hflattens'))

theorem pointedElement_settles {target : TypeExpr} (h : target.isGeneric = false) :
    Settles (· = table)
      (fun found => ∀ element, found = some element → element.isGeneric = false ∧
        ∃ length, table.Unaliases target (.array length element))
      fun fuel => pointedElement fuel target := by
  refine (unalias_settles hmono h).answered.bind fun bare hbare => ?_
  obtain ⟨⟨hclosed, _⟩, fuel, hrun⟩ := hbare
  cases bare with
  | array length element =>
    refine .pure ?_
    rintro _ ⟨⟩
    exact ⟨hclosed, length, fuel, table, hrun⟩
  | _ => exact .pure (by simp)

theorem textAccepts_settles (h : source.isGeneric = false) (dest : String) :
    Settles (· = table) (fun _ => True) fun fuel => textAccepts fuel source dest := by
  cases source with
  | slice element =>
    have helement : element.isGeneric = false := h
    exact (unalias_settles hmono helement).bind fun _ _ => .pure trivial
  | pointer target =>
    have htarget : target.isGeneric = false := h
    refine (pointedElement_settles hmono htarget).bind fun found hfound => ?_
    cases found with
    | none => exact .pure trivial
    | some element =>
      exact (unalias_settles hmono (hfound element rfl).1).bind fun _ _ => .pure trivial
  | _ => exact .pure trivial

variable (hsource : source.isGeneric = false) (hdest : dest.isGeneric = false)
  (h : ∀ question, table.AsksBare mode source dest question → question.Settles table judges)

include hsource hdest h

/-- A comparison of bare types comes to an end if all that it may ask for do. -/
theorem acceptsShape_settles :
    Settles (CheckState.Has (· = table)) (fun _ => True)
      fun fuel => acceptsShape fuel (judges fuel) mode source dest := by
  have hmember (hapart : ¬ table.SameDeclared source dest) :
      Settles (CheckState.Has (· = table)) (fun _ => True)
        fun fuel => memberOf fuel (judges fuel) mode source dest := by
    refine memberOf_settles hmono hsource hdest ?_ ?_
    · exact fun accepted hflattens alternative hmem => h _ (.alternative hapart hflattens hmem)
    · exact fun accepted offered hflattens hflattens' part hmem' alternative hmem =>
        h _ (.alternatives hapart hflattens hmem hflattens' hmem')
  cases dest with
  | param name => cases hdest
  | union alternatives =>
    refine hmember ?_
    rintro ⟨_, _, _, hright, _⟩
    cases hright
  | named name qualifier arguments origin =>
    simp only [acceptsShape_named]
    have hsame : Settles (CheckState.Has (· = table))
        (fun same => same = false →
          ¬ table.SameDeclared source (.named name qualifier arguments origin))
        fun fuel => sameNamed (judges fuel) source ⟨name, qualifier, arguments, origin⟩ := by
      unfold sameNamed
      cases href : source.ref? with
      | none =>
        refine .pure fun _ hsame => ?_
        obtain ⟨left, _, rfl, _⟩ := hsame
        cases href
      | some ref =>
        obtain rfl := eq_of_ref? href
        refine sameDefinition_settles hmono ref ⟨name, qualifier, arguments, origin⟩
          fun pair hmem => ?_
        have hasks : table.AsksBare mode ref.toType
            (toType ⟨name, qualifier, arguments, origin⟩) ⟨.strict, pair.1, pair.2⟩ :=
          .arguments hmem
        exact h _ hasks
    exact .cond hsame (fun _ => .pure trivial) fun hapart => hmember (hapart rfl)
  | pointer target =>
    simp only [acceptsShape_pointer]
    cases source with
    | pointer pointed => exact h _ .targets
    | _ => exact .pure trivial
  | array length element =>
    simp only [acceptsShape_array]
    cases source with
    | array given held =>
      refine .ite (fun heq => ?_) fun _ => .pure trivial
      subst heq
      exact h _ .held
    | _ => exact .pure trivial
  | slice element =>
    simp only [acceptsShape_slice]
    cases source with
    | slice held => exact h _ .elements
    | pointer pointed =>
      have hpointed : pointed.isGeneric = false := hsource
      refine (liftCheck_settles (pointedElement_settles hmono hpointed)).bind fun found hfound => ?_
      cases found with
      | none => exact .pure trivial
      | some held =>
        obtain ⟨_, length, hbare⟩ := hfound held rfl
        exact h _ (.pointedElements hbare)
    | _ => exact .pure trivial
  | primitive name =>
    simp only [acceptsShape_primitive]
    exact .ite (fun _ => liftCheck_settles (textAccepts_settles hmono hsource name))
      fun _ => .pure trivial

theorem acceptsBare_settles :
    Settles (CheckState.Has (· = table)) (fun _ => True)
      fun fuel => acceptsBare fuel (judges fuel) mode source dest := by
  have hshape := acceptsShape_settles hmono hsource hdest h
  have hstands : ∀ inference, standsFor? inference source dest = none := by
    intro inference
    cases source with
    | param name => cases hsource
    | _ => rfl
  simp only [acceptsBare_eq, acceptsKnowing, hstands]
  exact hshape

end Rules

/-! ## Whole comparisons -/

section Whole

variable {table : TypeTable} (hmono : table.Monomorphic)

include hmono

theorem accepts_settles (h : Acc table.AskedBy question) (hclosed : question.Closed) :
    question.Settles table accepts := by
  induction h with
  | intro question _ ih =>
    have hinner : ∀ inner, table.AskedBy inner question → inner.Settles table accepts :=
      fun inner hasked => ih inner hasked (hasked.closed hmono hclosed)
    obtain ⟨mode, source, dest⟩ := question
    obtain ⟨hsource, hdest⟩ := hclosed
    refine Settles.succ ?_
    have hbares : ∀ {type bare : TypeExpr} {fuel : Nat},
        unalias fuel type table = .ok bare table → table.Unaliases type bare :=
      fun hrun => ⟨_, _, hrun⟩
    cases mode with
    | lenient =>
      simp only [accepts_lenient]
      refine (liftCheck_settles (unalias_settles hmono hsource).answered).bind fun bare hbare => ?_
      refine (liftCheck_settles (unalias_settles hmono hdest).answered).bind fun other hother => ?_
      obtain ⟨⟨hbareClosed, _⟩, _, hrun⟩ := hbare
      obtain ⟨⟨hotherClosed, _⟩, _, hrun'⟩ := hother
      exact acceptsBare_settles hmono hbareClosed hotherClosed fun inner hasks =>
        hinner inner (.forth (hbares hrun) (hbares hrun') hasks)
    | strict =>
      simp only [accepts_strict]
      refine (liftCheck_settles (unalias_settles hmono hsource).answered).bind fun bare hbare => ?_
      refine (liftCheck_settles (unalias_settles hmono hdest).answered).bind fun other hother => ?_
      obtain ⟨⟨hbareClosed, _⟩, _, hrun⟩ := hbare
      obtain ⟨⟨hotherClosed, _⟩, _, hrun'⟩ := hother
      have hforth := acceptsBare_settles hmono hbareClosed hotherClosed fun inner hasks =>
        hinner inner (.forth (hbares hrun) (hbares hrun') hasks)
      have hback := acceptsBare_settles hmono hotherClosed hbareClosed fun inner hasks =>
        hinner inner (.back (hbares hrun) (hbares hrun') hasks)
      refine .cond hforth (fun _ => ?_) fun _ => .pure trivial
      exact .cond (isolated_settles hback) (fun _ => .pure trivial) fun _ =>
        .pure trivial

/-- What is assignable is decided in the end. -/
theorem assignable_settles_of_acc (hsource : source.isGeneric = false)
    (hdest : dest.isGeneric = false) (h : Acc table.AskedBy ⟨mode, source, dest⟩) :
    Settles (· = table) (fun _ => True) fun fuel => assignable fuel mode source dest := by
  have haccepts : Settles (CheckState.Has (· = table)) (fun _ => True)
      fun fuel => accepts fuel mode source dest := accepts_settles hmono h ⟨hsource, hdest⟩
  exact (run_settles {} haccepts).bind fun _ _ => .pure trivial

end Whole

/-! ## Types that open finitely -/

section Finite

variable {table : TypeTable}

/-- Comparing a type as a source asks about what it opens to, or about the type itself and
alternatives of the destination. -/
theorem TypeTable.AsksBare.source_opens (hbare : table.Unaliases type bare)
    (h : table.AsksBare mode bare other question) :
    TransGen table.Opens question.source type ∨
      question.source = bare ∧ ∃ types, table.Flattens other types ∧ question.dest ∈ types := by
  cases h with
  | targets => exact Or.inl (.single (.target hbare))
  | held => exact Or.inl (.single (.held hbare))
  | elements => exact Or.inl (.single (.element hbare))
  | pointedElements hpointed => exact Or.inl (.head (.held hpointed) (.single (.target hbare)))
  | arguments hmem => exact Or.inl (.single (.argument hbare (of_mem_zip hmem).1))
  | alternative _ hflattens hmem => exact Or.inr ⟨rfl, _, hflattens, hmem⟩
  | alternatives _ _ _ hflattens hmem => exact Or.inl (.single (.alternative hbare hflattens hmem))

/-- Comparing a type as a destination asks about what it opens to. -/
theorem TypeTable.AsksBare.dest_opens (hbare : table.Unaliases type bare)
    (h : table.AsksBare mode other bare question) : TransGen table.Opens question.dest type := by
  cases h with
  | targets => exact .single (.target hbare)
  | held => exact .single (.held hbare)
  | elements | pointedElements _ => exact .single (.element hbare)
  | arguments hmem => exact .single (.argument hbare (of_mem_zip hmem).2)
  | alternative _ hflattens hmem | alternatives _ hflattens hmem _ _ =>
    exact .single (.alternative hbare hflattens hmem)

/-- No endless chain leads on from a comparison with something that the type opens to. -/
structure TypeTable.PartsEnd (table : TypeTable) (type : TypeExpr) : Prop where
  sources : ∀ question : Question, question.Closed →
    TransGen table.Opens question.source type → Acc table.AskedBy question
  dests : ∀ question : Question, question.Closed →
    TransGen table.Opens question.dest type → Acc table.AskedBy question

variable (hmono : table.Monomorphic) (htype : type.isGeneric = false)
  (hbare : table.Unaliases type bare) (h : table.PartsEnd type)

include hmono htype hbare h

theorem TypeTable.PartsEnd.acc_single (mode : Mode) {alternative : TypeExpr}
    (halternative : alternative.isGeneric = false) (hsingle : table.Single alternative) :
    Acc table.AskedBy ⟨mode, bare, alternative⟩ := by
  obtain ⟨hclosed, hself⟩ := hbare.good_bare hmono htype
  refine Acc.intro _ fun inner hasked => ?_
  have hinner := hasked.closed hmono ⟨hclosed, halternative⟩
  cases hasked with
  | forth hsource hdest hasks =>
    obtain rfl := hself.unaliases_eq hsource
    rcases hasks.source_opens hbare with hpart | ⟨_, types, hflattens, hmem⟩
    · exact h.sources inner hinner hpart
    · rw [hsingle.flattens_eq hmono halternative hdest hflattens] at hmem
      cases hmem
  | back hsource hdest hasks =>
    obtain rfl := hself.unaliases_eq hsource
    exact h.dests inner hinner (hasks.dest_opens hbare)

/-- Where a comparison asks about the type itself again, the other type has become one of its
alternatives, which are no unions. -/
theorem TypeTable.PartsEnd.acc_asked {bareOther : TypeExpr} (hother : other.isGeneric = false)
    (hbareOther : table.Unaliases other bareOther) (hquestion : question.Closed)
    (hasks : table.AsksBare mode bare bareOther question) : Acc table.AskedBy question := by
  rcases hasks.source_opens hbare with hpart | ⟨hsame, types, hflattens, hmem⟩
  · exact h.sources question hquestion hpart
  · obtain ⟨hclosed, _⟩ := hbareOther.good_bare hmono hother
    obtain ⟨halternative, hsingle⟩ := hflattens.good_single hmono hclosed _ hmem
    have hacc := h.acc_single hmono htype hbare question.mode halternative hsingle
    rwa [← hsame] at hacc

omit htype hbare h

/-- A comparison with one type that opens finitely leads to no endless chain of comparisons.
The induction is on what that type opens to. -/
theorem acc_askedBy_of_acc_opens (hacc : Acc table.Opens type) (htype : type.isGeneric = false) :
    ∀ mode other, other.isGeneric = false →
      Acc table.AskedBy ⟨mode, type, other⟩ ∧ Acc table.AskedBy ⟨mode, other, type⟩ := by
  induction acc_transGen_iff.2 hacc with
  | intro type _ ih =>
    have hparts : table.PartsEnd type :=
      { sources := fun question hclosed hpart => (ih _ hpart (hacc.inv_of_transGen hpart)
          hclosed.source question.mode question.dest hclosed.dest).1
        dests := fun question hclosed hpart => (ih _ hpart (hacc.inv_of_transGen hpart)
          hclosed.dest question.mode question.source hclosed.source).2 }
    intro mode other hother
    refine ⟨Acc.intro _ fun inner hasked => ?_, Acc.intro _ fun inner hasked => ?_⟩
    · have hinner := hasked.closed hmono ⟨htype, hother⟩
      cases hasked with
      | forth hsource hdest hasks =>
        exact hparts.acc_asked hmono htype hsource hother hdest hinner hasks
      | back hsource hdest hasks => exact hparts.dests inner hinner (hasks.dest_opens hsource)
    · have hinner := hasked.closed hmono ⟨hother, htype⟩
      cases hasked with
      | forth hsource hdest hasks => exact hparts.dests inner hinner (hasks.dest_opens hdest)
      | back hsource hdest hasks =>
        exact hparts.acc_asked hmono htype hdest hother hsource hinner hasks

end Finite

end Accord
