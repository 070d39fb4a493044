import Accord.Assign.Compatible
import Accord.Proofs.Types.Ground

/-!
# When one type fits another

`Fits base mode source dest` says that a value of the source may go into a slot of the
destination, as a relation between types without parameters: apart from fuel, and from
what the table holds besides its definitions.  It is the largest relation whose pairs are
written alike or satisfy the rules of comparison (`FitsStep`), since definitions may refer
to each other in circles through pointers.

* `Fits.unfold` takes the relation apart; `Fits.of_alike` and `Fits.of_step` put it
  together.
* `Fits.symm` turns a strict comparison round.
* `Fits.unrefused` says that what fits is never refused.

The rules are stated for two readings of what stands behind a type.  `Reading.some`
requires that aliases can be followed and alternatives listed, `Reading.all` leaves open
whether they can.  What fits in the second sense is at least never refused, which is all
that can be said of a type whose aliases run in circles.
-/

namespace Accord

open TypeExpr

variable {source dest type : TypeExpr} {mode : Mode}

/-- A relation between sources and destinations, in each mode. -/
abbrev Comparison := Mode → TypeExpr → TypeExpr → Prop

/-! ## Readings -/

/-- How statements are read off the type behind the aliases of another, and off the
alternatives of a type. -/
structure Reading where
  bare : TypeExpr → (TypeExpr → Prop) → Prop
  listed : TypeExpr → (List TypeExpr → Prop) → Prop

/-- There is such a type, or such a list, and the statement holds of it. -/
def Reading.some (base : TypeTable) : Reading where
  bare type holds := ∃ bare, base.Unaliases type bare ∧ holds bare
  listed type holds := ∃ types, base.Flattens type types ∧ holds types

/-- The statement holds if there is such a type, or such a list. -/
def Reading.all (base : TypeTable) : Reading where
  bare type holds := ∀ bare, base.Unaliases type bare → holds bare
  listed type holds := ∀ types, base.Flattens type types → holds types

/-- What is read in one way follows when less is read in another. -/
structure Reading.Implies (reading weaker : Reading) : Prop where
  bare : ∀ {type} {holds holds' : TypeExpr → Prop}, (∀ t, holds t → holds' t) →
    reading.bare type holds → weaker.bare type holds'
  listed : ∀ {type} {holds holds' : List TypeExpr → Prop}, (∀ ts, holds ts → holds' ts) →
    reading.listed type holds → weaker.listed type holds'

theorem Reading.some_implies_some (base : TypeTable) :
    (Reading.some base).Implies (Reading.some base) where
  bare := fun h ⟨bare, hview, hholds⟩ => ⟨bare, hview, h _ hholds⟩
  listed := fun h ⟨types, hview, hholds⟩ => ⟨types, hview, h _ hholds⟩

theorem Reading.some_implies_all (base : TypeTable) :
    (Reading.some base).Implies (Reading.all base) where
  bare := by
    rintro type holds holds' h ⟨bare, hview, hholds⟩ bare' hview'
    rw [← hview.unique hview']
    exact h _ hholds
  listed := by
    rintro type holds holds' h ⟨types, hview, hholds⟩ types' hview'
    rw [← hview.unique hview']
    exact h _ hholds

/-! ## Rules -/

section Rules

variable (base : TypeTable) (reading : Reading) (related : Comparison)

/-- Both refer to one definition, with the same type arguments. -/
def SameDefinition (source dest : TypeExpr) : Prop :=
  ∃ left right : TypeRef, source = left.toType ∧ dest = right.toType ∧
    left.name = right.name ∧ base.declaration? left = base.declaration? right ∧
    List.Forall₂ (related .strict) left.arguments right.arguments

/-- The destination is a union that has an alternative for the source, or for each
alternative of the source. -/
def Member (mode : Mode) (source dest : TypeExpr) : Prop :=
  reading.listed dest fun accepted => accepted ≠ [] ∧
    ((∃ alternative ∈ accepted, related mode source alternative) ∨
      reading.listed source fun offered => offered ≠ [] ∧
        ∀ part ∈ offered, ∃ alternative ∈ accepted, related mode part alternative)

/-- The source may be used as text of the given kind. -/
def IsText (source : TypeExpr) (dest : String) : Prop :=
  match source with
  | .primitive name =>
    (isTextName name && (name == "String" || dest == "RawString")) = true
  | .slice element => reading.bare element (· = .primitive "Char")
  | .pointer target => reading.bare target fun bare => ∃ length element,
      bare = .array length element ∧ reading.bare element (· = .primitive "Char")
  | _ => False

/-- The rule for each shape of destination, between types that are no aliases. -/
def FitsBare (mode : Mode) (source dest : TypeExpr) : Prop :=
  match dest with
  | .param _ => False
  | .named _ _ _ _ =>
    SameDefinition base related source dest ∨ Member reading related mode source dest
  | .union _ => Member reading related mode source dest
  | .pointer target => ∃ pointed, source = .pointer pointed ∧ related .strict pointed target
  | .array length element => ∃ held, source = .array length held ∧ related mode held element
  | .slice element =>
    (∃ held, source = .slice held ∧ related .strict held element) ∨
      ∃ pointed, source = .pointer pointed ∧ reading.bare pointed fun bare =>
        ∃ length held, bare = .array length held ∧ related .strict held element
  | .primitive name =>
    (isTextName name = true ∧ IsText reading source name) ∨
      (isTextName name = false ∧ source = .primitive name)

/-- One step of a comparison: both types without their aliases, and both ways in strict
mode. -/
def FitsStep (mode : Mode) (source dest : TypeExpr) : Prop :=
  reading.bare source fun bare => reading.bare dest fun bareDest =>
    FitsBare base reading related mode bare bareDest ∧
      (mode = .strict → FitsBare base reading related .strict bareDest bare ∧
        samePrimitive bare bareDest = true)

end Rules

section Mono

variable {base : TypeTable} {reading weaker : Reading} {related wider : Comparison}
  (hreading : reading.Implies weaker) (hrelated : ∀ m s d, related m s d → wider m s d)

include hrelated in
theorem SameDefinition.mono (h : SameDefinition base related source dest) :
    SameDefinition base wider source dest := by
  obtain ⟨left, right, hsource, hdest, hname, hdeclared, harguments⟩ := h
  exact ⟨left, right, hsource, hdest, hname, hdeclared,
    harguments.imp fun s d hsd => hrelated _ s d hsd⟩

include hreading in
theorem IsText.mono {dest : String} (h : IsText reading source dest) :
    IsText weaker source dest := by
  cases source with
  | primitive name => exact h
  | slice element => exact hreading.bare (fun _ h => h) h
  | pointer target =>
    refine hreading.bare ?_ h
    rintro bare ⟨length, element, rfl, hchar⟩
    exact ⟨length, element, rfl, hreading.bare (fun _ h => h) hchar⟩
  | _ => exact h

include hreading hrelated

theorem Member.mono (h : Member reading related mode source dest) :
    Member weaker wider mode source dest := by
  refine hreading.listed ?_ h
  rintro accepted ⟨hne, hcase⟩
  refine ⟨hne, ?_⟩
  rcases hcase with ⟨alternative, hmem, hfits⟩ | hoffered
  · exact Or.inl ⟨alternative, hmem, hrelated _ _ _ hfits⟩
  · refine Or.inr (hreading.listed ?_ hoffered)
    rintro offered ⟨hne', hall⟩
    refine ⟨hne', fun part hpart => ?_⟩
    obtain ⟨alternative, hmem, hfits⟩ := hall part hpart
    exact ⟨alternative, hmem, hrelated _ _ _ hfits⟩

theorem FitsBare.mono (h : FitsBare base reading related mode source dest) :
    FitsBare base weaker wider mode source dest := by
  cases dest with
  | param name => exact h
  | named name qualifier arguments origin =>
    exact h.imp (SameDefinition.mono hrelated) (Member.mono hreading hrelated)
  | union alternatives => exact Member.mono hreading hrelated h
  | pointer target =>
    obtain ⟨pointed, rfl, hfits⟩ := h
    exact ⟨pointed, rfl, hrelated _ _ _ hfits⟩
  | array length element =>
    obtain ⟨held, rfl, hfits⟩ := h
    exact ⟨held, rfl, hrelated _ _ _ hfits⟩
  | slice element =>
    rcases h with ⟨held, rfl, hfits⟩ | ⟨pointed, rfl, hpointed⟩
    · exact Or.inl ⟨held, rfl, hrelated _ _ _ hfits⟩
    · refine Or.inr ⟨pointed, rfl, hreading.bare ?_ hpointed⟩
      rintro bare ⟨length, held, rfl, hfits⟩
      exact ⟨length, held, rfl, hrelated _ _ _ hfits⟩
  | primitive name =>
    exact h.imp (fun htext => ⟨htext.1, IsText.mono hreading htext.2⟩) id

theorem FitsStep.mono (h : FitsStep base reading related mode source dest) :
    FitsStep base weaker wider mode source dest := by
  refine hreading.bare (fun bare hbare => ?_) h
  refine hreading.bare (fun bareDest hboth => ?_) hbare
  refine ⟨FitsBare.mono hreading hrelated hboth.1, fun hmode => ?_⟩
  obtain ⟨hback, hprimitive⟩ := hboth.2 hmode
  exact ⟨FitsBare.mono hreading hrelated hback, hprimitive⟩

end Mono

/-! ## Types written alike -/

theorem fitsBare_primitive {base : TypeTable} {reading : Reading} {related : Comparison}
    (name : String) : FitsBare base reading related mode (.primitive name) (.primitive name) := by
  cases htext : isTextName name with
  | true =>
    have hname : name = "String" ∨ name = "RawString" := by
      simpa [isTextName] using htext
    exact Or.inl ⟨htext, by simpa [IsText, htext] using hname⟩
  | false => exact Or.inr ⟨htext, rfl⟩

/-- A ground type satisfies the rule for its shape with itself, where its parts do and sums
have alternatives. -/
theorem TypeExpr.Ground.fitsBare_self {base : TypeTable} {reading : Reading}
    {related : Comparison} (h : type.Ground)
    (hpart : ∀ m part, base.Mentions type part → related m part part)
    (hsum : ∀ alternatives, type = .union alternatives → Member reading related mode type type) :
    FitsBare base reading related mode type type := by
  cases type with
  | param name => cases h.closed
  | named name qualifier arguments origin =>
    let ref : TypeRef := ⟨name, qualifier, arguments, origin⟩
    exact Or.inl ⟨ref, ref, rfl, rfl, rfl, rfl, List.forall₂_same.2 fun part hmem =>
      hpart _ _ (@TypeTable.Mentions.argument base ref part hmem)⟩
  | union alternatives => exact hsum alternatives rfl
  | pointer target => exact ⟨target, rfl, hpart _ _ .target⟩
  | array length element => exact ⟨element, rfl, hpart _ _ .held⟩
  | slice element => exact Or.inl ⟨element, rfl, hpart _ _ .element⟩
  | primitive name => exact fitsBare_primitive name

theorem samePrimitive_self (type : TypeExpr) : samePrimitive type type := by
  cases type with
  | primitive name => simp [samePrimitive]
  | _ => rfl

section Alike

variable {base : TypeTable} (hbase : base.Variant base) (hclosed : base.Closed)
  {related : Comparison} (hrelated : ∀ m s d, base.Alike s d → related m s d)

include hbase hclosed hrelated

theorem TypeTable.Tame.fitsBare (h : base.Tame type) (mode : Mode) :
    FitsBare base (.all base) related mode type type := by
  refine h.ground.fitsBare_self
    (fun m part hmentions => hrelated m _ _ (h.mentioned hbase hclosed hmentions).alike) ?_
  rintro alternatives rfl
  intro accepted haccepted
  have hne : accepted ≠ [] := by
    rintro rfl
    exact h.inhabited alternatives .refl haccepted
  refine ⟨hne, Or.inr fun offered hoffered => ?_⟩
  obtain rfl := haccepted.unique hoffered
  refine ⟨hne, fun part hmem => ⟨part, hmem, hrelated _ _ _ ?_⟩⟩
  have hgood := TypeTable.Tame.hereditary hbase hclosed
  exact (haccepted.inherits hbase hgood h part hmem).alike

theorem TypeTable.Alike.fitsBare (h : base.Alike source dest) (mode : Mode) :
    FitsBare base (.all base) related mode source dest := by
  obtain ⟨htame, rfl | ⟨left, right, rfl, rfl, hsame⟩⟩ := h
  · exact htame.fitsBare hbase hclosed hrelated mode
  · obtain ⟨package, definition, hleft, hright⟩ := hsame.declared
    refine Or.inl ⟨left, right, rfl, rfl, hsame.name, hleft.trans hright.symm, ?_⟩
    rw [hsame.leftNil, hsame.rightNil]
    exact .nil

theorem TypeTable.Alike.fitsStep (h : base.Alike source dest) (mode : Mode) :
    FitsStep base (.all base) related mode source dest := by
  intro bare hbare bareDest hbareDest
  obtain ⟨bare', hbare', halike⟩ := h.unaliases hbase hclosed hbare
  obtain rfl := hbareDest.unique hbare'
  refine ⟨halike.fitsBare hbase hclosed hrelated mode, fun _ =>
    ⟨halike.symm.fitsBare hbase hclosed hrelated .strict, ?_⟩⟩
  obtain ⟨_, rfl | ⟨left, right, rfl, rfl, _⟩⟩ := halike
  · exact samePrimitive_self bare
  · rfl

end Alike

/-! ## The relation -/

/-- The largest relation whose pairs are written alike or satisfy the rules. -/
def Fits (base : TypeTable) : Comparison := fun mode source dest =>
  ∃ related : Comparison,
    (∀ m s d, related m s d →
      base.Alike s d ∨ FitsStep base (.some base) related m s d) ∧
      related mode source dest

namespace Fits

variable {base : TypeTable}

theorem unfold (h : Fits base mode source dest) :
    base.Alike source dest ∨ FitsStep base (.some base) (Fits base) mode source dest := by
  obtain ⟨related, hstep, hrelated⟩ := h
  refine (hstep _ _ _ hrelated).imp_right fun h => ?_
  exact FitsStep.mono (Reading.some_implies_some base) (fun m s d hsd => ⟨related, hstep, hsd⟩) h

theorem of_alike (h : base.Alike source dest) : Fits base mode source dest :=
  ⟨fun _ s d => base.Alike s d, fun _ _ _ h => Or.inl h, h⟩

theorem of_step (h : FitsStep base (.some base) (Fits base) mode source dest) :
    Fits base mode source dest := by
  have hmono : ∀ m s d, FitsStep base (.some base) (Fits base) m s d →
      FitsStep base (.some base)
        (fun m s d => FitsStep base (.some base) (Fits base) m s d ∨ Fits base m s d) m s d :=
    fun _ _ _ => FitsStep.mono (Reading.some_implies_some base) fun _ _ _ h => Or.inr h
  refine ⟨fun m s d => FitsStep base (.some base) (Fits base) m s d ∨ Fits base m s d, ?_, Or.inl h⟩
  rintro m s d (hstep | hfits)
  · exact Or.inr (hmono m s d hstep)
  · exact hfits.unfold.imp_right (hmono m s d)

theorem symm (h : Fits base .strict source dest) : Fits base .strict dest source := by
  rcases h.unfold with halike | ⟨bare, hbare, bareDest, hdest, hforth, hboth⟩
  · exact .of_alike halike.symm
  obtain ⟨hback, hprimitive⟩ := hboth rfl
  refine of_step ⟨bareDest, hdest, bare, hbare, hback, fun _ => ⟨hforth, ?_⟩⟩
  cases bare with
  | primitive name =>
    cases bareDest with
    | primitive name' =>
      have hname : name = name' := by simpa [samePrimitive] using hprimitive
      simp [samePrimitive, hname]
    | _ => rfl
  | _ => cases bareDest <;> rfl

/-- What fits strictly fits leniently. -/
theorem lenient (h : Fits base .strict source dest) : Fits base .lenient source dest := by
  refine ⟨fun m s d => Fits base m s d ∨ Fits base .strict s d, ?_, Or.inr h⟩
  have hmono : ∀ m s d, FitsStep base (.some base) (Fits base) m s d →
      FitsStep base (.some base) (fun m s d => Fits base m s d ∨ Fits base .strict s d) m s d :=
    fun _ _ _ => FitsStep.mono (Reading.some_implies_some base) fun _ _ _ => Or.inl
  rintro m s d (hfits | hstrict)
  · exact hfits.unfold.imp_right (hmono m s d)
  · cases m with
    | strict => exact hstrict.unfold.imp_right (hmono .strict s d)
    | lenient =>
      refine hstrict.unfold.imp_right ?_
      rintro ⟨bare, hbare, bareDest, hdest, hrule, _⟩
      -- The mode of a rule only says in which mode it compares.
      have hrule' : FitsBare base (.some base) (fun _ => Fits base .strict) .lenient bare
          bareDest := by
        cases bareDest <;> exact hrule
      refine ⟨bare, hbare, bareDest, hdest, ?_, by simp⟩
      exact FitsBare.mono (Reading.some_implies_some base) (fun _ _ _ => Or.inr) hrule'

/-- What fits satisfies the rules wherever the types behind it can be found. -/
theorem unrefused (hbase : base.Variant base) (hclosed : base.Closed)
    (h : Fits base mode source dest) :
    FitsStep base (.all base) (Fits base) mode source dest := by
  rcases h.unfold with halike | hstep
  · exact halike.fitsStep hbase hclosed (fun _ _ _ => .of_alike) mode
  · exact FitsStep.mono (Reading.some_implies_all base) (fun _ _ _ h => h) hstep

end Fits

end Accord
