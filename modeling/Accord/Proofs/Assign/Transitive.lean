import Accord.Proofs.Assign.Fits

/-!
# Fitting is transitive

If one type fits a second and the second fits a third, then the first fits the third, in
either mode.  Every pair of rules has to compose: membership in unions with the
expansion of unions, the decay of pointers to arrays with the strict comparison of what
they point to, and each way of counting as text with all the others.

The proof is by coinduction.  `FitsThrough` relates two types that fit through a third,
and `fitsBare_trans` shows that it satisfies the rule for every shape of destination.
-/

namespace Accord

open List TypeExpr TypeRef TypeTable

variable {bare element source mid dest type : TypeExpr} {length : UInt64} {name : String}
  {mode : Mode} {base : TypeTable}

/-- The first type fits the last, directly or through another. -/
def FitsThrough (base : TypeTable) : Comparison := fun mode source dest =>
  Fits base mode source dest ∨ ∃ mid : TypeExpr, source.plain = true ∧ mid.plain = true ∧
    dest.plain = true ∧ Fits base mode source mid ∧ Fits base mode mid dest

/-! ## Characters, arrays and text -/

section Text

variable (hbase : base.Variant base) (hclosed : base.Closed)

include hbase hclosed

/-- A type written like one that is no reference behind its aliases has the same type
behind its own. -/
theorem TypeTable.Alike.unaliases_of_ref?_none (h : base.Alike source dest)
    (hbare : base.Unaliases dest bare) (hnone : bare.ref? = none) : base.Unaliases source bare := by
  obtain ⟨bare', hbare', halike⟩ := h.symm.unaliases hbase hclosed hbare
  obtain ⟨_, rfl | ⟨left, _, rfl, _⟩⟩ := halike
  · exact hbare'
  · cases hnone

/-- Only characters fit into characters. -/
theorem Fits.char (h : Fits base mode source dest)
    (hdest : base.Unaliases dest (.primitive "Char")) :
    base.Unaliases source (.primitive "Char") := by
  rcases h.unfold with halike | ⟨bare, hbare, bareDest, hbareDest, hfits, _⟩
  · exact halike.unaliases_of_ref?_none hbase hclosed hdest rfl
  obtain rfl := hbareDest.unique hdest
  rcases hfits with ⟨htext, _⟩ | ⟨_, rfl⟩
  · exact absurd htext (by decide)
  · exact hbare

/-- Only arrays of the same length fit into arrays. -/
theorem Fits.array (h : Fits base mode source dest)
    (hdest : base.Unaliases dest (.array length element)) :
    ∃ held, base.Unaliases source (.array length held) ∧ Fits base mode held element := by
  rcases h.unfold with halike | ⟨bare, hbare, bareDest, hbareDest, hfits, _⟩
  · have hsource := halike.unaliases_of_ref?_none hbase hclosed hdest rfl
    have htame := hsource.inherits hbase (Tame.hereditary hbase hclosed) halike.tame
    exact ⟨element, hsource, .of_alike (htame.mentioned hbase hclosed .held).alike⟩
  obtain rfl := hbareDest.unique hdest
  obtain ⟨held, rfl, helement⟩ := hfits
  exact ⟨held, hbare, helement⟩

/-- What fits into text of some kind may be used as text. -/
theorem isText_trans (h : FitsBare base (.some base) (Fits base) mode source dest)
    (hdest : IsText (.some base) dest name) : IsText (.some base) source name := by
  cases dest with
  | primitive middle =>
    have hmiddle : isTextName middle ∧ (middle = "String" ∨ name = "RawString") := by
      simpa [IsText] using hdest
    rcases h with ⟨_, hsource⟩ | ⟨htext, _⟩
    · cases source with
      | primitive first =>
        have hfirst : isTextName first ∧ (first = "String" ∨ middle = "RawString") := by
          simpa [IsText] using hsource
        have hlast : first = "String" ∨ name = "RawString" := by
          rcases hfirst.2 with hstring | hraw
          · exact Or.inl hstring
          · rcases hmiddle.2 with hstring | hname
            · rw [hraw] at hstring
              exact absurd hstring (by decide)
            · exact Or.inr hname
        simpa [IsText] using And.intro hfirst.1 hlast
      | _ => exact hsource
    · rw [hmiddle.1] at htext
      cases htext
  | slice element =>
    obtain ⟨_, hchar, rfl⟩ := hdest
    rcases h with ⟨held, rfl, hheld⟩ | ⟨pointed, rfl, bare, hpointed, length, held, rfl, hheld⟩
    · exact ⟨_, hheld.char hbase hclosed hchar, rfl⟩
    · exact ⟨_, hpointed, length, held, rfl, _, hheld.char hbase hclosed hchar, rfl⟩
  | pointer target =>
    obtain ⟨_, htarget, length, element, rfl, _, hchar, rfl⟩ := hdest
    obtain ⟨pointed, rfl, hpointed⟩ := h
    obtain ⟨held, harray, hheld⟩ := hpointed.array hbase hclosed htarget
    exact ⟨_, harray, length, held, rfl, _, hheld.char hbase hclosed hchar, rfl⟩
  | _ => cases hdest

end Text

/-! ## References and unions -/

/-- A reference that leads anywhere is declared. -/
theorem TypeTable.Unaliases.declared (hbase : base.Variant base) {ref : TypeRef}
    (hplain : ref.plain) (h : base.Unaliases ref.toType bare) :
    ∃ package definition, base.declaration? ref = some (package, definition) := by
  obtain ⟨fuel, after, hrun⟩ := h
  cases fuel with
  | zero => exact absurd hrun Query.throw_ne_ok
  | succ fuel =>
    have href : ref.toType.ref? = some ref := rfl
    rw [unalias, unaliasFrom] at hrun
    simp only [href] at hrun
    obtain ⟨found, mid, hretrieve, _⟩ := Query.bind_eq_ok.1 hrun
    obtain ⟨⟨package, definition, hdeclared, _⟩, _⟩ := Retrieved.of_run hplain hbase hretrieve
    exact ⟨package, definition, hdeclared⟩

theorem SameDefinition.symm {source dest : TypeExpr}
    (h : SameDefinition base (Fits base) source dest) :
    SameDefinition base (Fits base) dest source := by
  obtain ⟨left, right, hsource, hdest, hname, hdeclared, harguments⟩ := h
  exact ⟨right, left, hdest, hsource, hname.symm, hdeclared.symm,
    harguments.flip.imp fun _ _ h => Fits.symm h⟩

/-- Two references that name one definition by way of a third. -/
theorem SameDefinition.through (hplain : source.plain) (hmid : mid.plain)
    (hdest : dest.plain) (h : SameDefinition base (Fits base) source mid)
    (h' : SameDefinition base (Fits base) mid dest) :
    SameDefinition base (FitsThrough base) source dest := by
  obtain ⟨left, middle, rfl, rfl, hname, hdeclared, harguments⟩ := h
  obtain ⟨middle', right, hmiddle, rfl, hname', hdeclared', harguments'⟩ := h'
  obtain rfl := toType_inj hmiddle
  have hparts : ∀ {ref : TypeRef}, ref.plain →
      ∀ type ∈ ref.arguments, type.plain := fun h =>
    plainAll_iff.1 (plain_iff.1 h).2.2
  refine ⟨left, right, rfl, rfl, hname.trans hname', hdeclared.trans hdeclared', ?_⟩
  rw [forall₂_iff_get] at harguments harguments' ⊢
  refine ⟨harguments.1.trans harguments'.1, fun i hi hi' => ?_⟩
  have himiddle : i < middle.arguments.length := harguments.1 ▸ hi
  exact Or.inr ⟨_, hparts hplain _ (get_mem ..),
    hparts hmid (middle.arguments.get ⟨i, himiddle⟩) (get_mem ..),
    hparts hdest _ (get_mem ..), harguments.2 i hi himiddle, harguments'.2 i himiddle hi'⟩

/-- Only a primitive type fits a primitive type both ways. -/
theorem FitsBare.primitive (h : FitsBare base (.some base) (Fits base) mode type (.primitive name))
    (h' : FitsBare base (.some base) (Fits base) mode (.primitive name) type) :
    ∃ other, type = .primitive other := by
  rcases h with ⟨_, htext⟩ | ⟨_, rfl⟩
  · cases type with
    | primitive other => exact ⟨other, rfl⟩
    | slice element =>
      rcases h' with ⟨_, hslice, _⟩ | ⟨_, hpointer, _⟩
      · cases hslice
      · cases hpointer
    | pointer target =>
      obtain ⟨_, hpointer, _⟩ := h'
      cases hpointer
    | _ => cases htext
  · exact ⟨name, rfl⟩

theorem samePrimitive_trans (h : FitsBare base (.some base) (Fits base) .strict source mid)
    (hback : FitsBare base (.some base) (Fits base) .strict mid source)
    (hsource : samePrimitive source mid) (hdest : samePrimitive mid dest) :
    samePrimitive source dest := by
  cases source with
  | primitive name =>
    obtain ⟨other, rfl⟩ := hback.primitive h
    obtain rfl : name = other := by simpa [samePrimitive] using hsource
    exact hdest
  | _ => cases dest <;> rfl

section Trans

variable (hbase : base.Variant base)

include hbase

theorem TypeTable.Unaliases.array_plain (h : base.Unaliases type (.array length element))
    (hplain : type.plain) : element.plain := by
  have harray := h.inherits hbase hbase.plain.hereditary hplain
  exact harray

/-- Two references to one definition with alternatives have the same alternatives. -/
theorem SameDefinition.flattens {related : Comparison} (hsource : source.plain)
    (hdest : dest.plain) (hbare : base.Unaliases source source)
    (h : SameDefinition base related source dest) {types : List TypeExpr}
    (htypes : base.Flattens source types) (hne : types ≠ []) : base.Flattens dest types := by
  obtain ⟨left, right, rfl, rfl, hname, hdeclared, harguments⟩ := h
  have hnil : left.arguments = [] := by
    rcases htypes.shape hbase hsource hbare hne with ⟨_, hunion⟩ | ⟨ref, href, hnil⟩
    · cases hunion
    · rwa [toType_inj href]
  have hnil' : right.arguments = [] := by
    rw [hnil] at harguments
    exact forall₂_nil_left_iff.1 harguments
  obtain ⟨package, definition, hleft⟩ := hbare.declared hbase hsource
  have hsame : base.SameReference left right :=
    ⟨hsource, hdest, hnil, hnil', hname, package, definition, hleft, hdeclared ▸ hleft⟩
  exact htypes.of_sameReference hbase.plain.hereditary hbase hsame hsource

/-- A member of a union fits wherever every alternative of the union does. -/
theorem Member.through (hplain : source.plain) (hmid : mid.plain)
    (hdest : dest.plain) (h : Member (.some base) (Fits base) mode source mid)
    {offered accepted : List TypeExpr} (hoffered : base.Flattens mid offered)
    (haccepted : base.Flattens dest accepted) (hne : accepted ≠ [])
    (hall : ∀ part ∈ offered, ∃ alternative ∈ accepted, Fits base mode part alternative) :
    Member (.some base) (FitsThrough base) mode source dest := by
  have hgood := hbase.plain.hereditary
  have hmidPlain := hoffered.inherits hbase hgood hmid
  have hdestPlain := haccepted.inherits hbase hgood hdest
  have hcompose : ∀ {type : TypeExpr} {part : TypeExpr}, type.plain → part ∈ offered →
      Fits base mode type part → ∃ alternative ∈ accepted, FitsThrough base mode type alternative := by
    intro type part htype hpart hfits
    obtain ⟨alternative, hmem, hfits'⟩ := hall part hpart
    exact ⟨alternative, hmem,
      Or.inr ⟨part, htype, hmidPlain part hpart, hdestPlain _ hmem, hfits, hfits'⟩⟩
  obtain ⟨types, htypes, _, hcase⟩ := h
  obtain rfl := htypes.unique hoffered
  refine ⟨accepted, haccepted, hne, ?_⟩
  rcases hcase with ⟨part, hpart, hfits⟩ | ⟨given, hgiven, hne', hparts⟩
  · exact Or.inl (hcompose hplain hpart hfits)
  · refine Or.inr ⟨given, hgiven, hne', fun type htype => ?_⟩
    obtain ⟨part, hpart, hfits⟩ := hparts type htype
    exact hcompose (hgiven.inherits hbase hgood hplain type htype) hpart hfits

variable (hclosed : base.Closed)

section Middle

variable (hplain : source.plain) (hmid : mid.plain) (hdest : dest.plain)
  (hbare : base.Unaliases mid mid) (hfits : Fits base mode source mid)

include hplain hmid hdest hbare hfits

theorem member_trans (hrule : FitsBare base (.some base) (Fits base) mode source mid)
    (h : Member (.some base) (Fits base) mode mid dest) :
    Member (.some base) (FitsThrough base) mode source dest := by
  obtain ⟨accepted, haccepted, hne, ⟨alternative, hmem, hfits'⟩ | ⟨offered, hoffered, hne', hall⟩⟩ := h
  · have halternative := haccepted.inherits hbase hbase.plain.hereditary hdest _ hmem
    exact ⟨accepted, haccepted, hne, Or.inl ⟨alternative, hmem,
      Or.inr ⟨mid, hplain, hmid, halternative, hfits, hfits'⟩⟩⟩
  · -- The middle type is a union, named or not.
    have hmember := fun h => Member.through hbase hplain hmid hdest h hoffered haccepted hne hall
    rcases hoffered.shape hbase hmid hbare hne' with ⟨alternatives, rfl⟩ | ⟨ref, rfl, _⟩
    · exact hmember hrule
    · rcases hrule with hsame | hrule
      · have hsource := hsame.symm.flattens hbase hmid hplain hbare hoffered hne'
        exact ⟨accepted, haccepted, hne, Or.inr ⟨offered, hsource, hne', fun part hpart =>
          (hall part hpart).imp fun _ h => ⟨h.1, Or.inl h.2⟩⟩⟩
      · exact hmember hrule

include hclosed

/-- The rule for each shape of destination holds of what fits through a third type. -/
theorem fitsBare_trans (h : FitsBare base (.some base) (Fits base) mode source mid)
    (h' : FitsBare base (.some base) (Fits base) mode mid dest) :
    FitsBare base (.some base) (FitsThrough base) mode source dest := by
  cases dest with
  | param name => exact h'
  | named name qualifier arguments origin =>
    rcases h' with hsame | hmember
    · -- The middle type is a reference, so the source refers to the same definition or is
      -- a member of it.
      obtain ⟨ref, _, rfl, _⟩ := id hsame
      rcases h with hsame' | ⟨accepted, haccepted, hne, hcase⟩
      · exact Or.inl (hsame'.through hplain hmid hdest hsame)
      · have hdestAccepted := hsame.flattens hbase hmid hdest hbare haccepted hne
        refine Or.inr (Member.mono (Reading.some_implies_some base) (fun _ _ _ => Or.inl) ?_)
        exact ⟨accepted, hdestAccepted, hne, hcase⟩
    · exact Or.inr (member_trans hbase hplain hmid hdest hbare hfits h hmember)
  | union alternatives => exact member_trans hbase hplain hmid hdest hbare hfits h h'
  | pointer target =>
    obtain ⟨middle, rfl, htarget⟩ := h'
    obtain ⟨pointed, rfl, hpointed⟩ := h
    exact ⟨pointed, rfl, Or.inr ⟨middle, hplain, hmid, hdest, hpointed, htarget⟩⟩
  | array length element =>
    obtain ⟨middle, rfl, helement⟩ := h'
    obtain ⟨held, rfl, hheld⟩ := h
    exact ⟨held, rfl, Or.inr ⟨middle, hplain, hmid, hdest, hheld, helement⟩⟩
  | slice element =>
    rcases h' with ⟨middle, rfl, helement⟩ | ⟨target, rfl, _, harray, length, middle, rfl, helement⟩
    · rcases h with ⟨held, rfl, hheld⟩ | ⟨pointed, rfl, _, harray, length, held, rfl, hheld⟩
      · exact Or.inl ⟨held, rfl, Or.inr ⟨middle, hplain, hmid, hdest, hheld, helement⟩⟩
      · have hheldPlain := harray.array_plain hbase hplain
        exact Or.inr ⟨pointed, rfl, _, harray, length, held, rfl,
          Or.inr ⟨middle, hheldPlain, hmid, hdest, hheld, helement⟩⟩
    · obtain ⟨pointed, rfl, hpointed⟩ := h
      obtain ⟨held, harray', hheld⟩ := hpointed.array hbase hclosed harray
      have hheldPlain := harray'.array_plain hbase hplain
      have hmiddle := harray.array_plain hbase hmid
      exact Or.inr ⟨pointed, rfl, _, harray', length, held, rfl,
        Or.inr ⟨middle, hheldPlain, hmiddle, hdest, hheld, helement⟩⟩
  | primitive name =>
    rcases h' with ⟨htext, hmiddle⟩ | ⟨htext, rfl⟩
    · exact Or.inl ⟨htext, isText_trans hbase hclosed h hmiddle⟩
    · rcases h with ⟨htext', _⟩ | ⟨_, hsource⟩
      · rw [htext] at htext'
        cases htext'
      · exact Or.inr ⟨htext, hsource⟩

end Middle

include hclosed

/-- The types behind two that are written alike are the same, or the two fit each other by
the rules. -/
theorem TypeTable.Alike.unaliases_or_fitsStep {source dest : TypeExpr}
    (h : base.Alike source dest) {bare : TypeExpr} (hbare : base.Unaliases source bare)
    (mode : Mode) : base.Unaliases dest bare ∨
      (FitsStep base (.some base) (Fits base) mode source dest ∧
        FitsStep base (.some base) (Fits base) mode dest source) := by
  obtain ⟨bare', hbare', halike⟩ := h.unaliases hbase hclosed hbare
  obtain ⟨_, rfl | ⟨left, right, rfl, rfl, hsame⟩⟩ := halike
  · exact Or.inl hbare'
  · obtain ⟨package, definition, hleft, hright⟩ := hsame.declared
    have hforth : SameDefinition base (Fits base) left.toType right.toType := by
      refine ⟨left, right, rfl, rfl, hsame.name, hleft.trans hright.symm, ?_⟩
      rw [hsame.leftNil, hsame.rightNil]
      exact .nil
    exact Or.inr ⟨⟨_, hbare, _, hbare', Or.inl hforth, fun _ => ⟨Or.inl hforth.symm, rfl⟩⟩,
      ⟨_, hbare', _, hbare, Or.inl hforth.symm, fun _ => ⟨Or.inl hforth, rfl⟩⟩⟩

theorem fitsStep_trans {mode : Mode} {source mid dest : TypeExpr} (hplain : source.plain)
    (hmid : mid.plain) (hdest : dest.plain)
    (h : FitsStep base (.some base) (Fits base) mode source mid)
    (h' : FitsStep base (.some base) (Fits base) mode mid dest) :
    FitsStep base (.some base) (FitsThrough base) mode source dest := by
  have hgood := hbase.plain.hereditary
  obtain ⟨bare, hbare, bareMid, hbareMid, hrule, hstrict⟩ := h
  obtain ⟨bareMid', hbareMid', bareDest, hbareDest, hrule', hstrict'⟩ := h'
  obtain rfl := hbareMid.unique hbareMid'
  have hbarePlain := hbare.inherits hbase hgood hplain
  have hmidPlain := hbareMid.inherits hbase hgood hmid
  have hdestPlain := hbareDest.inherits hbase hgood hdest
  have hmidBare := hbareMid.bare hbase hmid
  have hforth : Fits base mode bare bareMid :=
    .of_step ⟨bare, hbare.bare hbase hplain, bareMid, hmidBare, hrule, hstrict⟩
  have hforth' : Fits base mode bareMid bareDest :=
    .of_step ⟨bareMid, hmidBare, bareDest, hbareDest.bare hbase hdest, hrule', hstrict'⟩
  refine ⟨bare, hbare, bareDest, hbareDest,
    fitsBare_trans hbase hclosed hbarePlain hmidPlain hdestPlain hmidBare hforth hrule hrule', ?_⟩
  rintro rfl
  obtain ⟨hback, hsame⟩ := hstrict rfl
  obtain ⟨hback', hsame'⟩ := hstrict' rfl
  exact ⟨fitsBare_trans hbase hclosed hdestPlain hmidPlain hbarePlain hmidBare hforth'.symm hback'
    hback, samePrimitive_trans hrule hback hsame hsame'⟩

/-- Fitting is transitive in both modes. -/
theorem Fits.trans {mode : Mode} {source mid dest : TypeExpr} (hplain : source.plain)
    (hmid : mid.plain) (hdest : dest.plain) (h : Fits base mode source mid)
    (h' : Fits base mode mid dest) : Fits base mode source dest := by
  refine ⟨FitsThrough base, ?_, Or.inr ⟨mid, hplain, hmid, hdest, h, h'⟩⟩
  clear h h' hplain hmid hdest
  have hmono : ∀ m s d, FitsStep base (.some base) (Fits base) m s d →
      FitsStep base (.some base) (FitsThrough base) m s d :=
    fun _ _ _ => FitsStep.mono (Reading.some_implies_some base) fun _ _ _ => Or.inl
  rintro mode source dest (hfits | ⟨mid, hplain, hmid, hdest, h, h'⟩)
  · exact hfits.unfold.imp_right (hmono _ _ _)
  · have hsteps := @fitsStep_trans base hbase hclosed mode source mid dest hplain hmid hdest
    rcases h.unfold with halike | hstep
    · rcases h'.unfold with halike' | hstep'
      · exact Or.inl (halike.trans halike')
      · obtain ⟨bareMid, hbareMid, hrest⟩ := id hstep'
        rcases halike.symm.unaliases_or_fitsStep hbase hclosed hbareMid mode with hbare | ⟨_, hstep⟩
        · exact Or.inr (hmono _ _ _ ⟨bareMid, hbare, hrest⟩)
        · exact Or.inr (hsteps hstep hstep')
    · rcases h'.unfold with halike' | hstep'
      · obtain ⟨bare, hbare, bareMid, hbareMid, hrest⟩ := id hstep
        rcases halike'.unaliases_or_fitsStep hbase hclosed hbareMid mode with hdest' | ⟨hstep', _⟩
        · exact Or.inr (hmono _ _ _ ⟨bare, hbare, bareMid, hdest', hrest⟩)
        · exact Or.inr (hsteps hstep hstep')
      · exact Or.inr (hsteps hstep hstep')

end Trans

end Accord
