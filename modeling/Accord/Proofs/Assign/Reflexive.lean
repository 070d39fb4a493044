import Accord.Proofs.Assign.Transitive
import Accord.Proofs.Types.Resolved

/-!
# What fits anywhere fits itself

A type need not fit itself: a sum without alternatives takes no value at all.  But a type
that fits somewhere does (`Fits.itself`), so the types that a call can pass are accepted by
parameters of the same types.

Only one case of the argument looks further than the rules.  A source may fit a union
because it fits one of its alternatives, and that says something about the source only if
the alternative is no union again.  It is not, as nested unions are expanded
(`Flattens.flat`).
-/

namespace Accord

open Query TypeExpr TypeRef TypeTable

variable {type bare source dest : TypeExpr} {types : List TypeExpr} {base : TypeTable}

/-! ## Alternatives are no unions -/

/-- The type is no union behind its aliases. -/
def TypeTable.Flat (base : TypeTable) (type : TypeExpr) : Prop :=
  ∃ fuel after, directAlternatives fuel type base = .ok none after

section Flat

variable (hbase : base.Variant base)

include hbase

/-- Whatever is listed is no union. -/
theorem TypeTable.Flattens.flat (hplain : type.plain) (h : base.Flattens type types) :
    ∀ t ∈ types, base.Flat t := by
  obtain ⟨fuel, after, hrun⟩ := h
  obtain ⟨gathered, mid, hgather, hpure⟩ := bind_eq_ok.1 hrun
  obtain ⟨rfl, _⟩ := pure_eq_ok.1 hpure
  have hdirect (fuel : Nat) {type : TypeExpr} (hplain : type.plain) :=
    ((directAlternatives_steady hbase.plain.hereditary fuel hplain).guards hbase).mono
      fun direct ⟨hparts, hrun⟩ =>
        (⟨fun hnone => ⟨fuel, hnone ▸ hrun⟩, hparts⟩ : (direct = none → base.Flat type) ∧ _)
  obtain ⟨_, hnames, _⟩ := (gather_guards trivial (fun _ => id) hdirect
    (fun hplain => (canonicalName_steady _ hplain).guards hbase) fuel [] hplain .nil base
    hbase).of_run hgather
  intro t hmem
  obtain ⟨_, _, _, hflat, _⟩ := exists_of_mem_left hnames hmem
  exact hflat

/-- Behind the aliases of a type that is no union there are no alternatives. -/
theorem TypeTable.Flat.flattens_nil (hplain : type.plain) (h : base.Flat type)
    (hbare : base.Unaliases type bare) (htypes : base.Flattens bare types) : types = [] := by
  have hgood := hbase.plain.hereditary
  have hself := hbare.bare hbase hplain
  obtain ⟨fuel, after, hrun⟩ := h
  obtain ⟨bare', mid, hunalias, hdirect⟩ := bind_eq_ok.1 hrun
  obtain ⟨hview, hbarePlain, hmid⟩ := Unaliases.of_run hbase hgood hplain hbase hunalias
  obtain rfl := hview.unique hbare
  obtain ⟨fuel', after', hrun'⟩ := htypes
  obtain ⟨gathered, _, hgather, hpure⟩ := bind_eq_ok.1 hrun'
  obtain ⟨rfl, _⟩ := pure_eq_ok.1 hpure
  cases fuel' with
  | zero => exact absurd hgather throw_ne_ok
  | succ fuel' =>
    rw [gather_eq] at hgather
    obtain ⟨direct, _, hasked, hrest⟩ := bind_eq_ok.1 hgather
    obtain ⟨bare'', mid', hunalias', hdirect'⟩ := bind_eq_ok.1 hasked
    obtain ⟨hview', _, hmid'⟩ := Unaliases.of_run hbase hgood hbarePlain hbase hunalias'
    obtain rfl := hview'.unique hself
    -- The same question was asked of two variants of the table.
    obtain ⟨_, _, hsame, _⟩ :=
      (directAlternativesOf_steady hgood hbarePlain).ok ⟨hmid, hmid'⟩ hdirect
    cases hsame.symm.trans hdirect'
    obtain ⟨rfl, _⟩ := pure_eq_ok.1 hrest
    rfl

/-- A sum without a name is a union. -/
theorem TypeTable.Flat.ne_union (hplain : type.plain) (h : base.Flat type)
    (hbare : base.Unaliases type bare) (alternatives : List TypeExpr) :
    bare ≠ .union alternatives := by
  rintro rfl
  obtain ⟨fuel, after, hrun⟩ := h
  obtain ⟨bare', mid, hunalias, hdirect⟩ := bind_eq_ok.1 hrun
  obtain ⟨hview, _⟩ := Unaliases.of_run hbase hbase.plain.hereditary hplain hbase hunalias
  obtain rfl := hview.unique hbare
  cases (pure_eq_ok.1 hdirect).1

end Flat

/-! ## Fitting oneself -/

/-- The types fit, or they are the same and fit somewhere. -/
def FitsItself (base : TypeTable) : Comparison := fun mode source dest =>
  Fits base mode source dest ∨ mode = .lenient ∧ source = dest ∧ source.plain = true ∧
    ∃ other : TypeExpr, other.plain = true ∧ Fits base .lenient source other

/-- A type whose bare type satisfies its own rule fits itself. -/
theorem Fits.strict_of_bare (hbare : base.Unaliases type bare)
    (h : FitsBare base (.some base) (Fits base) .strict bare bare) :
    Fits base .strict type type :=
  .of_step ⟨bare, hbare, bare, hbare, h, fun _ => ⟨h, samePrimitive_self bare⟩⟩

/-- What may be used as text satisfies its own rule. -/
theorem IsText.fitsBare_itself {name : String} (h : IsText (.some base) source name) :
    FitsBare base (.some base) (Fits base) .lenient source source := by
  have hchars : ∀ {element : TypeExpr}, (Reading.some base).bare element (· = .primitive "Char") →
      Fits base .strict element element := by
    rintro element ⟨_, hchar, rfl⟩
    exact .strict_of_bare hchar (fitsBare_primitive "Char")
  cases source with
  | primitive name => exact fitsBare_primitive name
  | slice element => exact Or.inl ⟨element, rfl, hchars h⟩
  | pointer target =>
    obtain ⟨_, htarget, length, element, rfl, hchar⟩ := h
    exact ⟨target, rfl, .strict_of_bare htarget ⟨element, rfl, hchars hchar⟩⟩
  | _ => exact h.elim

/-- Types that are related one by one are related to themselves if each of them is. -/
theorem forall₂_itself {related : TypeExpr → TypeExpr → Prop}
    (hitself : ∀ {source dest : TypeExpr}, related source dest → source.plain →
      dest.plain → related source source)
    {sources dests : List TypeExpr} (h : List.Forall₂ related sources dests)
    (hsources : plainAll sources) (hdests : plainAll dests) :
    List.Forall₂ related sources sources := by
  induction h with
  | nil => exact .nil
  | cons hpair _ ih =>
    simp only [plainAll, Bool.and_eq_true] at hsources hdests
    exact .cons (hitself hpair hsources.1 hdests.1) (ih hsources.2 hdests.2)

section Itself

variable (hbase : base.Variant base) (hclosed : base.Closed)

include hbase hclosed

theorem Fits.strict_itself (h : Fits base .strict source dest) (hsource : source.plain)
    (hdest : dest.plain) :
    Fits base .strict source source :=
  h.trans hbase hclosed hsource hdest hsource h.symm

/-- The rules for destinations that are no unions. -/
theorem fitsBare_itself_of_flat (hsource : source.plain) (hdest : dest.plain)
    (hflat : ¬ Member (.some base) (Fits base) .lenient source dest)
    (h : FitsBare base (.some base) (Fits base) .lenient source dest) :
    FitsBare base (.some base) (FitsItself base) .lenient source source := by
  have hmono : ∀ {type : TypeExpr}, FitsBare base (.some base) (Fits base) .lenient type type →
      FitsBare base (.some base) (FitsItself base) .lenient type type :=
    FitsBare.mono (Reading.some_implies_some base) fun _ _ _ => Or.inl
  cases dest with
  | param name => exact h.elim
  | union alternatives => exact absurd h hflat
  | named name qualifier arguments origin =>
    rcases h with ⟨left, right, rfl, hright, _, _, harguments⟩ | hmember
    · rw [hright] at hdest
      exact hmono (Or.inl ⟨left, left, rfl, rfl, rfl, rfl,
        forall₂_itself (fun hfits => hfits.strict_itself hbase hclosed) harguments
          (plain_iff.1 hsource).2.2 (plain_iff.1 hdest).2.2⟩)
    · exact absurd hmember hflat
  | pointer target =>
    obtain ⟨pointed, rfl, hfits⟩ := h
    exact ⟨pointed, rfl, Or.inl (hfits.strict_itself hbase hclosed hsource hdest)⟩
  | array length element =>
    obtain ⟨held, rfl, hfits⟩ := h
    exact ⟨held, rfl, Or.inr ⟨rfl, rfl, hsource, element, hdest, hfits⟩⟩
  | slice element =>
    rcases h with ⟨held, rfl, hfits⟩ | ⟨pointed, rfl, bare, hbare, length, held, rfl, hfits⟩
    · exact Or.inl ⟨held, rfl, Or.inl (hfits.strict_itself hbase hclosed hsource hdest)⟩
    · have hpointed : pointed.plain := hsource
      have hheld := hbare.inherits hbase hbase.plain.hereditary hpointed
      have hself := hfits.strict_itself hbase hclosed hheld hdest
      exact hmono ⟨pointed, rfl, .strict_of_bare hbare ⟨held, rfl, hself⟩⟩
  | primitive name =>
    rcases h with ⟨_, htext⟩ | ⟨_, rfl⟩
    · exact hmono (htext.fitsBare_itself)
    · exact fitsBare_primitive name

/-- A bare type that satisfies some rule satisfies its own. -/
theorem fitsBare_itself (hsource : source.plain) (hdest : dest.plain)
    (hbare : base.Unaliases source source)
    (h : FitsBare base (.some base) (Fits base) .lenient source dest) :
    FitsBare base (.some base) (FitsItself base) .lenient source source := by
  by_cases hmember : Member (.some base) (Fits base) .lenient source dest
  · obtain ⟨accepted, haccepted, hne, hcase⟩ := hmember
    have hplain := haccepted.inherits hbase hbase.plain.hereditary hdest
    rcases hcase with ⟨alternative, hmem, hfits⟩ | ⟨offered, hoffered, hne', hall⟩
    · have hflat := haccepted.flat hbase hdest alternative hmem
      have halternative := hplain alternative hmem
      rcases hfits.unfold with halike | ⟨bare, hview, bareDest, hbareDest, hrule, _⟩
      · -- A sum without a name is written like itself only.
        refine halike.tame.ground.fitsBare_self (fun m part hmentions => Or.inl (.of_alike
          (halike.tame.mentioned hbase hclosed hmentions).alike)) ?_
        rintro alternatives rfl
        obtain ⟨_, rfl | ⟨left, _, hleft, _⟩⟩ := halike
        · exact absurd rfl (hflat.ne_union hbase halternative hbare alternatives)
        · cases hleft
      · obtain rfl := hview.unique hbare
        refine fitsBare_itself_of_flat hbase hclosed hsource
          (hbareDest.inherits hbase hbase.plain.hereditary halternative) ?_ hrule
        rintro ⟨listed, hlisted, hsome, _⟩
        exact hsome (hflat.flattens_nil hbase halternative hbareDest hlisted)
    · -- The alternatives of the source fit themselves.
      have hparts := hoffered.inherits hbase hbase.plain.hereditary hsource
      have hself : Member (.some base) (FitsItself base) .lenient source source := by
        refine ⟨offered, hoffered, hne', Or.inr ⟨offered, hoffered, hne', fun part hpart => ?_⟩⟩
        obtain ⟨alternative, hmem, hfits⟩ := hall part hpart
        exact ⟨part, hpart, Or.inr ⟨rfl, rfl, hparts part hpart, alternative,
          hplain alternative hmem, hfits⟩⟩
      rcases hoffered.shape hbase hsource hbare hne' with ⟨_, rfl⟩ | ⟨_, rfl, _⟩
      · exact hself
      · exact Or.inr hself
  · exact fitsBare_itself_of_flat hbase hclosed hsource hdest hmember h

/-- What fits anywhere fits itself. -/
theorem Fits.itself (h : Fits base .lenient source dest) (hsource : source.plain)
    (hdest : dest.plain) : Fits base .lenient source source := by
  refine ⟨FitsItself base, ?_, Or.inr ⟨rfl, rfl, hsource, dest, hdest, h⟩⟩
  have hgood := hbase.plain.hereditary
  rintro mode type other (hfits | ⟨rfl, rfl, htype, other, hother, hfits⟩)
  · exact hfits.unfold.imp_right
      (FitsStep.mono (Reading.some_implies_some base) fun _ _ _ => Or.inl)
  · rcases hfits.unfold with halike | ⟨bare, hbare, bareDest, hbareDest, hrule, _⟩
    · exact Or.inl halike.tame.alike
    · refine Or.inr ⟨bare, hbare, bare, hbare, ?_, nofun⟩
      exact fitsBare_itself hbase hclosed (hbare.inherits hbase hgood htype)
        (hbareDest.inherits hbase hgood hother) (hbare.bare hbase htype) hrule

end Itself

end Accord
