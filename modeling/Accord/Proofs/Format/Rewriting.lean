import Accord.Proofs.Format.Schema
import Mathlib.Logic.Relation

/-!
# Values that denote the same file

A value may be rewritten without a change to what it denotes: the members of a record may
change places, a record may hold members that are not declared, and a declared member that holds
its default may be left out.  `Rewrites` makes one such change anywhere in a value.

The reader of files does not see these changes, made one after the other in either direction,
and it reads back every file that is written (`SourceFile.decode_of_rewriting`).
-/

namespace Accord

open Json List TypeBody Relation

variable {other value : Json}

/-! ## Members of changed records -/

section Members

variable {members others : Members} {name : String}

theorem member?_perm (h : members.Perm others) (name : String) :
    member? members name = member? others name := by
  have hfound := h.filter (·.1 == name)
  unfold member?
  generalize members.filter (·.1 == name) = found, others.filter (·.1 == name) = other at hfound
  match found, other with
  | [], other => rw [nil_perm.1 hfound]
  | [entry], other => rw [singleton_perm.1 hfound]
  | _ :: _ :: _, [] | _ :: _ :: _, [_] => exact absurd hfound.length_eq (by simp)
  | _ :: _ :: _, _ :: _ :: _ => rfl

theorem member?_cons_of_ne {other : String} (h : other ≠ name) :
    member? ((name, value) :: members) other = member? members other := by
  have hne : (name == other) = false := beq_false_of_ne h.symm
  simp only [member?, filter_cons, hne, Bool.false_eq_true, if_false]

theorem member?_of_absent (h : ∀ entry ∈ members, entry.1 ≠ name) :
    member? members name = .ok none := by
  have hfilter : members.filter (·.1 == name) = [] := by simpa using h
  simp only [member?, hfilter]

theorem member?_cons_of_absent (h : ∀ entry ∈ members, entry.1 ≠ name) (value : Json) :
    member? ((name, value) :: members) name = .ok (some value) := by
  have hfilter : members.filter (·.1 == name) = [] := by simpa using h
  simp only [member?, filter_cons, beq_self_eq_true, if_true, hfilter]

theorem member?_cons_of_mem {entry : String × Json} (h : entry ∈ members) (value : Json) :
    member? ((entry.1, value) :: members) entry.1 = .error (.repeated entry.1) := by
  have hmem : entry ∈ members.filter (·.1 == entry.1) := by simpa using h
  simp only [member?, filter_cons, beq_self_eq_true, if_true]
  cases hfilter : members.filter (·.1 == entry.1) with
  | nil => rw [hfilter] at hmem; cases hmem
  | cons => rfl

end Members

/-! ## Rewriting -/

/-- One change to the value of a part that leaves alone what it denotes.  Changes are made to
the first member of a record; the others can be moved there. -/
inductive Rewrites : Part → Json → Json → Prop
  | reorder {shape : Shape} {kind : String} {members others : Members}
      (hkind : shape.kindOf members = .ok kind) (hperm : members.Perm others) :
      Rewrites (.one shape) (.record members) (.record others)
  | extend {shape : Shape} {kind : String} {members : Members} {name : String} (value : Json)
      (hkind : shape.kindOf members = .ok kind) (hslot : (shape.slots kind).lookup name = none) :
      Rewrites (.one shape) (.record members) (.record ((name, value) :: members))
  | leaveOut {shape : Shape} {kind : String} {members : Members} {name : String} {slot : Slot}
      {value : Json} (hkind : shape.kindOf ((name, value) :: members) = .ok kind)
      (hslot : (shape.slots kind).lookup name = some slot) (hdefault : slot.default = some value)
      (habsent : ∀ entry ∈ members, entry.1 ≠ name) :
      Rewrites (.one shape) (.record ((name, value) :: members)) (.record members)
  | inside {shape : Shape} {kind : String} {members : Members} {name : String} {slot : Slot}
      {value other : Json} (hkind : shape.kindOf ((name, value) :: members) = .ok kind)
      (hslot : (shape.slots kind).lookup name = some slot) (h : Rewrites slot.part value other) :
      Rewrites (.one shape) (.record ((name, value) :: members))
        (.record ((name, other) :: members))
  | item {shape : Shape} {before after : List Json} {value other : Json}
      (h : Rewrites (.one shape) value other) :
      Rewrites (.many shape) (.list (before ++ value :: after)) (.list (before ++ other :: after))

namespace Slots.Agree

variable {slots : Slots} {members : Members} {name : String} {slot : Slot}

theorem of_perm {others : Members} (h : members.Perm others) : slots.Agree members others := by
  intro name slot _
  rw [member?_perm h]
  exact .same _

theorem of_unknown (h : slots.lookup name = none) :
    slots.Agree members ((name, value) :: members) := by
  intro other slot hslot
  have hne : other ≠ name := by
    rintro rfl
    rw [h] at hslot
    cases hslot
  rw [member?_cons_of_ne hne]
  exact .same _

theorem of_default (hslot : slots.lookup name = some slot) (hdefault : slot.default = some value)
    (habsent : ∀ entry ∈ members, entry.1 ≠ name) :
    slots.Agree ((name, value) :: members) members := by
  intro other found hfound
  by_cases hname : other = name
  · subst hname
    cases hslot.symm.trans hfound
    rw [member?_cons_of_absent habsent, member?_of_absent habsent]
    exact .omitted hdefault
  · rw [member?_cons_of_ne hname]
    exact .same _

theorem of_same (hslot : slots.lookup name = some slot) (hsame : slot.part.Same value other)
    (hvalue : value ≠ .null) (hother : other ≠ .null) :
    slots.Agree ((name, value) :: members) ((name, other) :: members) := by
  intro sought found hfound
  by_cases hname : sought = name
  · subst hname
    cases hslot.symm.trans hfound
    by_cases habsent : ∀ entry ∈ members, entry.1 ≠ sought
    · rw [member?_cons_of_absent habsent, member?_cons_of_absent habsent]
      exact .changed hsame hvalue hother
    · push Not at habsent
      obtain ⟨entry, hmem, rfl⟩ := habsent
      rw [member?_cons_of_mem hmem, member?_cons_of_mem hmem]
      exact .same _
  · rw [member?_cons_of_ne hname, member?_cons_of_ne hname]
    exact .same _

end Slots.Agree

/-- A change leaves the reading of the part alone. -/
theorem Rewrites.same {part : Part} (h : Rewrites part value other) :
    part.Same value other ∧ value ≠ .null ∧ other ≠ .null := by
  induction h with
  | reorder hkind hperm => exact ⟨Shape.decode_of_agree hkind (.of_perm hperm), nofun, nofun⟩
  | extend value hkind hslot =>
    exact ⟨Shape.decode_of_agree hkind (.of_unknown hslot), nofun, nofun⟩
  | leaveOut hkind hslot hdefault habsent =>
    exact ⟨Shape.decode_of_agree hkind (.of_default hslot hdefault habsent), nofun, nofun⟩
  | inside hkind hslot _ ih =>
    obtain ⟨hsame, hvalue, hother⟩ := ih
    exact ⟨Shape.decode_of_agree hkind (.of_same hslot hsame hvalue hother), nofun, nofun⟩
  | @item shape before after value other _ ih =>
    obtain ⟨hsame, -, -⟩ := ih
    have hitem : shape.decode value = shape.decode other := hsame
    refine ⟨?_, nofun, nofun⟩
    show (before ++ value :: after).mapM shape.decode = (before ++ other :: after).mapM shape.decode
    rw [mapM_append, mapM_append, mapM_cons, mapM_cons, hitem]

/-- Values that are rewritten into each other, in any number of changes either way, are read
alike. -/
theorem decode_eq_of_rewritten {shape : Shape} (h : EqvGen (Rewrites (.one shape)) value other) :
    shape.decode value = shape.decode other := by
  induction h with
  | rel value other h => exact h.same.1
  | refl value => rfl
  | symm value other _ ih => exact ih.symm
  | trans value middle other _ _ hfirst hsecond => exact hfirst.trans hsecond

/-- Every file is read back from the value that is written for it, and a value is read as a file
exactly if the values it can be rewritten into are. -/
theorem SourceFile.decode_of_rewriting :
    (∀ file : SourceFile, SourceFile.decode file.encode = .ok file) ∧
    ∀ value other, EqvGen (Rewrites (.one .file)) value other →
      ∀ file, SourceFile.decode value = .ok file ↔ SourceFile.decode other = .ok file := by
  refine ⟨SourceFile.decode_encode, fun value other h file => ?_⟩
  have hsame : SourceFile.decode value = SourceFile.decode other := decode_eq_of_rewritten h
  rw [hsame]

/-- A file with one definition, an alias. -/
def countFile : SourceFile where
  name := "count"
  package := "main"
  types := [{ name := "Count", body := .alias (.primitive "Int") }]

/-- A file with one definition, without functions and from the last member to the first. -/
def countJson (definition : Json) : Json :=
  .record [("type_definitions", .list [definition]), ("imports", .list []),
    ("package_name", .text "main"), ("filename", .text "count")]

/-- The alias from the last member to the first, with a note and without generics and origin. -/
def countAlias : Json :=
  .record [("note", .null),
    ("aliased", .record [("name", .text "Int"), ("kind", .text "Primitive")]),
    ("name", .text "Count"), ("kind", .text "Alias")]

theorem countJson_decodes : SourceFile.decode (countJson countAlias) = .ok countFile := by
  have hdefinition {value other : Json} (h : Rewrites (.one .typeDef) value other) :
      EqvGen (Rewrites (.one .file)) (countJson value) (countJson other) :=
    .rel _ _ (.inside rfl rfl (@Rewrites.item _ [] [] _ _ h))
  have hfile : EqvGen (Rewrites (.one .file)) countFile.encode (countJson countAlias) := by
    refine .trans _ _ _ (.rel _ _ (.reorder rfl (reverse_perm _).symm)) ?_
    refine .trans _ _ _ (.rel _ _ (.leaveOut rfl rfl rfl (by simp))) ?_
    refine .trans _ _ _ (hdefinition (.reorder rfl (reverse_perm _).symm)) ?_
    refine .trans _ _ _ (hdefinition (.leaveOut rfl rfl rfl (by simp [encode]))) ?_
    refine .trans _ _ _ (hdefinition (.leaveOut rfl rfl rfl (by simp [encode]))) ?_
    refine .trans _ _ _ (hdefinition (.inside rfl rfl (.reorder rfl (reverse_perm _).symm))) ?_
    exact hdefinition (.extend .null rfl rfl)
  have hread := SourceFile.decode_of_rewriting.1 countFile
  exact (SourceFile.decode_of_rewriting.2 _ _ hfile countFile).1 hread

end Accord
