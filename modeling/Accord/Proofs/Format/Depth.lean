import Accord.Format.Function
import Mathlib.Data.List.Forall2

/-!
# Reading does not depend on the depth

Types, expressions and statements are read with a bound on how deep they are nested, and the
height of a value is always enough.  With any larger bound a value is read in the same way, so
the bound can be forgotten: a tagged record is read by reading its kind and then its members,
with the reader itself for what stands inside (`TypeExpr.decode_eq`, `Expr.decode_eq`,
`Stmt.decodeAt_eq`).

The members of a record are lower than the record, so the readers of members only have to agree
on values of less height (`AgreeBelow`).
-/

namespace Accord

open Json List TypeExpr Stmt

variable {items : List Json} {members : Members} {value : Json}

namespace Json

/-! ## Heights -/

theorem height_le_heightItems {item : Json} (h : item ∈ items) :
    item.height ≤ heightItems items := by
  induction items with
  | nil => cases h
  | cons first rest ih =>
    rw [heightItems]
    rcases mem_cons.1 h with rfl | hrest
    · exact Nat.le_max_left _ _
    · exact Nat.le_trans (ih hrest) (Nat.le_max_right _ _)

theorem height_le_heightMembers {name : String} (h : (name, value) ∈ members) :
    value.height ≤ heightMembers members := by
  induction members with
  | nil => cases h
  | cons first rest ih =>
    obtain ⟨other, head⟩ := first
    rw [heightMembers]
    rcases mem_cons.1 h with heq | hrest
    · cases heq
      exact Nat.le_max_left _ _
    · exact Nat.le_trans (ih hrest) (Nat.le_max_right _ _)

theorem mem_of_member? {name : String} (h : member? members name = .ok (some value)) :
    (name, value) ∈ members := by
  unfold member? at h
  split at h
  · cases h
  · rename_i other found hfilter
    cases h
    have hmem : (other, value) ∈ members.filter (·.1 == name) := by simp [hfilter]
    obtain ⟨hmem, hname⟩ := mem_filter.1 hmem
    rwa [← eq_of_beq hname]
  · cases h

/-! ## Readers that agree on low values -/

variable {α : Type}

/-- Lists are read alike if their items are. -/
theorem mapM_eq_of_forall₂ {first second : Json → Decoded α} {others : List Json}
    (h : Forall₂ (fun item other => first item = second other) items others) :
    items.mapM first = others.mapM second := by
  induction h with
  | nil => rfl
  | cons hitem _ ih => rw [mapM_cons, mapM_cons, hitem, ih]

/-- The readers agree on all values that are lower than the bound. -/
def AgreeBelow (bound : Nat) (first second : Json → Decoded α) : Prop :=
  ∀ value, value.height < bound → first value = second value

namespace AgreeBelow

variable {bound : Nat} {first second : Json → Decoded α}

theorem asListOf (h : AgreeBelow bound first second) :
    AgreeBelow bound (Json.asListOf first) (Json.asListOf second) := by
  intro value hvalue
  cases value with
  | list items =>
    rw [height] at hvalue
    refine mapM_eq_of_forall₂ (forall₂_same.2 fun item hmem => h item ?_)
    exact Nat.lt_of_le_of_lt (height_le_heightItems hmem) (Nat.lt_of_succ_lt hvalue)
  | _ => rfl

variable (h : AgreeBelow bound first second) (hmembers : heightMembers members < bound)
  (name : String)

include h hmembers

theorem read (hfound : member? members name = .ok (some value)) : first value = second value :=
  h value (Nat.lt_of_le_of_lt (height_le_heightMembers (mem_of_member? hfound)) hmembers)

theorem field : Json.field members name first = Json.field members name second := by
  unfold Json.field
  cases hfound : member? members name with
  | error fault => rfl
  | ok found =>
    cases found with
    | none => rfl
    | some value => exact h.read hmembers name hfound

theorem fieldOr (default : α) :
    Json.fieldOr members name default first = Json.fieldOr members name default second := by
  unfold Json.fieldOr
  cases hfound : member? members name with
  | error fault => rfl
  | ok found =>
    cases found with
    | none => rfl
    | some value => exact h.read hmembers name hfound

end AgreeBelow

/-! ## Readers with a bound -/

/-- Reads a tagged record: its kind, and then its members. -/
def readTagged (place : Place) (kinds : List String) (ofMembers : String → Members → Decoded α)
    (value : Json) : Decoded α := do
  let members ← value.asRecord
  ofMembers (← kindOf place kinds members) members

theorem readTagged_record (place : Place) (kinds : List String)
    (ofMembers : String → Members → Decoded α) (members : Members) :
    readTagged place kinds ofMembers (.record members) =
      kindOf place kinds members >>= fun kind => ofMembers kind members :=
  rfl

section Bounded

variable {run : Nat → Place → Json → Decoded α} {kinds : List String}
  {step : (Json → Decoded α) → String → Members → Decoded α}
  (hstep : ∀ {bound members first second}, AgreeBelow bound first second →
    heightMembers members < bound → ∀ kind, step first kind members = step second kind members)

include hstep

theorem readTagged_congr {bound : Nat} {first second : Json → Decoded α}
    (hagree : AgreeBelow bound first second) (hvalue : value.height ≤ bound) (place : Place) :
    readTagged place kinds (step first) value = readTagged place kinds (step second) value := by
  cases value with
  | record members =>
    rw [readTagged_record, readTagged_record]
    exact bind_congr fun kind => hstep hagree hvalue kind
  | _ => rfl

variable (hrun : ∀ depth place value,
  run (depth + 1) place value = readTagged place kinds (step (run depth .inner)) value)

include hrun

/-- Every bound above the height of a value reads it in the same way. -/
theorem read_enough {depth more : Nat} {place : Place} (hdepth : value.height < depth)
    (hmore : value.height < more) : run depth place value = run more place value := by
  induction depth generalizing more place value with
  | zero => cases hdepth
  | succ depth ih =>
    obtain ⟨less, rfl⟩ : ∃ less, more = less + 1 := ⟨more - 1, by omega⟩
    have hagree : AgreeBelow value.height (run depth .inner) (run less .inner) :=
      fun part hpart => ih (by omega) (by omega)
    rw [hrun depth, hrun less]
    exact readTagged_congr hstep hagree (Nat.le_refl _) place

/-- A value is read with the reader itself for what stands inside. -/
theorem read_height (place : Place) (value : Json) :
    run (value.height + 1) place value =
      readTagged place kinds (step fun part => run (part.height + 1) .inner part) value := by
  rw [hrun]
  refine readTagged_congr hstep (fun part hpart => ?_) (Nat.le_refl _) place
  exact read_enough hstep hrun hpart (Nat.lt_succ_self _)

end Bounded

end Json

/-! ## Types, expressions and statements -/

section Decoders

variable {bound : Nat} {members : Members} (place : Place) (value : Json)

/-- Reads a type of the given kind, given a reader of the types inside. -/
def TypeExpr.ofMembers (inner : Json → Decoded TypeExpr) (kind : String) (members : Members) :
    Decoded TypeExpr :=
  match kind with
  | "Primitive" => return .primitive (← field members "name" asText)
  | "Custom" =>
    return .named (← field members "name" asText)
      (← optionalField members "package_prefix" asText)
      (← fieldOr members "type_parameters" [] (asListOf inner))
      (← fieldOr members "origin_file" "" asText)
  | "Pointer" => return .pointer (← field members "pointed" inner)
  | "Array" =>
    return .array (← field members "length" asWord) (← field members "element" inner)
  | "Slice" => return .slice (← field members "element" inner)
  | "Template" => return .param (← field members "name" asText)
  | "InlineUnion" => return .union (← field members "alternatives" (asListOf inner))
  | kind => throw (.unknown kind)

theorem TypeExpr.ofMembers_agree {first second : Json → Decoded TypeExpr}
    (h : AgreeBelow bound first second) (hmembers : heightMembers members < bound) (kind : String) :
    ofMembers first kind members = ofMembers second kind members := by
  unfold ofMembers
  simp only [h.field hmembers, h.asListOf.field hmembers, h.asListOf.fieldOr hmembers]

/-- A type is read by its kind. -/
theorem TypeExpr.decode_eq :
    decode place value = readTagged place kinds (ofMembers (decode .inner)) value :=
  read_height ofMembers_agree (fun _ _ _ => rfl) place value

theorem Call.ofMembers_agree {first second : Json → Decoded Expr}
    (h : AgreeBelow bound first second) (hmembers : heightMembers members < bound) :
    Call.ofMembers place first members = Call.ofMembers place second members := by
  unfold Call.ofMembers
  rw [h.asListOf.fieldOr hmembers]

theorem Expr.ofMembers_agree {first second : Json → Decoded Expr}
    (h : AgreeBelow bound first second) (hmembers : heightMembers members < bound) (kind : String) :
    ofMembers first kind members = ofMembers second kind members := by
  unfold ofMembers
  simp only [Call.ofMembers_agree _ h hmembers, h.field hmembers, h.asListOf.fieldOr hmembers]

/-- An expression is read by its kind. -/
theorem Expr.decode_eq :
    decode place value = readTagged place kinds (ofMembers (decode .inner)) value :=
  read_height ofMembers_agree (fun _ _ _ => rfl) place value

theorem Stmt.ofMembers_agree {first second : Json → Decoded Stmt}
    (h : AgreeBelow bound first second) (hmembers : heightMembers members < bound) (kind : String) :
    ofMembers first kind members = ofMembers second kind members := by
  unfold ofMembers
  simp only [h.asListOf.field hmembers, h.asListOf.fieldOr hmembers]

/-- Reads a statement at the given place. -/
def Stmt.decodeAt (place : Place) (value : Json) : Decoded Stmt :=
  decodeWithin (value.height + 1) place value

/-- A statement is read by its kind. -/
theorem Stmt.decodeAt_eq :
    decodeAt place value = readTagged place kinds (ofMembers (decodeAt .inner)) value :=
  read_height ofMembers_agree (fun _ _ _ => rfl) place value

end Decoders

end Accord
