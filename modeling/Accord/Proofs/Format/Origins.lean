import Accord.Proofs.Format.RoundTrip
import Accord.Proofs.Generic.Substitution

/-!
# Recorded origins

Written out as JSON, a reference, a call and a definition hold the file they come from in a member
called `origin_file`, and everything else in other members.  So what recording a file does to any
kind of syntax is said of what is written: `Json.stamp` puts the file into that member wherever it
is an empty text, at any depth, and changes nothing else.

* Recording a file stamps what is written (`Expr.encode_withOrigin` and so on).
* What is written is read back, so laws of stamping are laws of recording (`Stamps.intro`).
* Recording and replacing type parameters may change places, if the file is recorded in the
  replacements (`Expr.withOrigin_substitute` and so on).
-/

namespace Accord

open Json

/-! ## Stamps on what is written -/

namespace Json

/-- The file, in place of an empty text. -/
def originOr (file : String) : Json → Json
  | .text recorded => .text (Accord.originOr file recorded)
  | value => value

mutual

/-- Puts the file into every empty `origin_file`. -/
def stamp (file : String) : Json → Json
  | .list items => .list (stampItems file items)
  | .record members => .record (stampMembers file members)
  | value => value

def stampItems (file : String) : List Json → List Json
  | [] => []
  | item :: rest => item.stamp file :: stampItems file rest

def stampMembers (file : String) : List (String × Json) → List (String × Json)
  | [] => []
  | (name, value) :: rest =>
    (name, if name = "origin_file" then value.originOr file else value.stamp file) ::
      stampMembers file rest

end

mutual

/-- Every `origin_file` inside, from left to right. -/
def origins : Json → List Json
  | .list items => originsItems items
  | .record members => originsMembers members
  | _ => []

def originsItems : List Json → List Json
  | [] => []
  | item :: rest => item.origins ++ originsItems rest

def originsMembers : List (String × Json) → List Json
  | [] => []
  | (name, value) :: rest =>
    (if name = "origin_file" then [value] else value.origins) ++ originsMembers rest

end

theorem originOr_ne_empty {file : String} (hfile : file ≠ "") (value : Json) :
    value.originOr file ≠ .text "" := by
  cases value <;> simp only [originOr, Accord.originOr, ne_eq, text.injEq, reduceCtorEq,
    not_false_iff]
  split <;> simp_all

theorem originOr_originOr {file : String} (hfile : file ≠ "") (other : String) (value : Json) :
    (value.originOr file).originOr other = value.originOr file := by
  cases value <;> simp only [originOr, Accord.originOr, text.injEq]
  split <;> simp_all

mutual

/-- A stamp stays, and leaves no origin empty. -/
theorem stamp_laws {file : String} (hfile : file ≠ "") (other : String) : (value : Json) →
    (value.stamp file).stamp other = value.stamp file ∧
      ∀ origin ∈ (value.stamp file).origins, origin ≠ .text ""
  | .list items => by simpa [stamp, origins] using stampItems_laws hfile other items
  | .record members => by simpa [stamp, origins] using stampMembers_laws hfile other members
  | .null | .bool _ | .number _ | .text _ | .void => by simp [stamp, origins]

theorem stampItems_laws {file : String} (hfile : file ≠ "") (other : String) :
    (items : List Json) →
    stampItems other (stampItems file items) = stampItems file items ∧
      ∀ origin ∈ originsItems (stampItems file items), origin ≠ .text ""
  | [] => by simp [stampItems, originsItems]
  | item :: rest => by
    obtain ⟨hitem, hitem'⟩ := stamp_laws hfile other item
    obtain ⟨hrest, hrest'⟩ := stampItems_laws hfile other rest
    rw [stampItems, stampItems, hitem, hrest, originsItems]
    exact ⟨rfl, List.forall_mem_append.2 ⟨hitem', hrest'⟩⟩

theorem stampMembers_laws {file : String} (hfile : file ≠ "") (other : String) :
    (members : List (String × Json)) →
    stampMembers other (stampMembers file members) = stampMembers file members ∧
      ∀ origin ∈ originsMembers (stampMembers file members), origin ≠ .text ""
  | [] => by simp [stampMembers, originsMembers]
  | (name, value) :: rest => by
    obtain ⟨hvalue, hvalue'⟩ := stamp_laws hfile other value
    obtain ⟨hrest, hrest'⟩ := stampMembers_laws hfile other rest
    rw [stampMembers, stampMembers, hrest, originsMembers, List.forall_mem_append]
    refine ⟨?_, ?_, hrest'⟩
    · split <;> simp [originOr_originOr hfile, hvalue]
    · split
      · simpa using originOr_ne_empty hfile value
      · exact hvalue'

end

theorem stampItems_eq_map (file : String) (items : List Json) :
    stampItems file items = items.map (·.stamp file) := by
  induction items with
  | nil => rfl
  | cons item rest ih => rw [stampItems, ih, List.map_cons]

end Json

/-! ## Recording a file -/

section Encode

variable (file : String)

theorem TypeExpr.withOriginAll_eq_map (types : List TypeExpr) :
    TypeExpr.withOriginAll file types = types.map (·.withOrigin file) := by
  induction types with
  | nil => rfl
  | cons type rest ih => rw [TypeExpr.withOriginAll, ih, List.map_cons]

theorem Expr.withOriginAll_eq_map (exprs : List Expr) :
    Expr.withOriginAll file exprs = exprs.map (·.withOrigin file) := by
  induction exprs with
  | nil => rfl
  | cons expr rest ih => rw [Expr.withOriginAll, ih, List.map_cons]

theorem Stmt.withOriginAll_eq_map (block : List Stmt) :
    Stmt.withOriginAll file block = block.map (·.withOrigin file) := by
  induction block with
  | nil => rfl
  | cons statement rest ih => rw [Stmt.withOriginAll, ih, List.map_cons]

@[simp] theorem stamp_text (text : String) : (Json.text text).stamp file = .text text :=
  rfl

@[simp] theorem stamp_ofNat (number : Nat) : (ofNat number).stamp file = ofNat number :=
  rfl

@[simp] theorem stamp_ofTexts (texts : List String) :
    (ofTexts texts).stamp file = ofTexts texts := by
  simp [ofTexts, stamp, stampItems_eq_map]

@[simp] theorem stamp_ofOption {α : Type} (encode : α → Json) (value : Option α) :
    (ofOption encode value).stamp file = ofOption (fun part => (encode part).stamp file) value := by
  cases value <;> rfl

theorem ofOption_map {α : Type} (encode : α → Json) (record : α → α) (value : Option α) :
    ofOption encode (value.map record) = ofOption (fun part => encode (record part)) value := by
  cases value <;> rfl

@[simp] theorem stamp_span (span : Span) : span.encode.stamp file = span.encode := by
  simp [Span.encode, stamp, stampMembers]

theorem TypeExpr.encode_withOrigin (type : TypeExpr) :
    (type.withOrigin file).encode = type.encode.stamp file := by
  induction type using TypeExpr.induct with
  | step type ih =>
    cases type <;> simp_all [TypeExpr.withOrigin, TypeExpr.encode, TypeExpr.children, tagged, stamp,
      stampMembers, stampItems_eq_map, TypeExpr.withOriginAll_eq_map, TypeExpr.encodeAll_eq_map,
      Json.originOr]

theorem Expr.encode_withOrigin (expr : Expr) :
    (expr.withOrigin file).encode = expr.encode.stamp file := by
  induction expr using Expr.induct with
  | step expr ih =>
    cases expr <;> simp_all [Expr.withOrigin, Expr.encode, callMembers, Expr.children, tagged, stamp,
      stampMembers, stampItems_eq_map, Expr.withOriginAll_eq_map, Expr.encodeAll_eq_map,
      TypeExpr.withOriginAll_eq_map, TypeExpr.encode_withOrigin, Json.originOr]

theorem Call.members_withOrigin (call : Call) :
    (call.withOrigin file).members = stampMembers file call.members := by
  simp [Call.withOrigin, Call.members, callMembers, stamp, stampMembers, stampItems_eq_map,
    Expr.withOriginAll_eq_map, Expr.encodeAll_eq_map, TypeExpr.withOriginAll_eq_map,
    TypeExpr.encode_withOrigin, Expr.encode_withOrigin, Json.originOr]

theorem Stmt.encode_withOrigin (statement : Stmt) :
    (statement.withOrigin file).encode = statement.encode.stamp file := by
  induction statement using Stmt.induct with
  | step statement ih =>
    cases statement <;> simp_all [Stmt.withOrigin, Stmt.encode, Stmt.inner, tagged, stamp,
      stampMembers, stampItems_eq_map, Stmt.withOriginAll_eq_map, Stmt.encodeAll_eq_map,
      TypeExpr.encode_withOrigin, Expr.encode_withOrigin, Call.members_withOrigin, ofOption_map]

theorem TypeDef.encode_withOrigin (definition : TypeDef) :
    (definition.withOrigin file).encode = definition.encode.stamp file := by
  obtain ⟨name, generics, origin, body⟩ := definition
  cases body <;> simp [TypeDef.withOrigin, TypeDef.encode, TypeBody.withOrigin, TypeBody.encode,
    TypeBody.kind, Field.encode, tagged, stamp, stampMembers, stampItems_eq_map,
    TypeExpr.withOriginAll_eq_map, TypeExpr.encode_withOrigin, Json.originOr]

theorem FunctionDef.encode_withOrigin (function : FunctionDef) :
    (function.withOrigin file).encode = function.encode.stamp file := by
  simp [FunctionDef.withOrigin, FunctionDef.encode, Parameter.encode, stamp, stampMembers,
    stampItems_eq_map, Stmt.withOriginAll_eq_map, Stmt.encodeAll_eq_map, ofOption_map,
    TypeExpr.encode_withOrigin, Stmt.encode_withOrigin, Json.originOr]

end Encode

/-! ## Recording and instantiating -/

/-- The substitution whose replacements record the file. -/
def Substitution.withOrigin (file : String) (rules : Substitution) : Substitution :=
  rules.map fun entry => (entry.1, entry.2.withOrigin file)

section Substitute

variable (file : String) (rules : Substitution)

theorem Substitution.find?_withOrigin (parameter : String) :
    (rules.withOrigin file).find? parameter = (rules.find? parameter).map (·.withOrigin file) := by
  induction rules with
  | nil => rfl
  | cons entry rest ih =>
    rw [Substitution.withOrigin, List.map_cons, Substitution.find?_cons, Substitution.find?_cons]
    split
    · rfl
    · exact ih

theorem TypeExpr.withOrigin_substitute (type : TypeExpr) :
    (type.substitute rules).withOrigin file =
      (type.withOrigin file).substitute (rules.withOrigin file) := by
  induction type using TypeExpr.induct with
  | step type ih =>
    cases type with
    | param name =>
      rw [TypeExpr.withOrigin, TypeExpr.substitute, TypeExpr.substitute,
        Substitution.find?_withOrigin]
      cases rules.find? name with
      | none => rfl
      | some type => rfl
    | _ => simp_all [TypeExpr.substitute, TypeExpr.withOrigin, TypeExpr.children,
        TypeExpr.substituteAll_eq_map, TypeExpr.withOriginAll_eq_map]

theorem Expr.withOrigin_substitute (expr : Expr) :
    (expr.substitute rules).withOrigin file =
      (expr.withOrigin file).substitute (rules.withOrigin file) := by
  induction expr using Expr.induct with
  | step expr ih =>
    cases expr <;> simp_all [Expr.substitute, Expr.withOrigin, Expr.children,
      Expr.substituteAll_eq_map, Expr.withOriginAll_eq_map, TypeExpr.substituteAll_eq_map,
      TypeExpr.withOriginAll_eq_map, TypeExpr.withOrigin_substitute]

theorem Call.withOrigin_substitute (call : Call) :
    (call.substitute rules).withOrigin file =
      (call.withOrigin file).substitute (rules.withOrigin file) := by
  simp [Call.substitute, Call.withOrigin, Expr.substituteAll_eq_map, Expr.withOriginAll_eq_map,
    TypeExpr.substituteAll_eq_map, TypeExpr.withOriginAll_eq_map, TypeExpr.withOrigin_substitute,
    Expr.withOrigin_substitute, Function.comp_def]

theorem Stmt.withOrigin_substitute (statement : Stmt) :
    (statement.substitute rules).withOrigin file =
      (statement.withOrigin file).substitute (rules.withOrigin file) := by
  induction statement using Stmt.induct with
  | step statement ih =>
    cases statement <;> simp_all [Stmt.substitute, Stmt.withOrigin, Stmt.inner,
      Stmt.substituteAll_eq_map, Stmt.withOriginAll_eq_map, TypeExpr.withOrigin_substitute,
      Expr.withOrigin_substitute, Call.withOrigin_substitute, Function.comp_def]

theorem TypeDef.withOrigin_instantiate (definition : TypeDef) :
    (definition.instantiate rules).withOrigin file =
      (definition.withOrigin file).instantiate (rules.withOrigin file) := by
  obtain ⟨name, generics, origin, body⟩ := definition
  cases body <;> simp [TypeDef.instantiate, TypeDef.withOrigin, TypeBody.substitute,
    TypeBody.withOrigin, TypeExpr.substituteAll_eq_map, TypeExpr.withOriginAll_eq_map,
    TypeExpr.withOrigin_substitute, Function.comp_def]

theorem FunctionDef.withOrigin_instantiate (function : FunctionDef) (name : String) :
    (function.instantiate rules name).withOrigin file =
      (function.withOrigin file).instantiate (rules.withOrigin file) name := by
  simp [FunctionDef.instantiate, FunctionDef.withOrigin, Stmt.substituteAll_eq_map,
    Stmt.withOriginAll_eq_map, TypeExpr.withOrigin_substitute, Stmt.withOrigin_substitute,
    Function.comp_def]

end Substitute

/-! ## The laws of recorded origins -/

/-- `record` puts the file into every empty origin that is written and changes nothing else, so no
origin is empty any more, and `again` changes nothing. -/
def Stamps {α : Type} (file : String) (encode : α → Json) (record again : α → α) : Prop :=
  ∀ item, encode (record item) = (encode item).stamp file ∧
    (∀ origin ∈ (encode (record item)).origins, origin ≠ .text "") ∧
    again (record item) = record item

/-- What is written is read back, so stamping twice is recording twice. -/
theorem Stamps.intro {α : Type} {file other : String} {encode : α → Json} {decode : Json → Decoded α}
    {record : String → α → α} (hfile : file ≠ "")
    (hread : ∀ item, decode (encode item) = .ok item)
    (hrecord : ∀ file item, encode (record file item) = (encode item).stamp file) :
    Stamps file encode (record file) (record other) := by
  intro item
  obtain ⟨hagain, hnone⟩ := stamp_laws hfile other (encode item)
  refine ⟨hrecord file item, ?_, ?_⟩
  · rwa [hrecord]
  · have hsame : encode (record other (record file item)) = encode (record file item) := by
      rw [hrecord, hrecord, hagain]
    have hback := hread (record other (record file item))
    rw [hsame, hread] at hback
    exact (Except.ok.inj hback).symm

/-- Recording a file in a type, a definition, a statement, an expression, a call or a function
leaves no origin empty, keeps every origin that was there and everything else, and leaves nothing
for another file to record; and it may be done before or after type parameters are replaced. -/
theorem withOrigin_complete (file other : String) (hfile : file ≠ "") :
    (Stamps file TypeExpr.encode (·.withOrigin file) (·.withOrigin other) ∧
      Stamps file TypeDef.encode (·.withOrigin file) (·.withOrigin other) ∧
      Stamps file Stmt.encode (·.withOrigin file) (·.withOrigin other) ∧
      Stamps file Expr.encode (·.withOrigin file) (·.withOrigin other) ∧
      Stamps file Call.encode (·.withOrigin file) (·.withOrigin other) ∧
      Stamps file FunctionDef.encode (·.withOrigin file) (·.withOrigin other)) ∧
    ∀ rules : Substitution,
      (∀ type : TypeExpr, (type.substitute rules).withOrigin file =
        (type.withOrigin file).substitute (rules.withOrigin file)) ∧
      (∀ definition : TypeDef, (definition.instantiate rules).withOrigin file =
        (definition.withOrigin file).instantiate (rules.withOrigin file)) ∧
      (∀ statement : Stmt, (statement.substitute rules).withOrigin file =
        (statement.withOrigin file).substitute (rules.withOrigin file)) ∧
      (∀ expr : Expr, (expr.substitute rules).withOrigin file =
        (expr.withOrigin file).substitute (rules.withOrigin file)) ∧
      (∀ call : Call, (call.substitute rules).withOrigin file =
        (call.withOrigin file).substitute (rules.withOrigin file)) ∧
      ∀ (function : FunctionDef) (name : String),
        (function.instantiate rules name).withOrigin file =
          (function.withOrigin file).instantiate (rules.withOrigin file) name :=
  ⟨⟨.intro hfile (TypeExpr.decode_encode .inner) TypeExpr.encode_withOrigin,
      .intro hfile TypeDef.decode_encode TypeDef.encode_withOrigin,
      .intro hfile (Stmt.decodeAt_encode .inner) Stmt.encode_withOrigin,
      .intro hfile (Expr.decode_encode .inner) Expr.encode_withOrigin,
      .intro hfile Call.decode_encode fun file call =>
        congrArg Json.record (call.members_withOrigin file),
      .intro hfile FunctionDef.decode_encode FunctionDef.encode_withOrigin⟩,
    fun rules => ⟨TypeExpr.withOrigin_substitute file rules,
      TypeDef.withOrigin_instantiate file rules, Stmt.withOrigin_substitute file rules,
      Expr.withOrigin_substitute file rules, Call.withOrigin_substitute file rules,
      FunctionDef.withOrigin_instantiate file rules⟩⟩

/-- A pair of a box from another file and of one whose file is not known yet. -/
def pairOfBoxes (known : String) : TypeExpr :=
  .named "Pair" none [.named "Box" none [] "lib.mer", .named "Box" none [] known] known

theorem pairOfBoxes_recorded :
    (pairOfBoxes "").withOrigin "main.mer" = pairOfBoxes "main.mer" ∧
      (pairOfBoxes "main.mer").withOrigin "lib.mer" = pairOfBoxes "main.mer" :=
  ⟨rfl, ((withOrigin_complete "main.mer" "lib.mer" (by decide)).1.1 (pairOfBoxes "")).2.2⟩

end Accord
