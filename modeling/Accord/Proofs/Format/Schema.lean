import Accord.Proofs.Format.RoundTrip

/-!
# What the records of a file hold

The records in a file have shapes, and a record of a shape has declared members.  For each of
them its `Slot` says what the member holds and, if it may be left out, the value it is left out
for.  The declared members of a tagged record depend on its kind (`Shape.slots`), and they are
the members that are written (`Shape.encode_declared`).

A record is read through its declared members alone (`Shape.decode_of_agree`): two records are
read alike if each declared member stands in both with values that are read alike, or holds its
default in the first and is left out of the second.
-/

namespace Accord

open Json TypeExpr Stmt FunctionDef TypeBody TypeDef

/-! ## Shapes, parts and slots -/

/-- The shapes of the records in a file.  Where a tagged record stands decides how its kind may
be written. -/
inductive Shape where
  | span
  | type (place : Place)
  | field
  | typeDef
  | expr (place : Place)
  | stmt (place : Place)
  | parameter
  | function
  | file

/-- What a member holds. -/
inductive Part where
  /-- A value without records of the format inside. -/
  | plain
  | one (shape : Shape)
  | many (shape : Shape)

/-- A declared member: what it holds, and the value it may be left out for. -/
structure Slot where
  part : Part
  default : Option Json

namespace Slot

/-- A member that has to be there. -/
def required (part : Part) : Slot := ⟨part, none⟩

/-- A list that may be left out if it is empty. -/
def listed (part : Part) : Slot := ⟨part, some (.list [])⟩

/-- A member that may be left out if it is null. -/
def optional (part : Part) : Slot := ⟨part, some .null⟩

/-- A file name that may be left out if it is empty. -/
def origin : Slot := ⟨.plain, some (.text "")⟩

/-- The span of a record. -/
def span : Slot := ⟨.one .span, some ({} : Span).encode⟩

end Slot

/-- The declared members of a record. -/
abbrev Slots := List (String × Slot)

/-! ## The declared members -/

/-- The members of a type of the given kind, besides the kind. -/
def TypeExpr.slots : String → Slots
  | "Primitive" => [("name", .required .plain)]
  | "Custom" =>
    [("name", .required .plain), ("package_prefix", .optional .plain),
      ("type_parameters", .listed (.many (.type .inner))), ("origin_file", .origin)]
  | "Pointer" => [("pointed", .required (.one (.type .inner)))]
  | "Array" => [("length", .required .plain), ("element", .required (.one (.type .inner)))]
  | "Slice" => [("element", .required (.one (.type .inner)))]
  | "Template" => [("name", .required .plain)]
  | "InlineUnion" => [("alternatives", .required (.many (.type .inner)))]
  | _ => []

/-- The member with the body of a definition of the given kind. -/
def TypeBody.slots : String → Slots
  | "Struct" => [("fields", .required (.many .field))]
  | "Union" => [("alternatives", .required (.many (.type .inner)))]
  | "Alias" => [("aliased", .required (.one (.type .inner)))]
  | _ => []

/-- The members of a call inside another record. -/
def Call.slots : Slots :=
  [("name", .required .plain), ("package_prefix", .optional .plain),
    ("arguments", .listed (.many (.expr .inner))),
    ("instantiated_generics", .listed (.many (.type .inner))), ("origin_file", .origin),
    ("span", .span)]

/-- The members of an expression of the given kind, besides the kind. -/
def Expr.slots : String → Slots
  | "FunctionCall" => Call.slots
  | "BinaryOperator" =>
    [("operator", .required .plain), ("left", .required (.one (.expr .inner))),
      ("right", .required (.one (.expr .inner))), ("span", .span)]
  | "UnaryOperator" =>
    [("operator", .required .plain), ("operand", .required (.one (.expr .inner))),
      ("span", .span)]
  | "ArrayLiteral" =>
    [("length", .required .plain), ("stored_type", .required (.one (.type .inner))),
      ("elements", .listed (.many (.expr .inner))), ("span", .span)]
  | "TypeOperator" =>
    [("operator", .required .plain), ("expression", .required (.one (.expr .inner))),
      ("type_signature", .required (.one (.type .inner))), ("span", .span)]
  | "DotMemberAccess" =>
    [("struct_value", .required (.one (.expr .inner))), ("member", .required .plain),
      ("span", .span)]
  | "SquareBracketsAccess" =>
    [("storage", .required (.one (.expr .inner))), ("index", .required (.one (.expr .inner))),
      ("span", .span)]
  | "IntLiteral" | "FloatLiteral" | "CharLiteral" | "BoolLiteral" | "StringLiteral" =>
    [("value", .required .plain), ("span", .span)]
  | "Identifier" => [("name", .required .plain), ("span", .span)]
  | _ => []

/-- The members of a statement of the given kind, besides the kind. -/
def Stmt.slots : String → Slots
  | "VariableDeclaration" =>
    [("identifier", .required .plain), ("declared_type", .required (.one (.type .inner))),
      ("value", .optional (.one (.expr .inner))), ("span", .span)]
  | "ConstDeclaration" =>
    [("identifier", .required .plain), ("declared_type", .required (.one (.type .inner))),
      ("value", .required (.one (.expr .inner))), ("span", .span)]
  | "Assignment" =>
    [("target", .required (.one (.expr .inner))), ("value", .required (.one (.expr .inner))),
      ("span", .span)]
  | "Conditional" =>
    [("condition", .required (.one (.expr .inner))),
      ("then_branch", .required (.many (.stmt .inner))),
      ("else_branch", .listed (.many (.stmt .inner))), ("span", .span)]
  | "WhileLoop" | "UntilLoop" =>
    [("condition", .required (.one (.expr .inner))), ("body", .required (.many (.stmt .inner))),
      ("span", .span)]
  | "Return" => [("value", .optional (.one (.expr .inner))), ("span", .span)]
  | "FunctionCall" => Call.slots
  | "Continue" | "Break" => [("span", .span)]
  | _ => []

namespace Shape

/-- The kind of a record.  Records that are not tagged have one kind, without a name. -/
def kindOf : Shape → Members → Decoded String
  | .type place, members => Json.kindOf place TypeExpr.kinds members
  | .typeDef, members => Json.kindOf .outer TypeDef.kinds members
  | .expr place, members => Json.kindOf place Expr.kinds members
  | .stmt place, members => Json.kindOf place Stmt.kinds members
  | _, _ => .ok ""

/-- The declared members of a record of the given kind. -/
def slots : Shape → String → Slots
  | .span, _ =>
    [("start", .required .plain), ("end", .required .plain),
      ("file_id", ⟨.plain, some (ofNat 0)⟩)]
  | .type _, kind => ("kind", .required .plain) :: TypeExpr.slots kind
  | .field, _ => [("name", .required .plain), ("field_type", .required (.one (.type .inner)))]
  | .typeDef, kind =>
    ("kind", .required .plain) :: ("name", .required .plain) :: ("generics", .listed .plain) ::
      ("origin_file", .origin) :: TypeBody.slots kind
  | .expr _, kind => ("kind", .required .plain) :: Expr.slots kind
  | .stmt _, kind => ("kind", .required .plain) :: Stmt.slots kind
  | .parameter, _ =>
    [("name", .required .plain), ("argument_type", .required (.one (.type .outer)))]
  | .function, _ =>
    [("name", .required .plain), ("arguments", .listed (.many .parameter)),
      ("return_type", .optional (.one (.type .outer))), ("generics", .listed .plain),
      ("body", .listed (.many (.stmt .outer))), ("origin_file", .origin), ("span", .span)]
  | .file, _ =>
    [("filename", .required .plain), ("package_name", .required .plain),
      ("imports", .listed .plain), ("type_definitions", .listed (.many .typeDef)),
      ("function_definitions", .listed (.many .function))]

/-- What a record of the shape denotes. -/
def Meaning : Shape → Type
  | .span => Span
  | .type _ => TypeExpr
  | .field => Field
  | .typeDef => TypeDef
  | .expr _ => Expr
  | .stmt _ => Stmt
  | .parameter => Parameter
  | .function => FunctionDef
  | .file => SourceFile

/-- Reads a record of the shape. -/
def decode : (shape : Shape) → Json → Decoded shape.Meaning
  | .span => Span.decode
  | .type place => TypeExpr.decode place
  | .field => Field.decode
  | .typeDef => TypeDef.decode
  | .expr place => Expr.decode place
  | .stmt place => decodeAt place
  | .parameter => Parameter.decode
  | .function => FunctionDef.decode
  | .file => SourceFile.decode

/-- Writes a record of the shape. -/
def encode : (shape : Shape) → shape.Meaning → Json
  | .span => Span.encode
  | .type _ => TypeExpr.encode
  | .field => Field.encode
  | .typeDef => TypeDef.encode
  | .expr _ => Expr.encode
  | .stmt _ => Stmt.encode
  | .parameter => Parameter.encode
  | .function => FunctionDef.encode
  | .file => SourceFile.encode

/-- The declared members of a record are those that are written. -/
theorem encode_declared (shape : Shape) (meaning : shape.Meaning) :
    ∃ members kind, shape.encode meaning = .record members ∧ shape.kindOf members = .ok kind ∧
      (members.map (·.1)).Perm ((shape.slots kind).map (·.1)) := by
  cases shape with
  | type place => cases meaning <;> exact ⟨_, _, rfl, rfl, .refl _⟩
  | typeDef =>
    obtain ⟨name, generics, origin, body⟩ := meaning
    -- The body is written before the generics and declared last.
    have hlast (body : String) : ["kind", "name", body, "generics", "origin_file"].Perm
        ["kind", "name", "generics", "origin_file", body] :=
      .cons _ (.cons _ (List.perm_append_singleton body ["generics", "origin_file"]).symm)
    cases body <;> exact ⟨_, _, rfl, rfl, hlast _⟩
  | expr _ | stmt _ => cases meaning <;> exact ⟨_, _, rfl, rfl, .refl _⟩
  | _ => exact ⟨_, _, rfl, rfl, .refl _⟩

end Shape

/-! ## Members that agree -/

/-- The values are read alike in a member that holds the part. -/
def Part.Same : Part → Json → Json → Prop
  | .plain, value, other => value = other
  | .one shape, value, other => shape.decode value = shape.decode other
  | .many shape, value, other => asListOf shape.decode value = asListOf shape.decode other

/-- The reader does not tell values apart that are read alike. -/
def Part.Reads {α : Type} (part : Part) (decode : Json → Decoded α) : Prop :=
  ∀ ⦃value other⦄, part.Same value other → decode value = decode other

theorem Part.plain_reads {α : Type} (decode : Json → Decoded α) : Part.plain.Reads decode :=
  fun _ _ h => congrArg decode h

theorem TypeExpr.reads (place : Place) :
    (Part.one (.type place)).Reads (decode place) ∧
      (Part.many (.type place)).Reads (asListOf (decode place)) :=
  ⟨fun _ _ h => h, fun _ _ h => h⟩

theorem Expr.reads (place : Place) :
    (Part.one (.expr place)).Reads (decode place) ∧
      (Part.many (.expr place)).Reads (asListOf (decode place)) :=
  ⟨fun _ _ h => h, fun _ _ h => h⟩

/-- How a declared member of one record may differ from that of another. -/
inductive Slot.Agrees (slot : Slot) : Decoded (Option Json) → Decoded (Option Json) → Prop
  | same (found : Decoded (Option Json)) : slot.Agrees found found
  | changed {value other : Json} (hsame : slot.part.Same value other) (hvalue : value ≠ .null)
      (hother : other ≠ .null) : slot.Agrees (.ok (some value)) (.ok (some other))
  | omitted {value : Json} (hdefault : slot.default = some value) :
      slot.Agrees (.ok (some value)) (.ok none)

/-- The declared members of the records agree. -/
def Slots.Agree (slots : Slots) (members others : Members) : Prop :=
  ∀ name slot, slots.lookup name = some slot →
    slot.Agrees (member? members name) (member? others name)

namespace Slots.Agree

variable {α : Type} {slots : Slots} {members others : Members} {decode : Json → Decoded α}
  {part : Part} (h : slots.Agree members others)

include h

theorem field (name : String) (hread : part.Reads decode)
    (hslot : slots.lookup name = some (.required part)) :
    Json.field members name decode = Json.field others name decode := by
  have hagrees := h name _ hslot
  unfold Json.field
  generalize member? members name = found, member? others name = other at hagrees
  cases hagrees with
  | same => rfl
  | changed hsame => exact hread hsame
  | omitted hdefault => cases hdefault

theorem plain (name : String) (hslot : slots.lookup name = some (.required .plain)) :
    Json.field members name decode = Json.field others name decode :=
  h.field name (Part.plain_reads decode) hslot

theorem fieldOr (name : String) {held : Json} {default : α} (hread : part.Reads decode)
    (hdefault : decode held = .ok default) (hslot : slots.lookup name = some ⟨part, some held⟩) :
    Json.fieldOr members name default decode = Json.fieldOr others name default decode := by
  have hagrees := h name _ hslot
  unfold Json.fieldOr
  generalize member? members name = found, member? others name = other at hagrees
  cases hagrees with
  | same => rfl
  | changed hsame => exact hread hsame
  | omitted heq =>
    cases heq
    exact hdefault

theorem listed (name : String) (hread : part.Reads (asListOf decode))
    (hslot : slots.lookup name = some (.listed part)) :
    Json.fieldOr members name [] (asListOf decode) =
      Json.fieldOr others name [] (asListOf decode) :=
  h.fieldOr name hread rfl hslot

theorem origin (hslot : slots.lookup "origin_file" = some .origin) :
    Json.fieldOr members "origin_file" "" asText = Json.fieldOr others "origin_file" "" asText :=
  h.fieldOr "origin_file" (Part.plain_reads asText) rfl hslot

theorem span (hslot : slots.lookup "span" = some .span) : spanIn members = spanIn others := by
  have hread : (Part.one .span).Reads Span.decode := fun _ _ h => h
  exact h.fieldOr "span" hread (Span.decode_encode {}) hslot

theorem optional (name : String) (hread : part.Reads decode)
    (hslot : slots.lookup name = some (.optional part)) :
    optionalField members name decode = optionalField others name decode := by
  have hagrees := h name _ hslot
  generalize hfound : member? members name = found, hother : member? others name = other
    at hagrees
  cases hagrees with
  | same => unfold optionalField; rw [hfound, hother]
  | changed hsame hvalue hnull =>
    rw [optionalField_of_ne_null hvalue hfound, optionalField_of_ne_null hnull hother, hread hsame]
  | omitted heq =>
    cases heq
    unfold optionalField
    rw [hfound, hother]
    rfl

theorem kindOf (place : Place) (kinds : List String)
    (hslot : slots.lookup "kind" = some (.required .plain)) :
    Json.kindOf place kinds members = Json.kindOf place kinds others := by
  unfold Json.kindOf
  rw [h.plain "kind" hslot]

omit h in
theorem of_cons {name : String} {slot : Slot}
    (h : Slots.Agree ((name, slot) :: slots) members others) (hname : slots.lookup name = none) :
    slots.Agree members others := by
  intro other found hfound
  have hne : other ≠ name := by
    rintro rfl
    rw [hname] at hfound
    cases hfound
  refine h other found ?_
  rw [List.lookup_cons, beq_false_of_ne hne]
  exact hfound

end Slots.Agree

/-! ## Reading by declared members -/

section Readers

variable {members others : Members} {kind : String} {place : Place}

theorem Span.decode_of_agree (h : (Shape.span.slots kind).Agree members others) :
    Span.decode (.record members) = Span.decode (.record others) := by
  rw [Span.decode, Span.decode, asRecord_bind, asRecord_bind]
  rw [h.plain "start" rfl, h.plain "end" rfl,
    h.fieldOr "file_id" (Part.plain_reads asWord) (asWord_ofNat 0) rfl]

theorem TypeExpr.ofMembers_of_agree (h : ((Shape.type place).slots kind).Agree members others) :
    ofMembers (decode .inner) kind members = ofMembers (decode .inner) kind others := by
  obtain ⟨htype, htypes⟩ := TypeExpr.reads .inner
  unfold ofMembers
  split
  · -- Primitive
    rw [h.plain "name" rfl]
  · -- Custom
    rw [h.plain "name" rfl, h.optional "package_prefix" (Part.plain_reads asText) rfl,
      h.listed "type_parameters" htypes rfl, h.origin rfl]
  · -- Pointer
    rw [h.field "pointed" htype rfl]
  · -- Array
    rw [h.plain "length" rfl, h.field "element" htype rfl]
  · -- Slice
    rw [h.field "element" htype rfl]
  · -- Template
    rw [h.plain "name" rfl]
  · -- InlineUnion
    rw [h.field "alternatives" htypes rfl]
  · rfl

theorem Field.decode_of_agree (h : (Shape.field.slots kind).Agree members others) :
    Field.decode (.record members) = Field.decode (.record others) := by
  rw [Field.decode, Field.decode, asRecord_bind, asRecord_bind]
  rw [h.plain "name" rfl, h.field "field_type" (TypeExpr.reads .inner).1 rfl]

theorem TypeBody.decode_of_agree (h : (Shape.typeDef.slots kind).Agree members others) :
    decode kind members = decode kind others := by
  have hfields : (Part.many .field).Reads (asListOf Field.decode) := fun _ _ h => h
  obtain ⟨htype, htypes⟩ := TypeExpr.reads .inner
  unfold decode
  split
  · -- Struct
    rw [h.field "fields" hfields rfl]
  · -- Union
    rw [h.field "alternatives" htypes rfl]
  · -- Alias
    rw [h.field "aliased" htype rfl]
  · rfl

theorem TypeDef.ofMembers_of_agree (h : (Shape.typeDef.slots kind).Agree members others) :
    ofMembers kind members = ofMembers kind others := by
  unfold ofMembers
  rw [h.plain "name" rfl, decode_of_agree h,
    h.listed "generics" (Part.plain_reads _) rfl, h.origin rfl]

theorem Call.ofMembers_of_agree (h : Call.slots.Agree members others) :
    Call.ofMembers .inner (Expr.decode .inner) members =
      Call.ofMembers .inner (Expr.decode .inner) others := by
  unfold Call.ofMembers
  rw [h.plain "name" rfl, h.optional "package_prefix" (Part.plain_reads asText) rfl,
    h.listed "arguments" (Expr.reads .inner).2 rfl,
    h.listed "instantiated_generics" (TypeExpr.reads .inner).2 rfl, h.origin rfl, h.span rfl]

theorem Expr.ofMembers_of_agree (h : ((Shape.expr place).slots kind).Agree members others) :
    ofMembers (decode .inner) kind members = ofMembers (decode .inner) kind others := by
  have htype := (TypeExpr.reads .inner).1
  obtain ⟨hexpr, hexprs⟩ := Expr.reads .inner
  unfold ofMembers
  split
  · -- FunctionCall
    rw [Call.ofMembers_of_agree (h.of_cons rfl)]
  · -- BinaryOperator
    rw [h.plain "operator" rfl, h.field "left" hexpr rfl, h.field "right" hexpr rfl, h.span rfl]
  · -- UnaryOperator
    rw [h.plain "operator" rfl, h.field "operand" hexpr rfl, h.span rfl]
  · -- ArrayLiteral
    rw [h.plain "length" rfl, h.field "stored_type" htype rfl, h.listed "elements" hexprs rfl,
      h.span rfl]
  · -- TypeOperator
    rw [h.plain "operator" rfl, h.field "expression" hexpr rfl,
      h.field "type_signature" htype rfl, h.span rfl]
  · -- DotMemberAccess
    rw [h.field "struct_value" hexpr rfl, h.plain "member" rfl, h.span rfl]
  · -- SquareBracketsAccess
    rw [h.field "storage" hexpr rfl, h.field "index" hexpr rfl, h.span rfl]
  · -- IntLiteral
    rw [h.plain "value" rfl, h.span rfl]
  · -- FloatLiteral
    rw [h.plain "value" rfl, h.span rfl]
  · -- CharLiteral
    rw [h.plain "value" rfl, h.span rfl]
  · -- BoolLiteral
    rw [h.plain "value" rfl, h.span rfl]
  · -- StringLiteral
    rw [h.plain "value" rfl, h.span rfl]
  · -- Identifier
    rw [h.plain "name" rfl, h.span rfl]
  · rfl

theorem Stmt.ofMembers_of_agree (h : ((Shape.stmt place).slots kind).Agree members others) :
    ofMembers (decodeAt .inner) kind members =
      Stmt.ofMembers (Stmt.decodeAt .inner) kind others := by
  have htype := (TypeExpr.reads .inner).1
  have hexpr := (Expr.reads .inner).1
  have hblock : (Part.many (.stmt .inner)).Reads (asListOf (decodeAt .inner)) := fun _ _ h => h
  unfold ofMembers
  split
  · -- VariableDeclaration
    rw [h.plain "identifier" rfl, h.field "declared_type" htype rfl, h.optional "value" hexpr rfl,
      h.span rfl]
  · -- ConstDeclaration
    rw [h.plain "identifier" rfl, h.field "declared_type" htype rfl, h.field "value" hexpr rfl,
      h.span rfl]
  · -- Assignment
    rw [h.field "target" hexpr rfl, h.field "value" hexpr rfl, h.span rfl]
  · -- Conditional
    rw [h.field "condition" hexpr rfl, h.field "then_branch" hblock rfl,
      h.listed "else_branch" hblock rfl, h.span rfl]
  · -- WhileLoop
    rw [h.field "condition" hexpr rfl, h.field "body" hblock rfl, h.span rfl]
  · -- UntilLoop
    rw [h.field "condition" hexpr rfl, h.field "body" hblock rfl, h.span rfl]
  · -- Return
    rw [h.optional "value" hexpr rfl, h.span rfl]
  · -- FunctionCall
    rw [Call.ofMembers_of_agree (h.of_cons rfl)]
  · -- Continue
    rw [h.span rfl]
  · -- Break
    rw [h.span rfl]
  · rfl

theorem Parameter.decode_of_agree (h : (Shape.parameter.slots kind).Agree members others) :
    Parameter.decode (.record members) = Parameter.decode (.record others) := by
  rw [Parameter.decode, Parameter.decode, asRecord_bind, asRecord_bind]
  rw [h.plain "name" rfl, h.field "argument_type" (TypeExpr.reads .outer).1 rfl]

theorem FunctionDef.decode_of_agree (h : (Shape.function.slots kind).Agree members others) :
    decode (.record members) = decode (.record others) := by
  have hparameters : (Part.many .parameter).Reads (asListOf Parameter.decode) := fun _ _ h => h
  have hblock : (Part.many (.stmt .outer)).Reads (asListOf Stmt.decode) := fun _ _ h => h
  rw [decode, decode, asRecord_bind, asRecord_bind]
  rw [h.plain "name" rfl, h.listed "arguments" hparameters rfl,
    h.optional "return_type" (TypeExpr.reads .outer).1 rfl,
    h.listed "generics" (Part.plain_reads _) rfl, h.listed "body" hblock rfl, h.origin rfl,
    h.span rfl]

theorem SourceFile.decode_of_agree (h : (Shape.file.slots kind).Agree members others) :
    SourceFile.decode (.record members) = SourceFile.decode (.record others) := by
  have htypes : (Part.many .typeDef).Reads (asListOf TypeDef.decode) := fun _ _ h => h
  have hfunctions : (Part.many .function).Reads (asListOf FunctionDef.decode) := fun _ _ h => h
  rw [SourceFile.decode, SourceFile.decode, asRecord_bind, asRecord_bind]
  rw [h.plain "filename" rfl, h.plain "package_name" rfl,
    h.listed "imports" (Part.plain_reads _) rfl, h.listed "type_definitions" htypes rfl,
    h.listed "function_definitions" hfunctions rfl]

/-- Tagged records are read alike if their kinds are, and then their members. -/
theorem readTagged_of_agree {α : Type} {kinds : List String} {slots : Slots}
    {ofMembers : String → Members → Decoded α} (h : slots.Agree members others)
    (hslot : slots.lookup "kind" = some (.required .plain))
    (hkind : kindOf place kinds members = .ok kind)
    (hmembers : ofMembers kind members = ofMembers kind others) :
    readTagged place kinds ofMembers (.record members) =
      readTagged place kinds ofMembers (.record others) := by
  have hother : kindOf place kinds others = .ok kind := by rw [← h.kindOf place kinds hslot, hkind]
  rw [readTagged_record, readTagged_record, hkind, hother]
  exact hmembers

/-- A record is read through its declared members alone. -/
theorem Shape.decode_of_agree {shape : Shape} (hkind : shape.kindOf members = .ok kind)
    (h : (shape.slots kind).Agree members others) :
    shape.decode (.record members) = shape.decode (.record others) := by
  cases shape with
  | span => exact Span.decode_of_agree h
  | type place =>
    simp only [Shape.decode, TypeExpr.decode_eq]
    exact readTagged_of_agree h rfl hkind (TypeExpr.ofMembers_of_agree h)
  | field => exact Field.decode_of_agree h
  | typeDef => exact readTagged_of_agree h rfl hkind (TypeDef.ofMembers_of_agree h)
  | expr place =>
    simp only [Shape.decode, Expr.decode_eq]
    exact readTagged_of_agree h rfl hkind (Expr.ofMembers_of_agree h)
  | stmt place =>
    simp only [Shape.decode, decodeAt_eq]
    exact readTagged_of_agree h rfl hkind (Stmt.ofMembers_of_agree h)
  | parameter => exact Parameter.decode_of_agree h
  | function => exact FunctionDef.decode_of_agree h
  | file => exact SourceFile.decode_of_agree h

end Readers

end Accord
