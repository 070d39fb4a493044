import Accord.Format.File
import Accord.Proofs.Format.Depth
import Accord.Proofs.Source.Induction

/-!
# Reading undoes writing

What is written as a JSON value is read back unchanged: types, definitions, spans, expressions,
calls, statements, functions and files (`SourceFile.decode_encode`).

Written records hold every member once, so each member is read from the value that was written
for it (`field_eq_ok`, `fieldOr_eq_ok`, `optionalField_eq_ok`).  The proofs follow the
recursion of the writers.
-/

namespace Accord

open Json TypeExpr

variable {text : String} {members : Members}

/-! ## Members and items -/

section Members

variable {α : Type} {name : String} {decode : Json → Decoded α} {value : Json} {read : α}

theorem field_eq_ok (hdecode : decode value = .ok read)
    (hmember : member? members name = .ok (some value)) :
    field members name decode = .ok read := by
  simp only [field, hmember, bind, Except.bind, hdecode]

theorem fieldOr_eq_ok {default : α} (hdecode : decode value = .ok read)
    (hmember : member? members name = .ok (some value)) :
    fieldOr members name default decode = .ok read := by
  simp only [fieldOr, hmember, bind, Except.bind, hdecode]

theorem optionalField_of_ne_null (hvalue : value ≠ .null)
    (hmember : member? members name = .ok (some value)) :
    optionalField members name decode = some <$> decode value := by
  simp only [optionalField, hmember, bind, Except.bind]
  cases value with
  | null => exact absurd rfl hvalue
  | _ => rfl

theorem optionalField_eq_ok {encode : α → Json} {option : Option α}
    (hdecode : ∀ part ∈ option, decode (encode part) = .ok part)
    (hencode : ∀ part, encode part ≠ .null)
    (hmember : member? members name = .ok (some (ofOption encode option))) :
    optionalField members name decode = .ok option := by
  cases option with
  | none => simp only [optionalField, hmember, ofOption, bind, Except.bind, pure, Except.pure]
  | some part =>
    rw [optionalField_of_ne_null (hencode part) hmember, hdecode part rfl]
    rfl

theorem field_text (hmember : member? members name = .ok (some (.text text))) :
    field members name asText = .ok text :=
  field_eq_ok rfl hmember

theorem fieldOr_text {default : String} (hmember : member? members name = .ok (some (.text text))) :
    fieldOr members name default asText = .ok text :=
  fieldOr_eq_ok rfl hmember

theorem optionalField_text {option : Option String}
    (hmember : member? members name = .ok (some (ofOption .text option))) :
    optionalField members name asText = .ok option :=
  optionalField_eq_ok (fun _ _ => rfl) (by simp) hmember

theorem asListOf_map {encode : α → Json} {items : List α}
    (h : ∀ item ∈ items, decode (encode item) = .ok item) :
    asListOf decode (.list (items.map encode)) = .ok items := by
  show (items.map encode).mapM decode = .ok items
  induction items with
  | nil => rfl
  | cons item rest ih =>
    obtain ⟨hitem, hrest⟩ := List.forall_mem_cons.1 h
    rw [List.map_cons, List.mapM_cons, hitem, ih hrest]
    rfl

theorem asListOf_ofTexts (texts : List String) : asListOf asText (ofTexts texts) = .ok texts :=
  asListOf_map fun _ _ => rfl

theorem asRecord_bind (ofMembers : Members → Decoded α) :
    (Json.record members).asRecord >>= ofMembers = ofMembers members :=
  rfl

/-- A tagged record is read by the kind that was written. -/
theorem readTagged_tagged (hkind : members.filter (·.1 == "kind") = []) (place : Place)
    (kinds : List String) (ofMembers : String → Members → Decoded α) (kind : String) :
    readTagged place kinds ofMembers (tagged kind members) =
      ofMembers kind (("kind", .text kind) :: members) := by
  have hmember : member? (("kind", .text kind) :: members) "kind" = .ok (some (.text kind)) := by
    simp [member?, hkind]
  rw [tagged, readTagged_record]
  simp only [kindOf, field, hmember, bind, Except.bind, pure, Except.pure]

end Members

/-! ## Scalars and spans -/

theorem asWord_ofNat (word : UInt64) : asWord (ofNat word.toNat) = .ok word := by
  have hlt : (word.toNat : Int) < UInt64.size := by exact_mod_cast word.toNat_lt
  rw [ofNat, asWord, if_pos ⟨Int.natCast_nonneg _, hlt⟩]
  simp

theorem asSigned_toInt (word : Int64) : asSigned (.number (.whole word.toInt)) = .ok word := by
  rw [asSigned, if_pos ⟨word.minValue_le_toInt, word.toInt_le⟩]
  simp

theorem asChar_ofList (c : Char) : asChar (.text (String.ofList [c])) = .ok c := by
  simp [asChar]

theorem BinaryOp.decode_name (op : BinaryOp) : BinaryOp.decode (.text op.name) = .ok op := by
  cases op <;> rfl

theorem UnaryOp.decode_name (op : UnaryOp) : UnaryOp.decode (.text op.name) = .ok op := by
  cases op <;> rfl

theorem TypeOp.decode_name (op : TypeOp) : TypeOp.decode (.text op.name) = .ok op := by
  cases op <;> rfl

theorem Span.decode_encode (span : Span) : Span.decode span.encode = .ok span := by
  rw [Span.decode, Span.encode, asRecord_bind]
  rw [field_eq_ok (asWord_ofNat span.start) rfl, field_eq_ok (asWord_ofNat span.stop) rfl,
    fieldOr_eq_ok (asWord_ofNat span.file) rfl]
  rfl

theorem spanIn_eq_ok {span : Span} (hmember : member? members "span" = .ok (some span.encode)) :
    spanIn members = .ok span :=
  fieldOr_eq_ok (Span.decode_encode span) hmember

/-! ## Types and definitions -/

theorem TypeExpr.encodeAll_eq_map (types : List TypeExpr) : encodeAll types = types.map encode := by
  induction types with
  | nil => rfl
  | cons type rest ih => rw [encodeAll, ih, List.map_cons]

theorem TypeExpr.decode_encode (place : Place) (type : TypeExpr) :
    decode place type.encode = .ok type := by
  induction type using induct generalizing place with
  | step type ih =>
    have hall := asListOf_map fun part (hmem : part ∈ type.children) => ih part hmem .inner
    rw [← encodeAll_eq_map] at hall
    cases type <;> rw [encode, decode_eq, readTagged_tagged rfl, ofMembers]
    case named =>
      rw [field_text rfl, optionalField_text rfl, fieldOr_eq_ok hall rfl, fieldOr_text rfl]
      rfl
    case pointer target =>
      rw [field_eq_ok (ih target (.head _) .inner) rfl]
      rfl
    case array length element =>
      rw [field_eq_ok (asWord_ofNat length) rfl, field_eq_ok (ih element (.head _) .inner) rfl]
      rfl
    case slice element =>
      rw [field_eq_ok (ih element (.head _) .inner) rfl]
      rfl
    case union =>
      rw [field_eq_ok hall rfl]
      rfl
    all_goals
      rw [field_text rfl]
      rfl

theorem TypeExpr.encode_ne_null (type : TypeExpr) : type.encode ≠ .null := by
  cases type <;> simp [encode, tagged]

theorem Field.decode_encode (item : Field) : Field.decode item.encode = .ok item := by
  rw [Field.decode, Field.encode, asRecord_bind]
  rw [field_text rfl, field_eq_ok (TypeExpr.decode_encode .inner item.type) rfl]
  rfl

/-- Reads the members of a definition of the given kind. -/
def TypeDef.ofMembers (kind : String) (members : Members) : Decoded TypeDef := do
  return {
    name := ← field members "name" asText
    body := ← TypeBody.decode kind members
    generics := ← fieldOr members "generics" [] (asListOf asText)
    origin := ← fieldOr members "origin_file" "" asText }

/-- A definition is read by its kind. -/
theorem TypeDef.decode_eq (value : Json) :
    TypeDef.decode value = readTagged .outer TypeDef.kinds TypeDef.ofMembers value :=
  rfl

theorem TypeBody.decode_encode : (body : TypeBody) →
    member? members body.encode.1 = .ok (some body.encode.2) →
    TypeBody.decode body.kind members = .ok body
  | .record fields, hmember => by
    have hfields := asListOf_map fun item (_ : item ∈ fields) => Field.decode_encode item
    have hread : field members "fields" _ = _ := field_eq_ok hfields hmember
    simp only [TypeBody.kind, TypeBody.decode, hread]
    rfl
  | .union alternatives, hmember => by
    have halternatives := asListOf_map fun type (_ : type ∈ alternatives) =>
      TypeExpr.decode_encode .inner type
    have hread : field members "alternatives" _ = _ := field_eq_ok halternatives hmember
    simp only [TypeBody.kind, TypeBody.decode, hread]
    rfl
  | .alias target, hmember => by
    have hread : field members "aliased" _ = _ :=
      field_eq_ok (TypeExpr.decode_encode .inner target) hmember
    simp only [TypeBody.kind, TypeBody.decode, hread]
    rfl

theorem TypeDef.decode_encode (definition : TypeDef) :
    TypeDef.decode definition.encode = .ok definition := by
  have hgenerics := asListOf_ofTexts definition.generics
  -- The member that holds the body is named by the body.
  have hkind : [("name", Json.text definition.name), definition.body.encode,
      ("generics", ofTexts definition.generics), ("origin_file", .text definition.origin)].filter
        (·.1 == "kind") = [] := by cases definition.body <;> rfl
  rw [TypeDef.encode, TypeDef.decode_eq, readTagged_tagged hkind, TypeDef.ofMembers]
  generalize hmembers : ("kind", Json.text definition.body.kind) :: _ = members
  have hall : ∀ entry ∈ members, member? members entry.1 = .ok (some entry.2) := by
    subst hmembers
    cases definition.body <;> simp [member?, TypeBody.encode]
  simp only [← hmembers, List.forall_mem_cons] at hall
  rw [hmembers] at hall
  obtain ⟨_, hname, hbody, hgens, horigin, _⟩ := hall
  rw [field_text hname, TypeBody.decode_encode _ hbody, fieldOr_eq_ok hgenerics hgens,
    fieldOr_text horigin]
  rfl

/-! ## Expressions and calls -/

theorem Expr.encode_ne_null (expr : Expr) : expr.encode ≠ .null := by
  cases expr <;> simp [Expr.encode, tagged]

/-- The members of a call are read back if its arguments are. -/
theorem Call.ofMembers_members (place : Place) {argument : Json → Decoded Expr} {call : Call}
    (harguments : asListOf argument (.list (Expr.encodeAll call.arguments)) = .ok call.arguments)
    (hmembers : ∀ entry ∈ call.members, member? members entry.1 = .ok (some entry.2)) :
    Call.ofMembers place argument members = .ok call := by
  have hgenerics := asListOf_map fun type (_ : type ∈ call.generics) =>
    decode_encode place type
  simp only [Call.members, callMembers, List.forall_mem_cons] at hmembers
  obtain ⟨hname, hqualifier, hargs, hgens, horigin, hspan, _⟩ := hmembers
  rw [Call.ofMembers, field_text hname, optionalField_text hqualifier,
    fieldOr_eq_ok harguments hargs, fieldOr_eq_ok hgenerics hgens, fieldOr_text horigin,
    spanIn_eq_ok hspan]
  rfl

/-- The members of a call are found next to a kind. -/
theorem Call.member?_tagged (call : Call) (kind : Json) :
    ∀ entry ∈ call.members,
      member? (("kind", kind) :: call.members) entry.1 = .ok (some entry.2) := by
  simp [Call.members, callMembers, member?]

theorem Expr.encodeAll_eq_map (exprs : List Expr) :
    Expr.encodeAll exprs = exprs.map Expr.encode := by
  induction exprs with
  | nil => rfl
  | cons expr rest ih => rw [Expr.encodeAll, ih, List.map_cons]

theorem Expr.decode_encode (place : Place) (expr : Expr) :
    Expr.decode place expr.encode = .ok expr := by
  induction expr using Expr.induct generalizing place with
  | step expr ih =>
    have hall := asListOf_map fun part (hmem : part ∈ expr.children) => ih part hmem .inner
    rw [← Expr.encodeAll_eq_map] at hall
    cases expr <;> rw [Expr.encode, Expr.decode_eq, readTagged_tagged rfl, Expr.ofMembers]
    case call name qualifier arguments generics origin span =>
      have hfound := Call.member?_tagged ⟨name, qualifier, arguments, generics, origin, span⟩
        (.text "FunctionCall")
      have hcall := Call.ofMembers_members .inner hall hfound
      rw [Call.members] at hcall
      rw [hcall]
      rfl
    case binary op left right span =>
      rw [field_eq_ok (BinaryOp.decode_name op) rfl, field_eq_ok (ih left (.head _) .inner) rfl,
        field_eq_ok (ih right (.tail _ (.head _)) .inner) rfl, spanIn_eq_ok rfl]
      rfl
    case unary op operand span =>
      rw [field_eq_ok (UnaryOp.decode_name op) rfl, field_eq_ok (ih operand (.head _) .inner) rfl,
        spanIn_eq_ok rfl]
      rfl
    case arrayLit length element elements span =>
      rw [field_eq_ok (asWord_ofNat length) rfl,
        field_eq_ok (TypeExpr.decode_encode .inner element) rfl, fieldOr_eq_ok hall rfl,
        spanIn_eq_ok rfl]
      rfl
    case typeOp op value type span =>
      rw [field_eq_ok (TypeOp.decode_name op) rfl, field_eq_ok (ih value (.head _) .inner) rfl,
        field_eq_ok (TypeExpr.decode_encode .inner type) rfl, spanIn_eq_ok rfl]
      rfl
    case member value name span =>
      rw [field_eq_ok (ih value (.head _) .inner) rfl, field_text rfl, spanIn_eq_ok rfl]
      rfl
    case index storage position span =>
      rw [field_eq_ok (ih storage (.head _) .inner) rfl,
        field_eq_ok (ih position (.tail _ (.head _)) .inner) rfl, spanIn_eq_ok rfl]
      rfl
    case intLit value span =>
      rw [field_eq_ok (asSigned_toInt value) rfl, spanIn_eq_ok rfl]
      rfl
    case floatLit value span =>
      have hvalue : asFloat (.number (.fractional value)) = .ok value := rfl
      rw [field_eq_ok hvalue rfl, spanIn_eq_ok rfl]
      rfl
    case charLit value span =>
      rw [field_eq_ok (asChar_ofList value) rfl, spanIn_eq_ok rfl]
      rfl
    case boolLit value span =>
      have hvalue : asBool (.bool value) = .ok value := rfl
      rw [field_eq_ok hvalue rfl, spanIn_eq_ok rfl]
      rfl
    all_goals
      rw [field_text rfl, spanIn_eq_ok rfl]
      rfl

theorem Call.ofMembers_encode (call : Call)
    (hmembers : ∀ entry ∈ call.members, member? members entry.1 = .ok (some entry.2))
    (place : Place) : Call.ofMembers place (Expr.decode place) members = .ok call :=
  Call.ofMembers_members place (by
    rw [Expr.encodeAll_eq_map]
    exact asListOf_map fun part _ => part.decode_encode place) hmembers

theorem Call.decode_encode (call : Call) : Call.decode call.encode = .ok call := by
  rw [Call.decode, Call.encode, asRecord_bind]
  exact Call.ofMembers_encode call (by simp [Call.members, callMembers, member?]) .outer

/-! ## Statements, functions and files -/

/-- A value that may be missing is read back. -/
theorem Expr.optionalField_encode {value : Option Expr}
    (hmember : member? members "value" = .ok (some (ofOption Expr.encode value))) :
    optionalField members "value" (Expr.decode .inner) = .ok value :=
  optionalField_eq_ok (fun part _ => Expr.decode_encode .inner part) Expr.encode_ne_null hmember

theorem Stmt.encodeAll_eq_map (block : List Stmt) :
    Stmt.encodeAll block = block.map Stmt.encode := by
  induction block with
  | nil => rfl
  | cons statement rest ih => rw [Stmt.encodeAll, ih, List.map_cons]

theorem Stmt.decodeAt_encode (place : Place) (statement : Stmt) :
    Stmt.decodeAt place statement.encode = .ok statement := by
  induction statement using Stmt.induct generalizing place with
  | step statement ih =>
    have hall {block : List Stmt} (hsub : block ⊆ statement.inner) :
        asListOf (Stmt.decodeAt .inner) (.list (Stmt.encodeAll block)) = .ok block := by
      rw [Stmt.encodeAll_eq_map]
      exact asListOf_map fun part hmem => ih part (hsub hmem) .inner
    cases statement <;> rw [Stmt.encode, Stmt.decodeAt_eq, readTagged_tagged rfl, Stmt.ofMembers]
    case declareVar name type value span =>
      rw [field_text rfl, field_eq_ok (decode_encode .inner type) rfl,
        Expr.optionalField_encode rfl, spanIn_eq_ok rfl]
      rfl
    case declareConst name type value span =>
      rw [field_text rfl, field_eq_ok (decode_encode .inner type) rfl,
        field_eq_ok (Expr.decode_encode .inner value) rfl, spanIn_eq_ok rfl]
      rfl
    case assign target value span =>
      rw [field_eq_ok (Expr.decode_encode .inner target) rfl,
        field_eq_ok (Expr.decode_encode .inner value) rfl, spanIn_eq_ok rfl]
      rfl
    case conditional condition thenBranch elseBranch span =>
      rw [field_eq_ok (Expr.decode_encode .inner condition) rfl,
        field_eq_ok (hall (List.subset_append_left _ _)) rfl,
        fieldOr_eq_ok (hall (List.subset_append_right _ _)) rfl, spanIn_eq_ok rfl]
      rfl
    case ret value span =>
      rw [Expr.optionalField_encode rfl, spanIn_eq_ok rfl]
      rfl
    case call called =>
      rw [Call.ofMembers_encode called (Call.member?_tagged called _)]
      rfl
    case continueLoop span =>
      rw [spanIn_eq_ok rfl]
      rfl
    case breakLoop span =>
      rw [spanIn_eq_ok rfl]
      rfl
    all_goals
      rw [field_eq_ok (Expr.decode_encode .inner _) rfl, field_eq_ok (hall (List.Subset.refl _)) rfl,
        spanIn_eq_ok rfl]
      rfl

theorem Parameter.decode_encode (parameter : Parameter) :
    Parameter.decode parameter.encode = .ok parameter := by
  rw [Parameter.decode, Parameter.encode, asRecord_bind]
  rw [field_text rfl, field_eq_ok (TypeExpr.decode_encode .outer parameter.type) rfl]
  rfl

theorem FunctionDef.decode_encode (function : FunctionDef) :
    FunctionDef.decode function.encode = .ok function := by
  have hparameters := asListOf_map fun parameter (_ : parameter ∈ function.parameters) =>
    Parameter.decode_encode parameter
  have hreturns : ∀ type ∈ function.returnType,
      TypeExpr.decode .outer type.encode = .ok type :=
    fun type _ => TypeExpr.decode_encode .outer type
  have hbody : asListOf Stmt.decode (.list (Stmt.encodeAll function.body)) = .ok function.body := by
    rw [Stmt.encodeAll_eq_map]
    exact asListOf_map fun part _ => part.decodeAt_encode .outer
  rw [FunctionDef.decode, FunctionDef.encode, asRecord_bind]
  rw [field_text rfl, fieldOr_eq_ok hparameters rfl,
    optionalField_eq_ok hreturns encode_ne_null rfl,
    fieldOr_eq_ok (asListOf_ofTexts function.generics) rfl, fieldOr_eq_ok hbody rfl,
    fieldOr_text rfl, spanIn_eq_ok rfl]
  rfl

/-- A file that is written is read back. -/
theorem SourceFile.decode_encode (file : SourceFile) :
    SourceFile.decode file.encode = .ok file := by
  have htypes := asListOf_map fun definition (_ : definition ∈ file.types) =>
    TypeDef.decode_encode definition
  have hfunctions := asListOf_map fun function (_ : function ∈ file.functions) =>
    FunctionDef.decode_encode function
  rw [SourceFile.decode, SourceFile.encode, asRecord_bind]
  rw [field_text rfl, field_text rfl, fieldOr_eq_ok (asListOf_ofTexts file.imports) rfl,
    fieldOr_eq_ok htypes rfl, fieldOr_eq_ok hfunctions rfl]
  rfl

end Accord
