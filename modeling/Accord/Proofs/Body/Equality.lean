import Accord.Proofs.Body.Replay
import Accord.Proofs.Program.Monomorphic
import Accord.Proofs.Types.History
import Accord.Proofs.Types.Legible

/-!
# Equality of values

Values can be tested for equality if their types have one canonical name.  The type of an
expression is never an alias, but it may mention aliases further in, and canonical names keep
them.

* `TypeTable.Expands` replaces every alias that a type mentions by its target, at every depth.
* Types without aliases that are the same then can be compared (`equality_by_name`), and so can
  types that are the same as they are written.
* Legible types that differ as they are written cannot be compared, even if nothing but an alias
  makes the difference (`equality_misses_alias`).
-/

namespace Accord

open Query TypeTable List Option Program Bool

variable {table : TypeTable} {type : TypeExpr} {op : BinaryOp} {scope : Scope}
  {start after : Program}

/-! ## Types without their aliases -/

/-- The second type is the first with every alias replaced by its target. -/
inductive TypeTable.Expands (base : TypeTable) : TypeExpr → TypeExpr → Prop where
  | primitive (name : String) : Expands base (.primitive name) (.primitive name)
  | param (name : String) : Expands base (.param name) (.param name)
  | pointer {target expanded : TypeExpr} (targets : Expands base target expanded) :
      Expands base (.pointer target) (.pointer expanded)
  | array (length : UInt64) {element expanded : TypeExpr}
      (elements : Expands base element expanded) :
      Expands base (.array length element) (.array length expanded)
  | slice {element expanded : TypeExpr} (elements : Expands base element expanded) :
      Expands base (.slice element) (.slice expanded)
  | union {types expanded : List TypeExpr}
      (alternatives : Forall₂ (Expands base) types expanded) :
      Expands base (.union types) (.union expanded)
  | named {name package origin : String} {qualifier : Option String}
      {types expanded : List TypeExpr} {definition : TypeDef}
      (declared : base.declaration? ⟨name, qualifier, types, origin⟩ = some (package, definition))
      (other : definition.body.isAlias = false)
      (arguments : Forall₂ (Expands base) types expanded) :
      Expands base (.named name qualifier types origin) (.named name qualifier expanded origin)
  | «alias» {name package origin : String} {qualifier : Option String} {types : List TypeExpr}
      {target expanded : TypeExpr} {definition : TypeDef}
      (declared : base.declaration? ⟨name, qualifier, types, origin⟩ = some (package, definition))
      (body : definition.body = .alias target)
      (rest : Expands base (target.substitute (.ofLists definition.generics types)) expanded) :
      Expands base (.named name qualifier types origin) expanded

/-- Two types that are the same without their aliases, up to how they refer to definitions. -/
def TypeTable.ExpandAlike (base : TypeTable) (left right : TypeExpr) : Prop :=
  ∃ left' right', base.Expands left left' ∧ base.Expands right right' ∧ base.Matches left' right'

mutual

/-- Whether every reference inside the type is declared, and none to an alias. -/
def TypeTable.aliasFree (base : TypeTable) : TypeExpr → Bool
  | .primitive _ => true
  | .param _ => true
  | .pointer target => base.aliasFree target
  | .array _ element => base.aliasFree element
  | .slice element => base.aliasFree element
  | .union alternatives => base.allAliasFree alternatives
  | .named name qualifier arguments origin =>
    (base.declaration? ⟨name, qualifier, arguments, origin⟩).any (!·.2.body.isAlias) &&
      base.allAliasFree arguments

def TypeTable.allAliasFree (base : TypeTable) : List TypeExpr → Bool
  | [] => true
  | type :: rest => base.aliasFree type && base.allAliasFree rest

end

section Expansion

variable {base : TypeTable}

mutual

/-- A type without aliases stays as it is. -/
theorem TypeTable.Expands.eq_of_aliasFree : (type : TypeExpr) → {expanded : TypeExpr} →
    base.aliasFree type → base.Expands type expanded → expanded = type
  | .primitive _, _, _, .primitive _ => rfl
  | .param _, _, _, .param _ => rfl
  | .pointer part, _, h, .pointer htarget
  | .array _ part, _, h, .array _ htarget
  | .slice part, _, h, .slice htarget => by rw [htarget.eq_of_aliasFree part h]
  | .union alternatives, _, h, .union hall => by
    rw [Expands.all_eq_of_aliasFree alternatives h hall]
  | .named _ _ arguments _, _, h, .named _ _ hall => by
    have hfree := (and_eq_true_iff.1 h).2
    rw [Expands.all_eq_of_aliasFree arguments hfree hall]
  | .named _ _ _ _, _, h, .alias hdeclared hbody _ => by
    have hother := (and_eq_true_iff.1 h).1
    simp [hdeclared, hbody, TypeBody.isAlias] at hother

theorem TypeTable.Expands.all_eq_of_aliasFree : (types : List TypeExpr) →
    {expanded : List TypeExpr} → base.allAliasFree types →
      Forall₂ base.Expands types expanded → expanded = types
  | [], _, _, .nil => rfl
  | type :: rest, _, h, .cons htype hrest => by
    have hfree := and_eq_true_iff.1 h
    rw [htype.eq_of_aliasFree type hfree.1, Expands.all_eq_of_aliasFree rest hfree.2 hrest]

end

mutual

/-- A type without aliases has a canonical name. -/
theorem spelling?_isSome_of_aliasFree : (type : TypeExpr) → base.aliasFree type →
    (base.spelling? type).isSome
  | .primitive _, _ => rfl
  | .param _, _ => rfl
  | .pointer part, h | .array _ part, h | .slice part, h => by
    rw [spelling?, isSome_map]
    exact spelling?_isSome_of_aliasFree part h
  | .union alternatives, h => by
    rw [spelling?, isSome_map]
    exact spellings?_isSome_of_aliasFree alternatives h
  | .named name qualifier arguments origin, h => by
    obtain ⟨hany, hfree⟩ := and_eq_true_iff.1 h
    obtain ⟨names, hnames⟩ := isSome_iff_exists.1 (spellings?_isSome_of_aliasFree arguments hfree)
    obtain ⟨found, hfound, _⟩ := any_eq_true _ _ |>.1 hany
    rw [spelling?, hnames, bind_some, isSome_map, home?, isSome_map, hfound]
    rfl

theorem spellings?_isSome_of_aliasFree : (types : List TypeExpr) →
    base.allAliasFree types → (base.spellings? types).isSome
  | [], _ => rfl
  | type :: rest, h => by
    obtain ⟨htype, hrest⟩ := and_eq_true_iff.1 h
    obtain ⟨name, hname⟩ := isSome_iff_exists.1 (spelling?_isSome_of_aliasFree type htype)
    rw [spellings?, hname, bind_some, isSome_map]
    exact spellings?_isSome_of_aliasFree rest hrest

end

mutual

/-- Types that match have one canonical name, or none. -/
theorem TypeTable.Matches.spelling?_eq : (left : TypeExpr) → {right : TypeExpr} →
    base.Matches left right → base.spelling? left = base.spelling? right
  | .primitive _, _, .primitive _ => rfl
  | .param _, _, .param _ => rfl
  | .pointer part, _, .pointer h | .array _ part, _, .array _ h | .slice part, _, .slice h => by
    rw [spelling?, spelling?, h.spelling?_eq part]
  | .union alternatives, _, .union h => by
    rw [spelling?, spelling?, Matches.spellings?_eq alternatives h]
  | .named _ _ arguments _, _, .named _ _ hhomes h => by
    rw [spelling?, spelling?, Matches.spellings?_eq arguments h, hhomes]

theorem TypeTable.Matches.spellings?_eq : (left : List TypeExpr) → {right : List TypeExpr} →
    Forall₂ base.Matches left right → base.spellings? left = base.spellings? right
  | [], _, .nil => rfl
  | type :: rest, _, .cons h hrest => by
    rw [spellings?, spellings?, h.spelling?_eq type, Matches.spellings?_eq rest hrest]

end

end Expansion

/-! ## Comparing names -/

theorem TypeTable.Over.spelling?_eq {base : TypeTable} (h : base.Over table) (type : TypeExpr) :
    table.spelling? type = base.spelling? type :=
  spelling?_congr type fun ref _ => h.home?_eq ref

section Names

variable {base : TypeTable} {left right : TypeExpr} {name name' : String}

/-- Whether values can be tested for equality depends on the canonical names of their types. -/
theorem binaryType_of_equality (hbase : base.Spelled) (hleft : left.plain)
    (hright : right.plain) (hname : base.spelling? left = some name)
    (hname' : base.spelling? right = some name') (hop : op.isEquality)
    (leftSpan rightSpan span : Span) :
    ∃ after, binaryType op left right leftSpan rightSpan span base =
      if name = name' then .ok .bool after else .error (mismatch left.render right span) after := by
  have hnamed {type : TypeExpr} (hplain : type.plain) :=
    (canonicalName_spells hbase.confines type hplain).mono fun _ hname => hname.spelling
  obtain ⟨middle, hrun, hmiddle⟩ := (hnamed hleft).exists_run (hbase.grownBy _) hname
  obtain ⟨after, hrun', _⟩ := (hnamed hright).exists_run hmiddle hname'
  have hsame : sameName left right base = .ok (name == name') after := by
    rw [sameName, bind_of_ok hrun, bind_of_ok hrun']
    rfl
  have hbinary : binaryType op left right leftSpan rightSpan span =
      sameName left right >>= fun same =>
        if !same then throw (mismatch left.render right span) else pure .bool := by
    cases op <;> first | rfl | cases hop
  refine ⟨after, ?_⟩
  rw [hbinary, bind_of_ok hsame]
  by_cases heq : name = name'
  · rw [if_pos heq, beq_iff_eq.2 heq]
    rfl
  · rw [if_neg heq, beq_eq_false_iff_ne.2 heq]
    rfl

end Names

/-- Without fuel no type is found. -/
theorem typeOf_zero_ne_ok {expr : Expr} : typeOf 0 scope expr start ≠ .ok type after := by
  intro hrun
  obtain ⟨_, _, _, hbare⟩ := bind_eq_ok.1 hrun
  obtain ⟨_, hthrow, _⟩ := on_eq_ok.1 hbare
  exact throw_ne_ok hthrow

/-- The type of a test for equality, from the types of the values. -/
theorem typeOf_equality {fuel : Nat} {left right : Expr} {leftType rightType : TypeExpr}
    {middle : Program} {name name' : String} (hstart : start.Plain) (hscope : scope.Plain)
    (hleft : left.Plain) (hright : right.Plain) (hop : op.isEquality)
    (hleftType : typeOf fuel scope left start = .ok leftType middle)
    (hrightType : typeOf fuel scope right middle = .ok rightType after)
    (hname : start.types.spelling? leftType = some name)
    (hname' : start.types.spelling? rightType = some name') (span : Span) :
    (typeOf fuel scope (.binary op left right span)).answer start =
      if name = name' then .ok .bool else .error (mismatch leftType.render rightType span) := by
  obtain ⟨hrecurs, hplain⟩ := (typeOf_recurrent fuel hscope hleft).ok hstart hleftType
  obtain ⟨hrecurs', hplain'⟩ := (typeOf_recurrent fuel hscope hright).ok hrecurs.plain hrightType
  have hover := (hrecurs.before.trans hrecurs'.before).types.toOver
  obtain ⟨types, hbinary⟩ := binaryType_of_equality hrecurs'.plain.types hplain hplain'
    ((hover.spelling?_eq leftType).trans hname) ((hover.spelling?_eq rightType).trans hname') hop
    left.span right.span span
  have hrun : typeOf fuel scope (.binary op left right span) start =
      settled fuel (liftM (binaryType op leftType rightType left.span right.span span)) after := by
    refine settled_congr fuel ?_
    rw [ownType]
    exact (bind_of_ok hleftType).trans (bind_of_ok hrightType)
  rw [answer, hrun, settled]
  by_cases heq : name = name'
  · rw [if_pos heq] at hbinary ⊢
    rw [bind_of_ok (liftProgram_of_ok hbinary)]
    cases fuel with
    | zero => exact absurd hleftType typeOf_zero_ne_ok
    | succ fuel => rfl
  · rw [if_neg heq] at hbinary ⊢
    rw [bind_of_error (liftProgram_of_error hbinary)]

/-- Values can be tested for equality exactly if the names of their types are the same.

Values whose types mention no alias can therefore be tested if the types are the same, up to how
they refer to definitions.  So can values whose types are the same as they are written, aliases
included.  If the types can be read back from their names and are not the same as they
are written, the test is refused, whatever their aliases stand for. -/
theorem equality_by_name {fuel : Nat} {scope : Scope} {left right : Expr} {op : BinaryOp}
    {leftType rightType : TypeExpr} {start middle after : Program} (hstart : start.Plain)
    (hscope : scope.Plain) (hleft : left.Plain) (hright : right.Plain)
    (hop : op.isEquality = true)
    (hleftType : typeOf fuel scope left start = .ok leftType middle)
    (hrightType : typeOf fuel scope right middle = .ok rightType after) (span : Span) :
    (∀ name name', start.types.spelling? leftType = some name →
        start.types.spelling? rightType = some name' →
        ((typeOf fuel scope (.binary op left right span)).answer start = .ok .bool ↔
          name = name')) ∧
      (start.types.aliasFree leftType = true → start.types.aliasFree rightType = true →
        start.types.ExpandAlike leftType rightType →
        (typeOf fuel scope (.binary op left right span)).answer start = .ok .bool) ∧
      (start.types.Matches leftType rightType → (start.types.spelling? leftType).isSome = true →
        (typeOf fuel scope (.binary op left right span)).answer start = .ok .bool) ∧
      ∀ parameters, leftType.legible parameters = true → rightType.legible parameters = true →
        (start.types.spelling? leftType).isSome = true →
        (start.types.spelling? rightType).isSome = true →
        ¬ start.types.Matches leftType rightType →
        (typeOf fuel scope (.binary op left right span)).answer start =
          .error (mismatch leftType.render rightType span) := by
  have htest {name name' : String} (hname : start.types.spelling? leftType = some name)
      (hname' : start.types.spelling? rightType = some name') :=
    typeOf_equality hstart hscope hleft hright hop hleftType hrightType hname hname' span
  have hmatch (hmatches : start.types.Matches leftType rightType)
      (hsome : (start.types.spelling? leftType).isSome = true) :
      (typeOf fuel scope (.binary op left right span)).answer start = .ok .bool := by
    obtain ⟨name, hname⟩ := isSome_iff_exists.1 hsome
    have hname' := (hmatches.spelling?_eq leftType).symm.trans hname
    rw [htest hname hname', if_pos rfl]
  refine ⟨fun name name' hname hname' => ?_, fun hfree hfree' halike => ?_, hmatch, ?_⟩
  · rw [htest hname hname']
    by_cases heq : name = name' <;> simp [heq]
  · obtain ⟨_, _, hexpands, hexpands', hmatches⟩ := halike
    rw [hexpands.eq_of_aliasFree leftType hfree, hexpands'.eq_of_aliasFree rightType hfree']
      at hmatches
    exact hmatch hmatches (spelling?_isSome_of_aliasFree leftType hfree)
  · intro parameters hlegible hlegible' hsome hsome' hdiffer
    obtain ⟨name, hname⟩ := isSome_iff_exists.1 hsome
    obtain ⟨name', hname'⟩ := isSome_iff_exists.1 hsome'
    rw [htest hname hname', if_neg]
    rintro rfl
    exact hdiffer (matches_of_spelling hstart.types.toKeyed hlegible hlegible' hname hname')

/-- An alias for a pointer. -/
def handleDef : TypeDef :=
  { name := "Handle", origin := "main.mer", body := .alias (.pointer .int) }

/-- A handle and a pointer are equal or not. -/
theorem equality_of_handle :
    let start := ofOneType handleDef
    let scope := scopeOf [("p", named "Handle"), ("q", .pointer .int)]
    build 8 (oneType handleDef) = .ok start ∧
      (typeOf 8 scope (.ident "p" {})).answer start = .ok (.pointer .int) ∧
      ∀ op : BinaryOp, op.isEquality = true →
        (typeOf 8 scope (.binary op (.ident "p" {}) (.ident "q" {}) {})).answer start =
          .ok .bool := by
  intro start scope
  have hbuild : build 8 (oneType handleDef) = .ok start := rfl
  have hplain : (oneType handleDef).Plain := ⟨by decide, by decide, by simp [oneType]⟩
  have hexpands : start.types.Expands (.pointer .int) (.pointer .int) := .pointer (.primitive _)
  refine ⟨hbuild, rfl, fun op hop => ?_⟩
  exact (equality_by_name (plain_of_build hbuild hplain) (plain_scopeOf (by decide)) (by decide)
    (by decide) hop rfl rfl {}).2.1 (by decide) (by decide)
    ⟨_, _, hexpands, hexpands, matches_self _ (by decide)⟩

/-- An alias for an integer. -/
def countDef : TypeDef :=
  { name := "Count", origin := "main.mer", body := .alias .int }

/-- A pointer to a count and a pointer to an integer are not compared, although a count is an
integer. -/
theorem equality_misses_alias :
    let start := ofOneType countDef
    let scope := scopeOf [("p", .pointer (named "Count")), ("q", .pointer .int)]
    build 8 (oneType countDef) = .ok start ∧
      (typeOf 8 scope (.ident "p" {})).answer start = .ok (.pointer (named "Count")) ∧
      (typeOf 8 scope (.ident "q" {})).answer start = .ok (.pointer .int) ∧
      start.types.ExpandAlike (.pointer (named "Count")) (.pointer .int) ∧
      ∀ op : BinaryOp, op.isEquality = true →
        (typeOf 8 scope (.binary op (.ident "p" {}) (.ident "q" {}) {})).answer start =
          .error (.typeMismatch "#Count" "#Int" {}) := by
  intro start scope
  have hcount : start.types.Expands (named "Count") .int := .alias rfl rfl (.primitive _)
  refine ⟨rfl, rfl, rfl, ⟨_, _, .pointer hcount, .pointer (.primitive _),
    matches_self _ (by decide)⟩, fun op hop => ?_⟩
  cases op <;> first | rfl | cases hop

end Accord
