import Accord.Proofs.Generic.Mentions

/-!
# Substitutions one after the other

Substitutions act on syntax: what one and then another do is what `Substitution.andThen` does
at once, whose entries are those of the first, rewritten by the second, followed by those of the
second.  A substitution that has no entry for the parameters in a piece of syntax leaves it as it
is.

Both laws are proved for types by induction, and for other syntax from what they say of the types
written in it.
-/

namespace Accord

open FunctionDef Substitution TypeBody

variable {types : List TypeExpr} {rules : Substitution}

/-- The first substitution with its replacements rewritten by the second, and then the second. -/
def Substitution.andThen (first second : Substitution) : Substitution :=
  first.map (fun entry => (entry.1, entry.2.substitute second)) ++ second

/-- A parameter that the first substitution replaces is replaced by what the second makes of
that, and any other as the second does. -/
theorem Substitution.find?_andThen (first second : Substitution) (parameter : String) :
    (first.andThen second).find? parameter =
      ((first.find? parameter).map (·.substitute second)).or (second.find? parameter) := by
  induction first with
  | nil => rfl
  | cons entry rest ih =>
    have hsplit : andThen (entry :: rest) second =
        (entry.1, entry.2.substitute second) :: andThen rest second := rfl
    rw [hsplit, find?_cons, find?_cons]
    split
    · rfl
    · exact ih

namespace TypeExpr

mutual

/-- The type parameters that occur in a type. -/
def parameters : TypeExpr → List String
  | .primitive _ => []
  | .param name => [name]
  | .named _ _ arguments _ => parametersAll arguments
  | .pointer target => target.parameters
  | .array _ element => element.parameters
  | .slice element => element.parameters
  | .union alternatives => parametersAll alternatives

/-- The type parameters that occur in several types. -/
def parametersAll : List TypeExpr → List String
  | [] => []
  | type :: rest => type.parameters ++ parametersAll rest

end

end TypeExpr

/-- No parameter in the types has an entry. -/
def Substitution.Spares (rules : Substitution) (types : List TypeExpr) : Prop :=
  ∀ type ∈ types, ∀ parameter ∈ type.parameters, rules.find? parameter = none

instance (rules : Substitution) (types : List TypeExpr) : Decidable (rules.Spares types) :=
  inferInstanceAs
    (Decidable (∀ type ∈ types, ∀ parameter ∈ type.parameters, rules.find? parameter = none))

/-- The types stay as they are. -/
def Substitution.Fixes (rules : Substitution) (types : List TypeExpr) : Prop :=
  ∀ type ∈ types, type.substitute rules = type

section Fixes

theorem Substitution.fixes_cons {type : TypeExpr} {rest : List TypeExpr} :
    rules.Fixes (type :: rest) ↔ type.substitute rules = type ∧ rules.Fixes rest :=
  List.forall_mem_cons

theorem Substitution.fixes_append {first second : List TypeExpr} :
    rules.Fixes (first ++ second) ↔ rules.Fixes first ∧ rules.Fixes second :=
  List.forall_mem_append

theorem Substitution.fixes_flatMap {α : Type} {items : List α} {types : α → List TypeExpr} :
    rules.Fixes (items.flatMap types) ↔ ∀ item ∈ items, rules.Fixes (types item) :=
  List.forall_mem_flatMap

theorem Substitution.Fixes.substituteAll (h : rules.Fixes types) :
    TypeExpr.substituteAll rules types = types := by
  rw [TypeExpr.substituteAll_eq_map, List.map_congr_left h, List.map_id']

end Fixes

/-! ## Types -/

theorem TypeExpr.substitute_substitute (first second : Substitution) (type : TypeExpr) :
    (type.substitute first).substitute second = type.substitute (first.andThen second) := by
  induction type using TypeExpr.induct with
  | step type ih =>
    cases type with
    | param name =>
      simp only [TypeExpr.substitute, find?_andThen]
      cases first.find? name with
      | none => rfl
      | some type => rfl
    | _ => simp_all [TypeExpr.substitute, TypeExpr.children, TypeExpr.substituteAll_eq_map]

theorem TypeExpr.parametersAll_eq (types : List TypeExpr) :
    TypeExpr.parametersAll types = types.flatMap TypeExpr.parameters := by
  induction types with
  | nil => rfl
  | cons type rest ih => rw [TypeExpr.parametersAll, ih, List.flatMap_cons]

theorem TypeExpr.substitute_of_unbound (type : TypeExpr)
    (h : ∀ parameter ∈ type.parameters, rules.find? parameter = none) :
    type.substitute rules = type := by
  induction type using TypeExpr.induct with
  | step type ih =>
    cases type <;> simp_all [-List.mem_flatMap, List.forall_mem_flatMap, TypeExpr.substitute,
      TypeExpr.parameters, TypeExpr.parametersAll_eq, TypeExpr.children,
      TypeExpr.substituteAll_eq_map, map_eq_self_iff]
    all_goals exact fun type hmem => ih type hmem (h type hmem)

theorem Substitution.Spares.fixes (h : rules.Spares types) : rules.Fixes types :=
  fun type hmem => type.substitute_of_unbound (h type hmem)

/-! ## Definitions of types -/

theorem TypeBody.substitute_substitute (first second : Substitution) (body : TypeBody) :
    (body.substitute first).substitute second = body.substitute (first.andThen second) := by
  cases body with
  | record fields =>
    simp only [substitute, List.map_map, Function.comp_def, TypeExpr.substitute_substitute]
  | union alternatives =>
    simp only [TypeBody.substitute, TypeExpr.substituteAll_eq_map, List.map_map, Function.comp_def,
      TypeExpr.substitute_substitute]
  | «alias» target => exact congrArg _ (target.substitute_substitute first second)

theorem TypeBody.substitute_of_fixes {body : TypeBody} (h : rules.Fixes body.components) :
    body.substitute rules = body := by
  cases body with
  | record fields =>
    have hfield : ∀ field ∈ fields, { field with type := field.type.substitute rules } = field :=
      fun field hmem => by rw [h field.type (List.mem_map_of_mem hmem)]
    rw [substitute, List.map_congr_left hfield, List.map_id']
  | union alternatives => exact congrArg _ h.substituteAll
  | «alias» target => exact congrArg _ (h target (by simp [components]))

theorem TypeDef.instantiate_instantiate (first second : Substitution) (definition : TypeDef) :
    (definition.instantiate first).instantiate second =
      definition.instantiate (first.andThen second) := by
  simp only [TypeDef.instantiate, TypeBody.substitute_substitute]

/-! ## Expressions -/

theorem Expr.substitute_substitute (first second : Substitution) (expr : Expr) :
    (expr.substitute first).substitute second = expr.substitute (first.andThen second) := by
  induction expr using Expr.induct with
  | step expr ih =>
    cases expr <;> simp_all [Expr.substitute, Expr.children, Expr.substituteAll_eq_map,
      TypeExpr.substituteAll_eq_map, TypeExpr.substitute_substitute]

theorem Expr.substitute_of_fixes (expr : Expr) (h : rules.Fixes expr.types) :
    expr.substitute rules = expr := by
  induction expr using Expr.induct with
  | step expr ih =>
    cases expr <;> simp_all [Expr.substitute, Expr.types, Expr.children, Expr.substituteAll_eq_map,
      Expr.typesAll_eq, map_eq_self_iff, fixes_append, fixes_cons,
      fixes_flatMap, Fixes.substituteAll]

/-! ## Statements -/

theorem Stmt.substitute_substitute (first second : Substitution) (statement : Stmt) :
    (statement.substitute first).substitute second =
      statement.substitute (first.andThen second) := by
  induction statement using Stmt.induct with
  | step statement ih =>
    cases statement <;> simp_all [Stmt.substitute, Stmt.inner, Stmt.substituteAll_eq_map,
      Call.substitute, Expr.substituteAll_eq_map, TypeExpr.substituteAll_eq_map,
      TypeExpr.substitute_substitute, Expr.substitute_substitute, Function.comp_def]

theorem Expr.substituteAll_of_fixes {exprs : List Expr}
    (h : ∀ expr ∈ exprs, rules.Fixes expr.types) : exprs.map (·.substitute rules) = exprs :=
  map_eq_self_iff.2 fun expr hmem => expr.substitute_of_fixes (h expr hmem)

theorem Stmt.substitute_of_fixes (statement : Stmt) (h : rules.Fixes statement.types) :
    statement.substitute rules = statement := by
  induction statement using Stmt.induct with
  | step statement ih =>
    have hexpr (value : Option Expr) (h : rules.Fixes (Expr.typesOpt value)) :
        value.map (·.substitute rules) = value := by
      cases value with
      | none => rfl
      | some expr => exact congrArg some (expr.substitute_of_fixes h)
    cases statement <;> simp_all [Stmt.substitute, Stmt.types, Stmt.inner, Call.substitute,
      Stmt.substituteAll_eq_map, Stmt.typesAll_eq, Expr.substituteAll_eq_map, Expr.typesAll_eq,
      Expr.substitute_of_fixes, Expr.substituteAll_of_fixes, map_eq_self_iff, Substitution.fixes_append,
      fixes_cons, fixes_flatMap, Fixes.substituteAll]

/-! ## Functions -/

theorem FunctionDef.instantiate_instantiate (first second : Substitution) (name last : String)
    (function : FunctionDef) :
    (function.instantiate first name).instantiate second last =
      function.instantiate (first.andThen second) last := by
  simp only [instantiate, List.map_map, Option.map_map, Function.comp_def,
    Stmt.substituteAll_eq_map, TypeExpr.substitute_substitute, Stmt.substitute_substitute]

theorem FunctionDef.instantiate_of_fixes (name : String) {function : FunctionDef}
    (h : rules.Fixes function.types) :
    function.instantiate rules name = { function with generics := [], name } := by
  obtain ⟨hparameters, hrest⟩ := fixes_append.1 h
  obtain ⟨hreturn, hbody⟩ := fixes_append.1 hrest
  have hparameter : ∀ parameter ∈ function.parameters,
      { parameter with type := parameter.type.substitute rules } = parameter :=
    fun parameter hmem => by rw [hparameters parameter.type (List.mem_map_of_mem hmem)]
  have hreturned : function.returnType.map (·.substitute rules) = function.returnType := by
    cases htype : function.returnType with
    | none => rfl
    | some type => exact congrArg some (hreturn type (by simp [htype]))
  have hblock : Stmt.substituteAll rules function.body = function.body := by
    rw [Stmt.typesAll_eq, Substitution.fixes_flatMap] at hbody
    rw [Stmt.substituteAll_eq_map, map_eq_self_iff]
    exact fun statement hmem => statement.substitute_of_fixes (hbody statement hmem)
  rw [instantiate, List.map_congr_left hparameter, List.map_id', hreturned, hblock]

/-! ## The two laws -/

/-- Instantiating twice is instantiating once with the substitution that does both, in every kind
of syntax; and where no parameter has an entry, nothing changes but that definitions and functions
are no longer generic and functions have their new name. -/
theorem substitution_acts (first second : Substitution) :
    ((∀ type : TypeExpr, (type.substitute first).substitute second =
        type.substitute (first.andThen second)) ∧
      (∀ definition : TypeDef, (definition.instantiate first).instantiate second =
        definition.instantiate (first.andThen second)) ∧
      (∀ statement : Stmt, (statement.substitute first).substitute second =
        statement.substitute (first.andThen second)) ∧
      (∀ expr : Expr, (expr.substitute first).substitute second =
        expr.substitute (first.andThen second)) ∧
      ∀ (function : FunctionDef) (name last : String),
        (function.instantiate first name).instantiate second last =
          function.instantiate (first.andThen second) last) ∧
    (∀ type : TypeExpr, first.Spares [type] → type.substitute first = type) ∧
    (∀ definition : TypeDef, first.Spares definition.body.components →
      definition.instantiate first = { definition with generics := [] }) ∧
    (∀ statement : Stmt, first.Spares statement.types → statement.substitute first = statement) ∧
    (∀ expr : Expr, first.Spares expr.types → expr.substitute first = expr) ∧
    ∀ (function : FunctionDef) (name : String), first.Spares function.types →
      function.instantiate first name = { function with generics := [], name } := by
  refine ⟨⟨TypeExpr.substitute_substitute first second,
      TypeDef.instantiate_instantiate first second, Stmt.substitute_substitute first second,
      Expr.substitute_substitute first second, fun function name last =>
        instantiate_instantiate first second name last function⟩,
    fun type h => h.fixes type (by simp), fun definition h => ?_,
    fun statement h => statement.substitute_of_fixes h.fixes,
    fun expr h => expr.substitute_of_fixes h.fixes,
    fun function name h => instantiate_of_fixes name h.fixes⟩
  rw [TypeDef.instantiate, TypeBody.substitute_of_fixes h.fixes]

/-- A function that is generic in one parameter and mentions another one in its body. -/
def pairUp : FunctionDef :=
  { name := "pair"
    parameters := [{ name := "x", type := .pointer (.param "T") }]
    returnType := some (.named "Box" none [.param "T"] "main.mer")
    generics := ["T"]
    origin := "main.mer"
    body :=
      [.declareVar "y" (.param "S") none {},
        .ret (some (.call "box" none [.ident "x" {}, .ident "y" {}] [.param "T"] "main.mer" {}))
          {}] }

/-- Replacing the first parameter by slices of the second, and then the second by integers, makes
one instance; and a replacement for a third parameter makes an instance that differs in its name
and in taking no parameters. -/
theorem pairUp_instances :
    ((pairUp.instantiate [("T", .slice (.param "S"))] "once").instantiate
        [("S", .int), ("T", .float)] "twice" =
      pairUp.instantiate [("T", .slice .int), ("S", .int), ("T", .float)] "twice") ∧
    Spares [("R", .int)] pairUp.types ∧
    pairUp.instantiate [("R", .int)] "renamed" =
      { pairUp with generics := [], name := "renamed" } := by
  have hspares : Substitution.Spares [("R", .int)] pairUp.types := by decide
  refine ⟨?_, hspares, ?_⟩
  · exact (substitution_acts [("T", .slice (.param "S"))] [("S", .int), ("T", .float)]).1.2.2.2.2
      pairUp "once" "twice"
  · exact (substitution_acts [("R", .int)] []).2.2.2.2.2 pairUp "renamed" hspares

end Accord
