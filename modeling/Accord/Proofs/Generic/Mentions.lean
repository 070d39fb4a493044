import Accord.Call.Outcome
import Accord.Proofs.Generic.Substitution

/-!
# The types written in a function

`FunctionDef.types` lists every type that a function mentions: those of its parameters and of
what it returns, and those written in its body at any depth.  An instance of a generic function
mentions the same types with their parameters replaced (`FunctionDef.types_instantiate`).
-/

namespace Accord

open FunctionDef

mutual

/-- The types written in an expression. -/
def Expr.types : Expr → List TypeExpr
  | .call _ _ arguments generics _ _ => generics ++ Expr.typesAll arguments
  | .binary _ left right _ => left.types ++ right.types
  | .unary _ operand _ => operand.types
  | .arrayLit _ element elements _ => element :: Expr.typesAll elements
  | .typeOp _ value type _ => type :: value.types
  | .member value _ _ => value.types
  | .index storage position _ => storage.types ++ position.types
  | .intLit _ _ => []
  | .floatLit _ _ => []
  | .charLit _ _ => []
  | .boolLit _ _ => []
  | .stringLit _ _ => []
  | .ident _ _ => []

/-- The types written in several expressions. -/
def Expr.typesAll : List Expr → List TypeExpr
  | [] => []
  | expr :: rest => expr.types ++ Expr.typesAll rest

end

/-- The types written in an expression that may be missing. -/
def Expr.typesOpt : Option Expr → List TypeExpr
  | some expr => expr.types
  | none => []

mutual

/-- The types written in a statement. -/
def Stmt.types : Stmt → List TypeExpr
  | .declareVar _ type value _ => type :: Expr.typesOpt value
  | .declareConst _ type value _ => type :: value.types
  | .assign target value _ => target.types ++ value.types
  | .conditional condition thenBranch elseBranch _ =>
    condition.types ++ (Stmt.typesAll thenBranch ++ Stmt.typesAll elseBranch)
  | .whileLoop condition body _ => condition.types ++ Stmt.typesAll body
  | .untilLoop condition body _ => condition.types ++ Stmt.typesAll body
  | .ret value _ => Expr.typesOpt value
  | .call c => c.generics ++ Expr.typesAll c.arguments
  | .continueLoop _ => []
  | .breakLoop _ => []

/-- The types written in a block. -/
def Stmt.typesAll : List Stmt → List TypeExpr
  | [] => []
  | statement :: rest => statement.types ++ Stmt.typesAll rest

end

/-- The types that a function mentions: in its signature and in its body. -/
def FunctionDef.types (function : FunctionDef) : List TypeExpr :=
  function.parameterTypes ++ (function.returnType.toList ++ Stmt.typesAll function.body)

theorem Expr.typesAll_eq (exprs : List Expr) : Expr.typesAll exprs = exprs.flatMap (·.types) := by
  induction exprs with
  | nil => rfl
  | cons expr rest ih => rw [Expr.typesAll, ih, List.flatMap_cons]

theorem Stmt.typesAll_eq (block : List Stmt) : Stmt.typesAll block = block.flatMap (·.types) := by
  induction block with
  | nil => rfl
  | cons statement rest ih => rw [Stmt.typesAll, ih, List.flatMap_cons]

/-! ## Instances -/

variable (rules : Substitution)

theorem Expr.typesAll_substitute {exprs : List Expr}
    (h : ∀ expr ∈ exprs, (expr.substitute rules).types = expr.types.map (·.substitute rules)) :
    Expr.typesAll (Expr.substituteAll rules exprs) =
      (Expr.typesAll exprs).map (·.substitute rules) := by
  rw [Expr.typesAll_eq, Expr.typesAll_eq, Expr.substituteAll_eq_map, List.map_flatMap,
    List.flatMap_map]
  exact List.flatMap_congr h

theorem Expr.types_substitute (expr : Expr) :
    (expr.substitute rules).types = expr.types.map (·.substitute rules) := by
  induction expr using Expr.induct with
  | step expr ih =>
    have hall := Expr.typesAll_substitute rules ih
    cases expr <;> simp_all [Expr.substitute, Expr.types, Expr.children,
      TypeExpr.substituteAll_eq_map]

theorem Stmt.typesAll_substitute {block : List Stmt}
    (h : ∀ statement ∈ block,
      (statement.substitute rules).types = statement.types.map (·.substitute rules)) :
    Stmt.typesAll (Stmt.substituteAll rules block) =
      (Stmt.typesAll block).map (·.substitute rules) := by
  rw [Stmt.typesAll_eq, Stmt.typesAll_eq, Stmt.substituteAll_eq_map, List.map_flatMap,
    List.flatMap_map]
  exact List.flatMap_congr h

theorem Stmt.types_substitute (statement : Stmt) :
    (statement.substitute rules).types = statement.types.map (·.substitute rules) := by
  induction statement using Stmt.induct with
  | step statement ih =>
    have hexprs (exprs : List Expr) := @Expr.typesAll_substitute rules exprs fun expr _ =>
      expr.types_substitute rules
    cases statement with
    | conditional condition thenBranch elseBranch span =>
      obtain ⟨hthen, helse⟩ := List.forall_mem_append.1 ih
      simp [Stmt.substitute, Stmt.types, Expr.types_substitute,
        Stmt.typesAll_substitute rules hthen, Stmt.typesAll_substitute rules helse]
    | whileLoop _ body _ | untilLoop _ body _ =>
      have hbody := @Stmt.typesAll_substitute rules body ih
      simp [Stmt.substitute, Stmt.types, Expr.types_substitute, hbody]
    | declareVar _ _ value _ | ret value _ =>
      cases value <;> simp [Stmt.substitute, Stmt.types, Expr.typesOpt, Expr.types_substitute]
    | _ =>
      simp [Stmt.substitute, Call.substitute, Stmt.types, Expr.types_substitute, hexprs,
        TypeExpr.substituteAll_eq_map]

theorem FunctionDef.types_instantiate (name : String) (function : FunctionDef) :
    (function.instantiate rules name).types = function.types.map (·.substitute rules) := by
  have hparameters : (function.instantiate rules name).parameterTypes =
      function.parameterTypes.map (·.substitute rules) := by
    simp [parameterTypes, instantiate, Function.comp_def]
  have hreturn : (function.returnType.map (·.substitute rules)).toList =
      function.returnType.toList.map (·.substitute rules) := by
    cases function.returnType <;> rfl
  simp only [types, hparameters, List.map_append, List.append_cancel_left_eq]
  simp only [instantiate, hreturn,
    Stmt.typesAll_substitute rules fun statement _ => statement.types_substitute rules]

/-- The primitive types of literals. -/
def literalTypes : List String :=
  ["Int", "Float", "Bool", "Char", "String"]

/-- Every type that a function mentions is good. -/
def FunctionDef.All (good : TypeExpr → Prop) (function : FunctionDef) : Prop :=
  ∀ type ∈ function.types, good type

instance (good : TypeExpr → Prop) [DecidablePred good] : DecidablePred (All good) :=
  fun function => inferInstanceAs (Decidable (∀ type ∈ function.types, good type))

namespace FunctionDef.All

variable {good : TypeExpr → Prop} {function : FunctionDef} (h : function.All good)

include h

theorem parameters : ∀ type ∈ function.parameterTypes, good type :=
  fun _ hmem => h _ (List.mem_append_left _ hmem)

theorem returns : ∀ type ∈ function.returnType, good type :=
  fun _ hmem => h _ (List.mem_append_right _ (List.mem_append_left _ (Option.mem_toList.2 hmem)))

theorem body : ∀ type ∈ Stmt.typesAll function.body, good type :=
  fun _ hmem => h _ (List.mem_append_right _ (List.mem_append_right _ hmem))

end FunctionDef.All

/-- The value is of a ground type, and where a call stays open, that is a mild fault. -/
def CallOutcome.Within (ground : TypeExpr → Prop) (mild : Diagnostic → Prop) :
    CallOutcome → Prop
  | .value type => ground type
  | .void => True
  | .unresolved => ∀ call span, mild (.unresolvedGeneric call span)

theorem CallOutcome.within_ofReturn {ground : TypeExpr → Prop} {mild : Diagnostic → Prop}
    {returned : Option TypeExpr} (hreturned : ∀ type ∈ returned, ground type) :
    (CallOutcome.ofReturn returned).Within ground mild := by
  cases returned with
  | none => trivial
  | some type => exact hreturned type rfl

end Accord
