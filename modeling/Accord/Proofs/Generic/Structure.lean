import Accord.Proofs.Body.Faults

/-!
# Instances have the structure of their template

Replacing type parameters changes no more than the types written in a function, and the
checks of structure read no types.  So an instance passes them exactly if the function that
it is made from does, and a fault is the same fault at the same place.  Two diagnostics
name the function they are about, and there the name is that of the instance
(`Diagnostic.blaming`).

* `Stmt.checkAddresses_substitute` is the part about addresses.
* `Stmt.exit_substitute` is the part about exits.
* `checkStructure_instantiate` puts both together for a whole function.
-/

namespace Accord

/-- The diagnostic with another function to blame, if it blames a function. -/
def Diagnostic.blaming (function : String) : Diagnostic → Diagnostic
  | .missingReturnValue _ span => .missingReturnValue function span
  | .unexpectedReturnValue _ span => .unexpectedReturnValue function span
  | .missingReturnPath _ span => .missingReturnPath function span
  | .unreachableCode _ span => .unreachableCode function span
  | other => other

variable (rules : Substitution)

/-! ## Addresses -/

theorem Expr.isAddressable_substitute (expr : Expr) :
    (expr.substitute rules).isAddressable = expr.isAddressable := by
  induction expr using Expr.induct with
  | step expr ih => cases expr <;> simp_all [Expr.substitute, Expr.isAddressable, Expr.children]

theorem Expr.checkAddressesAll_substitute {exprs : List Expr}
    (h : ∀ expr ∈ exprs, (expr.substitute rules).checkAddresses = expr.checkAddresses) :
    Expr.checkAddressesAll (Expr.substituteAll rules exprs) = Expr.checkAddressesAll exprs := by
  induction exprs with
  | nil => rfl
  | cons expr rest ih =>
    simp_all [-checkAddressesAll_expr, Expr.substituteAll, Expr.checkAddressesAll]

theorem Expr.checkAddresses_substitute (expr : Expr) :
    (expr.substitute rules).checkAddresses = expr.checkAddresses := by
  induction expr using Expr.induct with
  | step expr ih =>
    have hall := Expr.checkAddressesAll_substitute rules ih
    cases expr <;> simp_all [-checkAddressesAll_expr, Expr.substitute, Expr.checkAddresses,
      Expr.children, Expr.isAddressable_substitute]

theorem Stmt.checkAddressesAll_substitute {block : List Stmt}
    (h : ∀ statement ∈ block,
      (statement.substitute rules).checkAddresses = statement.checkAddresses) :
    Stmt.checkAddressesAll (Stmt.substituteAll rules block) = Stmt.checkAddressesAll block := by
  induction block with
  | nil => rfl
  | cons statement rest ih =>
    simp_all [-checkAddressesAll_stmt, Stmt.substituteAll, Stmt.checkAddressesAll]

theorem Stmt.checkAddresses_substitute (statement : Stmt) :
    (statement.substitute rules).checkAddresses = statement.checkAddresses := by
  induction statement using Stmt.induct with
  | step statement ih =>
    have hexprs (exprs : List Expr) := @Expr.checkAddressesAll_substitute rules exprs fun expr _ =>
      expr.checkAddresses_substitute rules
    have hoption (value : Option Expr) :
        Expr.checkAddressesOpt (value.map (·.substitute rules)) = Expr.checkAddressesOpt value := by
      cases value with
      | none => rfl
      | some expr => exact expr.checkAddresses_substitute rules
    cases statement with
    | conditional condition thenBranch elseBranch span =>
      obtain ⟨hthen, helse⟩ := List.forall_mem_append.1 ih
      simp only [Stmt.substitute, Stmt.checkAddresses, Expr.checkAddresses_substitute,
        Stmt.checkAddressesAll_substitute rules hthen,
        Stmt.checkAddressesAll_substitute rules helse]
    | whileLoop _ body _ | untilLoop _ body _ =>
      have hbody := @Stmt.checkAddressesAll_substitute rules body ih
      simp only [Stmt.substitute, Stmt.checkAddresses, Expr.checkAddresses_substitute, hbody]
    | _ =>
      simp only [Stmt.substitute, Call.substitute, Stmt.checkAddresses,
        Expr.checkAddresses_substitute, hexprs, hoption]

/-! ## Exits -/

theorem Stmt.span_substitute (statement : Stmt) :
    (statement.substitute rules).span = statement.span := by
  cases statement <;> rfl

theorem Except.mapError_bind {ε α β : Type} (change : ε → ε) (first : Except ε α)
    (rest : α → Except ε β) :
    (first >>= rest).mapError change =
      first.mapError change >>= fun a => (rest a).mapError change := by
  cases first <;> rfl

variable (function name : String)

mutual

theorem Stmt.exit_substitute : (statement : Stmt) → ∀ inLoop,
    (statement.substitute rules).exit name inLoop =
      (statement.exit function inLoop).mapError (·.blaming name)
  | .ret _ _, _ => rfl
  | .breakLoop _, inLoop | .continueLoop _, inLoop => by cases inLoop <;> rfl
  | .conditional _ thenBranch elseBranch _, inLoop => by
    simp only [Stmt.substitute, Stmt.exit, Stmt.blockExit_substitute thenBranch,
      Stmt.blockExit_substitute elseBranch, Except.mapError_bind]
    rfl
  | .whileLoop _ body _, _ | .untilLoop _ body _, _ => by
    simp only [Stmt.substitute, Stmt.exit, Stmt.blockExit_substitute body, Except.mapError_bind]
    rfl
  | .declareVar _ _ _ _, _ => rfl
  | .declareConst _ _ _ _, _ => rfl
  | .assign _ _ _, _ => rfl
  | .call _, _ => rfl

theorem Stmt.blockExit_substitute : (block : List Stmt) → ∀ inLoop,
    Stmt.blockExit name inLoop (Stmt.substituteAll rules block) =
      (Stmt.blockExit function inLoop block).mapError (·.blaming name)
  | [], _ => rfl
  | [statement], inLoop => Stmt.exit_substitute statement inLoop
  | statement :: next :: rest, inLoop => by
    have hrest := Stmt.blockExit_substitute (next :: rest) inLoop
    simp only [Stmt.substituteAll] at hrest
    simp only [Stmt.substituteAll, Stmt.blockExit, Stmt.exit_substitute statement, hrest,
      Stmt.span_substitute, Except.mapError_bind]
    congr 1
    funext exit
    split <;> rfl

end

/-! ## Functions -/

theorem FunctionDef.checkExits_instantiate (function : FunctionDef) :
    (function.instantiate rules name).checkExits =
      function.checkExits.mapError (·.blaming name) := by
  simp only [FunctionDef.checkExits, FunctionDef.instantiate,
    Stmt.blockExit_substitute rules function.name name, Option.isSome_map, Except.mapError_bind]
  congr 1
  funext exit
  split <;> rfl

/-- No diagnostic about an address names a function. -/
theorem FunctionDef.checkAddresses_blaming (function : FunctionDef) :
    function.checkAddresses.mapError (·.blaming name) = function.checkAddresses := by
  cases h : function.checkAddresses with
  | ok => rfl
  | error cause =>
    have hkind := function.checkAddresses_faults cause h
    cases cause with
    | notAddressable span => rfl
    | _ => exact hkind.elim

theorem FunctionDef.checkAddresses_instantiate (function : FunctionDef) :
    (function.instantiate rules name).checkAddresses = function.checkAddresses :=
  Stmt.checkAddressesAll_substitute rules fun statement _ =>
    statement.checkAddresses_substitute rules

theorem checkStructure_instantiate (function : FunctionDef) :
    checkStructure (function.instantiate rules name) =
      (checkStructure function).mapError (·.blaming name) := by
  simp only [checkStructure, FunctionDef.checkAddresses_instantiate,
    FunctionDef.checkExits_instantiate, Except.mapError_bind, FunctionDef.checkAddresses_blaming]

/-- Instances need no check of their structure: what the check says of the function that
they are made from, it says of them, of the instance's name where it names the function. -/
theorem instance_has_structure_of_template (function : FunctionDef) (fuel : Nat) :
    (function.instantiate rules name).checkAddresses = function.checkAddresses ∧
    (function.instantiate rules name).checkExits =
      function.checkExits.mapError (·.blaming name) ∧
    checkStructure (function.instantiate rules name) =
      (checkStructure function).mapError (·.blaming name) ∧
    checkFunction fuel (function.instantiate rules name) = (do
      Query.ofExcept ((checkStructure function).mapError (·.blaming name))
      checkTypes fuel (function.instantiate rules name)) := by
  have hstructure := checkStructure_instantiate rules name function
  refine ⟨FunctionDef.checkAddresses_instantiate rules name function,
    FunctionDef.checkExits_instantiate rules name function, hstructure, ?_⟩
  rw [checkFunction, hstructure]

end Accord
