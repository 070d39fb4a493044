import Accord.Body.Address
import Accord.Proofs.Source.Induction
import Mathlib.Data.List.Lex

/-!
# The first bad address

A body is a tree of statements and expressions.  A path numbers a child at each level, so paths
are compared from left to right, and a node comes before what is inside it.

* `Node.children` says what stands directly in a statement or an expression, and `Node.at?` what
  is reached along a path.
* `FirstFault` is what a search for bad addresses finds: none, or the one on the first path.
  Searching a node first and then its children one after another finds it
  (`Node.firstFault_forM`, `Node.Searched.of_children`).
-/

namespace Accord

open List Bool

/-- A statement or an expression of a body. -/
inductive Node where
  | stmt (statement : Stmt)
  | expr (expression : Expr)

namespace Node

/-- What stands directly inside, from left to right. -/
def children : Node → List Node
  | .stmt statement => statement.operands.map .expr ++ statement.inner.map .stmt
  | .expr expression => expression.children.map .expr

/-- What is reached from a node along a path. -/
def at? : Node → List Nat → Option Node
  | node, [] => some node
  | node, i :: path => (node.children[i]?).bind fun child => child.at? path

/-- What is reached from several nodes along a path that begins with the number of one. -/
def among? (nodes : List Node) : List Nat → Option Node
  | [] => none
  | i :: path => (nodes[i]?).bind fun node => node.at? path

/-- Whether the node takes the address of something that is no place, and where. -/
def BadAddress (node : Node) (span : Span) : Prop :=
  ∃ operand : Expr, node = .expr (.unary .addressOf operand span) ∧ operand.isAddressable = false

/-- Fails at the first bad address in a node. -/
def check : Node → Except Diagnostic Unit
  | .stmt statement => statement.checkAddresses
  | .expr expression => expression.checkAddresses

end Node

/-! ## Nodes and their children -/

@[simp] theorem checkAddressesAll_expr (exprs : List Expr) :
    Expr.checkAddressesAll exprs = (exprs.map Node.expr).forM Node.check := by
  induction exprs with
  | nil => rfl
  | cons expr rest ih => simp [Expr.checkAddressesAll, Node.check, ih]

@[simp] theorem checkAddressesAll_stmt (block : List Stmt) :
    Stmt.checkAddressesAll block = (block.map Node.stmt).forM Node.check := by
  induction block with
  | nil => rfl
  | cons statement rest ih => simp [Stmt.checkAddressesAll, Node.check, ih]

namespace Node

/-- A node is bad itself, or is checked by checking its children one after another. -/
theorem check_cases (node : Node) :
    (∃ span, node.BadAddress span ∧ node.check = .error (.notAddressable span)) ∨
      (∀ span, ¬ node.BadAddress span) ∧ node.check = node.children.forM check := by
  by_cases hbad : ∃ span, node.BadAddress span
  · obtain ⟨span, operand, rfl, hplace⟩ := hbad
    refine .inl ⟨span, ⟨operand, rfl, hplace⟩, ?_⟩
    rw [check, Expr.checkAddresses, hplace]
    rfl
  · rw [not_exists] at hbad
    refine .inr ⟨hbad, ?_⟩
    cases node with
    | stmt statement =>
      cases statement with
      | declareVar _ _ value _ | ret value _ =>
        cases value <;> simp [check, children, Stmt.operands, Stmt.inner, Stmt.checkAddresses,
          Expr.checkAddressesOpt]
      | _ => simp [check, children, Stmt.operands, Stmt.inner, Stmt.checkAddresses]
    | expr expression =>
      cases expression with
      | unary op operand span =>
        have hfair : (op == .addressOf && !operand.isAddressable) = false := by
          by_contra hunfair
          simp only [not_eq_false, and_eq_true, beq_iff_eq, not_eq_true'] at hunfair
          exact hbad span ⟨operand, by rw [hunfair.1], hunfair.2⟩
        simp [check, children, Expr.children, Expr.checkAddresses, hfair]
      | _ => simp [check, children, Expr.children, Expr.checkAddresses]

end Node

/-! ## The first fault -/

/-- What a search finds: there is no fault, or it fails at the one on the first path. -/
def FirstFault (fault : List Nat → Span → Prop) (result : Except Diagnostic Unit) : Prop :=
  (result = .ok () ∧ ∀ path span, ¬ fault path span) ∨
    ∃ path span, result = .error (.notAddressable span) ∧ fault path span ∧
      ∀ earlier < path, ∀ other, ¬ fault earlier other

/-- A bad address on a path from the node. -/
def Node.FaultAt (node : Node) (path : List Nat) (span : Span) : Prop :=
  ∃ reached, node.at? path = some reached ∧ reached.BadAddress span

/-- A bad address on a path that begins with the number of a node. -/
def Node.FaultAmong (nodes : List Node) (path : List Nat) (span : Span) : Prop :=
  ∃ reached, Node.among? nodes path = some reached ∧ reached.BadAddress span

/-- Checking a node finds the first bad address in it. -/
def Node.Searched (node : Node) : Prop :=
  FirstFault node.FaultAt node.check

theorem Node.firstFault_forM {nodes : List Node} (h : ∀ node ∈ nodes, node.Searched) :
    FirstFault (Node.FaultAmong nodes) (nodes.forM Node.check) := by
  induction nodes with
  | nil =>
    refine .inl ⟨rfl, fun path span hfault => ?_⟩
    obtain ⟨_, hreached, _⟩ := hfault
    cases path <;> cases hreached
  | cons node rest ih =>
    obtain ⟨hnode, hrest⟩ := forall_mem_cons.1 h
    rw [List.forM]
    rcases hnode with ⟨hok, hnone⟩ | ⟨path, span, herror, hfault, hfirst⟩
    · -- Nothing is wrong with the first node, and the others are numbered from one.
      have hnot (path : List Nat) (span : Span) :
          Node.FaultAmong (node :: rest) path span →
            ∃ i behind, path = (i + 1) :: behind ∧ Node.FaultAmong rest (i :: behind) span := by
        rintro ⟨reached, hreached, hbad⟩
        match path, hreached with
        | 0 :: behind, hreached => exact absurd ⟨reached, hreached, hbad⟩ (hnone behind span)
        | (i + 1) :: behind, hreached => exact ⟨i, behind, rfl, reached, hreached, hbad⟩
      rw [hok]
      rcases ih hrest with ⟨hok', hnone'⟩ | ⟨path, span, herror, hfault, hfirst⟩
      · refine .inl ⟨hok', fun path span hfault => ?_⟩
        obtain ⟨i, behind, _, hfault'⟩ := hnot path span hfault
        exact hnone' _ _ hfault'
      · match path, hfault with
        | i :: behind, hfault =>
          refine .inr ⟨(i + 1) :: behind, span, herror, hfault, fun earlier hlt other hother => ?_⟩
          obtain ⟨j, behind', rfl, hother'⟩ := hnot earlier other hother
          refine hfirst (j :: behind') ?_ other hother'
          simpa [cons_lt_cons_iff] using hlt
    · refine .inr ⟨0 :: path, span, by rw [herror]; rfl, hfault, fun earlier hlt other hother => ?_⟩
      obtain ⟨reached, hreached, hbad⟩ := hother
      match earlier, hreached with
      | i :: behind, hreached =>
        rcases cons_lt_cons_iff.1 hlt with hless | ⟨rfl, hless⟩
        · cases hless
        · exact hfirst behind hless other ⟨reached, hreached, hbad⟩

/-- A bad address of the node itself comes before those inside. -/
theorem Node.Searched.of_children {node : Node} (h : ∀ child ∈ node.children, child.Searched) :
    node.Searched := by
  rcases node.check_cases with ⟨span, hbad, hcheck⟩ | ⟨hgood, hcheck⟩
  · refine .inr ⟨[], span, hcheck, ⟨node, rfl, hbad⟩, fun earlier hlt => ?_⟩
    exact absurd hlt (not_lt_nil earlier)
  · have hinside (path : List Nat) (span : Span) (hfault : node.FaultAt path span) :
        Node.FaultAmong node.children path span := by
      obtain ⟨reached, hreached, hbad⟩ := hfault
      match path, hreached with
      | [], hreached =>
        cases hreached
        exact absurd hbad (hgood span)
      | i :: behind, hreached => exact ⟨reached, hreached, hbad⟩
    rw [Node.Searched, hcheck]
    rcases Node.firstFault_forM h with ⟨hok, hnone⟩ | ⟨path, span, herror, hfault, hfirst⟩
    · exact .inl ⟨hok, fun path span hfault => hnone path span (hinside path span hfault)⟩
    · match path, hfault with
      | i :: behind, hfault =>
        exact .inr ⟨i :: behind, span, herror, hfault, fun earlier hlt other hother =>
          hfirst earlier hlt other (hinside earlier other hother)⟩

theorem Expr.searched (expression : Expr) : (Node.expr expression).Searched := by
  induction expression using Expr.induct with
  | step expression ih => exact .of_children (forall_mem_map.2 ih)

theorem Stmt.searched (statement : Stmt) : (Node.stmt statement).Searched := by
  induction statement using Stmt.induct with
  | step statement ih =>
    exact .of_children (forall_mem_append.2
      ⟨forall_mem_map.2 fun expression _ => expression.searched, forall_mem_map.2 ih⟩)

/-! ## Functions -/

/-- On the path, the number of a statement of the body and then of a child at each level below,
stands an operator that takes the address of something that is no place. -/
def FunctionDef.BadAddressAt (function : FunctionDef) : List Nat → Span → Prop :=
  Node.FaultAmong (function.body.map .stmt)

theorem FunctionDef.firstFault_checkAddresses (function : FunctionDef) :
    FirstFault function.BadAddressAt function.checkAddresses := by
  have hsearch := @Node.firstFault_forM (function.body.map .stmt)
    (forall_mem_map.2 fun statement _ => statement.searched)
  rwa [← checkAddressesAll_stmt] at hsearch

/-- Checking the addresses of a function fails exactly if the address of something that is no
place is taken anywhere in its body, however deep, and then at the first such operator, from left
to right and outside before inside. -/
theorem checkAddresses_exact (function : FunctionDef) :
    (function.checkAddresses = .ok () ↔ ∀ path span, ¬ function.BadAddressAt path span) ∧
      ∀ cause, function.checkAddresses = .error cause ↔
        ∃ path span, cause = .notAddressable span ∧ function.BadAddressAt path span ∧
          ∀ earlier < path, ∀ other, ¬ function.BadAddressAt earlier other := by
  rcases function.firstFault_checkAddresses with
    ⟨hok, hnone⟩ | ⟨path, span, herror, hfault, hfirst⟩
  · rw [hok]
    refine ⟨⟨fun _ => hnone, fun _ => rfl⟩, fun cause => ⟨nofun, ?_⟩⟩
    rintro ⟨path, span, _, hfault, _⟩
    exact absurd hfault (hnone path span)
  · rw [herror]
    refine ⟨⟨nofun, fun hnone => absurd hfault (hnone path span)⟩, fun cause => ⟨?_, ?_⟩⟩
    · rintro ⟨⟩
      exact ⟨path, span, rfl, hfault, hfirst⟩
    · rintro ⟨other, span', rfl, hfault', hfirst'⟩
      -- Of two first paths neither comes before the other.
      have hsame : path = other := by
        rcases lt_trichotomy path other with hlt | heq | hlt
        · exact absurd hfault (hfirst' path hlt span)
        · exact heq
        · exact absurd hfault' (hfirst other hlt span')
      obtain ⟨reached, hreached, operand, rfl, _⟩ := hfault
      obtain ⟨reached', hreached', operand', rfl, _⟩ := hfault'
      rw [hsame, hreached'] at hreached
      cases hreached
      rfl

end Accord
