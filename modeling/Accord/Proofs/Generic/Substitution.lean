import Accord.Generic.Instance
import Accord.Proofs.Types.Orderly

/-!
# What substitutions do

* A replacement that is added or changed is found afterwards, and no other is touched.
* Substituting leaves types without parameters as they are, and keeps names plain.
-/

namespace Accord

/-! ## Looking replacements up -/

namespace Substitution

variable {rules : Substitution} {name other : String} {type old : TypeExpr}

theorem find?_append_self (h : rules.find? name = none) :
    Substitution.find? (rules ++ [(name, type)]) name = some type := by
  have hnone : List.lookup name rules = none := h
  rw [find?, List.lookup_append, hnone]
  simp

theorem find?_append_of_ne (h : other ≠ name) :
    Substitution.find? (rules ++ [(name, type)]) other = rules.find? other := by
  rw [find?, find?, List.lookup_append]
  have hnone : List.lookup other [(name, type)] = none := by
    simp [List.lookup, beq_eq_false_iff_ne.2 h]
  rw [hnone, Option.or_none]

theorem find?_cons (entry : String × TypeExpr) :
    Substitution.find? (entry :: rules) name =
      if name == entry.1 then some entry.2 else rules.find? name := by
  rw [find?, List.lookup]
  split <;> simp_all [find?]

/-- If there are enough arguments, every parameter is replaced. -/
theorem find?_ofLists_isSome {parameters : List String} {arguments : List TypeExpr}
    (hlength : parameters.length ≤ arguments.length) :
    ∀ parameter ∈ parameters,
      (Substitution.find? (.ofLists parameters arguments) parameter).isSome := by
  induction parameters generalizing arguments with
  | nil => simp
  | cons first rest ih =>
    cases arguments with
    | nil => simp at hlength
    | cons argument arguments =>
      intro parameter hmem
      rw [ofLists, List.zip_cons_cons, find?_cons]
      split
      · rfl
      · rename_i hne
        rcases List.mem_cons.1 hmem with rfl | hrest
        · simp at hne
        · exact ih (by simpa using hlength) parameter hrest

theorem find?_replace_self (h : rules.find? name = some old) :
    (rules.replace name type).find? name = some type := by
  induction rules with
  | nil => cases h
  | cons entry rest ih =>
    obtain ⟨first, bound⟩ := entry
    unfold replace
    split
    · rename_i heq
      rw [find?_cons]
      simp [beq_iff_eq.1 heq]
    · rename_i hne
      rw [find?_cons] at h ⊢
      have hne' : ¬ name = first := fun heq => hne (by simp [heq])
      simp only [beq_iff_eq, hne', if_false] at h ⊢
      exact ih h

theorem find?_replace_of_ne (h : other ≠ name) :
    (rules.replace name type).find? other = rules.find? other := by
  induction rules with
  | nil => rfl
  | cons entry rest ih =>
    obtain ⟨first, bound⟩ := entry
    unfold replace
    split
    · rename_i heq
      have hne : ¬ other = first := fun h' => h (h'.trans (beq_iff_eq.1 heq))
      rw [find?_cons, find?_cons]
      simp only [beq_iff_eq, hne, if_false]
    · rw [find?_cons, find?_cons, ih]

end Substitution

/-! ## Replacing parameters -/

namespace TypeExpr

theorem substituteAll_eq_map (rules : Substitution) (types : List TypeExpr) :
    substituteAll rules types = types.map (·.substitute rules) := by
  induction types with
  | nil => rfl
  | cons type rest ih => rw [substituteAll, ih, List.map_cons]

/-- A type without parameters is left as it is. -/
theorem substitute_of_closed (rules : Substitution) (type : TypeExpr)
    (h : type.isGeneric = false) : type.substitute rules = type := by
  induction type using TypeExpr.induct with
  | step type ih =>
    cases type <;> simp_all [substitute, substituteAll_eq_map, map_eq_self_iff, isGeneric,
      anyGeneric_eq_false, children]

theorem substitute_nil (type : TypeExpr) : type.substitute [] = type := by
  induction type using TypeExpr.induct with
  | step type ih =>
    cases type <;> simp_all [substitute, substituteAll_eq_map, map_eq_self_iff, children,
      Substitution.find?]

theorem plain_substitute {rules : Substitution} (hrules : ∀ entry ∈ rules, entry.2.plain)
    (type : TypeExpr) (h : type.plain) : (type.substitute rules).plain := by
  induction type using TypeExpr.induct with
  | step type ih =>
    cases type with
    | param name =>
      rw [substitute]
      cases hfind : rules.find? name with
      | none => exact h
      | some type => exact hrules _ (mem_of_lookup hfind)
    | _ => simp_all [substitute, substituteAll_eq_map, plain, plainAll_iff, children]

end TypeExpr

theorem Expr.substituteAll_eq_map (rules : Substitution) (exprs : List Expr) :
    Expr.substituteAll rules exprs = exprs.map (·.substitute rules) := by
  induction exprs with
  | nil => rfl
  | cons expr rest ih => rw [Expr.substituteAll, ih, List.map_cons]

theorem Stmt.substituteAll_eq_map (rules : Substitution) (block : List Stmt) :
    Stmt.substituteAll rules block = block.map (·.substitute rules) := by
  induction block with
  | nil => rfl
  | cons statement rest ih => rw [Stmt.substituteAll, ih, List.map_cons]

end Accord
