import Accord.Assign.Compatible

/-!
# The rules of comparison, one by one

`acceptsShape` has a rule for each shape of destination.  The equations below
state each rule by itself, with the parts that proofs speak about as functions
of their own: `meetBinding` for what a value does to a parameter,
`sameNamed` for the test that precedes membership in a named union.
-/

namespace Accord

theorem run_eq_ok {α : Type} {inference : Inference} {check : Check α} {result : α × Inference}
    {table after : TypeTable} (h : check.run inference table = .ok result after) :
    ∃ state, check { types := table, inference } = .ok result.1 state ∧
      state.inference = result.2 := by
  rw [Check.run] at h
  cases hcheck : check { types := table, inference } with
  | ok value state =>
    rw [hcheck] at h
    cases h
    exact ⟨state, rfl, rfl⟩
  | error cause state =>
    rw [hcheck] at h
    cases h

variable (fuel : Nat) (judge : Judge) (mode : Mode) (source : TypeExpr)

/-! ## Parameters -/

/-- What a value does to a parameter, given what was known about parameters before. -/
def meetBinding (name : String) (before : Inference) : Check Bool :=
  match before.bindings.find? name with
  | none => do
    Check.infer (·.bind name source)
    return true
  | some bound =>
    if mode = .strict ∨ before.locked.contains name then
      judge .strict source bound
    else do
      if ← Check.isolated (judge .lenient source bound) then return true
      else
        let fits ← Check.isolated (judge .lenient bound source)
        Check.infer (·.rebind name (if fits then source else bound.merge source))
        return true

/-- A strict comparison locks the parameter first. -/
def lockIfStrict (name : String) : Check Unit :=
  if mode = .strict then Check.infer (·.lock name) else pure ()

theorem meetParam_eq (name : String) :
    meetParam judge mode source name =
      if source.isParam name then pure true
      else
        get >>= fun state => lockIfStrict mode name >>= fun _ =>
          meetBinding judge mode source name state.inference := by
  cases mode <;> rfl

/-! ## Shapes of destinations -/

/-- Whether the source refers to the definition and type arguments of a reference. -/
def sameNamed (ref : TypeRef) : Check Bool :=
  match source.ref? with
  | some given => sameDefinition judge given ref
  | none => pure false

theorem acceptsShape_named (name : String) (qualifier : Option String)
    (arguments : List TypeExpr) (origin : String) :
    acceptsShape fuel judge mode source (.named name qualifier arguments origin) =
      sameNamed judge source ⟨name, qualifier, arguments, origin⟩ >>= fun same =>
        if same then pure true
        else memberOf fuel judge mode source (.named name qualifier arguments origin) := by
  unfold sameNamed
  cases h : source.ref? <;> simp only [acceptsShape, h]

theorem acceptsShape_pointer (target : TypeExpr) :
    acceptsShape fuel judge mode source (.pointer target) =
      match source with
      | .pointer pointed => judge .strict pointed target
      | _ => pure false :=
  rfl

theorem acceptsShape_array (length : UInt64) (element : TypeExpr) :
    acceptsShape fuel judge mode source (.array length element) =
      match source with
      | .array given held => if given = length then judge mode held element else pure false
      | _ => pure false :=
  rfl

theorem acceptsShape_slice (element : TypeExpr) :
    acceptsShape fuel judge mode source (.slice element) =
      match source with
      | .slice held => judge .strict held element
      | .pointer pointed =>
        liftM (pointedElement fuel pointed) >>= fun found =>
          match found with
          | some held => judge .strict held element
          | none => pure false
      | _ => pure false :=
  rfl

theorem acceptsShape_primitive (name : String) :
    acceptsShape fuel judge mode source (.primitive name) =
      if TypeExpr.isTextName name then liftM (textAccepts fuel source name)
      else pure (source.isPrimitive name) :=
  rfl

/-! ## Whole comparisons -/

/-- Compares two types that are no aliases, given what is known about parameters. -/
def acceptsKnowing (dest : TypeExpr) (inference : Inference) : Check Bool :=
  match standsFor? inference source dest with
  | some bound => judge mode bound dest
  | none => acceptsShape fuel judge mode source dest

theorem acceptsBare_eq (dest : TypeExpr) :
    acceptsBare fuel judge mode source dest =
      get >>= fun state => acceptsKnowing fuel judge mode source dest state.inference :=
  rfl

theorem accepts_lenient (dest : TypeExpr) :
    accepts (fuel + 1) .lenient source dest =
      liftM (unalias fuel source) >>= fun bare =>
        liftM (unalias fuel dest) >>= fun bareDest =>
          acceptsBare fuel (accepts fuel) .lenient bare bareDest :=
  rfl

theorem accepts_strict (dest : TypeExpr) :
    accepts (fuel + 1) .strict source dest =
      liftM (unalias fuel source) >>= fun bare =>
        liftM (unalias fuel dest) >>= fun bareDest =>
          acceptsBare fuel (accepts fuel) .strict bare bareDest >>= fun forth =>
            if forth then
              Check.isolated (acceptsBare fuel (accepts fuel) .strict bareDest bare) >>=
                fun back => if back then pure (samePrimitive bare bareDest) else pure false
            else pure false :=
  rfl

end Accord
