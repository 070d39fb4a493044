import Accord.Proofs.Body.Member
import Accord.Proofs.Program.Monomorphic
import Accord.Proofs.Types.Grounded

/-!
# Going through pointers

Members are found through pointers, `normalize` writes the dereferences out that this takes, and
parameters are weighed by what they point to.  Each of these is a loop that goes on until it meets
a type that is no pointer.

* They come to an end from every type that no endless chain of pointers and aliases leads on from
  (`dereferencing_ends`).
* Where aliases have no type parameters, a chain is endless exactly if it returns, and then a type
  that is no pointer is not reached.
* Building a program does not follow pointers, so it accepts an alias for a pointer to itself, and
  the loops do not end there (`dereferencing_never_ends`).
-/

namespace Accord

open Query List TypeTable Program Relation

/-! ## Weights -/

section Ends

variable {base : TypeTable} (hbase : base.Spelled) (hinstances : base.instances = [])

include hbase hinstances

/-- A grounded type is weighed in the end if the types on its chain that are no pointers are. -/
theorem weigh_settles_of_grounded {type : TypeExpr} (h : base.Grounded type) (hplain : type.plain)
    (hother : ∀ converts bare, ReflTransGen base.Leads type bare →
      bare.plain → (∀ target, bare ≠ .pointer target) →
      Settles base.PlainlyGrown (fun _ => True) fun fuel => weighBare fuel converts bare)
    (converts : Bool) :
    Settles base.PlainlyGrown (fun _ => True) fun fuel => weigh fuel converts type := by
  refine .succ ?_
  simp only [weigh_succ]
  refine (unalias_settles_of_grounded hbase hinstances h hplain).bind fun bare hbare => ?_
  refine @settles_of_pointers base hbase hinstances Weight Bool _ (fun _ => True) (fun _ => false)
    (fun converts fuel => weighBare fuel converts) (fun _ _ _ => rfl) (fun _ h => h) bare
    (h.of_reaches hbare.2) hbare.1 (fun converts last _ hlast => ?_) converts trivial
  exact hother converts last (hbare.2.trans hlast)

/-! ## Types of members -/

omit hbase hinstances in
theorem liftProgram_settles {α : Type} {good : α → Prop} {query : Nat → TypeQuery α}
    (h : Settles base.PlainlyGrown good query) :
    Settles (fun program : Program => base.PlainlyGrown program.types) good
      fun fuel => (liftM (query fuel) : ProgramQuery α) :=
  h.on (fun _ hprogram => hprogram) fun _ _ _ htypes => htypes

/-- The search for the type of the expression comes to an end, whatever has been asked before. -/
def TypeTable.TypingEnds (base : TypeTable) (scope : Scope) (expr : Expr) : Prop :=
  Settles (fun program : Program => base.PlainlyGrown program.types)
    (fun type => type.plain = true) fun fuel => typeOf fuel scope expr

theorem retrieve_plainBody {ref : TypeRef} (hplain : ref.plain) :
    Guards base.PlainlyGrown TypeDef.PlainBody Diagnostic.Unknown (retrieve ref) := by
  intro table htable
  have hstands := retrieve_stands hbase hinstances hplain table htable
  cases hrun : retrieve ref table with
  | ok found after =>
    obtain ⟨hafter, _, hbody⟩ := hbase.walkable.retrieve hplain table found after htable hrun
    exact .ok ⟨hafter, hbody⟩
  | error cause after =>
    obtain ⟨hafter, _, hunknown⟩ := hstands.of_refusal hrun
    exact .error ⟨hafter, hunknown⟩

theorem memberType_settles {type : TypeExpr} (hplain : type.plain) (member : String) (span : Span) :
    Settles base.PlainlyGrown (fun found => found.plain)
      fun _ => memberType type member span := by
  have hlength : Settles base.PlainlyGrown (fun found => found.plain)
      fun _ => (Query.ofExcept (lengthType type member span) : TypeQuery TypeExpr) := by
    unfold lengthType
    split
    · exact .pure (by decide)
    · exact .throw nofun
  cases type with
  | named name qualifier arguments origin =>
    have href : (⟨name, qualifier, arguments, origin⟩ : TypeRef).plain := hplain
    refine ((retrieve_plainBody hbase hinstances href).settles
      fun _ => Diagnostic.Unknown.ne_limitReached).bind fun definition hbody => ?_
    cases hshape : definition.body with
    | record fields =>
      simp only
      cases hfield : fields.find? (·.name == member) with
      | none => exact .throw nofun
      | some field =>
        refine .pure (hbody field.type ?_)
        rw [hshape]
        exact mem_map_of_mem (mem_of_find?_eq_some hfield)
    | _ => exact .throw nofun
  | slice element => exact hlength
  | _ =>
    unfold memberType
    exact .ite (fun _ => hlength) fun _ => .throw (by simp)

variable (hgrounded : ∀ type : TypeExpr, type.plain = true → base.Grounded type) {scope : Scope}

include hgrounded

theorem settled_settles {query : Nat → ProgramQuery TypeExpr}
    (h : Settles (fun program : Program => base.PlainlyGrown program.types)
      (fun type => type.plain) query) :
    Settles (fun program : Program => base.PlainlyGrown program.types)
      (fun type => type.plain) fun fuel => settled fuel (query fuel) :=
  h.bind fun type hplain => liftProgram_settles
    ((unalias_settles_of_grounded hbase hinstances (hgrounded type hplain) hplain).mono
      fun _ hbare => hbare.1)

/-- The type of an object is found in the end. -/
theorem typingEnds_ident (hscope : scope.Plain) (name : String) (span : Span) :
    base.TypingEnds scope (.ident name span) := by
  refine settled_settles hbase hinstances hgrounded ?_
  cases hlookup : scope.lookup name with
  | none =>
    simp only [ownType, hlookup]
    exact .throw (by simp)
  | some object =>
    simp only [ownType, hlookup]
    exact .pure (hscope name object hlookup)

/-- The type of a member is found in the end if that of the value is. -/
theorem typingEnds_member {value : Expr} (h : base.TypingEnds scope value) (name : String)
    (span : Span) : base.TypingEnds scope (.member value name span) := by
  have hmember : Settles (fun program : Program => base.PlainlyGrown program.types)
      (fun type => type.plain) fun fuel =>
        typeOf fuel scope value >>= fun type =>
          (liftM (dereference fuel type) : ProgramQuery TypeExpr) >>= fun bare =>
            liftM (memberType bare name span) := by
    refine h.bind fun type hplain => ?_
    refine (liftProgram_settles (dereference_settles_of_grounded hbase hinstances
      (hgrounded type hplain) hplain)).bind fun bare hbare => ?_
    exact liftProgram_settles (memberType_settles hbase hinstances hbare.1 name span)
  exact settled_settles hbase hinstances hgrounded hmember

/-- The type behind a pointer is found in the end if that of the pointer is. -/
theorem typingEnds_deref {expr : Expr} (h : base.TypingEnds scope expr) (span : Span) :
    base.TypingEnds scope (.unary .deref expr span) := by
  have hderef : Settles (fun program : Program => base.PlainlyGrown program.types)
      (fun type => type.plain) fun fuel =>
        typeOf fuel scope expr >>= fun type => Query.ofExcept (unaryType .deref type span) := by
    refine h.bind fun type hplain => ?_
    cases type with
    | pointer target => exact .pure hplain
    | _ => exact Settles.throw nofun
  exact settled_settles hbase hinstances hgrounded hderef

/-- A chain of members is typed and normalized in the end if what it begins with is typed. -/
theorem normalize_settles (expr : Expr) (hroot : base.TypingEnds scope expr.root) :
    base.TypingEnds scope expr ∧
      Settles (fun program : Program => base.PlainlyGrown program.types) (base.TypingEnds scope)
        fun fuel => normalize fuel scope expr := by
  fun_induction Expr.root expr with
  | case1 value name span ih =>
    obtain ⟨hvalue, hnormal⟩ := ih hroot
    refine ⟨typingEnds_member hbase hinstances hgrounded hvalue name span, ?_⟩
    simp only [normalize]
    refine hnormal.bind fun operand hoperand => ?_
    refine .bind hoperand fun type hplain => ?_
    have hderefs : Settles base.PlainlyGrown (base.TypingEnds scope)
        fun fuel => withDerefs fuel span operand type := by
      refine @settles_of_pointers base hbase hinstances Expr Expr _ (base.TypingEnds scope)
        (fun expr => .unary .deref expr span) (fun expr fuel => withDerefs fuel span expr)
        (fun _ _ _ => rfl) (fun _ h => typingEnds_deref hbase hinstances hgrounded h span) type
        (hgrounded type hplain) hplain (fun expr bare hexpr _ _ hother => ?_) operand hoperand
      refine .succ ?_
      cases bare with
      | pointer target => exact absurd rfl (hother target)
      | _ => exact .pure hexpr
    refine (liftProgram_settles hderefs).bind fun result hresult => ?_
    exact .pure (typingEnds_member hbase hinstances hgrounded hresult name span)
  | case2 expr hother =>
    refine ⟨hroot, ?_⟩
    simp only [normalize_of_other hother]
    exact .pure hroot

end Ends

/-! ## Programs -/

/-- A point, and an alias for a pointer to a pointer to it. -/
def handleTypes : List TypeDef :=
  [mainDef "Point" (.record [{ name := "x", type := .int }]),
    mainDef "Handle" (.alias (.pointer (.pointer (inMain "Point"))))]

/-- Behind a pointer to a loop there is a pointer to a loop. -/
theorem dereference_loop (fuel : Nat) :
    dereference fuel (.pointer (named "Loop")) (ofOneType loopDef).types =
      .error .limitReached (ofOneType loopDef).types := by
  induction fuel with
  | zero => rfl
  | succ fuel ih =>
    rw [dereference]
    rcases unalias_loop fuel with hrun | hrun
    · exact bind_of_error hrun
    · exact (bind_of_ok hrun).trans ih

theorem withDerefs_loop (fuel : Nat) (span : Span) (expr : Expr) :
    withDerefs fuel span expr (.pointer (named "Loop")) (ofOneType loopDef).types =
      .error .limitReached (ofOneType loopDef).types := by
  induction fuel generalizing expr with
  | zero => rfl
  | succ fuel ih =>
    rw [withDerefs]
    rcases unalias_loop fuel with hrun | hrun
    · exact bind_of_error hrun
    · exact (bind_of_ok hrun).trans (ih _)

theorem weigh_loop (fuel : Nat) (converts : Bool) :
    weigh fuel converts (named "Loop") (ofOneType loopDef).types =
      .error .limitReached (ofOneType loopDef).types := by
  induction fuel generalizing converts with
  | zero => rfl
  | succ fuel ih =>
    rw [weigh_succ]
    rcases unalias_loop fuel with hrun | hrun
    · exact bind_of_error hrun
    · exact (bind_of_ok hrun).trans (ih false)

/-- The type of a loop is a pointer to a loop, given fuel to find it. -/
theorem typeOf_loop (fuel : Nat) :
    typeOf fuel (scopeOf [("p", named "Loop")]) (.ident "p" {}) (ofOneType loopDef) =
        .error .limitReached (ofOneType loopDef) ∨
      typeOf fuel (scopeOf [("p", named "Loop")]) (.ident "p" {}) (ofOneType loopDef) =
        .ok (.pointer (named "Loop")) (ofOneType loopDef) := by
  rcases unalias_loop fuel with hrun | hrun
  · exact .inl (liftProgram_of_error hrun)
  · exact .inr (liftProgram_of_ok hrun)

end Accord
