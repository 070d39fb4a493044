import Accord.Program.Build
import Accord.Proofs.Call.Replay
import Accord.Proofs.Types.History

/-!
# Storing functions

A function is compared with the functions of its own set before it is stored.  With plain names
the names of types do not depend on what has been asked before, so each function has one
signature (`TypeTable.signatureOf`), and a function is refused exactly if one of its set has the
same (`store_ends`).

A generic function also stands in the set without type parameters, but is not compared with the
functions there.  So whether functions are stored can depend on their order, and
`storing_in_another_order` says when it does.

Functions that are stored last (`TypeTable.Registers`), and a refused one changes nothing.  So the
sets can be read off the functions stored so far (`sets_after_storing`).
-/

namespace Accord

open Query List TypeTable Program FunctionDef Project

variable {function : FunctionDef} {types : TypeTable} {package : String} {table : OverloadTable}
  {functions : List FunctionDef} {program : Program}

/-! ## Signatures -/

/-- The canonical name of a type, or its spelling if it has none. -/
def TypeTable.nameOf (base : TypeTable) (type : TypeExpr) : String :=
  (base.spelling? type).getD type.render

/-- The names of the types of the parameters of a function. -/
def TypeTable.signatureOf (base : TypeTable) (function : FunctionDef) : List String :=
  function.parameterTypes.map base.nameOf

section Signatures

variable {base : TypeTable} (hbase : base.Spelled)

include hbase

theorem nameOrSpelling_guards {type : TypeExpr} (hplain : type.plain) :
    Guards base.PlainlyGrown (· = base.nameOf type) (fun _ => False) (nameOrSpelling type) := by
  have hnamed := (canonicalName_spells hbase.confines type hplain).both (canonicalName_unknown type)
  refine hnamed.outcome.bind fun found hfound => ?_
  obtain ⟨hfaults, hname⟩ := hfound
  cases found with
  | ok name =>
    have hspells := (hname name rfl).1.spelling
    exact .pure (by rw [nameOf, hspells]; rfl)
  | error cause =>
    obtain ⟨hnone, _, _, rfl⟩ := hfaults cause rfl
    exact .pure (by rw [nameOf, hnone]; rfl)

/-- The names of the parameter types are found, whatever has been asked before. -/
theorem signature_guards (hplain : function.Plain) :
    Guards base.PlainlyGrown (· = base.signatureOf function) (fun _ => False) function.signature :=
  .mapM_eq fun type hmem => nameOrSpelling_guards hbase (hplain type hmem)

theorem signature_answer (hplain : function.Plain) {table : TypeTable}
    (htable : base.PlainlyGrown table) :
    function.signature.answer table = .ok (base.signatureOf function) := by
  obtain ⟨_, t, hrun, _, rfl⟩ :=
    (signature_guards hbase hplain table htable).exists_ok fun _ _ h => h.2
  exact answer_eq_ok.2 ⟨t, hrun⟩

/-- A function is distinct from others exactly if its signature is not among theirs. -/
theorem checkDistinct_guards (function : FunctionDef) (signature : List String)
    {others : List FunctionDef} (hplain : ∀ other ∈ others, other.Plain) :
    Guards base.PlainlyGrown (fun _ => ∀ other ∈ others, base.signatureOf other ≠ signature)
      (fun cause => cause = .duplicateFunction function.name function.origin function.span ∧
        ∃ other ∈ others, base.signatureOf other = signature)
      (checkDistinct function signature others) := by
  induction others with
  | nil => exact .pure (by simp)
  | cons other rest ih =>
    obtain ⟨hother, hrest⟩ := forall_mem_cons.1 hplain
    unfold checkDistinct
    refine ((signature_guards hbase hother).relax fun _ => False.elim).bind fun found hfound => ?_
    subst hfound
    split
    · rename_i hsame
      exact .throw ⟨rfl, other, mem_cons_self, hsame⟩
    · rename_i hne
      refine ((ih hrest).relax fun cause hcause => ?_).mono fun _ hall => ?_
      · obtain ⟨hkind, same, hmem, hsame⟩ := hcause
        exact ⟨hkind, same, mem_cons_of_mem _ hmem, hsame⟩
      · exact forall_mem_cons.2 ⟨hne, hall⟩

end Signatures

/-! ## Storing one function -/

/-- A function that is stored before the other stands in the set of the other and has the same
signature. -/
def TypeTable.Blocks (base : TypeTable) (earlier later : Overload) : Prop :=
  earlier.belongsTo later.key = true ∧
    base.signatureOf earlier.function = base.signatureOf later.function

/-- The function with the package that its file belongs to. -/
def Project.overloadOf (project : Project) (function : FunctionDef) : Overload :=
  { package := (project.packageOf? function.origin).getD "", function }

theorem Project.packageOf?_overloadOf (project : Project)
    (h : (project.packageOf? function.origin).isSome) :
    project.packageOf? function.origin = some (project.overloadOf function).package := by
  obtain ⟨package, hpackage⟩ := Option.isSome_iff_exists.1 h
  rw [overloadOf, hpackage]
  rfl

namespace OverloadTable

theorem store_of_unknown (table : OverloadTable)
    (h : types.project.packageOf? function.origin = none) :
    table.store function types =
      .error (.inconsistent (.functionOutsideProject function.name function.origin)) types := by
  unfold store
  rw [get_bind, h]
  rfl

theorem store_of_known (table : OverloadTable)
    (h : types.project.packageOf? function.origin = some package) :
    table.store function types =
      (function.signature >>= fun signature =>
        checkDistinct function signature (table.overloads (Overload.mk package function).key) >>=
          fun _ => pure (table.add ⟨package, function⟩)) types := by
  unfold store
  rw [get_bind, h]

theorem eq_add_of_store {grown : OverloadTable} {after : TypeTable}
    (h : table.store function types = .ok grown after) :
    ∃ package, grown = table.add ⟨package, function⟩ := by
  cases hpackage : types.project.packageOf? function.origin with
  | none =>
    rw [table.store_of_unknown hpackage] at h
    cases h
  | some package =>
    rw [table.store_of_known hpackage] at h
    obtain ⟨_, _, _, h⟩ := bind_eq_ok.1 h
    obtain ⟨_, _, _, h⟩ := bind_eq_ok.1 h
    cases h
    exact ⟨package, rfl⟩

theorem forall_mem_overloads {good : FunctionDef → Prop}
    (h : ∀ entry ∈ table.entries, good entry.function) (key : String) :
    ∀ function ∈ table.overloads key, good function := by
  intro function hmem
  rw [overloads_eq] at hmem
  obtain ⟨entry, hentry, rfl⟩ := mem_map.1 hmem
  exact h entry (mem_filter.1 hentry).1

end OverloadTable

section Storing

variable {base : TypeTable} (hbase : base.Spelled)

include hbase

/-- A function of a file of the project is stored, unless one that is stored blocks it. -/
theorem store_ends (htable : ∀ entry ∈ table.entries, entry.function.Plain)
    (hplain : function.Plain) (hknown : (base.project.packageOf? function.origin).isSome)
    (htypes : base.PlainlyGrown types) :
    Ends (fun grown after => base.PlainlyGrown after ∧
        grown = table.add (base.project.overloadOf function) ∧
        ∀ entry ∈ table.entries, ¬ base.Blocks entry (base.project.overloadOf function))
      (fun cause after => base.PlainlyGrown after ∧
        cause = .duplicateFunction function.name function.origin function.span ∧
        ∃ entry ∈ table.entries, base.Blocks entry (base.project.overloadOf function))
      (table.store function types) := by
  have hpackage : types.project.packageOf? function.origin =
      some (base.project.overloadOf function).package := by
    rw [htypes.project]
    exact base.project.packageOf?_overloadOf hknown
  rw [table.store_of_known hpackage]
  refine ((signature_guards hbase hplain types htypes).mono (fun _ _ h => h)
    fun _ _ h => h.2.elim).bind fun signature named hnamed => ?_
  obtain ⟨hnamed, rfl⟩ := hnamed
  have hdistinct := checkDistinct_guards hbase function (base.signatureOf function)
    (OverloadTable.forall_mem_overloads htable (base.project.overloadOf function).key) named hnamed
  refine (hdistinct.mono (fun _ _ h => h) fun cause after hcause => ?_).bind fun _ after hafter => ?_
  · obtain ⟨hgrown, hkind, other, hother, hsame⟩ := hcause
    rw [OverloadTable.overloads_eq] at hother
    obtain ⟨entry, hentry, rfl⟩ := mem_map.1 hother
    obtain ⟨hmem, hbelongs⟩ := mem_filter.1 hentry
    exact ⟨hgrown, hkind, entry, hmem, hbelongs, hsame⟩
  · refine .ok ⟨hafter.1, rfl, fun entry hentry hblocks => ?_⟩
    refine hafter.2 entry.function ?_ hblocks.2
    rw [OverloadTable.overloads_eq]
    exact mem_map_of_mem (mem_filter.2 ⟨hentry, hblocks.1⟩)

/-- Functions are stored one after the other, unless one of them is blocked by a function that is
there or by one of those before it. -/
theorem foldlM_store_ok_iff (hplain : ∀ function ∈ functions, function.Plain)
    (hknown : ∀ function ∈ functions, (base.project.packageOf? function.origin).isSome)
    (htable : ∀ entry ∈ table.entries, entry.function.Plain) (htypes : base.PlainlyGrown types) :
    (∃ grown after, functions.foldlM OverloadTable.store table types = .ok grown after) ↔
      (∀ entry ∈ table.entries, ∀ function ∈ functions,
        ¬ base.Blocks entry (base.project.overloadOf function)) ∧
      functions.Pairwise fun earlier later =>
        ¬ base.Blocks (base.project.overloadOf earlier) (base.project.overloadOf later) := by
  induction functions generalizing table types with
  | nil => exact ⟨fun _ => ⟨by simp, .nil⟩, fun _ => ⟨table, types, rfl⟩⟩
  | cons function rest ih =>
    obtain ⟨hfunction, hrest⟩ := forall_mem_cons.1 hplain
    obtain ⟨hfile, hfiles⟩ := forall_mem_cons.1 hknown
    have hstore := store_ends hbase htable hfunction hfile htypes
    rw [foldlM_cons, pairwise_cons]
    cases hrun : table.store function types with
    | error cause after =>
      obtain ⟨_, _, entry, hentry, hblocks⟩ := hstore.of_refusal hrun
      rw [bind_of_error hrun]
      refine ⟨fun ⟨_, _, hok⟩ => (by cases hok), fun ⟨hfree, _⟩ => ?_⟩
      exact absurd hblocks (hfree entry hentry function mem_cons_self)
    | ok grown after =>
      obtain ⟨hafter, rfl, hfree⟩ := hstore.of_run hrun
      have hgrown : ∀ entry ∈ (table.add (base.project.overloadOf function)).entries,
          entry.function.Plain :=
        forall_mem_append.2 ⟨htable, forall_mem_singleton.2 hfunction⟩
      rw [bind_of_ok hrun, ih hrest hfiles hgrown hafter, OverloadTable.add,
        forall_mem_append, forall_mem_singleton]
      constructor
      · rintro ⟨⟨hold, hnew⟩, hpairs⟩
        exact ⟨fun entry hentry => forall_mem_cons.2 ⟨hfree entry hentry, hold entry hentry⟩,
          hnew, hpairs⟩
      · rintro ⟨hold, hnew, hpairs⟩
        exact ⟨⟨fun entry hentry => (forall_mem_cons.1 (hold entry hentry)).2, hnew⟩, hpairs⟩

end Storing

/-! ## The order in which functions are stored -/

/-- Two functions of one set with one signature. -/
def TypeTable.Rivals (base : TypeTable) (one other : Overload) : Prop :=
  one.key = other.key ∧ base.signatureOf one.function = base.signatureOf other.function

/-- A generic function stands in the set of one that is not generic, with the same signature. -/
def TypeTable.Covers (base : TypeTable) (generic other : Overload) : Prop :=
  generic.function.isGeneric = true ∧ other.function.isGeneric = false ∧
    generic.inferredKey = other.inferredKey ∧
    base.signatureOf generic.function = base.signatureOf other.function

theorem Overload.key_eq_inferredKey {overload : Overload}
    (h : overload.function.isGeneric = false) : overload.key = overload.inferredKey := by
  have hnone : overload.function.generics = [] := by simpa [isGeneric] using h
  rw [key, inferredKey, hnone, length_nil]

/-- Rivals block each other, and a generic function blocks what it covers, but not the other way
round. -/
theorem TypeTable.blocks_iff {base : TypeTable} {earlier later : Overload} :
    base.Blocks earlier later ↔ base.Rivals earlier later ∨ base.Covers earlier later := by
  unfold Blocks Rivals Covers Overload.belongsTo
  rw [Bool.or_eq_true, Bool.and_eq_true, beq_iff_eq, beq_iff_eq]
  constructor
  · rintro ⟨hkey | ⟨hgeneric, hkey⟩, hsame⟩
    · exact .inl ⟨hkey, hsame⟩
    · have hcount := (overloadKey_counts hkey).1
      have hconcrete : later.function.isGeneric = false := by
        simpa [isGeneric] using eq_nil_of_length_eq_zero hcount.symm
      exact .inr ⟨hgeneric, hconcrete, hkey.trans (Overload.key_eq_inferredKey hconcrete), hsame⟩
  · rintro (⟨hkey, hsame⟩ | ⟨hgeneric, hconcrete, hkey, hsame⟩)
    · exact ⟨.inl hkey, hsame⟩
    · exact ⟨.inr ⟨hgeneric, hkey.trans (Overload.key_eq_inferredKey hconcrete).symm⟩, hsame⟩

variable {project : Project} {steps : List TableStep}
  (hfiles : ∀ file ∈ project.files, file.plain = true)
  (hsteps : ∀ step ∈ steps, step.plain = true)

section Order

include hfiles hsteps

/-- Functions that are stored in one order are stored in another exactly if no generic function
comes before a function that is not generic, is found by the same calls and takes parameters of
the same types. -/
theorem storing_in_another_order {functions others : List FunctionDef}
    (hplain : ∀ function ∈ functions, function.Plain)
    (hknown : ∀ function ∈ functions, (project.packageOf? function.origin).isSome)
    (hperm : functions.Perm others)
    (hstored : ∃ table after,
      functions.foldlM OverloadTable.store {} (project.tableAfter steps) = .ok table after) :
    (∃ table after,
      others.foldlM OverloadTable.store {} (project.tableAfter steps) = .ok table after) ↔
    others.Pairwise fun earlier later =>
      ¬ (earlier.isGeneric = true ∧ later.isGeneric = false ∧
        (project.overloadOf earlier).inferredKey = (project.overloadOf later).inferredKey ∧
        earlier.signature.answer (project.tableAfter steps) =
          later.signature.answer (project.tableAfter steps)) := by
  have hrecorded := recorded_of_plain hfiles hsteps
  have hbase := hrecorded.spelled
  have howner := hrecorded.owner
  generalize project.tableAfter steps = base at hstored hbase howner ⊢
  subst howner
  have hgrown := hbase.grownBy fun type => type.plain = true
  have hplain' : ∀ function ∈ others, function.Plain :=
    fun function hmem => hplain function (hperm.mem_iff.2 hmem)
  have hknown' : ∀ function ∈ others, (base.project.packageOf? function.origin).isSome :=
    fun function hmem => hknown function (hperm.mem_iff.2 hmem)
  -- Rivals are rivals in every order, so only the other blocks depend on it.
  have hrivals : others.Pairwise fun one other =>
      ¬ base.Rivals (base.project.overloadOf one) (base.project.overloadOf other) := by
    have hfree := ((foldlM_store_ok_iff hbase hplain hknown (by simp) hgrown).1 hstored).2
    refine (hperm.pairwise_iff fun hone hother => ?_).1
      (hfree.imp fun hblocks hrivals => hblocks (blocks_iff.2 (.inl hrivals)))
    exact hone ⟨hother.1.symm, hother.2.symm⟩
  rw [foldlM_store_ok_iff hbase hplain' hknown' (by simp) hgrown, and_iff_right (by simp)]
  simp only [TypeTable.blocks_iff, not_or, List.pairwise_and_iff]
  rw [and_iff_right hrivals]
  refine Pairwise.iff_of_mem fun {one other} hone hother => ?_
  rw [signature_answer hbase (hplain' one hone) hgrown,
    signature_answer hbase (hplain' other hother) hgrown, Except.ok.injEq]
  rfl

end Order

/-- A function `f` that takes an integer. -/
def takesInteger : FunctionDef :=
  { name := "f", parameters := [{ name := "x", type := .int }], origin := "main.mer" }

/-- A function that takes an integer as well, with a type parameter that it does not use. -/
def takesIntegerUnused : FunctionDef :=
  { takesInteger with generics := ["T"] }

/-- A function that takes anything is stored before or after one that takes an integer. -/
theorem anything_stored_in_either_order :
    (∃ table after, [takesInteger, manyOf 1].foldlM OverloadTable.store {}
        ((oneFile []).tableAfter []) = .ok table after) ∧
      ∃ table after, [manyOf 1, takesInteger].foldlM OverloadTable.store {}
        ((oneFile []).tableAfter []) = .ok table after := by
  have hstored : ∃ table after, [takesInteger, manyOf 1].foldlM OverloadTable.store {}
      ((oneFile []).tableAfter []) = .ok table after := ⟨_, _, rfl⟩
  refine ⟨hstored, ?_⟩
  refine (storing_in_another_order (by decide) (by simp) (by simp only [FunctionDef.Plain]; decide)
    (by decide) (.swap _ _ _) hstored).2 (pairwise_pair.2 fun ⟨_, _, _, hsame⟩ => ?_)
  exact absurd (Except.ok.inj (show Except.ok ["T"] = Except.ok ["Int"] from hsame)) (by decide)

/-- The function with an unused type parameter is stored after the other and then stands in its
set with the same signature.  Before the other it is in the way. -/
theorem order_decides_about_unused :
    (∃ table after, [takesInteger, takesIntegerUnused].foldlM OverloadTable.store {}
        ((oneFile []).tableAfter []) = .ok table after ∧
      table.overloads "app::f<0>(1)" = [takesInteger, takesIntegerUnused] ∧
      takesInteger.signature.answer after = takesIntegerUnused.signature.answer after) ∧
    [takesInteger, takesIntegerUnused].Perm [takesIntegerUnused, takesInteger] ∧
    [takesIntegerUnused, takesInteger].foldlM OverloadTable.store {}
        ((oneFile []).tableAfter []) =
      .error (.duplicateFunction "f" "main.mer" {}) ((oneFile []).tableAfter []) :=
  ⟨⟨_, _, rfl, rfl, rfl⟩, .swap _ _ _, rfl⟩

/-! ## Attempts to store functions -/

/-- The program after an attempt to store each of the functions. -/
def Program.storing (program : Program) (functions : List FunctionDef) : Program :=
  functions.foldl (fun program function => (storeFunction function).after program) program

/-- Storing a function changes the functions and the types of a program as the table says, and
nothing else. -/
theorem storeFunction_ends {post : OverloadTable → TypeTable → Prop}
    {failed : Diagnostic → TypeTable → Prop}
    (h : Ends post failed (program.functions.store function program.types)) :
    Ends (fun _ after => ∃ functions types, after = { program with functions, types } ∧
        post functions types)
      (fun cause after => ∃ types, after = { program with types } ∧ failed cause types)
      (storeFunction function program) := by
  rw [storeFunction, get_bind]
  have hlift : Ends
      (fun functions after => ∃ types, after = { program with types } ∧ post functions types)
      (fun cause after => ∃ types, after = { program with types } ∧ failed cause types)
      ((liftM (program.functions.store function) : ProgramQuery _) program) :=
    liftProgram_ends (h.mono (fun _ types hpost => ⟨types, rfl, hpost⟩)
      fun _ types hfailed => ⟨types, rfl, hfailed⟩)
  refine hlift.bind fun functions after hafter => ?_
  obtain ⟨types, rfl, hpost⟩ := hafter
  exact .ok ⟨functions, types, rfl, hpost⟩

/-- A function that is stored comes last.  One that is refused leaves the functions as they
were. -/
theorem storeFunction_functions (program : Program) (function : FunctionDef) :
    Ends (fun _ after => after.functions.functions = program.functions.functions ++ [function])
      (fun _ after => after.functions = program.functions)
      (storeFunction function program) := by
  refine (storeFunction_ends (ends_self _)).mono ?_ ?_
  · rintro _ _ ⟨grown, _, rfl, hstore⟩
    obtain ⟨package, rfl⟩ := OverloadTable.eq_add_of_store hstore
    simp [OverloadTable.add, OverloadTable.functions]
  · rintro _ _ ⟨_, rfl, _⟩
    rfl

theorem FunctionDef.isEntryPoint_iff :
    function.isEntryPoint ↔ function.generics.length = 0 ∧
      function.parameters.length = 0 ∧ function.name = "main" := by
  simp only [isEntryPoint, isGeneric, Bool.not_not, Bool.and_eq_true, beq_iff_eq,
    isEmpty_iff_length_eq_zero]
  tauto

/-- Functions of plain names, each with the package of its file, none of which blocks a later
one. -/
structure TypeTable.Registers (base : TypeTable) (table : OverloadTable) : Prop where
  owned : ∀ entry ∈ table.entries,
    base.project.packageOf? entry.function.origin = some entry.package
  named : ∀ entry ∈ table.entries, isPlainName entry.function.name = true
  plain : ∀ entry ∈ table.entries, entry.function.Plain
  free : table.entries.Pairwise fun earlier later => ¬ base.Blocks earlier later

/-- The types of the program have grown from the table, and its functions are registered. -/
structure TypeTable.Tracks (base : TypeTable) (program : Program) : Prop where
  types : base.PlainlyGrown program.types
  functions : base.Registers program.functions

namespace TypeTable.Registers

variable {base : TypeTable}

/-- One more function that nothing blocks. -/
theorem add (h : base.Registers table) (hknown : (base.project.packageOf? function.origin).isSome)
    (hname : isPlainName function.name) (hplain : function.Plain)
    (hfree : ∀ entry ∈ table.entries, ¬ base.Blocks entry (base.project.overloadOf function)) :
    base.Registers (table.add (base.project.overloadOf function)) where
  owned := forall_mem_append.2
    ⟨h.owned, forall_mem_singleton.2 (base.project.packageOf?_overloadOf hknown)⟩
  named := forall_mem_append.2 ⟨h.named, forall_mem_singleton.2 hname⟩
  plain := forall_mem_append.2 ⟨h.plain, forall_mem_singleton.2 hplain⟩
  free := pairwise_append.2 ⟨h.free, pairwise_singleton _ _, fun entry hentry _ hlast =>
    mem_singleton.1 hlast ▸ hfree entry hentry⟩

variable (h : base.Registers table) (hproject : ∀ file ∈ base.project.files, file.plain = true)

include h hproject

theorem belongsTo_iff {entry : Overload} (hentry : entry ∈ table.entries) {name : String}
    {generics parameters : Nat} :
    entry.belongsTo (overloadKey package name generics parameters) ↔
      base.project.packageOf? entry.function.origin = some package ∧
        entry.function.name = name ∧ entry.function.parameters.length = parameters ∧
        (entry.function.generics.length = generics ∨ generics = 0) := by
  have howned := h.owned entry hentry
  rw [Overload.belongsTo_iff_of_plain (plain_of_packageOf? hproject howned)
    (h.named entry hentry), howned, Option.some_inj]

/-- A set holds the functions of its package, name and numbers. -/
theorem overloads_eq (package name : String) (generics parameters : Nat) :
    table.overloads (overloadKey package name generics parameters) =
      table.functions.filter fun function =>
        base.project.packageOf? function.origin = some package ∧ function.name = name ∧
          function.parameters.length = parameters ∧
          (function.generics.length = generics ∨ generics = 0) := by
  rw [OverloadTable.overloads_eq, OverloadTable.functions, filter_map]
  refine congrArg _ (filter_congr fun entry hentry => ?_)
  rw [Bool.eq_iff_iff, h.belongsTo_iff hproject hentry, Function.comp_apply, decide_eq_true_iff]

/-- Functions of one set and one number of type parameters differ in their signatures. -/
theorem overloads_pairwise (package name : String) (generics parameters : Nat) :
    (table.overloads (overloadKey package name generics parameters)).Pairwise fun one other =>
      one.generics.length = other.generics.length →
        base.signatureOf one ≠ base.signatureOf other := by
  rw [OverloadTable.overloads_eq, pairwise_map]
  refine (h.free.filter _).imp_of_mem fun {one other} hone hother hfree hcount hsame => ?_
  obtain ⟨hone, hbelongs⟩ := mem_filter.1 hone
  obtain ⟨hother, hbelongs'⟩ := mem_filter.1 hother
  obtain ⟨hpackage, hname, hparameters, _⟩ := (h.belongsTo_iff hproject hone).1 hbelongs
  obtain ⟨hpackage', hname', hparameters', _⟩ := (h.belongsTo_iff hproject hother).1 hbelongs'
  -- Both stand in the set of the later one's own key, so the earlier one would block it.
  refine hfree ⟨(h.belongsTo_iff hproject hone).2 ⟨?_, ?_, ?_, .inl hcount⟩, hsame⟩
  · rw [hpackage, ← hpackage', h.owned other hother]
  · rw [hname, hname']
  · rw [hparameters, hparameters']

end TypeTable.Registers

namespace TypeTable.Tracks

variable {base : TypeTable} (hbase : base.Spelled)

include hbase

/-- An attempt to store a function of a plain name, whatever comes of it. -/
theorem storeFunction (hname : isPlainName function.name) (hplain : function.Plain) :
    Keeps base.Tracks (storeFunction function) := by
  intro program h
  -- Without a package the function is refused before any name is asked for.
  cases hpackage : base.project.packageOf? function.origin with
  | none =>
    have hstore := program.functions.store_of_unknown
      (show program.types.project.packageOf? function.origin = none by
        rw [h.types.project, hpackage])
    refine ends_iff_after.1 ((storeFunction_ends (ends_self _)).mono ?_ ?_)
    · rintro _ _ ⟨_, _, rfl, hrun⟩
      rw [hstore] at hrun
      cases hrun
    · rintro _ _ ⟨_, rfl, hrun⟩
      rw [hstore] at hrun
      cases hrun
      exact h
  | some package =>
    have hknown : (base.project.packageOf? function.origin).isSome := by rw [hpackage]; rfl
    have hstore := store_ends hbase h.functions.plain hplain hknown h.types
    refine ends_iff_after.1 ((storeFunction_ends hstore).mono ?_ ?_)
    · rintro _ _ ⟨_, _, rfl, htypes, rfl, hfree⟩
      exact ⟨htypes, h.functions.add hknown hname hplain hfree⟩
    · rintro _ _ ⟨_, rfl, htypes, _⟩
      exact ⟨htypes, h.functions⟩

/-- Attempts to store functions of plain names, one after the other. -/
theorem storing (hfunctions : ∀ function ∈ functions, isPlainName function.name ∧ function.Plain)
    (h : base.Tracks program) : base.Tracks (program.storing functions) := by
  induction functions generalizing program with
  | nil => exact h
  | cons function rest ih =>
    obtain ⟨⟨hname, hplain⟩, hrest⟩ := forall_mem_cons.1 hfunctions
    exact ih hrest (storeFunction hbase hname hplain program h)

end TypeTable.Tracks

section History

include hfiles hsteps

/-- Whatever has been stored and refused before, each set holds the functions of its package,
name and numbers in the order in which they were stored, and those of one number of type parameters
differ in the types of their parameters. -/
theorem sets_after_storing {functions : List FunctionDef}
    (hfunctions : ∀ function ∈ functions, isPlainName function.name = true ∧ function.Plain)
    {program : Program}
    (hprogram : program = storing { types := project.tableAfter steps } functions) :
    (∀ package name generics parameters,
      let set := program.functions.overloads (overloadKey package name generics parameters)
      set = program.functions.functions.filter (fun function =>
          project.packageOf? function.origin = some package ∧ function.name = name ∧
            function.parameters.length = parameters ∧
            (function.generics.length = generics ∨ generics = 0)) ∧
        set.Nodup ∧
        set.Pairwise fun one other => one.generics.length = other.generics.length →
          one.signature.answer program.types ≠ other.signature.answer program.types) ∧
      program.functions.entryPoints = program.functions.functions.filter (fun function =>
        function.generics.length = 0 ∧ function.parameters.length = 0 ∧
          function.name = "main") ∧
      ∀ function,
        Ends (fun _ after =>
            after.functions.functions = program.functions.functions ++ [function])
          (fun _ after => after.functions = program.functions)
          (storeFunction function program) := by
  have hrecorded := recorded_of_plain hfiles hsteps
  have hbase := hrecorded.spelled
  have howner := hrecorded.owner
  generalize project.tableAfter steps = base at hprogram hbase howner
  subst howner
  obtain ⟨htypes, hregisters⟩ : base.Tracks program := by
    rw [hprogram]
    exact .storing hbase hfunctions ⟨hbase.grownBy _, by simp, by simp, by simp, .nil⟩
  refine ⟨fun package name generics parameters => ?_, ?_, storeFunction_functions program⟩
  · have hpairs : (program.functions.overloads
        (overloadKey package name generics parameters)).Pairwise fun one other =>
        one.generics.length = other.generics.length →
          one.signature.answer program.types ≠ other.signature.answer program.types := by
      refine (hregisters.overloads_pairwise hfiles package name generics
        parameters).imp_of_mem fun {one other} hone hother hdiffer hcount => ?_
      have hplain := OverloadTable.forall_mem_overloads hregisters.plain
        (overloadKey package name generics parameters)
      rw [signature_answer hbase (hplain one hone) htypes,
        signature_answer hbase (hplain other hother) htypes]
      exact fun hsame => hdiffer hcount (Except.ok.inj hsame)
    exact ⟨hregisters.overloads_eq hfiles package name generics parameters,
      hpairs.imp fun hdiffer hsame => hdiffer (by rw [hsame]) (by rw [hsame]), hpairs⟩
  · rw [OverloadTable.entryPoints_eq]
    refine filter_congr fun function _ => ?_
    rw [Bool.eq_iff_iff, FunctionDef.isEntryPoint_iff, decide_eq_true_iff]

end History

/-- The third of these functions is refused, because its parameter has the type of the first, and
the fourth, because no file is its own. -/
theorem sets_after_refusals :
    let functions := [takesInteger, manyOf 1, { takesInteger with returnType := some .int },
      { takesInteger with origin := "lost.mer" }]
    let program := storing { types := (oneFile []).tableAfter [] } functions
    program.functions.overloads "app::f<0>(1)" = [takesInteger, manyOf 1] ∧
      program.functions.overloads "app::f<1>(1)" = [manyOf 1] ∧
      (program.functions.overloads "app::f<0>(1)").Pairwise fun one other =>
        one.generics.length = other.generics.length →
          one.signature.answer program.types ≠ other.signature.answer program.types := by
  intro functions program
  have hfunctions : ∀ function ∈ functions,
      isPlainName function.name = true ∧ function.Plain := by
    simp only [FunctionDef.Plain]
    decide
  exact ⟨rfl, rfl, ((sets_after_storing (by decide) (by simp) hfunctions
    (rfl : program = _)).1 "app" "f" 0 1).2.2⟩

end Accord
