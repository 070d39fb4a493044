import Accord.Proofs.Assign.Decide
import Accord.Proofs.Call.Plans

/-!
# When the functions of a plan agree

The types that the functions of a plan return are told apart by canonical names, and one type of
each name is kept (`TypeTable.Represents`).  A canonical name does not look through aliases.  So
functions whose types all stand for one type agree in what the plan returns exactly when the
types also have one name (`mergeReturns_of_one_type`); otherwise the plan returns a sum of
several spellings of that type.  No sum is accepted where a built-in type is asked for
(`not_assignable_of_sum`).

The proof follows the fold that gathers the types: `Gathered.Keeps.add` is its step and
`keeps_of_foldlM` the run.
-/

namespace Accord

open Query List TypeExpr TypeTable

variable {after : TypeTable}

/-! ## One type of each name -/

/-- All of the types have one name. -/
def TypeTable.OneName (base : TypeTable) (types : List TypeExpr) : Prop :=
  ∃ name, ∀ type ∈ types, base.Names type name

/-- Some of the types, one of each name. -/
structure TypeTable.Represents (base : TypeTable) (types kept : List TypeExpr) : Prop where
  sublist : kept.Sublist types
  distinct : kept.Pairwise fun left right => ∀ name, base.Names left name → ¬ base.Names right name
  every : ∀ type ∈ types, ∃ other ∈ kept, ∃ name, base.Names type name ∧ base.Names other name

section Represents

variable {base : TypeTable} {types kept : List TypeExpr} {type : TypeExpr}

theorem TypeTable.Represents.ne_nil (h : base.Represents types kept) (hne : types ≠ []) :
    kept ≠ [] := by
  obtain ⟨type, hmem⟩ := exists_mem_of_ne_nil types hne
  obtain ⟨other, hother, _⟩ := h.every type hmem
  exact ne_nil_of_mem hother

theorem TypeTable.Represents.oneName (h : base.Represents types [type]) : base.OneName types := by
  rcases types with _ | ⟨first, rest⟩
  · exact ⟨"", forall_mem_nil _⟩
  · obtain ⟨_, hother, name, _, hname⟩ := h.every first mem_cons_self
    obtain rfl := mem_singleton.1 hother
    refine ⟨name, fun member hmem => ?_⟩
    obtain ⟨_, hother', name', hmember, hname'⟩ := h.every member hmem
    obtain rfl := mem_singleton.1 hother'
    rwa [hname.unique hname']

theorem TypeTable.Represents.eq_singleton (h : base.Represents types kept) (hne : types ≠ [])
    (hone : base.OneName types) : ∃ type, kept = [type] := by
  obtain ⟨name, hname⟩ := hone
  rcases kept with _ | ⟨first, _ | ⟨second, rest⟩⟩
  · exact absurd rfl (h.ne_nil hne)
  · exact ⟨first, rfl⟩
  · have hfirst := hname first (h.sublist.subset mem_cons_self)
    have hsecond := hname second (h.sublist.subset (by simp))
    exact absurd hsecond ((pairwise_cons.1 h.distinct).1 second mem_cons_self name hfirst)

end Represents

/-! ## Gathering types by name -/

/-- The types gathered represent the types that were looked at. -/
structure Gathered.Keeps (base : TypeTable) (seen : List TypeExpr) (gathered : Gathered) :
    Prop where
  sublist : gathered.types.Sublist seen
  names : Forall₂ base.Names gathered.types gathered.names.reverse
  nodup : gathered.names.Nodup
  every : ∀ type ∈ seen, ∃ name ∈ gathered.names, base.Names type name

section Gathering

variable {base : TypeTable} {seen types : List TypeExpr} {gathered : Gathered}

theorem Gathered.Keeps.nil : ({} : Gathered).Keeps base [] :=
  ⟨.slnil, .nil, .nil, forall_mem_nil _⟩

theorem Gathered.Keeps.add (h : gathered.Keeps base seen) {type : TypeExpr} {name : String}
    (hname : base.Names type name) : (gathered.add name type).Keeps base (seen ++ [type]) := by
  obtain ⟨hnames, hnodup⟩ := Gathered.Collects.add ⟨h.names, h.nodup⟩ hname
  obtain ⟨hkept, hnew⟩ := gathered.mem_names_add name type
  refine ⟨?_, hnames, hnodup, forall_mem_append.2 ⟨fun other hmem => ?_, ?_⟩⟩
  · unfold Gathered.add
    split
    · exact h.sublist.trans (sublist_append_left _ _)
    · exact h.sublist.append (.refl _)
  · obtain ⟨text, htext, hother⟩ := h.every other hmem
    exact ⟨text, hkept htext, hother⟩
  · exact forall_mem_singleton.2 ⟨name, hnew, hname⟩

theorem Gathered.Keeps.represents (h : gathered.Keeps base seen) :
    base.Represents seen gathered.types where
  sublist := h.sublist
  distinct := by
    have hnodup : gathered.names.reverse.Nodup := nodup_reverse.2 h.nodup
    have hnames := h.names
    generalize gathered.types = types, gathered.names.reverse = names at hnames hnodup
    induction hnames with
    | nil => exact .nil
    | @cons type name types names hname hnames ih =>
      obtain ⟨hnew, hnodup⟩ := nodup_cons.1 hnodup
      refine .cons (fun other hother text htext htext' => hnew ?_) (ih hnodup)
      obtain ⟨own, hmem, hown⟩ := exists_of_mem_left hnames hother
      rwa [hname.unique htext, htext'.unique hown]
  every := by
    intro type hmem
    obtain ⟨name, hname, htype⟩ := h.every type hmem
    obtain ⟨other, hother, hname⟩ := exists_of_mem_left h.names.flip (mem_reverse.2 hname)
    exact ⟨other, hother, name, htype, hname⟩

variable (hbase : base.Spelled) {table : TypeTable} (htable : base.PlainlyGrown table)

include hbase htable

/-- What questions have added to a table does not change the name of a type. -/
theorem names_iff_of_grown {type : TypeExpr} (hplain : type.plain) {name : String} :
    base.Names type name ↔ ∃ after, canonicalName type table = .ok name after := by
  have hown : (canonicalName type).answer base = .ok name ↔ _ :=
    answer_canonicalName hbase.confines (hbase.grownBy _) hplain
  have hgrown : (canonicalName type).answer table = .ok name ↔ _ :=
    answer_canonicalName hbase.confines htable hplain
  exact answer_eq_ok.symm.trans (hown.trans (hgrown.symm.trans answer_eq_ok))

theorem grown_of_canonicalName {type : TypeExpr} (hplain : type.plain) {name : String}
    (hrun : canonicalName type table = .ok name after) : base.PlainlyGrown after :=
  ((canonicalName_spells hbase.confines type hplain table htable).of_run hrun).1

variable (hplain : ∀ type ∈ types, type.plain = true)

include hplain

theorem keeps_of_foldlM (h : gathered.Keeps base seen) {final : Gathered}
    (hrun : (types.foldlM (fun (gathered : Gathered) type =>
      do return gathered.add (← canonicalName type) type) gathered : TypeQuery Gathered) table =
      .ok final after) :
    final.Keeps base (seen ++ types) := by
  induction types generalizing gathered seen table with
  | nil =>
    obtain ⟨rfl, _⟩ := pure_eq_ok.1 hrun
    rwa [append_nil]
  | cons type rest ih =>
    obtain ⟨hfirst, hrest⟩ := forall_mem_cons.1 hplain
    rw [foldlM_cons] at hrun
    obtain ⟨added, mid, hadded, hrun⟩ := bind_eq_ok.1 hrun
    obtain ⟨name, named, hname, hadded⟩ := bind_eq_ok.1 hadded
    obtain ⟨rfl, rfl⟩ := pure_eq_ok.1 hadded
    have hmid := grown_of_canonicalName hbase htable hfirst hname
    have hnames := (names_iff_of_grown hbase htable hfirst).2 ⟨_, hname⟩
    have hkeeps := ih hmid hrest (h.add hnames) hrun
    rwa [append_assoc] at hkeeps

theorem exists_foldlM_ok (hnamed : ∀ type ∈ types, ∃ name, base.Names type name) :
    ∃ final after, (types.foldlM (fun (gathered : Gathered) type => do
      return gathered.add (← canonicalName type) type) gathered : TypeQuery Gathered) table =
        .ok final after := by
  induction types generalizing gathered table with
  | nil => exact ⟨gathered, table, rfl⟩
  | cons type rest ih =>
    obtain ⟨hfirst, hrest⟩ := forall_mem_cons.1 hplain
    obtain ⟨⟨name, hname⟩, hothers⟩ := forall_mem_cons.1 hnamed
    obtain ⟨mid, hrun⟩ := (names_iff_of_grown hbase htable hfirst).1 hname
    have hmid := grown_of_canonicalName hbase htable hfirst hrun
    obtain ⟨final, after, hfinal⟩ := ih hmid hrest hothers
    refine ⟨final, after, ?_⟩
    rw [foldlM_cons, bind_assoc, bind_of_ok hrun]
    exact hfinal

/-- Merging keeps one type of each name.  What is kept is the answer if it is a single type, and
its sum is the answer otherwise. -/
theorem mergeTypes_of_run {merged : TypeExpr} (hrun : mergeTypes types table = .ok merged after) :
    base.Represents types [merged] ∨
      ∃ kept, base.Represents types kept ∧ kept.length ≠ 1 ∧ merged = .union kept := by
  obtain ⟨final, mid, hfold, hrun⟩ := bind_eq_ok.1 hrun
  have hkept := (keeps_of_foldlM hbase htable hplain .nil hfold).represents
  rw [nil_append] at hkept
  generalize final.types = kept at hrun hkept
  rcases kept with _ | ⟨first, _ | ⟨second, rest⟩⟩
  · obtain ⟨rfl, _⟩ := pure_eq_ok.1 hrun
    exact Or.inr ⟨[], hkept, by simp, rfl⟩
  · obtain ⟨rfl, _⟩ := pure_eq_ok.1 hrun
    exact Or.inl hkept
  · obtain ⟨rfl, _⟩ := pure_eq_ok.1 hrun
    exact Or.inr ⟨_, hkept, by simp, rfl⟩

/-- Types can be merged if and only if each of them has a name. -/
theorem mergeTypes_ok_iff :
    (∃ merged after, mergeTypes types table = .ok merged after) ↔
      ∀ type ∈ types, ∃ name, base.Names type name := by
  constructor
  · rintro ⟨merged, after, hrun⟩ type hmem
    obtain ⟨final, mid, hfold, _⟩ := bind_eq_ok.1 hrun
    have hkeeps := keeps_of_foldlM hbase htable hplain .nil hfold
    obtain ⟨name, _, hname⟩ := hkeeps.every type hmem
    exact ⟨name, hname⟩
  · intro hnamed
    obtain ⟨final, after, hfold⟩ := @exists_foldlM_ok base types {} hbase table htable hplain hnamed
    unfold mergeTypes
    rw [bind_of_ok hfold]
    rcases final.types with _ | ⟨_, _ | _⟩ <;> exact ⟨_, _, rfl⟩

end Gathering

/-! ## What a plan returns -/

/-- If all functions of a plan return something, the types are merged. -/
theorem mergeReturns_of_returns (call : Call) {plan : Plan} {types : List TypeExpr}
    (hne : types ≠ []) (hreturns : plan.leaves.map (·.returnType) = types.map some) :
    mergeReturns call plan = do return some (← mergeTypes types) := by
  have hsome : (types.map some).all (·.isNone) = false := by
    obtain ⟨type, hmem⟩ := exists_mem_of_ne_nil types hne
    simpa using ⟨type, hmem⟩
  have hany : (types.map some).any (·.isNone) = false := by simp
  have hall : (types.map some).filterMap id = types := by simp
  unfold mergeReturns
  simp only [hreturns, hsome, hany, hall]
  rfl

/-- A primitive type, a pointer, an array or a slice. -/
def TypeExpr.isBuiltIn : TypeExpr → Bool
  | .primitive _ | .pointer _ | .array _ _ | .slice _ => true
  | .param _ | .named _ _ _ _ | .union _ => false

theorem acceptsBare_of_sum {kept : List TypeExpr} {bare : TypeExpr} (hbare : bare.isBuiltIn)
    (fuel : Nat) (judge : Judge) (mode : Mode) :
    acceptsBare fuel judge mode (.union kept) bare = pure false := by
  cases bare with
  | primitive name =>
    change acceptsShape fuel judge mode (.union kept) (.primitive name) = _
    simp only [acceptsShape]
    split <;> rfl
  | pointer _ | array _ _ | slice _ => rfl
  | param _ | named _ _ _ _ | union _ => cases hbare

/-- A sum is not accepted where a built-in type is asked for. -/
theorem not_assignable_of_sum {kept : List TypeExpr} {bare : TypeExpr} (hbare : bare.isBuiltIn)
    (fuel : Nat) (mode : Mode) (table : TypeTable) :
    (assignable fuel mode (.union kept) bare).answer table ≠ .ok true := by
  intro h
  obtain ⟨after, hrun⟩ := answer_eq_ok.1 h
  obtain ⟨state, haccepts⟩ := accepts_of_assignable hrun
  cases fuel with
  | zero => cases haccepts
  | succ fuel =>
    -- Neither type is an alias, and their shapes do not go together.
    obtain ⟨source, _, hsource, hrest⟩ := bind_eq_ok.1 haccepts
    obtain ⟨dest, _, hdest, hshape⟩ := bind_eq_ok.1 hrest
    obtain ⟨_, hunalias, rfl⟩ := on_eq_ok.1 hsource
    obtain ⟨_, hunalias', rfl⟩ := on_eq_ok.1 hdest
    obtain rfl : source = .union kept := Unaliases.unique ⟨fuel, _, hunalias⟩ (Unaliases.self rfl)
    have hself : bare.ref? = none := by cases bare <;> first | rfl | cases hbare
    obtain rfl : dest = bare := Unaliases.unique ⟨fuel, _, hunalias'⟩ (Unaliases.self hself)
    simp only [acceptsBare_of_sum hbare] at hshape
    cases mode <;> cases hshape

/-- If the functions of a plan return types that all stand for one type, the plan has a type
whenever these types have names, and it is this one if and only if they have the same name.  Then
it is one of the types returned.  Otherwise it is a sum of several of them, and this is not accepted
where the type that they stand for is asked for and is built in. -/
theorem mergeReturns_of_one_type {table : TypeTable} (htable : table.Spelled) (call : Call)
    {plan : Plan} (hleaves : plan.leaves ≠ []) {types : List TypeExpr}
    (hreturns : plan.leaves.map (·.returnType) = types.map some)
    (htypes : ∀ type ∈ types, type.plain = true) {bare : TypeExpr}
    (hbare : ∀ type ∈ types, table.Unaliases type bare) :
    ((∃ merged, (mergeReturns call plan).answer table = .ok (some merged)) ↔
        ∀ type ∈ types, ∃ name, table.Names type name) ∧
      ∀ merged, (mergeReturns call plan).answer table = .ok (some merged) →
        (table.OneName types → merged ∈ types ∧ table.Unaliases merged bare) ∧
        (¬ table.OneName types →
          ∃ kept, table.Represents types kept ∧ 1 < kept.length ∧ merged = .union kept) ∧
        ((∀ alternatives, bare ≠ .union alternatives) →
          (table.Unaliases merged bare ↔ table.OneName types)) ∧
        (bare.isBuiltIn = true → ∀ fuel mode,
          (assignable fuel mode merged bare).answer table = .ok true → table.OneName types) := by
  have hgrown : table.PlainlyGrown table := htable.grownBy _
  have hne : types ≠ [] := by
    rintro rfl
    exact hleaves (by simpa using hreturns)
  have hrun {merged : TypeExpr} : (mergeReturns call plan).answer table = .ok (some merged) ↔
      ∃ after, mergeTypes types table = .ok merged after := by
    rw [answer_eq_ok, mergeReturns_of_returns call hne hreturns]
    constructor
    · rintro ⟨after, hrun⟩
      obtain ⟨_, mid, hmerged, hrun⟩ := bind_eq_ok.1 hrun
      obtain ⟨hsame, _⟩ := pure_eq_ok.1 hrun
      cases hsame
      exact ⟨mid, hmerged⟩
    · rintro ⟨after, hmerged⟩
      exact ⟨after, by rw [bind_of_ok hmerged]; rfl⟩
  refine ⟨?_, fun merged hmerged => ?_⟩
  · simp only [hrun]
    exact mergeTypes_ok_iff htable hgrown htypes
  obtain ⟨after, hmerged⟩ := hrun.1 hmerged
  rcases mergeTypes_of_run htable hgrown htypes hmerged with hone | ⟨kept, hkept, hlength, rfl⟩
  · have hname := hone.oneName
    have hmem : merged ∈ types := hone.sublist.subset mem_cons_self
    exact ⟨fun _ => ⟨hmem, hbare merged hmem⟩, fun hmany => absurd hname hmany,
      fun _ => ⟨fun _ => hname, fun _ => hbare merged hmem⟩, fun _ _ _ _ => hname⟩
  · have hmany : ¬ table.OneName types := by
      intro hname
      obtain ⟨type, rfl⟩ := hkept.eq_singleton hne hname
      exact hlength rfl
    have hkept' : 1 < kept.length := by
      have := length_pos_of_ne_nil (hkept.ne_nil hne)
      omega
    refine ⟨fun hname => absurd hname hmany, fun _ => ⟨kept, hkept, hkept', rfl⟩, ?_, ?_⟩
    · intro hsum
      refine ⟨fun hself => ?_, fun hname => absurd hname hmany⟩
      exact absurd (hself.unique (Unaliases.self rfl)) (hsum kept)
    · exact fun hbuilt fuel mode haccepts =>
        absurd haccepts (not_assignable_of_sum hbuilt fuel mode table)

/-- A reference to a type of the file. -/
def inMain (name : String) : TypeExpr := .named name none [] "main.mer"

/-- A definition of the file. -/
def mainDef (name : String) (body : TypeBody) : TypeDef :=
  { name, origin := "main.mer", body }

/-- Two records, their union, and counts, which are integers. -/
def countTypes : List TypeDef :=
  [mainDef "A" (.record []), mainDef "B" (.record []),
    mainDef "U" (.union [inMain "A", inMain "B"]), mainDef "Count" (.alias .int)]

/-- The function `f` that takes a value of a type of the file. -/
def ofOne (parameter : String) (returned : TypeExpr) : FunctionDef :=
  { name := "f"
    parameters := [{ name := "x", type := inMain parameter }]
    returnType := some returned
    origin := "main.mer" }

/-- The file with these types and functions for the two records. -/
def countProject (left right : TypeExpr) : Project :=
  { files := [{ name := "main.mer", package := "app", types := countTypes,
                functions := [ofOne "A" left, ofOne "B" right] }] }

/-- The plan of a call for the union. -/
def countPlan (left right : TypeExpr) : Plan :=
  .branch 0 [inMain "A", inMain "B"] [.direct (ofOne "A" left), .direct (ofOne "B" right)]

/-- The program of such a file. -/
def countProgram (left right : TypeExpr) : Program :=
  { types := { project := countProject left right
               stored := countTypes.map fun definition => ("app::" ++ definition.name, definition) }
    functions := { entries := [{ package := "app", function := ofOne "A" left },
                               { package := "app", function := ofOne "B" right }] } }

/-- Both functions return counts, and so does the plan, which stands for an integer. -/
theorem counts_make_a_count :
    ∃ merged, (mergeReturns (callWith 1) (countPlan (inMain "Count") (inMain "Count"))).answer
        (countProgram (inMain "Count") (inMain "Count")).types = .ok (some merged) ∧
      merged = inMain "Count" ∧
        (countProgram (inMain "Count") (inMain "Count")).types.Unaliases merged .int := by
  generalize htypes : (countProgram (inMain "Count") (inMain "Count")).types = table
  have htable : table.Spelled := by
    have hbuild : Program.build 8 (countProject (inMain "Count") (inMain "Count")) =
        .ok (countProgram (inMain "Count") (inMain "Count")) := rfl
    have hplain : (countProject (inMain "Count") (inMain "Count")).Plain := by
      refine ⟨by decide, by decide, ?_⟩
      unfold FunctionDef.Plain FunctionDef.PlainReturn
      decide
    exact htypes ▸ (spelled_of_build hbuild hplain).1.types
  have hbare : table.Unaliases (inMain "Count") .int := by subst htypes; exact ⟨8, _, rfl⟩
  have hname : table.Names (inMain "Count") "app::Count" := by subst htypes; exact ⟨_, rfl⟩
  have hcounts : ∀ type ∈ [inMain "Count", inMain "Count"], type = inMain "Count" := by simp
  have hleaves : (countPlan (inMain "Count") (inMain "Count")).leaves ≠ [] := by
    simp [countPlan, Plan.leaves, Plan.leavesAll]
  have hreturns : (countPlan (inMain "Count") (inMain "Count")).leaves.map (·.returnType) =
      [inMain "Count", inMain "Count"].map some := rfl
  obtain ⟨hsome, hmerged⟩ := mergeReturns_of_one_type htable (callWith 1) hleaves hreturns
    (by decide) fun type hmem => hcounts type hmem ▸ hbare
  obtain ⟨merged, hrun⟩ := hsome.2 fun type hmem => ⟨_, hcounts type hmem ▸ hname⟩
  obtain ⟨hmem, hint⟩ := (hmerged merged hrun).1
    ⟨"app::Count", fun type hmem => hcounts type hmem ▸ hname⟩
  exact ⟨merged, hrun, hcounts merged hmem, hint⟩

/-- One function returns an integer and the other a count, which is an integer too.  The plan
returns the sum of both, and this is not accepted as an integer. -/
theorem counts_and_integers_make_a_sum :
    Program.build 8 (countProject .int (inMain "Count")) =
        .ok (countProgram .int (inMain "Count")) ∧
      (planCall 8 (callWith 1) [inMain "U"]).answer (countProgram .int (inMain "Count")) =
        .ok { plan := countPlan .int (inMain "Count")
              returnType := some (.union [.int, inMain "Count"]) } ∧
      (unalias 8 (inMain "Count")).answer (countProgram .int (inMain "Count")).types = .ok .int ∧
      (unalias 8 (.union [.int, inMain "Count"])).answer
        (countProgram .int (inMain "Count")).types = .ok (.union [.int, inMain "Count"]) ∧
      (assignable 8 .lenient (inMain "Count") .int).answer
        (countProgram .int (inMain "Count")).types = .ok true ∧
      (assignable 8 .lenient (.union [.int, inMain "Count"]) .int).answer
        (countProgram .int (inMain "Count")).types = .ok false := by
  refine ⟨rfl, ?_, ?_, ?_, ?_, ?_⟩ <;> cbv

end Accord
