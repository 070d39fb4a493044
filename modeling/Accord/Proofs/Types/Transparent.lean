import Accord.Proofs.Program.Built
import Accord.Proofs.Types.History
import Accord.Proofs.Types.Legible

/-!
# Instances that are remembered

An instance that was entered for one reference is handed out for every reference with the same
key.  The key is made of the canonical names of the type arguments, so what is handed out was
made of type arguments of the same names.  Types that can be read back from their names are
the same then, up to how they refer to definitions, and so is what is handed out
(`retrieve_after_questions`).  Other types may have one name and differ
(`box_of_other_type_retrieved`).
-/

namespace Accord

open Query TypeTable TypeExpr

variable {base : TypeTable} {generic first : TypeDef} {type : TypeExpr}
  {questions : List TypeQuestion}

/-! ## Definitions that match -/

/-- Two bodies whose types differ only in how they refer to the same definitions. -/
inductive TypeBody.Matches (base : TypeTable) : TypeBody → TypeBody → Prop where
  | record {left right : List Field}
      (fields : List.Forall₂ (fun field field' => field.name = field'.name ∧
        base.Matches field.type field'.type) left right) :
      Matches base (.record left) (.record right)
  | union {left right : List TypeExpr} (alternatives : List.Forall₂ base.Matches left right) :
      Matches base (.union left) (.union right)
  | «alias» {left right : TypeExpr} (targets : base.Matches left right) :
      Matches base (.alias left) (.alias right)

/-- Two definitions that differ only in how their types refer to the same definitions. -/
structure TypeDef.Matches (base : TypeTable) (left right : TypeDef) : Prop where
  name : left.name = right.name
  generics : left.generics = right.generics
  origin : left.origin = right.origin
  body : left.body.Matches base right.body

theorem TypeBody.matches_substitute {rules rules' : Substitution}
    (hrules : SameRules base.Matches rules rules') (body : TypeBody)
    (hplain : ∀ component ∈ body.components, component.plain) :
    (body.substitute rules).Matches base (body.substitute rules') := by
  have hsame (type : TypeExpr) (htype : type.plain) :
      base.Matches (type.substitute rules) (type.substitute rules') :=
    Accord.matches_substitute hrules type (matches_self type htype)
  cases body with
  | record fields =>
    refine .record (List.forall₂_map_left_iff.2 (List.forall₂_map_right_iff.2 ?_))
    refine List.forall₂_same.2 fun field hfield => ⟨rfl, hsame field.type ?_⟩
    exact hplain _ (List.mem_map.2 ⟨field, hfield, rfl⟩)
  | union alternatives =>
    refine .union (matchesAll_substitute hrules alternatives (matchesAll_self alternatives ?_))
    exact plainAll_iff.2 hplain
  | «alias» target => exact .alias (hsame target (hplain target (List.mem_singleton_self _)))

/-- Instances for type arguments that match are the same, up to how they refer to
definitions. -/
theorem TypeDef.PlainBody.instantiate_matches (h : generic.PlainBody) {left right : List TypeExpr}
    (harguments : List.Forall₂ base.Matches left right) :
    (generic.instantiate (.ofLists generic.generics left)).Matches base
      (generic.instantiate (.ofLists generic.generics right)) :=
  ⟨rfl, rfl, rfl,
    generic.body.matches_substitute (SameRules.ofLists generic.generics harguments) h⟩

/-! ## What questions come to -/

/-- A question about the first type may come to the second: it is a part of it, or stands
behind a reference to a union or an alias. -/
inductive TypeTable.ComesTo (base : TypeTable) : TypeExpr → TypeExpr → Prop where
  | target {type : TypeExpr} : ComesTo base (.pointer type) type
  | held {length : UInt64} {type : TypeExpr} : ComesTo base (.array length type) type
  | element {type : TypeExpr} : ComesTo base (.slice type) type
  | alternative {alternatives : List TypeExpr} {type : TypeExpr} (mem : type ∈ alternatives) :
      ComesTo base (.union alternatives) type
  | argument {ref : TypeRef} {type : TypeExpr} (mem : type ∈ ref.arguments) :
      ComesTo base ref.toType type
  | opened {ref : TypeRef} {package : String} {generic : TypeDef} {type : TypeExpr}
      (declared : base.declaration? ref = some (package, generic))
      (mem : type ∈
        (generic.instantiate (.ofLists generic.generics ref.arguments)).body.opened) :
      ComesTo base ref.toType type

/-- Whatever a question about the type comes to can be read back from its name. -/
def TypeTable.Clear (base : TypeTable) (parameters : List String) (type : TypeExpr) : Prop :=
  ∀ part, Relation.ReflTransGen base.ComesTo type part → part.legible parameters = true

section Clear

variable {parameters : List String}

theorem TypeTable.Clear.legible (h : base.Clear parameters type) : type.legible parameters :=
  h type .refl

theorem TypeTable.Clear.comesTo {part : TypeExpr} (h : base.Clear parameters type)
    (hpart : base.ComesTo type part) : base.Clear parameters part :=
  fun inner hinner => h inner (.head hpart hinner)

theorem TypeTable.confines_clear (hinstances : base.instances = []) :
    base.Confines (base.Clear parameters) where
  plain h := plain_of_legible _ h.legible
  target h := h.comesTo .target
  held h := h.comesTo .held
  element h := h.comesTo .element
  alternatives h _ hmem := h.comesTo (.alternative hmem)
  arguments h _ hmem := h.comesTo (.argument hmem)
  declared h hdeclared _ hmem := h.comesTo (.opened hdeclared hmem)
  instances := by simp [hinstances]

/-- If no union or alias is generic and those that are stored are legible, questions about
legible types come to legible types only. -/
theorem TypeTable.clear_of_legible (hstored : ∀ entry ∈ base.stored, ∀ part ∈ entry.2.body.opened,
      entry.2.generics = [] ∧ part.legible parameters) (h : type.legible parameters) :
    base.Clear parameters type := by
  intro part hpart
  induction hpart with
  | refl => exact h
  | tail _ hstep ih =>
    cases hstep with
    | target | held | element => exact (Bool.and_eq_true_iff.1 ih).2
    | alternative hmem | argument hmem =>
      exact allLegible_iff.1 (Bool.and_eq_true_iff.1 ih).2 _ hmem
    | @opened ref package generic part hdeclared hmem =>
      rw [TypeDef.instantiate, TypeBody.opened_substitute] at hmem
      obtain ⟨original, horiginal, rfl⟩ := List.mem_map.1 hmem
      obtain ⟨hgenerics, hlegible⟩ :=
        hstored _ (mem_stored_of_declaration hdeclared) original horiginal
      rwa [hgenerics, Substitution.ofLists, List.zip_nil_left, substitute_nil]

end Clear

/-! ## What is handed out -/

section Answers

variable {table : TypeTable} {good : TypeExpr → Prop} {ref : TypeRef} {names : List String}
  {package : String} {definition : TypeDef}

/-- What is handed out for a reference with type arguments was made of the declared
definition for a reference of the kind whose type arguments have the same names. -/
theorem TypeTable.AnswerTo.exists_entry
    (h : base.AnswerTo ref names (package, definition) table) (hgood : base.Confines good)
    (htable : base.GrownBy good table) (hinstances : base.instances = [])
    (hplain : ref.plain) (harguments : ref.arguments ≠ [])
    (hnames : base.SpellsAll ref.arguments names) :
    ∃ (other : TypeRef) (generic : TypeDef), good other.toType ∧
      base.declaration? ref = some (package, generic) ∧
      base.SpellsAll other.arguments names ∧
      definition = generic.instantiate (.ofLists generic.generics other.arguments) := by
  obtain ⟨declared, hdeclared, _⟩ := h.declared
  have hentry := (htable.entries _ (h.entered harguments)).resolve_left (by simp [hinstances])
  generalize hpair : (package ++ "::" ++ ref.name ++ argumentSuffix names, definition) = entry
    at hentry
  cases hentry with
  | @intro other home generic texts hother hne hdeclared' htexts =>
    obtain ⟨hkey, rfl⟩ := Prod.mk.inj hpair
    have hotherPlain : other.plain := hgood.plain hother
    have hhome : isPlainName home := by
      rw [← htable.declaration?_eq] at hdeclared'
      exact htable.spelled.scopes hotherPlain home (lookup_of_declaration hdeclared').1
    obtain ⟨rfl, hname, rfl⟩ := instanceKey_inj h.package (TypeRef.plain_iff.1 hplain).1
      hnames.texts hhome (TypeRef.plain_iff.1 hotherPlain).1 htexts.texts hkey
    obtain rfl : declared = generic :=
      declaration_unique hdeclared hdeclared' hname (hnames.length.symm.trans htexts.length)
    exact ⟨other, declared, hother, hdeclared, htexts, rfl⟩

theorem asked_grows (hgood : base.Confines good)
    (hquestions : ∀ question ∈ questions, good question.subject)
    (htable : base.GrownBy good table) :
    base.GrownBy good (questions.foldl TypeQuestion.ask table) := by
  induction questions generalizing table with
  | nil => exact htable
  | cons question rest ih =>
    obtain ⟨hfirst, hrest⟩ := List.forall_mem_cons.1 hquestions
    exact ih hrest (question.ask_grows hgood hfirst htable)

/-- What is found once is found in every table that has grown, in the same package. -/
theorem locate_again (hgood : base.Confines good) (hbase : base.Spelled) (href : good ref.toType)
    (htable : base.GrownBy good table)
    (hresolves : (locate ref).answer base = .ok (package, first)) :
    ∃ definition t names, locate ref table = .ok (package, definition) t ∧
      base.GrownBy good t ∧ base.SpellsAll ref.arguments names ∧
      base.AnswerTo ref names (package, definition) t := by
  obtain ⟨after, hfirst⟩ := answer_eq_ok.1 hresolves
  obtain ⟨_, names, hnames, hanswer⟩ :=
    (locate_answer hgood href (hbase.grownBy good)).of_run hfirst
  obtain ⟨⟨home, definition⟩, t, hrun, ht, names', hnames', hanswer'⟩ :=
    (locate_answer hgood href htable).exists_ok fun _ _ hnone =>
      nomatch hnone.2.symm.trans (hanswer.spelling hnames)
  obtain rfl : home = package := Option.some.inj (hanswer'.home.symm.trans hanswer.home)
  exact ⟨definition, t, names', hrun, ht, hnames', hanswer'⟩

/-- If what the questions came to can be read back from its name, what is handed out is the
instance for the very type arguments of the reference. -/
theorem matches_of_clear (hbase : base.Spelled) (hinstances : base.instances = [])
    {parameters : List String}
    (hquestions : ∀ question ∈ questions, base.Clear parameters question.subject)
    (href : base.Clear parameters ref.toType) (harguments : ref.arguments ≠ [])
    (hdeclared : base.declaration? ref = some (package, generic))
    (hresolves : (locate ref).answer base = .ok (package, first)) {t : TypeTable}
    (hlocate : locate ref (questions.foldl TypeQuestion.ask base) = .ok (package, definition) t) :
    definition.Matches base (generic.instantiate (.ofLists generic.generics ref.arguments)) := by
  have hconfines : base.Confines (base.Clear parameters) := confines_clear hinstances
  have hgrown := asked_grows hconfines hquestions (hbase.grownBy _)
  obtain ⟨found, grown, names, hagain, ht, hnames, hanswer⟩ :=
    locate_again hconfines hbase href hgrown hresolves
  rw [hlocate] at hagain
  cases hagain
  obtain ⟨other, declared, hother, hdeclared', hsame, rfl⟩ :=
    hanswer.exists_entry hconfines ht hinstances (hconfines.plain href) harguments hnames
  rw [hdeclared] at hdeclared'
  cases hdeclared'
  have hlegible {ref : TypeRef} (h : base.Clear parameters ref.toType) :
      ∀ type ∈ ref.arguments, type.legible parameters :=
    fun type hmem => (h.comesTo (.argument hmem)).legible
  have hmatches := matches_of_spellings hbase.toKeyed (hlegible hother) (hlegible href)
    hsame.spellings hnames.spellings
  have hbody : generic.PlainBody := hbase.plainBody ⟨_, .inl (mem_stored_of_declaration hdeclared)⟩
  exact hbody.instantiate_matches hmatches

end Answers

/-- Definitions are stored and then questions are asked.  A reference with type arguments that
resolves to a package resolves to it after all questions, and is answered with an instance of
the definition of the package, for type arguments of the same canonical names.  If whatever
the questions came to can be read back from its name, that is the instance for the very type
arguments of the reference, up to how types refer to the same definitions. -/
theorem retrieve_after_questions {project : Project} {definitions : List TypeDef}
    {base : TypeTable} (hfiles : ∀ file ∈ project.files, file.plain = true)
    (hdefinitions : ∀ definition ∈ definitions, definition.plain = true)
    (hbase : definitions.foldlM store { project } = .ok base)
    {questions : List TypeQuestion}
    (hquestions : ∀ question ∈ questions, question.subject.plain = true) {ref : TypeRef}
    (hplain : ref.plain = true) (harguments : ref.arguments ≠ []) {package : String}
    {first : TypeDef} (hresolves : (locate ref).answer base = .ok (package, first)) :
    ∃ generic definition,
      base.stored.lookup (typeKey package ref.name ref.arguments.length) = some generic ∧
      (locate ref).answer (questions.foldl TypeQuestion.ask base) = .ok (package, definition) ∧
      (retrieve ref).answer (questions.foldl TypeQuestion.ask base) = .ok definition ∧
      (∃ arguments names, (canonicalNames arguments).answer base = .ok names ∧
        (canonicalNames ref.arguments).answer base = .ok names ∧
        definition = generic.instantiate (.ofLists generic.generics arguments)) ∧
      ∀ parameters, (∀ question ∈ questions, base.Clear parameters question.subject) →
        base.Clear parameters ref.toType →
          definition.Matches base
            (generic.instantiate (.ofLists generic.generics ref.arguments)) := by
  have hspelled := spelled_of_foldlM hfiles hdefinitions hbase
  have hinstances : base.instances = [] := (stored_of_foldlM hbase (.empty project)).2.2.1
  have hconfines := hspelled.confines
  have hgrown := asked_grows hconfines hquestions (hspelled.grownBy _)
  obtain ⟨definition, t, names, hlocate, ht, hnames, hanswer⟩ :=
    locate_again hconfines hspelled hplain hgrown hresolves
  obtain ⟨other, generic, hother, hdeclared, hsame, heq⟩ :=
    hanswer.exists_entry hconfines ht hinstances hplain harguments hnames
  refine ⟨generic, definition, (lookup_of_declaration hdeclared).2,
    answer_eq_ok.2 ⟨t, hlocate⟩, answer_eq_ok.2 ⟨t, bind_of_ok hlocate⟩,
    ⟨other.arguments, names, ?_, ?_, heq⟩, ?_⟩
  · exact (answer_canonicalNames hconfines (hspelled.grownBy _) (hconfines.arguments hother)).2
      hsame.spellings
  · exact (answer_canonicalNames hconfines (hspelled.grownBy _) (hconfines.arguments hplain)).2
      hnames.spellings
  · exact fun _ hclear href =>
      matches_of_clear hspelled hinstances hclear href harguments hdeclared hresolves hlocate

/-- The table of items of one package and boxes of another. -/
def boxTable : TypeTable :=
  { project := twoPackages
    stored := [("lib::Item", itemIn "lib.mer"), ("app::Box<1>", boxDef)] }

/-- A box of items is asked for twice, the second time with the package of the items in front.
What was made for the first is handed out for the second, and it is the same up to that. -/
theorem box_retrieved_for_qualified_item :
    [itemIn "lib.mer", boxDef].foldlM store { project := twoPackages } =
        .ok boxTable ∧
      (locate (boxOf (item (some "lib")))).answer boxTable =
        .ok ("app", boxHolding (item (some "lib"))) ∧
      (retrieve (boxOf (item (some "lib")))).answer
          ([.retrieve (boxOf (item none))].foldl TypeQuestion.ask boxTable) =
        .ok (boxHolding (item none)) ∧
      (boxHolding (item none)).Matches boxTable (boxHolding (item (some "lib"))) := by
  have hstored : [itemIn "lib.mer", boxDef].foldlM store { project := twoPackages } =
      .ok boxTable := rfl
  have hresolves : (locate (boxOf (item (some "lib")))).answer boxTable =
      .ok ("app", boxHolding (item (some "lib"))) := rfl
  have hretrieved : (retrieve (boxOf (item (some "lib")))).answer
      ([.retrieve (boxOf (item none))].foldl TypeQuestion.ask boxTable) =
        .ok (boxHolding (item none)) := rfl
  have hclear (type : TypeExpr) (h : type.legible [] = true) : boxTable.Clear [] type :=
    clear_of_legible (by simp [boxTable, itemIn, boxDef, TypeBody.opened]) h
  refine ⟨hstored, hresolves, hretrieved, ?_⟩
  obtain ⟨generic, definition, hlookup, _, hagain, _, hmatches⟩ :=
    @retrieve_after_questions twoPackages _ boxTable (by decide) (by decide) hstored
      [.retrieve (boxOf (item none))] (by decide) (boxOf (item (some "lib"))) (by decide)
      (by simp [boxOf]) "app" _ hresolves
  rw [hretrieved] at hagain
  cases hagain
  cases hlookup.symm.trans (show _ = some boxDef from rfl)
  refine hmatches [] (fun question hquestion => ?_) (hclear _ (by decide))
  rw [List.mem_singleton.1 hquestion]
  exact hclear _ (by decide)

/-- A pointer to a sum and a sum that begins with a pointer are named alike.  Once the box of
the pointer has been asked for, it is handed out for the box of the sum. -/
theorem box_of_other_type_retrieved :
    (locate (boxOf (.union [.pointer .int, .float]))).answer boxTable =
        .ok ("app", boxHolding (.union [.pointer .int, .float])) ∧
      (retrieve (boxOf (.union [.pointer .int, .float]))).answer
          ([.retrieve (boxOf (.pointer (.union [.int, .float])))].foldl TypeQuestion.ask
            boxTable) =
        .ok (boxHolding (.pointer (.union [.int, .float]))) ∧
      ¬ (boxHolding (.pointer (.union [.int, .float]))).Matches boxTable
        (boxHolding (.union [.pointer .int, .float])) := by
  refine ⟨rfl, rfl, fun h => ?_⟩
  cases h.body with
  | record hfields =>
    obtain ⟨⟨_, hheld⟩, _⟩ := List.forall₂_cons.1 hfields
    cases hheld

end Accord
