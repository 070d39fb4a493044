import Accord.Proofs.Call.Overloads
import Accord.Proofs.Types.Legible

/-!
# Keys of calls

The key of a call spells the place of the call, the name it calls and the names of its type
arguments and of the types of its arguments.  If names are identifiers and types are legible,
the key of a call without type arguments is read back from the right (`Call.keyText_inj`): the
last parenthesis opens the arguments, each argument ends with a semicolon, and no name of a
type argument ends with an opening bracket.

The place of a call is the package in front of it, or else its file.  A key does not tell which
of the two it spells.
-/

namespace Accord

open TypeExpr

variable {text key : String} {texts names names' : List String} {call : Call}

section Characters

variable {base : TypeTable} {parameters : List String}

/-! ## Characters of names -/

/-- Packages are named by identifiers. -/
def TypeTable.Identified (base : TypeTable) : Prop :=
  ∀ file ∈ base.project.files,
    isIdentifier file.package = true ∧ ∀ package ∈ file.imports, isIdentifier package = true

/-- The text holds none of the separators of calls. -/
def Unseparated (text : String) : Prop :=
  '(' ∉ text.toList ∧ ';' ∉ text.toList

theorem unseparated_iff : Unseparated text ↔ ∀ c ∈ text.toList, c ≠ '(' ∧ c ≠ ';' := by
  simp only [Unseparated, ← List.forall_mem_ne', forall_and]

theorem unseparated_of_identifier {name : String} (h : isIdentifier name) : Unseparated name := by
  have hall := List.all_eq_true.1 (Bool.and_eq_true_iff.1 h).2
  exact ⟨fun hmem => by simpa using hall _ hmem, fun hmem => by simpa using hall _ hmem⟩

/-- The package of a legible reference is named by an identifier. -/
theorem identifier_of_home (hbase : base.Identified) {ref : TypeRef}
    (href : ref.toType.legible parameters) {home : String}
    (h : base.home? ref = some home) : isIdentifier home := by
  obtain ⟨⟨package, declared⟩, hdeclared, rfl⟩ := Option.map_eq_some_iff.1 h
  simp only [TypeRef.toType, legible, Bool.and_eq_true] at href
  have hqualifier : ∀ written ∈ ref.qualifier, isIdentifier written := by
    intro written hwritten
    have hall := href.1.2
    rw [Option.mem_def.1 hwritten] at hall
    simpa using hall
  have hscopes : ∀ scope ∈ base.scopesOf ref, isIdentifier scope :=
    TypeTable.scopes_all (fun file hfile => hbase file hfile) hqualifier
  exact hscopes package (TypeTable.lookup_of_declaration hdeclared).1

/-- The name of a legible type holds none of the separators of calls. -/
theorem unseparated_of_spelling (hbase : base.Identified) (type : TypeExpr)
    (hlegible : type.legible parameters) (h : base.spelling? type = some text) :
    Unseparated text := by
  have hidentifier {name : String} (h : isIdentifier name) :=
    unseparated_iff.1 (unseparated_of_identifier h)
  refine unseparated_iff.2 (forall_mem_spelling (·.legible parameters) (by simp) (fun c hc => ?_)
    (fun {type} h => ?_) (fun h => hidentifier (Bool.and_eq_true_iff.1 h).1)
    (fun h => hidentifier (Bool.and_eq_true_iff.1 h).1) (fun _ => by simp)
    (fun h hhome => ⟨hidentifier (identifier_of_home hbase h hhome), ?_⟩) type hlegible h)
  · constructor <;> rintro rfl <;> cases hc
  · cases type <;> simp_all [legible, children, allLegible_iff]
  · simp only [TypeRef.toType, legible, Bool.and_eq_true] at h
    exact hidentifier h.1.1

end Characters

/-! ## Reading keys -/

/-- No text that closes its brackets ends with an opening one. -/
theorem ClosedText.not_append_open {text : List Char} : ¬ ClosedText (text ++ ['<']) := by
  intro h
  have hread := congrArg Prod.fst (h 0 0)
  simp [List.foldl_append, readBracket] at hread

theorem joinWith_ne_nil (separator : String) (hne : texts ≠ [])
    (htexts : ∀ text ∈ texts, text.toList ≠ []) : (joinWith separator texts).toList ≠ [] := by
  match texts, hne with
  | [text], _ => exact htexts text (by simp)
  | text :: next :: rest, _ =>
    have htext := htexts text (by simp)
    simp [toList_joinWith_cons, htext]

/-- A joined list of closed texts does not end with an opening bracket. -/
theorem getLast?_joinWith (hclosed : ∀ text ∈ texts, ArgumentText text)
    (hfilled : ∀ text ∈ texts, text.toList ≠ []) :
    (joinWith "," texts).toList.getLast? ≠ some '<' := by
  induction texts with
  | nil => simp [joinWith]
  | cons text rest ih =>
    obtain ⟨htext, hrest⟩ := List.forall_mem_cons.1 hclosed
    have hrest' := (List.forall_mem_cons.1 hfilled).2
    cases rest with
    | nil =>
      intro hlast
      obtain ⟨front, hfront⟩ := List.getLast?_eq_some_iff.1 hlast
      have htext := htext.closed
      rw [joinWith] at hfront
      rw [hfront] at htext
      exact ClosedText.not_append_open htext
    | cons next more =>
      have hne := joinWith_ne_nil "," (List.cons_ne_nil next more) hrest'
      rw [toList_joinWith_cons, ← List.append_assoc, List.getLast?_append_of_ne_nil _ hne]
      exact ih hrest hrest'

/-- The place of a call: the package written in front of it, or else its file. -/
def Call.place (call : Call) : String :=
  call.qualifier.getD call.origin

/-- The key of a call whose type arguments and arguments have types of the given names. -/
def Call.keyText (call : Call) (generics names : List String) : String :=
  call.place ++ "::" ++ call.name ++
    "<" ++ joinWith "," generics ++ ">(" ++ String.join (names.map (· ++ ";")) ++ ")"

theorem toList_terminated (names : List String) :
    (String.join (names.map (· ++ ";"))).toList =
      names.flatMap fun name => name.toList ++ [';'] := by
  induction names with
  | nil => rfl
  | cons name rest ih => simp [ih, String.toList_append]

/-- Names that are each followed by a semicolon are read back. -/
theorem terminated_inj (hnames : ∀ name ∈ names, Unseparated name)
    (hnames' : ∀ name ∈ names', Unseparated name)
    (h : (names.flatMap fun name => name.toList ++ [';']) =
      names'.flatMap fun name => name.toList ++ [';']) : names = names' := by
  induction names generalizing names' with
  | nil =>
    cases names' with
    | nil => rfl
    | cons name' rest' => simp at h
  | cons name rest ih =>
    cases names' with
    | nil => simp at h
    | cons name' rest' =>
      obtain ⟨hname, hrest⟩ := List.forall_mem_cons.1 hnames
      obtain ⟨hname', hrest'⟩ := List.forall_mem_cons.1 hnames'
      simp only [List.flatMap_cons, List.append_assoc, List.singleton_append] at h
      obtain ⟨hfirst, hmore⟩ := eq_of_append_cons_eq hname.2 hname'.2 h
      rw [String.toList_inj.1 hfirst, ih hrest hrest' hmore]

/-- The key of a call without type arguments is read back. -/
theorem Call.keyText_inj {call' : Call} (hname : isIdentifier call.name)
    (hname' : isIdentifier call'.name) {generics : List String}
    (hclosed : ∀ text ∈ generics, ArgumentText text)
    (hfilled : ∀ text ∈ generics, text.toList ≠ []) (hnames : ∀ name ∈ names, Unseparated name)
    (hnames' : ∀ name ∈ names', Unseparated name)
    (h : call.keyText [] names = call'.keyText generics names') :
    call.place = call'.place ∧ call.name = call'.name ∧ generics = [] ∧ names = names' := by
  have hchars := congrArg String.toList h
  simp only [keyText, String.toList_append, toList_terminated, joinWith] at hchars
  have hfree : ∀ {names : List String}, (∀ name ∈ names, Unseparated name) →
      '(' ∉ (names.flatMap fun name => name.toList ++ [';']) ++ [')'] := by
    intro names hnames hmem
    have hmem : '(' ∈ names.flatMap fun name => name.toList ++ [';'] := by simpa using hmem
    obtain ⟨name, hname, hmem⟩ := List.mem_flatMap.1 hmem
    exact (hnames name hname).1 (by simpa using hmem)
  -- The last parenthesis opens the list of arguments.
  obtain ⟨hfront, hback⟩ := eq_of_append_cons_eq_last (c := '(')
    (u := call.place.toList ++ "::".toList ++ call.name.toList ++ ['<'] ++ ['>'])
    (v := call'.place.toList ++ "::".toList ++ call'.name.toList ++ ['<'] ++
      (joinWith "," generics).toList ++ ['>'])
    (hfree hnames) (hfree hnames') (by simpa using hchars)
  have hfront := List.append_cancel_right hfront
  -- If there were type arguments, the last of them would end with a bracket.
  have hnil : generics = [] := by
    by_contra hne
    have hlast := congrArg List.getLast? hfront
    rw [List.getLast?_append_of_ne_nil _ (joinWith_ne_nil "," hne hfilled),
      List.getLast?_concat] at hlast
    exact getLast?_joinWith hclosed hfilled hlast.symm
  subst hnil
  have hfront := List.append_cancel_right (hfront.trans (List.append_nil _))
  have hcolon : ∀ {name : String}, isIdentifier name → ':' ∉ name.toList :=
    fun hname => not_mem_of_plain (plain_of_identifier hname) rfl
  obtain ⟨hplace, hsame⟩ := eq_of_append_cons_eq_last (c := ':')
    (u := call.place.toList ++ [':']) (v := call'.place.toList ++ [':'])
    (hcolon hname) (hcolon hname') (by simpa using hfront)
  have hplace := List.append_cancel_right hplace
  have hback := terminated_inj hnames hnames' (List.append_cancel_right hback)
  exact ⟨String.toList_inj.1 hplace, String.toList_inj.1 hsame, rfl, hback⟩

/-! ## Calls of one key -/

/-- The key spells the call and the types of its arguments. -/
def Call.SpelledAs (base : TypeTable) (call : Call) (arguments : List TypeExpr) (key : String) :
    Prop :=
  ∃ generics names, base.SpellsAll call.generics generics ∧ base.SpellsAll arguments names ∧
    key = call.keyText generics names

/-- Only one key spells a call. -/
theorem Call.SpelledAs.unique {base : TypeTable} {arguments : List TypeExpr} {key' : String}
    (h : call.SpelledAs base arguments key) (h' : call.SpelledAs base arguments key') :
    key = key' := by
  obtain ⟨generics, names, hgenerics, hnames, rfl⟩ := h
  obtain ⟨generics', names', hgenerics', hnames', rfl⟩ := h'
  have hsame := Option.some.inj (hgenerics.spellings.symm.trans hgenerics'.spellings)
  have hsame' := Option.some.inj (hnames.spellings.symm.trans hnames'.spellings)
  rw [hsame, hsame']

/-- A call whose name is an identifier, with legible types. -/
structure Call.Legible (parameters : List String) (call : Call) (arguments : List TypeExpr) :
    Prop where
  name : isIdentifier call.name = true
  generics : ∀ type ∈ call.generics, type.legible parameters = true
  arguments : ∀ type ∈ arguments, type.legible parameters = true

section OneKey

variable {base : TypeTable} {parameters : List String} {call' : Call}
  {arguments arguments' : List TypeExpr}

theorem matches_of_legible {types : List TypeExpr}
    (h : ∀ type ∈ types, type.legible parameters) : List.Forall₂ base.Matches types types :=
  matchesAll_self types (plainAll_of_legible types (allLegible_iff.2 h))

/-- A call is remembered under the key that spells it. -/
theorem Call.Legible.spells (h : call.Legible parameters arguments) :
    base.kind.held.Replays (fun key key' => key = key' ∧ call.SpelledAs base arguments key)
      (callKey call arguments) (callKey call arguments) := by
  refine (canonicalNames_matches _ (matches_of_legible h.generics)).bind
    fun generics _ hgenerics => ?_
  refine (canonicalNames_matches _ (matches_of_legible h.arguments)).bind fun names _ hnames => ?_
  obtain ⟨rfl, hgenerics⟩ := hgenerics
  obtain ⟨rfl, hnames⟩ := hnames
  exact .pure ⟨rfl, generics, names, hgenerics, hnames, rfl⟩

/-- Calls of one key, the first of which has no type arguments, have the same place and name,
and arguments of matching types. -/
theorem Call.Legible.matches_of_key (hkeyed : base.Keyed) (hnamed : base.Identified)
    (h : call.Legible parameters arguments) (h' : call'.Legible parameters arguments')
    (hkey : call.SpelledAs base arguments key) (hkey' : call'.SpelledAs base arguments' key)
    (hgenerics : call.generics = []) :
    call.place = call'.place ∧ call.name = call'.name ∧ call'.generics = [] ∧
      List.Forall₂ base.Matches arguments arguments' := by
  obtain ⟨generics, names, hnone, hnames, rfl⟩ := hkey
  obtain ⟨generics', names', hgenerics', hnames', heq⟩ := hkey'
  obtain rfl : generics = [] :=
    List.eq_nil_of_length_eq_zero (by rw [hnone.length, hgenerics, List.length_nil])
  have hmany {type : TypeExpr} (hlegible : type.legible parameters) (parts : List TypeExpr)
      (heq : type = .union parts) : 2 ≤ parts.length := by
    subst heq
    simp only [legible, Bool.and_eq_true, decide_eq_true_eq] at hlegible
    exact hlegible.1.1
  obtain ⟨hplace, hname, rfl, rfl⟩ := Call.keyText_inj h.name h'.name hgenerics'.texts
    (forall_of_spellings (fun type hmem _ => spelling_ne_nil
      (plain_of_legible type (h'.generics type hmem)) (hmany (h'.generics type hmem)))
      hgenerics'.spellings)
    (forall_of_spellings (fun type hmem _ => unseparated_of_spelling hnamed type
      (h.arguments type hmem)) hnames.spellings)
    (forall_of_spellings (fun type hmem _ => unseparated_of_spelling hnamed type
      (h'.arguments type hmem)) hnames'.spellings)
    heq
  exact ⟨hplace, hname, List.eq_nil_of_length_eq_zero hgenerics'.length.symm,
    matches_of_spellings hkeyed h.arguments h'.arguments hnames.spellings hnames'.spellings⟩

end OneKey

end Accord
