import Accord.Call.Resolution
import Accord.Proofs.Text.PlainName

/-!
# Sets of overloads

The key of a set of overloads ends with two numbers, and these can be read back
from the key whatever the names in it are.  So a function that is found in the set
of a call takes as many parameters as the call has arguments
(`Program.parameters_of_candidate`), and a call with type arguments finds generic
functions only (`Program.generics_of_candidate`).
-/

namespace Accord

variable {package name package' name' : String} {generics parameters generics' parameters' : Nat}
  {overload : Overload} {program : Program} {call : Call} {candidate : FunctionDef}

/-- The numbers in the key of a set can be read back, and so can the text before them. -/
theorem overloadKey_inj :
    overloadKey package name generics parameters =
        overloadKey package' name' generics' parameters' ↔
      package ++ "::" ++ name = package' ++ "::" ++ name' ∧ generics = generics' ∧
        parameters = parameters' := by
  refine ⟨fun h => ?_, ?_⟩
  · have hchars := congrArg String.toList h
    simp only [overloadKey, toString, String.toList_append, List.append_assoc] at hchars
    -- The last parenthesis opens the number of parameters, the last angle bracket the other.
    have hparen := eq_of_append_cons_eq_last (c := '(')
      (u := package.toList ++ "::".toList ++ name.toList ++ '<' :: generics.repr.toList ++ ['>'])
      (v := package'.toList ++ "::".toList ++ name'.toList ++ '<' :: generics'.repr.toList ++
        ['>'])
      (r := parameters.repr.toList ++ [')']) (s := parameters'.repr.toList ++ [')'])
      (by simp [not_mem_numeral]) (by simp [not_mem_numeral]) (by simpa using hchars)
    have hangle := eq_of_append_cons_eq_last (c := '<')
      (u := package.toList ++ "::".toList ++ name.toList)
      (v := package'.toList ++ "::".toList ++ name'.toList)
      (r := generics.repr.toList ++ ['>']) (s := generics'.repr.toList ++ ['>'])
      (by simp [not_mem_numeral]) (by simp [not_mem_numeral]) (by simpa using hparen.1)
    refine ⟨?_, ?_, ?_⟩
    · exact String.toList_inj.1 (by simpa only [String.toList_append] using hangle.1)
    · exact Nat.repr_inj.1 (String.toList_inj.1 (List.append_cancel_right hangle.2))
    · exact Nat.repr_inj.1 (String.toList_inj.1 (List.append_cancel_right hparen.2))
  · rintro ⟨htext, rfl, rfl⟩
    have hrest := congrArg (· ++ "<" ++ toString generics ++ ">(" ++ toString parameters ++ ")")
      htext
    simpa only [overloadKey, toString, String.append_assoc] using hrest

theorem overloadKey_counts (h : overloadKey package name generics parameters = overloadKey
      package' name' generics' parameters') :
    generics = generics' ∧ parameters = parameters' :=
  (overloadKey_inj.1 h).2

/-- The key of a set of functions of a plain name, in a package of a plain name, determines all
four parts of it. -/
theorem overloadKey_inj_of_plain (hpackage : isPlainName package) (hname : isPlainName name) :
    overloadKey package name generics parameters =
        overloadKey package' name' generics' parameters' ↔
      package = package' ∧ name = name' ∧ generics = generics' ∧ parameters = parameters' := by
  rw [overloadKey_inj, ← and_assoc (a := package = package')]
  refine and_congr_left' ⟨fun h => ?_, fun ⟨hp, hn⟩ => by rw [hp, hn]⟩
  have hcolon : ∀ {text : String}, isPlainName text → text.toList.count ':' = 0 :=
    fun hplain => List.count_eq_zero.2 (not_mem_of_plain hplain (by decide))
  have hchars := congrArg String.toList h
  simp only [String.toList_append, List.append_assoc] at hchars
  -- All colons are used up by the separator, so the other names have none either.
  have hcount := congrArg (List.count ':') hchars
  simp only [List.count_append, hcolon hpackage, hcolon hname] at hcount
  have hfree : package'.toList.count ':' = 0 ∧ name'.toList.count ':' = 0 := by omega
  obtain ⟨hp, hrest⟩ := eq_of_append_cons_eq (c := ':') (r := ':' :: name.toList)
    (s := ':' :: name'.toList) (List.count_eq_zero.1 (hcolon hpackage))
    (List.count_eq_zero.1 hfree.1) hchars
  exact ⟨String.toList_inj.1 hp, String.toList_inj.1 (List.cons.inj hrest).2⟩

/-! ## Sets -/

/-- Whether the function belongs to the set of a key. -/
def Overload.belongsTo (overload : Overload) (key : String) : Bool :=
  overload.key == key || (overload.function.isGeneric && overload.inferredKey == key)

/-- The two sets of a generic function differ. -/
theorem Overload.key_ne_inferredKey (h : overload.function.isGeneric) :
    overload.key ≠ overload.inferredKey := by
  intro hkey
  have hcount := (overloadKey_counts hkey).1
  simp_all [FunctionDef.isGeneric]

/-- A function goes to the end of each set that it belongs to. -/
theorem OverloadIndex.get_add (index : OverloadIndex) (overload : Overload) (key : String) :
    (index.add overload).sets.get key =
      index.sets.get key ++ if overload.belongsTo key then [overload.function] else [] := by
  cases hgeneric : overload.function.isGeneric with
  | false => simp [add, hgeneric, Overload.belongsTo, Buckets.get_push]
  | true =>
    have hne := Overload.key_ne_inferredKey hgeneric
    by_cases hkey : overload.key = key
    · have hother : overload.inferredKey ≠ key := fun h => hne (hkey.trans h.symm)
      simp [add, hgeneric, Overload.belongsTo, Buckets.get_push, hkey, hother]
    · simp [add, hgeneric, Overload.belongsTo, Buckets.get_push, hkey]

section Views

variable (index : OverloadIndex) (entries : List Overload) (table : OverloadTable)

theorem OverloadIndex.get_foldl (key : String) : (entries.foldl add index).sets.get key =
    index.sets.get key ++ (entries.filter (·.belongsTo key)).map (·.function) := by
  induction entries generalizing index with
  | nil => simp
  | cons first rest ih =>
    rw [List.foldl_cons, ih, get_add, List.filter_cons]
    split <;> simp [*]

theorem OverloadIndex.entryPoints_foldl : (entries.foldl add index).entryPoints =
    index.entryPoints ++ (entries.map (·.function)).filter (·.isEntryPoint) := by
  induction entries generalizing index with
  | nil => simp
  | cons first rest ih =>
    rw [List.foldl_cons, ih, List.map_cons, List.filter_cons]
    by_cases hentry : first.function.isEntryPoint <;> simp [add, hentry]

/-- A set holds the functions that belong to it, in the order in which they were stored. -/
theorem OverloadTable.overloads_eq (key : String) :
    table.overloads key = (table.entries.filter (·.belongsTo key)).map (·.function) := by
  rw [overloads, table.indexed, OverloadIndex.ofEntries, OverloadIndex.get_foldl]
  rfl

theorem OverloadTable.entryPoints_eq :
    table.entryPoints = table.functions.filter (·.isEntryPoint) := by
  rw [entryPoints, table.indexed, OverloadIndex.ofEntries, OverloadIndex.entryPoints_foldl]
  rfl

end Views

/-- A function of a plain name belongs to the sets of its package, name and number of parameters,
with its own number of type parameters or with none. -/
theorem Overload.belongsTo_iff_of_plain (hpackage : isPlainName overload.package)
    (hname : isPlainName overload.function.name) :
    overload.belongsTo (overloadKey package name generics parameters) ↔
      overload.package = package ∧ overload.function.name = name ∧
        overload.function.parameters.length = parameters ∧
        (overload.function.generics.length = generics ∨ generics = 0) := by
  rw [belongsTo, Bool.or_eq_true, Bool.and_eq_true, beq_iff_eq, beq_iff_eq, key, inferredKey,
    overloadKey_inj_of_plain hpackage hname, overloadKey_inj_of_plain hpackage hname]
  have hcount : overload.function.isGeneric ↔ overload.function.generics.length ≠ 0 := by
    simp [FunctionDef.isGeneric]
  rw [hcount]
  grind

/-- A function that belongs to a set has the number of parameters in the set's key. -/
theorem Overload.parameters_of_belongsTo
    (h : overload.belongsTo (overloadKey package name generics parameters)) :
    overload.function.parameters.length = parameters := by
  simp only [belongsTo, key, inferredKey, Bool.or_eq_true, Bool.and_eq_true, beq_iff_eq] at h
  rcases h with hkey | ⟨_, hkey⟩
  · exact (overloadKey_counts hkey).2
  · exact (overloadKey_counts hkey).2

theorem Program.overload_of_candidate (h : candidate ∈ program.candidates call) :
    ∃ overload ∈ program.functions.entries, overload.function = candidate ∧
      ∃ package, overload.belongsTo (overloadKey package call.name call.generics.length
        call.arguments.length) := by
  simp only [candidates, Call.candidateKeys, OverloadTable.overloads_eq, List.mem_flatMap,
    List.mem_map, List.mem_filter] at h
  obtain ⟨_, ⟨package, _, rfl⟩, overload, ⟨hentry, hbelongs⟩, hfunction⟩ := h
  exact ⟨overload, hentry, hfunction, package, hbelongs⟩

/-- Every function that a call may mean takes as many parameters as the call has
arguments. -/
theorem Program.parameters_of_candidate (h : candidate ∈ program.candidates call) :
    candidate.parameters.length = call.arguments.length := by
  obtain ⟨_, _, rfl, _, hbelongs⟩ := overload_of_candidate h
  exact Overload.parameters_of_belongsTo hbelongs

/-- A call with type arguments means generic functions only. -/
theorem Program.generics_of_candidate (h : candidate ∈ program.candidates call)
    (hconcrete : candidate.isGeneric = false) : call.generics = [] := by
  obtain ⟨overload, _, rfl, _, hbelongs⟩ := overload_of_candidate h
  simp only [Overload.belongsTo, Overload.key, hconcrete, Bool.false_and, Bool.or_false,
    beq_iff_eq] at hbelongs
  have hcount := (overloadKey_counts hbelongs).1
  have hnone : overload.function.generics = [] := by simpa [FunctionDef.isGeneric] using hconcrete
  exact List.eq_nil_of_length_eq_zero (by rw [← hcount, hnone, List.length_nil])

/-- Every function that a call may mean is a function of the program. -/
theorem Program.mem_functions_of_candidate (h : candidate ∈ program.candidates call) :
    candidate ∈ program.functions.functions := by
  obtain ⟨_, hentry, rfl, _⟩ := overload_of_candidate h
  exact List.mem_map_of_mem hentry

end Accord
