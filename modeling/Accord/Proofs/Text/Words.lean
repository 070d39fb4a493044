import Accord.Proofs.Text.PlainName

/-!
# Words of canonical names

A canonical name falls into words: names of primitive types and parameters, names of
definitions with the package in front of them, and lengths of arrays with the bracket that
opens them.  A plain name is a word of its own, and so it is found among the words of a
canonical name only where the type has it (`MentionsWord`).
-/

namespace Accord

variable {c : Char} {text name : String}

/-- The characters that stand between the words of a canonical name. -/
def isSeparator (c : Char) : Bool :=
  ['<', '>', ',', '#', '$', ']', '|', ' '].contains c

theorem isDelimiter_of_isSeparator (h : isSeparator c) : isDelimiter c := by
  simp only [isSeparator, isDelimiter, List.contains_eq_mem, decide_eq_true_eq, List.mem_cons,
    List.not_mem_nil, or_false] at h ⊢
  tauto

theorem isDigit_of_isSeparator (h : isSeparator c) : c.isDigit = false := by
  simp only [isSeparator, List.contains_eq_mem, decide_eq_true_eq, List.mem_cons,
    List.not_mem_nil, or_false] at h
  rcases h with rfl | rfl | rfl | rfl | rfl | rfl | rfl | rfl <;> rfl

/-- One of the given names is a word of the text. -/
def MentionsWord (names : List String) (text : List Char) : Prop :=
  ∃ name ∈ names, name.toList ∈ text.splitOnP isSeparator

section Words

variable {names : List String}

/-- A separator ends one word and begins another. -/
theorem mentionsWord_append (hc : isSeparator c) (front rest : List Char) :
    MentionsWord names (front ++ c :: rest) ↔
      MentionsWord names front ∨ MentionsWord names rest := by
  unfold MentionsWord
  rw [List.splitOnP_append_cons front rest hc]
  simp only [List.mem_append, and_or_left, exists_or]

/-- A text without separators is one word. -/
theorem mentionsWord_iff_of_forall (h : ∀ c ∈ text.toList, isSeparator c = false) :
    MentionsWord names text.toList ↔ text ∈ names := by
  unfold MentionsWord
  rw [List.splitOnP_eq_singleton h]
  simp only [List.mem_singleton, String.toList_inj]
  exact ⟨fun ⟨name, hname, heq⟩ => heq ▸ hname, fun hmem => ⟨text, hmem, rfl⟩⟩

theorem mentionsWord_plain (h : isPlainName name) :
    MentionsWord names name.toList ↔ name ∈ names := by
  refine mentionsWord_iff_of_forall fun c hc => ?_
  cases hseparator : isSeparator c with
  | false => rfl
  | true => exact absurd hc (not_mem_of_plain h (isDelimiter_of_isSeparator hseparator))

variable (hnames : ∀ name ∈ names, isPlainName name = true)

include hnames

/-- A text without separators is no plain name if it has another delimiter. -/
theorem not_mentionsWord_of_mem (h : ∀ c ∈ text.toList, isSeparator c = false) {d : Char}
    (hd : isDelimiter d) (hmem : d ∈ text.toList) : ¬ MentionsWord names text.toList := by
  rw [mentionsWord_iff_of_forall h]
  intro hname
  exact not_mem_of_plain (hnames text hname) hd hmem

theorem not_mentionsWord_nil : ¬ MentionsWord names [] := by
  rintro ⟨name, hname, hmem⟩
  obtain ⟨first, rest, hlist, _⟩ := exists_head_of_plain (hnames name hname)
  rw [List.splitOnP_nil, List.mem_singleton, hlist] at hmem
  cases hmem

/-- A separator in front of a text adds no plain name. -/
theorem mentionsWord_cons (hc : isSeparator c) (rest : List Char) :
    MentionsWord names (c :: rest) ↔ MentionsWord names rest := by
  have happend : MentionsWord names ([] ++ c :: rest) ↔ _ := mentionsWord_append hc [] rest
  rw [List.nil_append] at happend
  rw [happend, or_iff_right (not_mentionsWord_nil hnames)]

theorem mentionsWord_array (length : Nat) (text : String) :
    MentionsWord names ("[" ++ toString length ++ "]" ++ text).toList ↔
      MentionsWord names text.toList := by
  have hsplit : ("[" ++ toString length ++ "]" ++ text).toList =
      ("[" ++ toString length).toList ++ ']' :: text.toList := by
    simp [String.toList_append]
  have hlength : ¬ MentionsWord names ("[" ++ toString length).toList := by
    refine not_mentionsWord_of_mem hnames (fun c hc => ?_) (d := '[') rfl
      (by simp [String.toList_append])
    have hcases : c = '[' ∨ c ∈ Nat.toDigits 10 length := by
      simpa [String.toList_append] using hc
    rcases hcases with rfl | hdigit
    · rfl
    · cases hseparator : isSeparator c with
      | false => rfl
      | true => exact absurd hdigit (not_mem_numeral length (isDigit_of_isSeparator hseparator))
  rw [hsplit, mentionsWord_append rfl, or_iff_right hlength]

/-- Separators in front of a text add no plain name. -/
theorem mentionsWord_strip {front : List Char} (hfront : ∀ c ∈ front, isSeparator c)
    (rest : List Char) : MentionsWord names (front ++ rest) ↔ MentionsWord names rest := by
  induction front with
  | nil => rfl
  | cons c front ih =>
    obtain ⟨hc, hfront⟩ := List.forall_mem_cons.1 hfront
    rw [List.cons_append, mentionsWord_cons hnames hc, ih hfront]

/-- The words of a joined list are those of its members. -/
theorem mentionsWord_joinWith {separator : String} (hne : separator.toList ≠ [])
    (hseparator : ∀ c ∈ separator.toList, isSeparator c) (texts : List String) :
    MentionsWord names (joinWith separator texts).toList ↔
      ∃ text ∈ texts, MentionsWord names text.toList := by
  induction texts with
  | nil => simpa [joinWith] using not_mentionsWord_nil hnames
  | cons text rest ih =>
    cases rest with
    | nil => simp [joinWith]
    | cons next rest =>
      obtain ⟨c, others, hlist⟩ := List.exists_cons_of_ne_nil hne
      rw [hlist] at hseparator
      obtain ⟨hc, hothers⟩ := List.forall_mem_cons.1 hseparator
      rw [toList_joinWith_cons, hlist, List.cons_append, mentionsWord_append hc,
        mentionsWord_strip hnames hothers, ih]
      simp

theorem mentionsWord_angled (texts : List String) :
    MentionsWord names (angled "," texts).toList ↔
      ∃ text ∈ texts, MentionsWord names text.toList := by
  cases texts with
  | nil => simpa [angled] using not_mentionsWord_nil hnames
  | cons text rest =>
    have hsplit : (angled "," (text :: rest)).toList =
        '<' :: (joinWith "," (text :: rest)).toList ++ ['>'] := by
      simp [angled, String.toList_append]
    rw [hsplit, mentionsWord_append rfl, or_iff_left (not_mentionsWord_nil hnames),
      mentionsWord_cons hnames rfl, mentionsWord_joinWith hnames (by simp) (by simp [isSeparator])]

/-- The words of a reference are those of its type arguments, apart from its own name. -/
theorem mentionsWord_instance {package : String} (hpackage : isPlainName package)
    (hname : isPlainName name) (texts : List String) :
    MentionsWord names (package ++ "::" ++ name ++ angled "," texts).toList ↔
      ∃ text ∈ texts, MentionsWord names text.toList := by
  have hplain : ∀ {part : String}, isPlainName part → ∀ c ∈ part.toList, isSeparator c = false := by
    intro part hpart c hc
    cases hseparator : isSeparator c with
    | false => rfl
    | true => exact absurd hc (not_mem_of_plain hpart (isDelimiter_of_isSeparator hseparator))
  have hhead : ¬ MentionsWord names (package ++ "::" ++ name).toList := by
    refine not_mentionsWord_of_mem hnames (fun c hc => ?_) (d := ':') rfl
      (by simp [String.toList_append])
    have hcases : c ∈ package.toList ∨ c = ':' ∨ c ∈ name.toList := by
      simpa [String.toList_append] using hc
    rcases hcases with hleft | rfl | hright
    · exact hplain hpackage c hleft
    · rfl
    · exact hplain hname c hright
  rw [String.toList_append]
  cases texts with
  | nil => simpa [angled] using hhead
  | cons text rest =>
    rw [← mentionsWord_angled hnames]
    have hsplit : (angled "," (text :: rest)).toList =
        '<' :: ((joinWith "," (text :: rest)).toList ++ ['>']) := by
      simp [angled, String.toList_append]
    rw [hsplit, mentionsWord_append rfl, or_iff_right hhead, mentionsWord_cons hnames rfl]

end Words

end Accord
