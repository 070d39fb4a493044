import Accord.Proofs.Text.Brackets
import Accord.Types.Naming

/-!
# Plain names and keys

A name is plain if it is not empty, does not begin with a digit and holds none of
the characters that separate the parts of a key.  Identifiers are plain.

Keys of plain names are read back: `package_name_inj` takes apart any two texts of the
form `package::name…`, where nothing or an opening bracket follows the name.

* `typeKey_inj`: a key of a stored definition determines its parts.
* `instanceKey_inj`: the key of an instance determines its parts, given that its
  arguments are spelled by argument texts.
* `instanceKey_ne_typeKey`: no key is of both kinds.
-/

namespace Accord

variable {c : Char} {arity arity' : Nat} {texts others : List String} {text : String}

/-- The characters that separate the parts of keys and canonical names. -/
def isDelimiter (c : Char) : Bool :=
  ['<', '>', ',', ':', '#', '$', '[', ']', '|', ' '].contains c

/-- Whether a name can be told from what stands around it. -/
def isPlainName (name : String) : Bool :=
  match name.toList with
  | [] => false
  | first :: rest => !first.isDigit && (first :: rest).all (!isDelimiter ·)

/-- A text that may stand in a list of type arguments: it is closed and does not begin
like a number. -/
structure ArgumentText (text : String) : Prop where
  closed : ClosedText text.toList
  head : ∀ c ∈ text.toList.head?, c.isDigit = false

section PlainName

variable {name : String}

theorem not_delimiter_of_plain (h : isPlainName name) :
    ∀ c ∈ name.toList, isDelimiter c = false := by
  unfold isPlainName at h
  split at h
  · cases h
  · rename_i first rest hlist
    intro c hc
    rw [hlist] at hc
    have hall := (Bool.and_eq_true_iff.1 h).2
    simpa using List.all_eq_true.1 hall c hc

theorem not_mem_of_plain (h : isPlainName name) (hc : isDelimiter c) : c ∉ name.toList := by
  intro hmem
  have := not_delimiter_of_plain h c hmem
  rw [hc] at this
  cases this

/-- A plain name begins with a character that is no digit. -/
theorem exists_head_of_plain (h : isPlainName name) :
    ∃ first rest, name.toList = first :: rest ∧ first.isDigit = false := by
  unfold isPlainName at h
  split at h
  · cases h
  · rename_i first rest hlist
    exact ⟨first, rest, hlist, by simpa using (Bool.and_eq_true_iff.1 h).1⟩

theorem closed_of_plain (h : isPlainName name) : ClosedText name.toList := by
  refine ClosedText.of_forall fun c hc => ?_
  have hdelimiter := not_delimiter_of_plain h c hc
  refine ⟨?_, ?_, ?_⟩
  · rintro rfl
    cases hdelimiter
  · rintro rfl
    cases hdelimiter
  · rintro rfl
    cases hdelimiter

theorem argumentText_of_plain (h : isPlainName name) : ArgumentText name where
  closed := closed_of_plain h
  head := by
    obtain ⟨first, rest, hlist, hdigit⟩ := exists_head_of_plain h
    simpa [hlist] using hdigit

end PlainName

/-! ## Taking keys apart -/

/-- A text that is empty or begins with an opening bracket. -/
def IsSuffix (text : List Char) : Prop :=
  ∀ c ∈ text.head?, c = '<'

theorem append_suffix_inj {u v r s : List Char} (hu : '<' ∉ u) (hv : '<' ∉ v)
    (hr : IsSuffix r) (hs : IsSuffix s) (h : u ++ r = v ++ s) : u = v ∧ r = s := by
  -- Each first part is what stands before the first bracket.
  have htake : ∀ {w t : List Char}, '<' ∉ w → IsSuffix t → (w ++ t).takeWhile (· ≠ '<') = w := by
    intro w t hw ht
    have hstop : t.takeWhile (· ≠ '<') = [] := by
      cases t with
      | nil => rfl
      | cons c t =>
        have hc : c = '<' := ht c (by simp)
        simp [hc]
    rw [List.takeWhile_append_of_pos, hstop, List.append_nil]
    intro c hc
    have hne : c ≠ '<' := fun heq => hw (heq ▸ hc)
    simpa using hne
  have hparts : u = v := by
    calc u = (u ++ r).takeWhile (· ≠ '<') := (htake hu hr).symm
      _ = (v ++ s).takeWhile (· ≠ '<') := by rw [h]
      _ = v := htake hv hs
  subst hparts
  exact ⟨rfl, List.append_cancel_left h⟩

theorem package_name_inj {package name suffix package' name' suffix' : String}
    (hpackage : isPlainName package) (hname : isPlainName name)
    (hsuffix : IsSuffix suffix.toList) (hpackage' : isPlainName package')
    (hname' : isPlainName name') (hsuffix' : IsSuffix suffix'.toList)
    (h : package ++ "::" ++ name ++ suffix = package' ++ "::" ++ name' ++ suffix') :
    package = package' ∧ name = name' ∧ suffix = suffix' := by
  have hchars := congrArg String.toList h
  have hcolon := eq_of_append_cons_eq (c := ':')
    (r := ':' :: (name.toList ++ suffix.toList)) (s := ':' :: (name'.toList ++ suffix'.toList))
    (not_mem_of_plain hpackage rfl) (not_mem_of_plain hpackage' rfl)
    (by simpa [String.toList_append] using hchars)
  have hrest := append_suffix_inj (not_mem_of_plain hname rfl) (not_mem_of_plain hname' rfl)
    hsuffix hsuffix' (List.cons.inj hcolon.2).2
  exact ⟨String.toList_inj.1 hcolon.1, String.toList_inj.1 hrest.1, String.toList_inj.1 hrest.2⟩

/-! ## Keys of definitions and instances -/

/-- The number of type parameters, as a key spells it. -/
def aritySuffix (arity : Nat) : String :=
  if arity == 0 then "" else "<" ++ toString arity ++ ">"

theorem typeKey_eq (package name : String) (arity : Nat) :
    typeKey package name arity = package ++ "::" ++ name ++ aritySuffix arity :=
  rfl

theorem isSuffix_aritySuffix (arity : Nat) : IsSuffix (aritySuffix arity).toList := by
  unfold aritySuffix IsSuffix
  split <;> simp [String.toList_append]

theorem isSuffix_angled (separator : String) (texts : List String) :
    IsSuffix (angled separator texts).toList := by
  cases texts <;> simp [angled, IsSuffix, String.toList_append]

theorem aritySuffix_inj (h : aritySuffix arity = aritySuffix arity') : arity = arity' := by
  have hchars := congrArg String.toList h
  unfold aritySuffix at hchars
  split at hchars <;> split at hchars
  · simp_all
  · simp [String.toList_append] at hchars
  · simp [String.toList_append] at hchars
  · have hdigits : arity.repr = arity'.repr := by
      have hlist : arity.repr.toList ++ ['>'] = arity'.repr.toList ++ ['>'] := by
        simpa [String.toList_append] using hchars
      exact String.toList_inj.1 (List.append_cancel_right hlist)
    exact Nat.repr_inj.1 hdigits

/-- A list of argument texts does not begin like a number. -/
theorem head_joinWith {separator : String}
    (hseparator : ∃ first rest, separator.toList = first :: rest ∧ first.isDigit = false)
    (h : ∀ text ∈ texts, ArgumentText text) :
    ∀ c ∈ (joinWith separator texts).toList.head?, c.isDigit = false := by
  cases texts with
  | nil => simp [joinWith]
  | cons text rest =>
    have htext := (h text (by simp)).head
    cases rest with
    | nil => exact htext
    | cons next rest =>
      rw [toList_joinWith_cons]
      cases hlist : text.toList with
      | nil =>
        obtain ⟨first, others, hfirst, hdigit⟩ := hseparator
        simpa [hfirst] using hdigit
      | cons first more => simpa [hlist] using htext

/-- Type arguments are not spelled like a number of parameters. -/
theorem angled_ne_aritySuffix (hne : texts ≠ []) (h : ∀ text ∈ texts, ArgumentText text)
    (arity : Nat) : angled "," texts ≠ aritySuffix arity := by
  intro heq
  obtain ⟨text, rest, rfl⟩ := List.exists_cons_of_ne_nil hne
  have hchars := congrArg String.toList heq
  unfold aritySuffix at hchars
  split at hchars
  · simp [angled, String.toList_append] at hchars
  · have hinside : (joinWith "," (text :: rest)).toList = Nat.toDigits 10 arity := by
      have hlist : (joinWith "," (text :: rest)).toList ++ ['>'] =
          Nat.toDigits 10 arity ++ ['>'] := by
        simpa [angled, String.toList_append] using hchars
      exact List.append_cancel_right hlist
    have hcomma : ∃ first rest, ",".toList = first :: rest ∧ first.isDigit = false :=
      ⟨',', [], rfl, rfl⟩
    have hhead := head_joinWith hcomma h
    rw [hinside] at hhead
    cases hdigits : Nat.toDigits 10 arity with
    | nil => exact absurd hdigits Nat.toDigits_ne_nil
    | cons digit digits =>
      have hdigit : digit.isDigit :=
        Nat.isDigit_of_mem_toDigits (b := 10) (n := arity) (by decide) (by decide)
          (by simp [hdigits])
      have hno := hhead digit (by simp [hdigits])
      rw [hdigit] at hno
      cases hno

section Keys

variable {package name package' name' : String}

theorem typeKey_inj (hpackage : isPlainName package) (hname : isPlainName name)
    (hpackage' : isPlainName package') (hname' : isPlainName name')
    (h : typeKey package name arity = typeKey package' name' arity') :
    package = package' ∧ name = name' ∧ arity = arity' := by
  rw [typeKey_eq, typeKey_eq] at h
  obtain ⟨hp, hn, harity⟩ := package_name_inj hpackage hname (isSuffix_aritySuffix _)
    hpackage' hname' (isSuffix_aritySuffix _) h
  exact ⟨hp, hn, aritySuffix_inj harity⟩

theorem angled_inj (htexts : ∀ text ∈ texts, ClosedText text.toList)
    (hothers : ∀ text ∈ others, ClosedText text.toList) (h : angled "," texts = angled "," others) :
    texts = others := by
  have hchars := congrArg String.toList h
  cases texts with
  | nil =>
    cases others with
    | nil => rfl
    | cons other others => simp [angled, String.toList_append] at hchars
  | cons text texts =>
    cases others with
    | nil => simp [angled, String.toList_append] at hchars
    | cons other others =>
      have hlist : (joinWith "," (text :: texts)).toList ++ ['>'] =
          (joinWith "," (other :: others)).toList ++ ['>'] := by
        simpa [angled, String.toList_append] using hchars
      have hjoin := String.toList_inj.1 (List.append_cancel_right hlist)
      exact joinWith_inj ClosedText.append_comma_inj ClosedText.not_append_comma htexts hothers
        (by simp) (by simp) hjoin

theorem instanceKey_inj (hpackage : isPlainName package) (hname : isPlainName name)
    (htexts : ∀ text ∈ texts, ArgumentText text) (hpackage' : isPlainName package')
    (hname' : isPlainName name') (hothers : ∀ text ∈ others, ArgumentText text)
    (h : package ++ "::" ++ name ++ angled "," texts =
      package' ++ "::" ++ name' ++ angled "," others) :
    package = package' ∧ name = name' ∧ texts = others := by
  obtain ⟨hp, hn, hlist⟩ := package_name_inj hpackage hname (isSuffix_angled _ _)
    hpackage' hname' (isSuffix_angled _ _) h
  exact ⟨hp, hn, angled_inj (fun t ht => (htexts t ht).closed) (fun t ht => (hothers t ht).closed)
    hlist⟩

theorem instanceKey_ne_typeKey (hpackage : isPlainName package)
    (hname : isPlainName name) (hne : texts ≠ [])
    (htexts : ∀ text ∈ texts, ArgumentText text) (hpackage' : isPlainName package')
    (hname' : isPlainName name') :
    package ++ "::" ++ name ++ angled "," texts ≠ typeKey package' name' arity := by
  intro h
  rw [typeKey_eq] at h
  obtain ⟨_, _, hsuffix⟩ := package_name_inj hpackage hname (isSuffix_angled _ _)
    hpackage' hname' (isSuffix_aritySuffix _) h
  exact angled_ne_aritySuffix hne htexts arity hsuffix

/-- The canonical name of a reference is an argument text. -/
theorem argumentText_instance (hpackage : isPlainName package)
    (hname : isPlainName name) (htexts : ∀ text ∈ texts, ArgumentText text) :
    ArgumentText (package ++ "::" ++ name ++ angled "," texts) where
  closed := by
    have hcolons : ClosedText "::".toList := ClosedText.of_forall (by simp)
    simp only [String.toList_append]
    exact (((closed_of_plain hpackage).append hcolons).append (closed_of_plain hname)).append
      (closed_angled fun t ht => (htexts t ht).closed)
  head := by
    obtain ⟨first, rest, hlist, hdigit⟩ := exists_head_of_plain hpackage
    simpa [String.toList_append, hlist] using hdigit

end Keys

/-! ## Canonical names of other types -/

theorem argumentText_append {front : String} (hclosed : ClosedText front.toList)
    (hhead : ∃ first rest, front.toList = first :: rest ∧ first.isDigit = false)
    (h : ArgumentText text) : ArgumentText (front ++ text) where
  closed := by
    rw [String.toList_append]
    exact hclosed.append h.closed
  head := by
    obtain ⟨first, rest, hlist, hdigit⟩ := hhead
    simpa [String.toList_append, hlist] using hdigit

theorem argumentText_pointer (h : ArgumentText text) : ArgumentText ("#" ++ text) :=
  argumentText_append (ClosedText.of_forall (by simp)) ⟨'#', [], rfl, rfl⟩ h

theorem argumentText_slice (h : ArgumentText text) : ArgumentText ("$" ++ text) :=
  argumentText_append (ClosedText.of_forall (by simp)) ⟨'$', [], rfl, rfl⟩ h

/-- The length of an array holds no separator. -/
theorem not_separator_of_length {length : Nat} (hc : c ∈ ("[" ++ toString length ++ "]").toList) :
    c ≠ '<' ∧ c ≠ '>' ∧ c ≠ ',' ∧ c ≠ '|' := by
  have hcases : c = '[' ∨ c ∈ Nat.toDigits 10 length ∨ c = ']' := by
    simpa [String.toList_append] using hc
  rcases hcases with rfl | hdigit | rfl
  · decide
  · refine ⟨?_, ?_, ?_, ?_⟩
    all_goals
      rintro rfl
      exact not_mem_numeral length rfl hdigit
  · decide

theorem argumentText_array (length : Nat) (h : ArgumentText text) :
    ArgumentText ("[" ++ toString length ++ "]" ++ text) :=
  argumentText_append (ClosedText.of_forall fun _ hc =>
      have hfree := not_separator_of_length hc
      ⟨hfree.1, hfree.2.1, hfree.2.2.1⟩)
    ⟨'[', Nat.toDigits 10 length ++ [']'], by simp [String.toList_append], rfl⟩ h

theorem argumentText_union (h : ∀ text ∈ texts, ArgumentText text) :
    ArgumentText (joinWith " | " texts) where
  closed := closed_joinWith (ClosedText.of_forall (by simp)) fun t ht => (h t ht).closed
  head := head_joinWith ⟨' ', ['|', ' '], rfl, rfl⟩ h

end Accord
