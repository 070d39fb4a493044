import Accord.Text
import Accord.Proofs.Text.Split

/-!
# Texts with brackets

A canonical name writes type arguments between angle brackets and puts commas
between them, and each argument may have brackets and commas of its own.  The
list of arguments can still be read back: the commas that separate them are those
that stand outside of all brackets.

* `ClosedText` says that a text closes every bracket it opens and has no comma
  outside of them.
* `joinWith_inj` reads a joined list of such texts back.
-/

namespace Accord

variable {separator : String} {texts : List String}

/-- Reads one character.  The state counts the open brackets and the commas met where no
bracket was open. -/
def readBracket (state : Nat × Nat) (c : Char) : Nat × Nat :=
  if c = '<' then (state.1 + 1, state.2)
  else if c = '>' then (state.1 - 1, state.2)
  else if c = ',' ∧ state.1 = 0 then (0, state.2 + 1)
  else state

/-- Reading the text changes nothing, wherever it stands. -/
def ClosedText (text : List Char) : Prop :=
  ∀ depth commas, text.foldl readBracket (depth, commas) = (depth, commas)

namespace ClosedText

variable {text more rest : List Char}

theorem nil : ClosedText [] :=
  fun _ _ => rfl

theorem append (h : ClosedText text) (hmore : ClosedText more) : ClosedText (text ++ more) := by
  intro depth commas
  rw [List.foldl_append, h, hmore]

/-- A text without brackets and commas is closed. -/
theorem of_forall (h : ∀ c ∈ text, c ≠ '<' ∧ c ≠ '>' ∧ c ≠ ',') : ClosedText text := by
  intro depth commas
  induction text with
  | nil => rfl
  | cons c text ih =>
    obtain ⟨hopen, hclose, hcomma⟩ := h c (by simp)
    rw [List.foldl_cons]
    have hstep : readBracket (depth, commas) c = (depth, commas) := by
      simp [readBracket, hopen, hclose, hcomma]
    rw [hstep]
    exact ih fun d hd => h d (by simp [hd])

/-- Commas are never forgotten. -/
theorem commas_le (text : List Char) (state : Nat × Nat) :
    state.2 ≤ (text.foldl readBracket state).2 := by
  induction text generalizing state with
  | nil => exact Nat.le_refl _
  | cons c text ih =>
    have hstep : state.2 ≤ (readBracket state c).2 := by
      unfold readBracket
      split
      · exact Nat.le_refl _
      · split
        · exact Nat.le_refl _
        · split
          · exact Nat.le_succ _
          · exact Nat.le_refl _
    rw [List.foldl_cons]
    exact Nat.le_trans hstep (ih _)

/-- A closed text with a comma behind it does not begin another closed text. -/
theorem not_append_comma (h : ClosedText text) : ¬ ClosedText (text ++ ',' :: rest) := by
  intro hlong
  have hread := hlong 0 0
  rw [List.foldl_append, h, List.foldl_cons] at hread
  have hcommas := commas_le rest (readBracket (0, 0) ',')
  rw [hread] at hcommas
  simp [readBracket] at hcommas

/-- Two equal texts that begin with a closed part and a comma have equal parts. -/
theorem append_comma_inj {u v r s : List Char} (hu : ClosedText u) (hv : ClosedText v)
    (h : u ++ ',' :: r = v ++ ',' :: s) : u = v ∧ r = s := by
  rcases List.append_eq_append_iff.1 h with ⟨extra, hlong, hrest⟩ | ⟨extra, hlong, hrest⟩
  · cases extra with
    | nil => exact ⟨by simpa using hlong.symm, by simpa using hrest⟩
    | cons c extra =>
      obtain ⟨rfl, _⟩ := List.cons.inj hrest
      exact absurd (hlong ▸ hv) hu.not_append_comma
  · cases extra with
    | nil => exact ⟨by simpa using hlong, by simpa using hrest.symm⟩
    | cons c extra =>
      obtain ⟨rfl, _⟩ := List.cons.inj hrest
      exact absurd (hlong ▸ hu) hv.not_append_comma

end ClosedText

/-- Reading the text changes nothing where a bracket is open. -/
def InsideText (text : List Char) : Prop :=
  ∀ depth commas, text.foldl readBracket (depth + 1, commas) = (depth + 1, commas)

theorem ClosedText.inside {text : List Char} (h : ClosedText text) : InsideText text :=
  fun depth => h (depth + 1)

namespace InsideText

variable {text more : List Char}

theorem nil : InsideText [] :=
  ClosedText.nil.inside

theorem append (h : InsideText text) (hmore : InsideText more) : InsideText (text ++ more) := by
  intro depth commas
  rw [List.foldl_append, h, hmore]

/-- Inside of brackets, commas are not counted. -/
theorem of_forall (h : ∀ c ∈ text, c ≠ '<' ∧ c ≠ '>') : InsideText text := by
  intro depth commas
  induction text with
  | nil => rfl
  | cons c text ih =>
    have hstep : readBracket (depth + 1, commas) c = (depth + 1, commas) := by
      simp [readBracket, h c (by simp)]
    rw [List.foldl_cons, hstep]
    exact ih fun d hd => h d (by simp [hd])

theorem closed (h : InsideText text) : ClosedText ("<".toList ++ text ++ ">".toList) := by
  intro depth commas
  have hopen : readBracket (depth, commas) '<' = (depth + 1, commas) := by simp [readBracket]
  have hclose : readBracket (depth + 1, commas) '>' = (depth, commas) := by simp [readBracket]
  rw [List.foldl_append, List.foldl_append]
  simp [hopen, hclose, h depth commas]

end InsideText

/-! ## Joined texts -/

theorem toList_joinWith_cons (separator text next : String) (rest : List String) :
    (joinWith separator (text :: next :: rest)).toList =
      text.toList ++ (separator.toList ++ (joinWith separator (next :: rest)).toList) := by
  simp [joinWith, String.toList_append]

/-- What passes from texts to their concatenations passes to joined texts. -/
theorem joinWith_closed {closed : List Char → Prop} (hnil : closed [])
    (happend : ∀ {text more}, closed text → closed more → closed (text ++ more))
    {separator : String} (hseparator : closed separator.toList) {texts : List String}
    (h : ∀ text ∈ texts, closed text.toList) : closed (joinWith separator texts).toList := by
  induction texts with
  | nil => exact hnil
  | cons text rest ih =>
    cases rest with
    | nil => exact h text (by simp)
    | cons next rest =>
      rw [toList_joinWith_cons]
      exact happend (h text (by simp)) (happend hseparator (ih fun t ht => h t (by simp [ht])))

theorem closed_joinWith (hseparator : ClosedText separator.toList)
    (h : ∀ text ∈ texts, ClosedText text.toList) :
    ClosedText (joinWith separator texts).toList :=
  joinWith_closed ClosedText.nil ClosedText.append hseparator h

/-- Arguments between brackets form a closed text. -/
theorem closed_angled {texts : List String} (h : ∀ text ∈ texts, ClosedText text.toList) :
    ClosedText (angled "," texts).toList := by
  cases texts with
  | nil => exact ClosedText.nil
  | cons text rest =>
    rw [angled, String.toList_append, String.toList_append]
    exact (joinWith_closed InsideText.nil InsideText.append (InsideText.of_forall (by simp))
      fun text htext => (h text htext).inside).closed

/-- A list of texts is read back from its joined form, if where a separator stands behind a text
is where the text ends. -/
theorem joinWith_inj {closed : List Char → Prop}
    (hinj : ∀ {u v r s : List Char}, closed u → closed v →
      u ++ (separator.toList ++ r) = v ++ (separator.toList ++ s) → u = v ∧ r = s)
    (hnot : ∀ {u r : List Char}, closed u → ¬ closed (u ++ (separator.toList ++ r)))
    {others : List String} (htexts : ∀ text ∈ texts, closed text.toList)
    (hothers : ∀ text ∈ others, closed text.toList) (hne : texts ≠ []) (hne' : others ≠ [])
    (h : joinWith separator texts = joinWith separator others) : texts = others := by
  induction texts generalizing others with
  | nil => exact absurd rfl hne
  | cons text rest ih =>
    obtain ⟨other, others, rfl⟩ := List.exists_cons_of_ne_nil hne'
    have htext := htexts text (by simp)
    have hother := hothers other (by simp)
    have hchars := congrArg String.toList h
    cases rest with
    | nil =>
      cases others with
      | nil => exact congrArg (· :: []) h
      | cons next others =>
        rw [toList_joinWith_cons] at hchars
        exact absurd (hchars ▸ htext) (hnot hother)
    | cons next rest =>
      cases others with
      | nil =>
        rw [toList_joinWith_cons] at hchars
        exact absurd (hchars ▸ hother) (hnot htext)
      | cons next' others =>
        rw [toList_joinWith_cons, toList_joinWith_cons] at hchars
        obtain ⟨hhead, htail⟩ := hinj htext hother hchars
        rw [String.toList_inj.1 hhead, ih (fun t ht => htexts t (by simp [ht]))
          (fun t ht => hothers t (by simp [ht])) (by simp) (by simp) (String.toList_inj.1 htail)]

end Accord
