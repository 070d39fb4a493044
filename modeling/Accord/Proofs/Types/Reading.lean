import Accord.Proofs.Types.Names

/-!
# Reading names back

The canonical name of a sum puts bars between the names of its alternatives and no brackets
around them.  So a pointer to a sum has the name of a sum whose first alternative is a pointer,
and a sum of one alternative has the name of that alternative.  Type parameters and primitive
types are named alike.

`TypeExpr.worded` leaves such types out: a sum has several alternatives, none of which is a sum,
and stands at the top or as a type argument.  Where the packages of references are in place, a
name is read in one way (`TypeExpr.eq_of_spelled`).  Names may be empty or begin with a digit.

Type arguments end at commas, and alternatives at bars, that stand outside of brackets.
-/

namespace Accord

variable {text more rest : List Char} {texts : List String} {name : String}
  {types alternatives : List TypeExpr} {type right : TypeExpr}

/-! ## Bars -/

/-- Commas and bars exchanged. -/
def swapBars (text : List Char) : List Char :=
  text.map fun c => if c = ',' then '|' else if c = '|' then ',' else c

theorem swapBars_append (text more : List Char) :
    swapBars (text ++ more) = swapBars text ++ swapBars more :=
  List.map_append

theorem swapBars_inj (h : swapBars text = swapBars more) : text = more := by
  refine List.map_injective_iff.2 (fun c d => ?_) h
  grind

/-- A text that closes its brackets and has no bar outside of them. -/
def BarClosed (text : List Char) : Prop :=
  ClosedText (swapBars text)

theorem BarClosed.append (h : BarClosed text) (hmore : BarClosed more) :
    BarClosed (text ++ more) := by
  rw [BarClosed, swapBars_append]
  exact ClosedText.append h hmore

theorem BarClosed.of_forall (h : ∀ c ∈ text, c ≠ '<' ∧ c ≠ '>' ∧ c ≠ '|') : BarClosed text := by
  refine ClosedText.of_forall fun c hc => ?_
  obtain ⟨d, hd, rfl⟩ := List.mem_map.1 hc
  have hd := h d hd
  grind

theorem BarClosed.space (h : BarClosed text) : ClosedText (swapBars (text ++ [' '])) :=
  h.append (BarClosed.of_forall (by simp))

theorem swapBars_bar (text more : List Char) : swapBars (text ++ (" | ".toList ++ more)) =
    swapBars (text ++ [' ']) ++ ',' :: swapBars (' ' :: more) := by
  simp [swapBars]

/-- Where a bar stands outside of brackets, an alternative ends. -/
theorem append_bar_inj {u v r s : List Char} (hu : BarClosed u) (hv : BarClosed v)
    (h : u ++ (" | ".toList ++ r) = v ++ (" | ".toList ++ s)) : u = v ∧ r = s := by
  have hchars := congrArg swapBars h
  rw [swapBars_bar, swapBars_bar] at hchars
  obtain ⟨hfront, hbehind⟩ := ClosedText.append_comma_inj hu.space hv.space hchars
  exact ⟨List.append_cancel_right (swapBars_inj hfront), (List.cons.inj (swapBars_inj hbehind)).2⟩

theorem BarClosed.not_append_bar (h : BarClosed text) :
    ¬ BarClosed (text ++ (" | ".toList ++ rest)) := by
  rw [BarClosed, swapBars_bar]
  exact h.space.not_append_comma

/-! ## Words -/

/-- Whether a text holds no separator of canonical names. -/
def isWord (text : String) : Bool :=
  text.toList.all (!isDelimiter ·)

/-- A text that closes its brackets, has no commas outside of them, and no bars if it stands in
brackets itself. -/
def Nested (text : List Char) : Prop :=
  ClosedText text ∧ InsideText (swapBars text)

theorem Nested.append (h : Nested text) (hmore : Nested more) : Nested (text ++ more) := by
  rw [Nested, swapBars_append]
  exact ⟨h.1.append hmore.1, h.2.append hmore.2⟩

/-- A text that closes its brackets and has neither commas nor bars outside of them. -/
def Sealed (text : String) : Prop :=
  ClosedText text.toList ∧ BarClosed text.toList

theorem Sealed.nested {text : String} (h : Sealed text) : Nested text.toList :=
  ⟨h.1, ClosedText.inside h.2⟩

theorem Sealed.append {text more : String} (h : Sealed text) (hmore : Sealed more) :
    Sealed (text ++ more) := by
  rw [Sealed, String.toList_append]
  exact ⟨h.1.append hmore.1, h.2.append hmore.2⟩

theorem Sealed.of_forall {text : String}
    (h : ∀ c ∈ text.toList, c ≠ '<' ∧ c ≠ '>' ∧ c ≠ ',' ∧ c ≠ '|') : Sealed text :=
  ⟨ClosedText.of_forall fun c hc => ⟨(h c hc).1, (h c hc).2.1, (h c hc).2.2.1⟩,
    BarClosed.of_forall fun c hc => ⟨(h c hc).1, (h c hc).2.1, (h c hc).2.2.2⟩⟩

theorem sealed_of_word {text : String} (h : isWord text) : Sealed text := by
  refine Sealed.of_forall fun c hc => ?_
  have hnot : isDelimiter c = false := by simpa using List.all_eq_true.1 h c hc
  simp [isDelimiter] at hnot
  tauto

theorem nested_joinWith {separator : String} (hseparator : Nested separator.toList)
    (h : ∀ text ∈ texts, Nested text.toList) :
    Nested (joinWith separator texts).toList :=
  joinWith_closed ⟨ClosedText.nil, InsideText.nil⟩ Nested.append hseparator h

/-- Type arguments stand in brackets, and so do the bars in them. -/
theorem sealed_angled (h : ∀ text ∈ texts, Nested text.toList) : Sealed (angled "," texts) := by
  refine ⟨closed_angled fun text htext => (h text htext).1, ?_⟩
  cases texts with
  | nil => exact ClosedText.nil
  | cons text rest =>
    have hjoined : InsideText (swapBars (joinWith "," (text :: rest)).toList) :=
      @joinWith_closed (fun text => InsideText (swapBars text)) InsideText.nil
        (fun htext hmore => by rw [swapBars_append]; exact htext.append hmore) ","
        (InsideText.of_forall (by simp [swapBars])) _ fun text htext => (h text htext).2
    rw [angled, String.toList_append, String.toList_append, BarClosed, swapBars_append,
      swapBars_append]
    exact hjoined.closed

/-- Two words that begin one text, with something else behind them, are the same. -/
theorem word_append_inj {name' : String} (hname : isWord name)
    (hname' : isWord name') {rest' : List Char}
    (hrest : ∀ c ∈ rest.head?, isDelimiter c)
    (hrest' : ∀ c ∈ rest'.head?, isDelimiter c)
    (h : name.toList ++ rest = name'.toList ++ rest') : name = name' ∧ rest = rest' := by
  -- A word is what stands before the first delimiter.
  have htake : ∀ {text : String} {more : List Char}, isWord text →
      (∀ c ∈ more.head?, isDelimiter c) →
        (text.toList ++ more).takeWhile (!isDelimiter ·) = text.toList := by
    intro text more htext hmore
    have hstop : more.takeWhile (!isDelimiter ·) = [] := by
      cases more with
      | nil => rfl
      | cons c more => simp [hmore c (by simp)]
    rw [List.takeWhile_append_of_pos (List.all_eq_true.1 htext), hstop, List.append_nil]
  have hnames : name.toList = name'.toList := by
    calc name.toList = (name.toList ++ rest).takeWhile (!isDelimiter ·) := (htake hname hrest).symm
      _ = (name'.toList ++ rest').takeWhile (!isDelimiter ·) := by rw [h]
      _ = name'.toList := htake hname' hrest'
  rw [hnames] at h
  exact ⟨String.toList_inj.1 hnames, List.append_cancel_left h⟩

/-- The length of an array is read back from its name. -/
theorem arrayName_inj {length length' : Nat} {text text' : String}
    (h : "[" ++ toString length ++ "]" ++ text = "[" ++ toString length' ++ "]" ++ text') :
    length = length' ∧ text = text' := by
  have hchars : (toString length).toList ++ ']' :: text.toList =
      (toString length').toList ++ ']' :: text'.toList := by
    have hlist := congrArg String.toList h
    simpa [String.toList_append] using hlist
  have hdigits : ∀ n : Nat, ']' ∉ (toString n).toList := by
    intro n hmem
    exact not_mem_numeral n rfl (by simpa using hmem)
  obtain ⟨hlength, htext⟩ := eq_of_append_cons_eq (hdigits length) (hdigits length') hchars
  exact ⟨Nat.repr_inj.1 (String.toList_inj.1 hlength), String.toList_inj.1 htext⟩

/-! ## Spellings -/

namespace TypeExpr

/-- Whether a type is a sum without a name. -/
def isUnion : TypeExpr → Bool
  | .union _ => true
  | _ => false

mutual

/-- The name of a type whose references have their packages in front of them. -/
def spelled : TypeExpr → String
  | .primitive name => name
  | .param name => name
  | .pointer target => "#" ++ target.spelled
  | .slice element => "$" ++ element.spelled
  | .array length element => "[" ++ toString length.toNat ++ "]" ++ element.spelled
  | .union alternatives => joinWith " | " (spelledAll alternatives)
  | .named name qualifier arguments _ =>
    qualifier.getD "" ++ "::" ++ name ++ argumentSuffix (spelledAll arguments)

def spelledAll : List TypeExpr → List String
  | [] => []
  | type :: rest => type.spelled :: spelledAll rest

end

theorem spelledAll_eq_map (types : List TypeExpr) : spelledAll types = types.map spelled := by
  induction types with
  | nil => rfl
  | cons type rest ih => rw [spelledAll, ih, List.map_cons]

mutual

/-- Whether a type can be read back from its name: names are words, primitives are none of `taken`
and parameters are among `own`, sums stand where they can be told, and what `sound` says holds of
the packages in front of references and of their origins. -/
def worded (own taken : List String) (sound : Option String → String → Bool) : TypeExpr → Bool
  | .primitive name => isWord name && !taken.contains name
  | .param name => isWord name && own.contains name
  | .pointer target => !target.isUnion && target.worded own taken sound
  | .slice element => !element.isUnion && element.worded own taken sound
  | .array _ element => !element.isUnion && element.worded own taken sound
  | .union alternatives => decide (2 ≤ alternatives.length) &&
      alternatives.all (fun type => !type.isUnion) && allWorded own taken sound alternatives
  | .named name qualifier arguments origin =>
    isWord name && sound qualifier origin && allWorded own taken sound arguments

def allWorded (own taken : List String) (sound : Option String → String → Bool) :
    List TypeExpr → Bool
  | [] => true
  | type :: rest => type.worded own taken sound && allWorded own taken sound rest

end

/-- Whether a reference has a package in front of it, and no origin. -/
def isPlaced (qualifier : Option String) (origin : String) : Bool :=
  qualifier.any isWord && origin == ""

variable {own taken : List String} {sound : Option String → String → Bool}

theorem allWorded_iff : allWorded own taken sound types ↔
    ∀ type ∈ types, type.worded own taken sound := by
  induction types with
  | nil => simp [allWorded]
  | cons type rest ih => simp [allWorded, ih]

/-- The word that a spelling begins with. -/
def front : TypeExpr → String
  | .primitive name => name
  | .param name => name
  | .named _ qualifier _ _ => qualifier.getD ""
  | _ => ""

/-- What stands behind that word. -/
def behind : TypeExpr → List Char
  | .pointer target => '#' :: target.spelled.toList
  | .slice element => '$' :: element.spelled.toList
  | .array length element => ("[" ++ toString length.toNat ++ "]" ++ element.spelled).toList
  | .named name _ arguments _ =>
    ':' :: ':' :: (name ++ argumentSuffix (spelledAll arguments)).toList
  | _ => []

theorem toList_spelled (h : type.isUnion = false) :
    type.spelled.toList = type.front.toList ++ type.behind := by
  cases type <;> simp_all [spelled, front, behind, isUnion, String.toList_append]

theorem head_behind (type : TypeExpr) : ∀ c ∈ type.behind.head?, isDelimiter c := by
  cases type <;> simp [behind, isDelimiter, String.toList_append]

theorem isWord_front (h : type.worded own taken isPlaced) : isWord type.front := by
  cases type with
  | named name qualifier arguments origin =>
    cases qualifier <;> simp_all [worded, isPlaced, front]
  | _ => simp_all [worded, front, isWord]

/-- Spellings close the brackets they open, and only those of sums have bars outside of them. -/
theorem sealed_spelled (type : TypeExpr) (h : type.worded own taken isPlaced) :
    Nested type.spelled.toList ∧ (type.isUnion = false → Sealed type.spelled) := by
  induction type using TypeExpr.induct with
  | step type ih =>
    have hfront := sealed_of_word (isWord_front h)
    have hwhole {text : String} (htext : Sealed text) {union : Bool} :
        Nested text.toList ∧ (union = false → Sealed text) :=
      ⟨htext.nested, fun _ => htext⟩
    have hall {types : List TypeExpr} (hsub : types ⊆ type.children)
        (hworded : allWorded own taken isPlaced types) :
        ∀ text ∈ spelledAll types, Nested text.toList := by
      rw [spelledAll_eq_map, List.forall_mem_map]
      exact fun part hmem => (ih part (hsub hmem) (allWorded_iff.1 hworded part hmem)).1
    have hmarked {mark : String} (hmark : Sealed mark) {part : TypeExpr}
        (hmem : part ∈ type.children)
        (hpart : (!part.isUnion && part.worded own taken isPlaced)) {union : Bool} :
        Nested (mark ++ part.spelled).toList ∧ (union = false → Sealed (mark ++ part.spelled)) := by
      simp only [Bool.and_eq_true, Bool.not_eq_true'] at hpart
      exact hwhole (hmark.append ((ih part hmem hpart.2).2 hpart.1))
    cases type with
    | primitive | param => exact hwhole hfront
    | union alternatives =>
      have hbar : Nested " | ".toList :=
        ⟨ClosedText.of_forall (by simp), InsideText.of_forall (by simp [swapBars])⟩
      exact ⟨nested_joinWith hbar (hall (List.Subset.refl _) (Bool.and_eq_true_iff.1 h).2), nofun⟩
    | pointer _ | slice _ => exact hmarked (Sealed.of_forall (by simp)) (.head _) h
    | array length element =>
      exact hmarked (Sealed.of_forall fun _ => not_separator_of_length) (.head _) h
    | named name qualifier arguments origin =>
      simp only [worded, Bool.and_eq_true] at h
      exact hwhole (((hfront.append (Sealed.of_forall (by simp))).append
        (sealed_of_word h.1.1)).append (sealed_angled (hall (List.Subset.refl _) h.2)))

theorem closed_spelledAll (h : allWorded own taken isPlaced types) :
    ∀ text ∈ spelledAll types, ClosedText text.toList := by
  rw [spelledAll_eq_map, List.forall_mem_map]
  exact fun type hmem => (type.sealed_spelled (allWorded_iff.1 h type hmem)).1.1

theorem spelledAll_ne_nil (h : 2 ≤ types.length) : spelledAll types ≠ [] := by
  cases types with
  | nil => simp at h
  | cons => exact List.cons_ne_nil _ _

theorem eq_union_of_isUnion (h : type.isUnion) : ∃ alternatives, type = .union alternatives := by
  cases type with
  | union alternatives => exact ⟨alternatives, rfl⟩
  | _ => cases h

theorem sealed_alternatives (h : (TypeExpr.union alternatives).worded own taken isPlaced) :
    2 ≤ alternatives.length ∧ (∀ type ∈ alternatives, type.worded own taken isPlaced) ∧
      ∀ text ∈ spelledAll alternatives, BarClosed text.toList := by
  simp only [worded, Bool.and_eq_true, decide_eq_true_eq, List.all_eq_true, Bool.not_eq_true'] at h
  have hworded := allWorded_iff.1 h.2
  refine ⟨h.1.1, hworded, ?_⟩
  rw [spelledAll_eq_map, List.forall_mem_map]
  exact fun type hmem => ((type.sealed_spelled (hworded type hmem)).2 (h.1.2 type hmem)).2

/-- The name of a sum has a bar outside of brackets. -/
theorem not_barClosed_union (h : (TypeExpr.union alternatives).worded own taken isPlaced) :
    ¬ BarClosed (TypeExpr.union alternatives).spelled.toList := by
  obtain ⟨hlength, _, hclosed⟩ := sealed_alternatives h
  match alternatives, hlength with
  | first :: second :: rest, _ =>
    rw [spelled, spelledAll, spelledAll, toList_joinWith_cons]
    exact (hclosed _ (by simp [spelledAll])).not_append_bar

theorem eq_of_spelledAll {left right : List TypeExpr}
    (h : ∀ one ∈ left, ∀ other ∈ right, one.spelled = other.spelled → one = other)
    (hnames : spelledAll left = spelledAll right) : left = right := by
  induction left generalizing right with
  | nil =>
    cases right with
    | nil => rfl
    | cons other others => cases hnames
  | cons one rest ih =>
    cases right with
    | nil => cases hnames
    | cons other others =>
      obtain ⟨hname, hrest⟩ := List.cons.inj hnames
      rw [h one (by simp) other (by simp) hname,
        ih (fun one hone other hother => h one (by simp [hone]) other (by simp [hother])) hrest]

/-- Types that are no sums and have one name are told by what stands behind the first word. -/
theorem eq_of_behind {left : TypeExpr} (hunion : left.isUnion = false)
    (hunion' : right.isUnion = false)
    (ih : ∀ child ∈ left.children, ∀ {other : TypeExpr}, child.worded own taken isPlaced →
      other.worded taken own isPlaced → child.spelled = other.spelled → child = other)
    (hleft : left.worded own taken isPlaced)
    (hright : right.worded taken own isPlaced) (h : left.spelled = right.spelled) :
    left = right := by
  have hchars : left.front.toList ++ left.behind = right.front.toList ++ right.behind := by
    rw [← toList_spelled hunion, ← toList_spelled hunion', h]
  obtain ⟨hfront, hbehind⟩ := word_append_inj (isWord_front hleft) (isWord_front hright)
    left.head_behind right.head_behind hchars
  cases left with
  | primitive _ | param _ =>
    cases right <;> simp_all [front, behind, worded, isUnion, String.toList_append]
  | union => cases hunion
  | pointer target =>
    cases right with
    | pointer other =>
      simp only [worded, Bool.and_eq_true] at hleft hright
      rw [ih target (by simp [children]) hleft.2 hright.2
        (by simpa [behind, String.toList_inj] using hbehind)]
    | _ => simp_all [behind, isUnion, String.toList_append]
  | slice element =>
    cases right with
    | slice other =>
      simp only [worded, Bool.and_eq_true] at hleft hright
      rw [ih element (by simp [children]) hleft.2 hright.2
        (by simpa [behind, String.toList_inj] using hbehind)]
    | _ => simp_all [behind, isUnion, String.toList_append]
  | array length element =>
    cases right with
    | array length' other =>
      simp only [worded, Bool.and_eq_true] at hleft hright
      obtain ⟨hlength, hinner⟩ := arrayName_inj (String.toList_inj.1 hbehind)
      rw [UInt64.toNat_inj.1 hlength, ih element (by simp [children]) hleft.2 hright.2 hinner]
    | _ => simp_all [behind, isUnion, String.toList_append]
  | named name qualifier arguments origin =>
    cases right with
    | named name' qualifier' arguments' origin' =>
      simp only [worded, Bool.and_eq_true] at hleft hright
      have hplaced : qualifier = qualifier' ∧ origin = origin' := by
        obtain ⟨⟨_, hplaced⟩, _⟩ := hleft
        obtain ⟨⟨_, hplaced'⟩, _⟩ := hright
        cases qualifier <;> cases qualifier' <;> simp_all [isPlaced, front]
      obtain ⟨rfl, hsuffix⟩ := word_append_inj hleft.1.1 hright.1.1
        (fun c hc => isSuffix_angled _ _ c hc ▸ rfl) (fun c hc => isSuffix_angled _ _ c hc ▸ rfl)
        (by simpa [behind, argumentSuffix, String.toList_append] using hbehind)
      have hnames := angled_inj (closed_spelledAll hleft.2) (closed_spelledAll hright.2)
        (String.toList_inj.1 hsuffix)
      have harguments := eq_of_spelledAll (fun one hone other hother => ih one hone
        (allWorded_iff.1 hleft.2 one hone) (allWorded_iff.1 hright.2 other hother)) hnames
      rw [hplaced.1, hplaced.2]
      exact congrArg (TypeExpr.named name qualifier' · origin') harguments
    | _ => simp_all [behind, isUnion, String.toList_append]

/-- A name is read in one way, if it tells parameters from primitives. -/
theorem eq_of_spelled (left : TypeExpr) (hleft : left.worded own taken isPlaced)
    (hright : right.worded taken own isPlaced) (h : left.spelled = right.spelled) :
    left = right := by
  induction left using TypeExpr.induct generalizing right with
  | step left ih =>
    -- Sums are told by their bars.
    cases hunion : left.isUnion with
    | false =>
      cases hunion' : right.isUnion with
      | false => exact eq_of_behind hunion hunion' (fun child hmem _ => ih child hmem) hleft hright h
      | true =>
        obtain ⟨alternatives, rfl⟩ := eq_union_of_isUnion hunion'
        have hclosed := ((left.sealed_spelled hleft).2 hunion).2
        rw [h] at hclosed
        exact absurd hclosed (not_barClosed_union hright)
    | true =>
      obtain ⟨alternatives, rfl⟩ := eq_union_of_isUnion hunion
      cases hunion' : right.isUnion with
      | false =>
        have hclosed := ((right.sealed_spelled hright).2 hunion').2
        rw [← h] at hclosed
        exact absurd hclosed (not_barClosed_union hleft)
      | true =>
        obtain ⟨alternatives', rfl⟩ := eq_union_of_isUnion hunion'
        obtain ⟨hlength, hworded, hclosed⟩ := sealed_alternatives hleft
        obtain ⟨hlength', hworded', hclosed'⟩ := sealed_alternatives hright
        have hnames := joinWith_inj append_bar_inj BarClosed.not_append_bar hclosed hclosed'
          (spelledAll_ne_nil hlength) (spelledAll_ne_nil hlength') h
        have halternatives := eq_of_spelledAll (fun one hone other hother => ih one hone
          (hworded one hone) (hworded' other hother)) hnames
        exact congrArg TypeExpr.union halternatives

end TypeExpr

/-! ## Packages in place -/

mutual

/-- A type with the package that declares it in front of every reference. -/
def TypeTable.placed (base : TypeTable) : TypeExpr → TypeExpr
  | .primitive name => .primitive name
  | .param name => .param name
  | .pointer target => .pointer (base.placed target)
  | .array length element => .array length (base.placed element)
  | .slice element => .slice (base.placed element)
  | .union alternatives => .union (base.placedAll alternatives)
  | .named name qualifier arguments origin =>
    .named name ((base.declaration? ⟨name, qualifier, arguments, origin⟩).map (·.1))
      (base.placedAll arguments) ""

def TypeTable.placedAll (base : TypeTable) : List TypeExpr → List TypeExpr
  | [] => []
  | type :: rest => base.placed type :: base.placedAll rest

end

theorem TypeTable.isUnion_placed (base : TypeTable) (type : TypeExpr) :
    (base.placed type).isUnion = type.isUnion := by
  cases type <;> rfl

theorem TypeTable.placedAll_eq_map (base : TypeTable) (types : List TypeExpr) :
    base.placedAll types = types.map base.placed := by
  induction types with
  | nil => rfl
  | cons type rest ih => rw [placedAll, ih, List.map_cons]

theorem word_of_plain (h : isPlainName name) : isWord name := by
  rw [isWord, List.all_eq_true]
  exact fun c hc => by rw [not_delimiter_of_plain h c hc]; rfl

end Accord
