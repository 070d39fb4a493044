import Accord.Proofs.Assign.Replay

/-!
# Types that are spelled differently

A type is written in a file and read from there: the same definition may be referred to with a
package in front and without, and from different files.  `TypeTable.Matches` says that two
types differ in nothing else.  Types that match have the same canonical name, and what one of
them stands for is found for the other later, so they are compared alike
(`matches_replaying`).

`TypeTable.spelling?` is the canonical name that a type has in every table with the same
definitions, whatever instances it holds.
-/

namespace Accord

open Query TypeTable TypeExpr TypeRef

variable {packages : List String} {left right : TypeRef} {rules rules' : Substitution}

/-- The package that declares what a reference refers to. -/
def TypeTable.home? (table : TypeTable) (ref : TypeRef) : Option String :=
  (table.declaration? ref).map (·.1)

theorem TypeTable.Over.home?_eq {base table : TypeTable} (h : base.Over table) (ref : TypeRef) :
    table.home? ref = base.home? ref := by
  rw [home?, h.declaration?_eq, home?]

mutual

/-- The canonical name of a type, if every reference inside is declared. -/
def TypeTable.spelling? (base : TypeTable) : TypeExpr → Option String
  | .primitive name => some name
  | .param name => some name
  | .pointer target => (base.spelling? target).map ("#" ++ ·)
  | .slice element => (base.spelling? element).map ("$" ++ ·)
  | .array length element =>
    (base.spelling? element).map ("[" ++ toString length.toNat ++ "]" ++ ·)
  | .union alternatives => (base.spellings? alternatives).map (joinWith " | ")
  | .named name qualifier arguments origin =>
    (base.spellings? arguments).bind fun names =>
      (base.home? ⟨name, qualifier, arguments, origin⟩).map fun home =>
        home ++ "::" ++ name ++ argumentSuffix names

/-- The canonical names of several types, in order. -/
def TypeTable.spellings? (base : TypeTable) : List TypeExpr → Option (List String)
  | [] => some []
  | type :: rest =>
    (base.spelling? type).bind fun name => (base.spellings? rest).map (name :: ·)

end

/-- Tables with the definitions of another. -/
def TypeTable.kind (base : TypeTable) : TableKind :=
  ⟨base.SpelledOver, SpelledOver.spelled⟩

/-! ## Types that match -/

/-- Two types that differ only in how they refer to the same definitions. -/
inductive TypeTable.Matches (base : TypeTable) : TypeExpr → TypeExpr → Prop where
  | primitive {name : String} (plain : isPlainName name = true) :
      Matches base (.primitive name) (.primitive name)
  | param {name : String} (plain : isPlainName name = true) :
      Matches base (.param name) (.param name)
  | pointer {left right : TypeExpr} (targets : Matches base left right) :
      Matches base (.pointer left) (.pointer right)
  | array (length : UInt64) {left right : TypeExpr} (elements : Matches base left right) :
      Matches base (.array length left) (.array length right)
  | slice {left right : TypeExpr} (elements : Matches base left right) :
      Matches base (.slice left) (.slice right)
  | union {left right : List TypeExpr} (alternatives : List.Forall₂ (Matches base) left right) :
      Matches base (.union left) (.union right)
  | named {name : String} {qualifier qualifier' : Option String} {left right : List TypeExpr}
      {origin origin' : String}
      (leftPlain : (⟨name, qualifier, left, origin⟩ : TypeRef).plain = true)
      (rightPlain : (⟨name, qualifier', right, origin'⟩ : TypeRef).plain = true)
      (homes : base.home? ⟨name, qualifier, left, origin⟩ =
        base.home? ⟨name, qualifier', right, origin'⟩)
      (arguments : List.Forall₂ (Matches base) left right) :
      Matches base (.named name qualifier left origin) (.named name qualifier' right origin')

section Matches

variable {base : TypeTable}

/-- References of one name that are declared in one package find the same there. -/
theorem locateNamed_matches {names : List String} (hleft : left.plain)
    (hright : right.plain) (hname : left.name = right.name)
    (hcount : left.arguments.length = right.arguments.length)
    (hhomes : base.home? left = base.home? right) (hlength : names.length = left.arguments.length)
    (hnames : ∀ name ∈ names, ArgumentText name) :
    base.kind.held.Replays
      (fun answer answer' => answer = answer' ∧ base.home? left = some answer.1 ∧
        isPlainName answer.1 ∧ answer.2.PlainBody)
      (locateNamed left names) (locateNamed right names) := by
  intro table htable
  have hcases := htable.spelled.toKeyed.locateNamed_cases hlength hleft hnames
  cases hdeclared : table.declaration? left with
  | none =>
    rw [hdeclared] at hcases
    rw [hcases]
    exact .error ⟨htable, rfl⟩
  | some declaration =>
    obtain ⟨package, declared⟩ := declaration
    rw [hdeclared] at hcases
    obtain ⟨hpackage, found, grown, hlocate, hfound⟩ := hcases
    have hlookup := (lookup_of_declaration hdeclared).2
    have hspelled := htable.spelled.of_found hleft hlength hnames hpackage hlookup hfound
    have hfind := hfound.find? hlength htable.spelled.toKeyed hleft hpackage hlookup
    have hbody := (handed_of_locateNamed hlocate).plainBody hleft fun _ => htable.spelled.plainBody
    have hbefore := Lasting.locateNamed left names table (Before.refl table)
    have hover := locateNamed_keeps left names table htable.toOver
    rw [after_of_ok hlocate] at hbefore hover
    have hhome : base.home? left = some package := by
      rw [← htable.home?_eq, home?, hdeclared]
      rfl
    rw [hlocate]
    refine .ok ⟨⟨hover, hspelled⟩, hbefore, ?_⟩
    rintro _ hlater hgrown later rfl
    refine ⟨_, _, ?_, rfl, rfl, hhome, hpackage, hbody⟩
    -- The package is the first for the other reference too, and the key is there by now.
    have hover' : base.Over later :=
      ⟨hgrown.project.trans hover.project, hgrown.stored.trans hover.stored⟩
    have hhome' : later.home? right = some package := by
      rw [hover'.home?_eq, ← hhomes, hhome]
    obtain ⟨⟨_, declared'⟩, hdeclared', rfl⟩ := Option.map_eq_some_iff.1 hhome'
    have hcases' := hlater.toKeyed.locateNamed_cases (hlength.trans hcount) hright hnames
    rw [hdeclared'] at hcases'
    obtain ⟨_, found', grown', hlocate', hfound'⟩ := hcases'
    have hfind' := hgrown.find? hfind
    rw [TypeRef.keyIn, hname] at hfind'
    obtain ⟨rfl, rfl⟩ := hfound'.of_find? (hlength.trans hcount) hlater.toKeyed hright hpackage
      (lookup_of_declaration hdeclared').2 hfind'
    exact hlocate'

theorem TypeTable.Matches.shape {left right : TypeExpr} (h : base.Matches left right) :
    SameShape base.Matches left right := by
  cases h with
  | primitive _ => exact .primitive _
  | param _ => exact .param _
  | pointer htargets => exact .pointer htargets
  | array length helements => exact .array length helements
  | slice helements => exact .slice helements
  | union halternatives => exact .union halternatives
  | named _ _ _ harguments => exact .named _ harguments

mutual

/-- A type with plain names matches itself. -/
theorem matches_self : (type : TypeExpr) → type.plain → base.Matches type type
  | .primitive _, h => .primitive h
  | .param _, h => .param h
  | .pointer target, h => .pointer (matches_self target h)
  | .array length element, h => .array length (matches_self element h)
  | .slice element, h => .slice (matches_self element h)
  | .union alternatives, h => .union (matchesAll_self alternatives h)
  | .named name qualifier arguments origin, h => by
    have href : (⟨name, qualifier, arguments, origin⟩ : TypeRef).plain := h
    exact .named href href rfl (matchesAll_self arguments (plain_iff.1 href).2.2)

theorem matchesAll_self : (types : List TypeExpr) → plainAll types →
    List.Forall₂ base.Matches types types
  | [], _ => .nil
  | type :: rest, h => by
    rw [plainAll, Bool.and_eq_true] at h
    exact .cons (matches_self type h.1) (matchesAll_self rest h.2)

end

mutual

/-- Types that match have plain names. -/
theorem plain_of_matches : (left : TypeExpr) → {right : TypeExpr} → base.Matches left right →
    left.plain ∧ right.plain
  | .primitive _, _, .primitive h => ⟨h, h⟩
  | .param _, _, .param h => ⟨h, h⟩
  | .pointer part, _, .pointer h | .array _ part, _, .array _ h | .slice part, _, .slice h =>
    (plain_of_matches part h :)
  | .union alternatives, _, .union h => plain_of_matchesAll alternatives h
  | .named _ _ _ _, _, .named hleft hright _ _ => ⟨hleft, hright⟩

theorem plain_of_matchesAll : (left : List TypeExpr) → {right : List TypeExpr} →
    List.Forall₂ base.Matches left right →
      plainAll left ∧ plainAll right
  | [], _, .nil => ⟨rfl, rfl⟩
  | type :: rest, _, .cons h hrest => by
    have hfirst := plain_of_matches type h
    have hrest := plain_of_matchesAll rest hrest
    simp only [plainAll, Bool.and_eq_true]
    exact ⟨⟨hfirst.1, hrest.1⟩, hfirst.2, hrest.2⟩

end

/-- The package of a reference does not depend on its type arguments. -/
theorem TypeTable.home?_substitute (base : TypeTable) (rules : Substitution) (ref : TypeRef) :
    base.home? (ref.substitute rules) = base.home? ref := by
  rw [home?, base.declaration?_substitute]
  rfl

mutual

theorem matches_substitute (hrules : SameRules base.Matches rules rules') :
    (left : TypeExpr) → {right : TypeExpr} →
      base.Matches left right → base.Matches (left.substitute rules) (right.substitute rules')
  | .primitive _, _, .primitive h => .primitive h
  | .param name, _, .param h => by
    rw [TypeExpr.substitute, TypeExpr.substitute]
    have hfind := hrules.find? name
    generalize rules.find? name = found, rules'.find? name = found' at hfind ⊢
    cases hfind with
    | none => exact .param h
    | some htype => exact htype
  | .pointer target, _, .pointer h => .pointer (matches_substitute hrules target h)
  | .array length element, _, .array _ h => .array length (matches_substitute hrules element h)
  | .slice element, _, .slice h => .slice (matches_substitute hrules element h)
  | .union alternatives, _, .union h => .union (matchesAll_substitute hrules alternatives h)
  | .named name qualifier left origin, _,
      @TypeTable.Matches.named _ _ _ qualifier' _ right _ origin' hleft hright hhomes harguments =>
    by
    have hall := matchesAll_substitute hrules left harguments
    have hplain := plain_of_matchesAll _ hall
    have hleft := plain_iff.1 hleft
    have hright := plain_iff.1 hright
    refine .named (plain_iff.2 ⟨hleft.1, hleft.2.1, hplain.1⟩)
      (plain_iff.2 ⟨hright.1, hright.2.1, hplain.2⟩) ?_ hall
    have hsame := base.home?_substitute rules ⟨name, qualifier, left, origin⟩
    have hsame' := base.home?_substitute rules' ⟨name, qualifier', right, origin'⟩
    exact hsame.trans (hhomes.trans hsame'.symm)

theorem matchesAll_substitute (hrules : SameRules base.Matches rules rules') :
    (left : List TypeExpr) → {right : List TypeExpr} → List.Forall₂ base.Matches left right →
      List.Forall₂ base.Matches (substituteAll rules left)
        (substituteAll rules' right)
  | [], _, .nil => .nil
  | type :: rest, _, .cons h hrest =>
    .cons (matches_substitute hrules type h) (matchesAll_substitute hrules rest hrest)

end

/-! ## Names -/

/-- The text is the canonical name of the type, and can stand between others. -/
structure TypeTable.Spells (base : TypeTable) (type : TypeExpr) (name : String) : Prop where
  text : ArgumentText name
  spelling : base.spelling? type = some name

/-- The texts are the canonical names of the types. -/
structure TypeTable.SpellsAll (base : TypeTable) (types : List TypeExpr) (names : List String) :
    Prop where
  length : names.length = types.length
  texts : ∀ name ∈ names, ArgumentText name
  spellings : base.spellings? types = some names

mutual

/-- Types that match have one name. -/
theorem canonicalName_matches : (left : TypeExpr) → {right : TypeExpr} →
    base.Matches left right →
      base.kind.held.Replays (fun name name' => name = name' ∧ base.Spells left name)
        (canonicalName left) (canonicalName right)
  | .primitive _, _, .primitive h | .param _, _, .param h =>
    .pure ⟨rfl, argumentText_of_plain h, rfl⟩
  | .pointer target, _, .pointer h => by
    refine (canonicalName_matches target h).bind fun name _ hname => ?_
    obtain ⟨rfl, htext, hspelling⟩ := hname
    exact .pure ⟨rfl, argumentText_pointer htext, by rw [spelling?, hspelling]; rfl⟩
  | .slice element, _, .slice h => by
    refine (canonicalName_matches element h).bind fun name _ hname => ?_
    obtain ⟨rfl, htext, hspelling⟩ := hname
    exact .pure ⟨rfl, argumentText_slice htext, by rw [spelling?, hspelling]; rfl⟩
  | .array length element, _, .array _ h => by
    refine (canonicalName_matches element h).bind fun name _ hname => ?_
    obtain ⟨rfl, htext, hspelling⟩ := hname
    exact .pure ⟨rfl, argumentText_array length.toNat htext, by rw [spelling?, hspelling]; rfl⟩
  | .union alternatives, _, .union h => by
    refine (canonicalNames_matches alternatives h).bind fun names _ hnames => ?_
    obtain ⟨rfl, _, htexts, hspellings⟩ := hnames
    exact .pure ⟨rfl, argumentText_union htexts, by rw [spelling?, hspellings]; rfl⟩
  | .named name qualifier arguments origin, _, .named hleft hright hhomes harguments => by
    unfold canonicalName
    refine (canonicalNames_matches arguments harguments).bind fun names _ hnames => ?_
    obtain ⟨rfl, hnames⟩ := hnames
    refine (locateNamed_matches hleft hright rfl harguments.length_eq hhomes hnames.length
      hnames.texts).bind fun answer _ hanswer => ?_
    obtain ⟨rfl, hhome, hpackage, _⟩ := hanswer
    refine (canonicalNames_matches arguments harguments).bind fun names' _ hnames' => ?_
    obtain ⟨rfl, _, htexts, hspellings⟩ := hnames'
    refine .pure ⟨rfl, argumentText_instance hpackage (plain_iff.1 hleft).1 htexts, ?_⟩
    rw [spelling?, hspellings, Option.bind_some, hhome]
    rfl

theorem canonicalNames_matches : (left : List TypeExpr) → {right : List TypeExpr} →
    List.Forall₂ base.Matches left right →
      base.kind.held.Replays (fun names names' => names = names' ∧ base.SpellsAll left names)
        (canonicalNames left) (canonicalNames right)
  | [], _, .nil => .pure ⟨rfl, rfl, by simp, rfl⟩
  | type :: rest, _, .cons h hrest => by
    unfold canonicalNames
    refine (canonicalName_matches type h).bind fun name _ hname => ?_
    obtain ⟨rfl, htext, hspelling⟩ := hname
    refine (canonicalNames_matches rest hrest).bind fun names _ hnames => ?_
    obtain ⟨rfl, hlength, htexts, hspellings⟩ := hnames
    refine .pure ⟨rfl, by simp [hlength], List.forall_mem_cons.2 ⟨htext, htexts⟩, ?_⟩
    rw [spellings?, hspelling, Option.bind_some, hspellings]
    rfl

end

theorem locate_matches (h : base.Matches left.toType right.toType) :
    base.kind.held.Replays (fun answer answer' => answer = answer' ∧ answer.2.PlainBody)
      (locate left) (locate right) := by
  obtain ⟨name, qualifier, arguments, origin⟩ := left
  obtain ⟨name', qualifier', arguments', origin'⟩ := right
  cases h with
  | named hleft hright hhomes harguments =>
    refine (canonicalNames_matches arguments harguments).bind fun names _ hnames => ?_
    obtain ⟨rfl, hnames⟩ := hnames
    exact (locateNamed_matches hleft hright rfl harguments.length_eq hhomes hnames.length
      hnames.texts).mono fun _ _ hanswer => ⟨hanswer.1, hanswer.2.2.2⟩

theorem SameBody.mono {related weaker : TypeExpr → TypeExpr → Prop} {left right : TypeDef}
    (h : SameBody related left right)
    (hrelated : ∀ one other, related one other → weaker one other) :
    SameBody weaker left right := by
  cases h with
  | record hbody hbody' => exact .record hbody hbody'
  | union hbody hbody' halternatives => exact .union hbody hbody' (halternatives.imp hrelated)
  | «alias» hbody hbody' htargets hnames =>
    exact .alias hbody hbody' (hrelated _ _ htargets) hnames

/-- Comparisons of types are repeated by comparisons of types that match them. -/
theorem matches_replaying (base : TypeTable) : Replaying base.kind base.Matches where
  self left _ h := matches_self left (plain_of_matches left h).1
  shape := Matches.shape
  union := .union
  substitute h hrules := matches_substitute hrules _ h
  name h := (canonicalName_matches _ h).mono fun _ _ hname => hname.1
  locate h := by
    refine (locate_matches h).mono fun answer _ hanswer => ?_
    obtain ⟨rfl, hbody⟩ := hanswer
    refine ⟨rfl, (SameBody.refl hbody).mono ?_⟩
    rintro type _ ⟨rfl, hplain⟩
    exact matches_self type hplain

end Matches

/-! ## The same types asked again -/

/-- What is answered again in the tables of every kind is answered again in every table. -/
theorem again_of_kinds {α : Type} {good : α → Prop} {query : TypeQuery α}
    (h : ∀ base : TypeTable, base.kind.held.Replays (fun a b => a = b ∧ good a) query query) :
    Again good query := by
  intro table htable
  refine (h table table ⟨.refl table, htable⟩).mono (fun _ _ hrun => ?_) fun _ _ hrun => ?_
  · exact ⟨hrun.good.spelled, hrun.before, hrun.repeats⟩
  · exact ⟨hrun.good.spelled, hrun.unplanned⟩

theorem canonicalName_replays (type : TypeExpr) (hplain : type.plain) :
    Again ArgumentText (canonicalName type) :=
  again_of_kinds fun _ => (canonicalName_matches type (matches_self type hplain)).mono
    fun _ _ hname => ⟨hname.1, hname.2.text⟩

theorem locate_replays {ref : TypeRef} (hplain : ref.plain) :
    Again (fun answer => answer.2.PlainBody) (locate ref) :=
  again_of_kinds fun _ => locate_matches (matches_self ref.toType hplain)

end Accord
