import Accord.Body.Scope
import Mathlib.Data.Finmap
import Mathlib.Data.List.Nodup

/-!
# Scopes are stacks of finite maps

Blocks are entered and left and objects are declared in any order.  Frames are kept for good,
but only those on the way from the current frame outwards are looked at.

* `ScopeStep` is a step in the life of a scope, and `Scope.after` the scope that steps lead to.
* `MapStack` is a stack of finite maps, which forgets a map when it is popped.
* `Scope.chain` are the frames from the current one outwards.  The number of a frame is larger
  than that of the frame around it (`Linked`), so the way outwards ends, and it goes from each
  frame to the one around it (`chainFrom_eq`).
* `Scope.Represents` says that the frames of the chain hold what the maps of a stack hold.  Each
  step of a scope is a step of its stack (`Represents.take`).
* `scope_refines_mapStack` says what is seen of this from outside.
-/

namespace Accord

open List

variable {rest : List Frame} {scope : Scope}

/-! ## Steps -/

/-- A step in the life of a scope. -/
inductive ScopeStep where
  | enter
  | leave
  | declare (name : String) (type : TypeExpr) (isConst isArgument : Bool) (span : Span)

/-- The steps of a block with others inside. -/
def ScopeStep.block (inner : List ScopeStep) : List ScopeStep :=
  .enter :: (inner ++ [.leave])

/-- The scope behind a step.  A declaration that is refused leaves the scope as it is. -/
def Scope.take (scope : Scope) : ScopeStep → Scope
  | .enter => scope.enter
  | .leave => scope.leave
  | .declare name type isConst isArgument span =>
    match scope.declare name type isConst isArgument span with
    | .ok next => next
    | .error _ => scope

/-- The scope that steps lead to from the start. -/
def Scope.after (steps : List ScopeStep) : Scope :=
  steps.foldl Scope.take {}

theorem Scope.after_concat (steps : List ScopeStep) (step : ScopeStep) :
    Scope.after (steps ++ [step]) = (Scope.after steps).take step := by
  rw [Scope.after, foldl_append]
  rfl

/-- Blocks that are entered are left again, and no others are. -/
inductive Balanced : List ScopeStep → Prop where
  | nil : Balanced []
  | declare (name : String) (type : TypeExpr) (isConst isArgument : Bool) (span : Span)
      {rest : List ScopeStep} (hrest : Balanced rest) :
      Balanced (.declare name type isConst isArgument span :: rest)
  | block {inner rest : List ScopeStep} (hinner : Balanced inner) (hrest : Balanced rest) :
      Balanced (ScopeStep.block inner ++ rest)

/-! ## Stacks of finite maps -/

/-- The objects of a block by their names. -/
abbrev ObjectMap := Finmap fun _ : String => LocalObject

/-- A stack of maps that has at least one, and the number of objects put into it so far. -/
structure MapStack where
  top : ObjectMap := ∅
  below : List ObjectMap := []
  count : Nat := 0

namespace MapStack

/-- The object under a name in the uppermost map that has the name. -/
def lookup (stack : MapStack) (name : String) : Option LocalObject :=
  (stack.top :: stack.below).findSome? (·.lookup name)

def push (stack : MapStack) : MapStack :=
  { stack with top := ∅, below := stack.top :: stack.below }

/-- Takes the uppermost map away, unless it is the only one. -/
def pop (stack : MapStack) : MapStack :=
  match stack.below with
  | [] => stack
  | map :: rest => { stack with top := map, below := rest }

/-- Puts an object with the next free number into the uppermost map. -/
def put (stack : MapStack) (name : String) (type : TypeExpr) (isConst isArgument : Bool) :
    MapStack :=
  { stack with
    top := stack.top.insert name ⟨stack.count, name, type, isConst, isArgument⟩
    count := stack.count + 1 }

def take (stack : MapStack) : ScopeStep → MapStack
  | .enter => stack.push
  | .leave => stack.pop
  | .declare name type isConst isArgument _ =>
    if (stack.lookup name).isSome then stack else stack.put name type isConst isArgument

/-- The stack that steps lead to from the start. -/
def after (steps : List ScopeStep) : MapStack :=
  steps.foldl take {}

/-- A map that was pushed is popped, whatever it holds by then. -/
theorem pop_of_below {stack inner : MapStack} (h : inner.below = stack.push.below) :
    inner.pop = { stack with count := inner.count } := by
  rw [pop, h]
  rfl

theorem foldl_block (inner : List ScopeStep) (stack : MapStack) :
    (ScopeStep.block inner).foldl take stack = (inner.foldl take stack.push).pop := by
  rw [ScopeStep.block, foldl_cons, foldl_append]
  rfl

/-- Balanced steps leave the maps below the uppermost alone. -/
theorem below_of_balanced {steps : List ScopeStep} (h : Balanced steps) (stack : MapStack) :
    (steps.foldl take stack).below = stack.below := by
  induction h generalizing stack with
  | nil => rfl
  | declare name type isConst isArgument span _ ih =>
    rw [foldl_cons, ih, take]
    split
    · rfl
    · rfl
  | block _ _ ihinner ihrest =>
    rw [foldl_append, ihrest, foldl_block, pop_of_below (ihinner stack.push)]

/-- A block is left with the maps that it was entered with. -/
theorem lookup_of_block {inner : List ScopeStep} (h : Balanced inner) (stack : MapStack)
    (name : String) :
    ((ScopeStep.block inner).foldl take stack).lookup name = stack.lookup name := by
  rw [foldl_block, pop_of_below (below_of_balanced h stack.push)]
  rfl

end MapStack

/-! ## Frames and their numbers -/

namespace Scope

/-- The frames from the one of a number outwards. -/
def chainFrom : List Frame → Nat → List Frame
  | [], _ => []
  | frame :: older, id =>
    if id = older.length then frame :: frame.outer.elim [] (chainFrom older)
    else chainFrom older id

/-- The frames from the current one outwards. -/
def chain (scope : Scope) : List Frame :=
  chainFrom scope.frames scope.current

/-- The frame around another has a smaller number. -/
def Linked : List Frame → Prop
  | [] => True
  | frame :: older => (∀ outer ∈ frame.outer, outer < older.length) ∧ Linked older

variable {frames : List Frame} {frame : Frame} {id : Nat}

/-- Frames that are opened later are not on the way. -/
theorem chainFrom_of_lt (later : Frame) (h : id < frames.length) :
    chainFrom (later :: frames) id = chainFrom frames id := by
  rw [chainFrom, if_neg (Nat.ne_of_lt h)]

theorem lt_of_frameAt? (h : frameAt? frames id = some frame) : id < frames.length := by
  induction frames with
  | nil => cases h
  | cons first older ih =>
    rw [frameAt?] at h
    rw [length_cons]
    split at h
    · omega
    · exact Nat.lt_succ_of_lt (ih h)

theorem exists_frameAt? (h : id < frames.length) : ∃ frame, frameAt? frames id = some frame := by
  induction frames with
  | nil => cases h
  | cons first older ih =>
    rw [frameAt?]
    split
    · exact ⟨first, rfl⟩
    · rename_i hne
      rw [length_cons] at h
      exact ih (by omega)

theorem outer_lt (hlinked : Linked frames) (h : frameAt? frames id = some frame) {outer : Nat}
    (houter : frame.outer = some outer) : outer < id := by
  induction frames with
  | nil => cases h
  | cons first older ih =>
    rw [frameAt?] at h
    split at h
    · rename_i hid
      cases h
      exact hid ▸ hlinked.1 outer houter
    · exact ih hlinked.2 h

/-- The way outwards goes from a frame to the one around it, and ends where there is none. -/
theorem chainFrom_eq (hlinked : Linked frames) (h : frameAt? frames id = some frame) :
    chainFrom frames id = frame :: frame.outer.elim [] (chainFrom frames) := by
  induction frames with
  | nil => cases h
  | cons first older ih =>
    have hskip : ∀ outer ∈ frame.outer, outer < older.length →
        chainFrom (first :: older) outer = chainFrom older outer :=
      fun _ _ hlt => chainFrom_of_lt first hlt
    rw [frameAt?] at h
    rw [chainFrom]
    split at h
    · rename_i hid
      cases h
      rw [if_pos hid]
      cases houter : frame.outer with
      | none => rfl
      | some outer => rw [Option.elim, Option.elim, hskip outer houter (hlinked.1 outer houter)]
    · rename_i hne
      rw [if_neg hne, ih hlinked.2 h]
      cases houter : frame.outer with
      | none => rfl
      | some outer =>
        have hlt := outer_lt hlinked.2 h houter
        have hid := lt_of_frameAt? h
        rw [Option.elim, Option.elim, hskip outer houter (by omega)]

/-- A name is searched along the chain. -/
theorem visibleFrom_eq (name : String) (frames : List Frame) (id : Nat) :
    visibleFrom name frames id = (chainFrom frames id).findSome? (·.find? name) := by
  induction frames generalizing id with
  | nil => rfl
  | cons first older ih =>
    rw [visibleFrom, chainFrom]
    split
    · rw [findSome?_cons]
      cases first.find? name with
      | some object => rfl
      | none =>
        cases first.outer with
        | none => rfl
        | some outer => exact ih outer
    · exact ih id

theorem lookup_eq (scope : Scope) (name : String) :
    scope.lookup name = scope.chain.findSome? (·.find? name) :=
  visibleFrom_eq name scope.frames scope.current

/-! ## Declared objects -/

@[simp] theorem length_insertAt (object : LocalObject) (frames : List Frame) (id : Nat) :
    (insertAt object frames id).length = frames.length := by
  induction frames with
  | nil => rfl
  | cons first older ih =>
    rw [insertAt]
    split
    · rfl
    · rw [length_cons, length_cons, ih]

theorem Linked.insertAt (h : Linked frames) (object : LocalObject) (id : Nat) :
    Linked (insertAt object frames id) := by
  induction frames with
  | nil => exact h
  | cons first older ih =>
    rw [Scope.insertAt]
    split
    · exact h
    · refine ⟨?_, ih h.2⟩
      rw [length_insertAt]
      exact h.1

/-- An object goes into the innermost frame of the chain. -/
theorem chainFrom_insertAt (object : LocalObject) (h : chainFrom frames id = frame :: rest) :
    chainFrom (insertAt object frames id) id =
      { frame with objects := object :: frame.objects } :: rest := by
  induction frames with
  | nil => cases h
  | cons first older ih =>
    rw [chainFrom] at h
    rw [insertAt]
    split at h
    · rename_i hid
      cases h
      rw [if_pos hid, chainFrom, if_pos hid]
    · rename_i hne
      rw [if_neg hne, chainFrom, length_insertAt, if_neg hne, ih h]

/-- Every object that was ever declared. -/
def objects (scope : Scope) : List LocalObject :=
  scope.frames.flatMap (·.objects)

theorem objects_insertAt (object : LocalObject) (h : id < frames.length) :
    ((insertAt object frames id).flatMap (·.objects)).Perm
      (object :: frames.flatMap (·.objects)) := by
  induction frames with
  | nil => cases h
  | cons first older ih =>
    rw [insertAt]
    split
    · exact .refl _
    · rename_i hne
      rw [length_cons] at h
      rw [flatMap_cons, flatMap_cons]
      exact ((ih (by omega)).append_left first.objects).trans perm_middle

/-! ## What holds after every step -/

/-- The names declared in the frames from the current one outwards. -/
def names (scope : Scope) : List String :=
  scope.chain.flatMap fun frame => frame.objects.map (·.name)

/-- The current frame exists, frames are linked to older ones, and no name is declared twice on
the way outwards. -/
structure Sound (scope : Scope) : Prop where
  linked : Linked scope.frames
  current : scope.current < scope.frames.length
  distinct : scope.names.Nodup

theorem sound_start : Sound {} := by
  refine ⟨⟨by simp, trivial⟩, by decide, by decide⟩

theorem chain_enter (scope : Scope) :
    scope.enter.chain = { outer := some scope.current } :: scope.chain := by
  rw [chain, enter, chainFrom, if_pos rfl]
  rfl

/-- Leaving goes one frame outwards, if there is one. -/
theorem leave_cases (h : scope.Sound) :
    (∃ frame, scope.chain = [frame] ∧ scope.leave = scope) ∨
      ∃ frame outer, scope.chain = frame :: chainFrom scope.frames outer ∧
        outer < scope.frames.length ∧ scope.leave = { scope with current := outer } := by
  obtain ⟨frame, hframe⟩ := exists_frameAt? h.current
  have hchain := chainFrom_eq h.linked hframe
  unfold leave
  rw [hframe, Option.bind_some, chain, hchain]
  cases houter : frame.outer with
  | none => exact .inl ⟨frame, rfl, rfl⟩
  | some outer =>
    have hlt := outer_lt h.linked hframe houter
    exact .inr ⟨frame, outer, rfl, hlt.trans h.current, rfl⟩

theorem chain_eq_cons (h : id < frames.length) : ∃ frame rest, chainFrom frames id = frame :: rest := by
  induction frames with
  | nil => cases h
  | cons first older ih =>
    rw [chainFrom]
    split
    · exact ⟨first, _, rfl⟩
    · rename_i hne
      rw [length_cons] at h
      exact ih (by omega)

section Declare

variable (scope) (name : String) (type : TypeExpr) (isConst isArgument : Bool) (span : Span)

/-- A declaration is refused if its name is visible, and otherwise puts an object with the next
number into the current frame. -/
theorem declare_cases :
    (∃ object, scope.lookup name = some object) ∧
        scope.declare name type isConst isArgument span = .error (.duplicateIdentifier name span) ∨
      scope.lookup name = none ∧ scope.declare name type isConst isArgument span =
        .ok { scope with
          frames := insertAt ⟨scope.nextId, name, type, isConst, isArgument⟩ scope.frames
            scope.current
          nextId := scope.nextId + 1 } := by
  unfold declare
  cases hlookup : scope.lookup name with
  | some object => exact .inl ⟨⟨object, rfl⟩, rfl⟩
  | none => exact .inr ⟨rfl, rfl⟩

theorem declare_eq_error_iff :
    scope.declare name type isConst isArgument span = .error (.duplicateIdentifier name span) ↔
      ∃ object, scope.lookup name = some object := by
  rcases declare_cases scope name type isConst isArgument span with ⟨hvisible, hrun⟩ | ⟨hnone, hrun⟩
  · simp [hrun, hvisible]
  · simp [hrun, hnone]

/-- A declaration is refused for one cause. -/
theorem cause_of_declare {cause : Diagnostic}
    (h : scope.declare name type isConst isArgument span = .error cause) :
    cause = .duplicateIdentifier name span := by
  rcases declare_cases scope name type isConst isArgument span with ⟨_, hrun⟩ | ⟨_, hrun⟩
  · rw [hrun] at h
    exact (Except.error.inj h).symm
  · rw [hrun] at h
    cases h

end Declare

theorem names_eq_cons {frame : Frame} (h : scope.chain = frame :: rest) :
    scope.names = frame.objects.map (·.name) ++
      rest.flatMap fun frame => frame.objects.map (·.name) := by
  rw [names, h, flatMap_cons]

/-- A name that is not visible is not declared on the way outwards. -/
theorem not_mem_names {name : String} (h : scope.lookup name = none) : name ∉ scope.names := by
  rw [lookup_eq, findSome?_eq_none_iff] at h
  intro hmem
  obtain ⟨frame, hframe, hname⟩ := mem_flatMap.1 hmem
  obtain ⟨object, hobject, rfl⟩ := mem_map.1 hname
  have hnone := find?_eq_none.1 (h frame hframe) object hobject
  simp at hnone

theorem Sound.take (h : scope.Sound) (step : ScopeStep) : (scope.take step).Sound := by
  cases step with
  | enter =>
    refine ⟨⟨?_, h.linked⟩, Nat.lt_succ_self _, ?_⟩
    · rintro outer ⟨⟩
      exact h.current
    · have hchain : (scope.take .enter).chain = _ := chain_enter scope
      rw [names_eq_cons hchain]
      exact h.distinct
  | leave =>
    change scope.leave.Sound
    rcases leave_cases h with ⟨frame, _, hleave⟩ | ⟨frame, outer, hchain, hlt, hleave⟩
    · rwa [hleave]
    · rw [hleave]
      have hdistinct := h.distinct
      rw [names_eq_cons hchain] at hdistinct
      exact ⟨h.linked, hlt, hdistinct.of_append_right⟩
  | declare name type isConst isArgument span =>
    rw [Scope.take]
    rcases declare_cases scope name type isConst isArgument span with
      ⟨_, hrun⟩ | ⟨hnone, hrun⟩
    · rwa [hrun]
    · rw [hrun]
      obtain ⟨frame, rest, hchain⟩ := chain_eq_cons h.current
      refine ⟨h.linked.insertAt _ _, ?_, ?_⟩
      · rw [length_insertAt]
        exact h.current
      · have hinserted := chainFrom_insertAt ⟨scope.nextId, name, type, isConst, isArgument⟩ hchain
        rw [names, chain, hinserted, flatMap_cons, map_cons, cons_append, ← names_eq_cons hchain]
        exact nodup_cons.2 ⟨not_mem_names hnone, h.distinct⟩

end Scope

/-! ## Each step of a scope is a step of its stack -/

/-- The objects of a frame by their names. -/
def Frame.toMap (frame : Frame) : ObjectMap :=
  frame.objects.foldr (fun object map => map.insert object.name object) ∅

theorem Frame.lookup_toMap (frame : Frame) (name : String) :
    frame.toMap.lookup name = frame.find? name := by
  unfold toMap find?
  induction frame.objects with
  | nil => rfl
  | cons object rest ih =>
    rw [foldr_cons, find?_cons]
    by_cases hname : object.name = name
    · subst hname
      simp
    · rw [Finmap.lookup_insert_of_ne _ (Ne.symm hname), ih, beq_false_of_ne hname]

/-- The frames from the current one outwards hold what the maps of the stack hold, and as many
objects were declared. -/
structure Scope.Represents (scope : Scope) (stack : MapStack) : Prop where
  maps : scope.chain.map Frame.toMap = stack.top :: stack.below
  count : scope.nextId = stack.count

namespace Scope.Represents

variable {stack : MapStack}

theorem lookup (h : scope.Represents stack) (name : String) :
    scope.lookup name = stack.lookup name := by
  rw [Scope.lookup_eq, MapStack.lookup, ← h.maps, findSome?_map]
  congr 1
  funext frame
  exact (frame.lookup_toMap name).symm

theorem leave (h : scope.Represents stack) (hsound : scope.Sound) :
    scope.leave.Represents stack.pop := by
  have hmaps := h.maps
  rcases Scope.leave_cases hsound with ⟨frame, hchain, hleave⟩ | ⟨frame, outer, hchain, hlt, hleave⟩
  · -- The only frame of the chain is the only map of the stack.
    rw [hchain] at hmaps
    obtain ⟨_, hbelow⟩ := cons.inj hmaps
    rw [hleave, MapStack.pop, ← hbelow]
    exact h
  · rw [hchain] at hmaps
    obtain ⟨_, hbelow⟩ := cons.inj hmaps
    obtain ⟨next, rest, hnext⟩ := Scope.chain_eq_cons hlt
    rw [hnext] at hbelow
    rw [hleave, MapStack.pop, ← hbelow]
    refine ⟨?_, h.count⟩
    rw [Scope.chain, hnext]
    rfl

theorem take (h : scope.Represents stack) (hsound : scope.Sound) (step : ScopeStep) :
    (scope.take step).Represents (stack.take step) := by
  cases step with
  | enter =>
    refine ⟨?_, h.count⟩
    have hchain : (scope.take .enter).chain = _ := Scope.chain_enter scope
    rw [hchain, map_cons, h.maps]
    rfl
  | leave => exact h.leave hsound
  | declare name type isConst isArgument span =>
    rw [Scope.take, MapStack.take, ← h.lookup]
    rcases Scope.declare_cases scope name type isConst isArgument span with
      ⟨⟨object, hvisible⟩, hrun⟩ | ⟨hnone, hrun⟩
    · rw [hrun, hvisible]
      exact h
    · rw [hrun, hnone]
      obtain ⟨frame, rest, hchain⟩ := Scope.chain_eq_cons hsound.current
      have hmaps : (frame :: rest).map Frame.toMap = stack.top :: stack.below := hchain ▸ h.maps
      obtain ⟨htop, hbelow⟩ := cons.inj hmaps
      refine ⟨?_, congrArg (· + 1) h.count⟩
      rw [Scope.chain, Scope.chainFrom_insertAt _ hchain, map_cons, hbelow, h.count]
      exact congrArg (cons · _) (congrArg (Finmap.insert name _) htop)

end Scope.Represents

/-- What steps lead to is sound, and represents the stack that they lead to. -/
theorem Scope.after_represents (steps : List ScopeStep) :
    (Scope.after steps).Sound ∧ (Scope.after steps).Represents (MapStack.after steps) := by
  have hrun : ∀ (scope : Scope) (stack : MapStack), scope.Sound → scope.Represents stack →
      (steps.foldl Scope.take scope).Sound ∧
        (steps.foldl Scope.take scope).Represents (steps.foldl MapStack.take stack) := by
    induction steps with
    | nil => exact fun _ _ hsound h => ⟨hsound, h⟩
    | cons step rest ih =>
      exact fun scope stack hsound h => ih _ _ (hsound.take step) (h.take hsound step)
  exact hrun {} {} Scope.sound_start ⟨rfl, rfl⟩

/-! ## Objects in order of creation -/

/-- The object that a step declares, if it declares one. -/
def ScopeStep.created? (scope : Scope) : ScopeStep → Option LocalObject
  | .declare name type isConst isArgument span =>
    match scope.declare name type isConst isArgument span with
    | .ok next => next.lookup name
    | .error _ => none
  | _ => none

namespace Scope

/-- The objects that steps declare, in order. -/
def created (scope : Scope) : List ScopeStep → List LocalObject
  | [] => []
  | step :: rest => (step.created? scope).toList ++ (scope.take step).created rest

/-- A step declares nothing, or an object with the next number. -/
inductive Creates (scope : Scope) (step : ScopeStep) : Prop where
  | none (created : step.created? scope = none)
      (objects : (scope.take step).objects = scope.objects)
      (next : (scope.take step).nextId = scope.nextId)
  | one {object : LocalObject} (created : step.created? scope = some object)
      (id : object.id = scope.nextId)
      (objects : (scope.take step).objects.Perm (object :: scope.objects))
      (next : (scope.take step).nextId = scope.nextId + 1)

theorem Sound.creates (h : scope.Sound) (step : ScopeStep) : Creates scope step := by
  cases step with
  | enter => exact .none rfl rfl rfl
  | leave =>
    have hleave : scope.take .leave = scope.leave := rfl
    rcases leave_cases h with ⟨_, _, heq⟩ | ⟨_, _, _, _, heq⟩
    · exact .none rfl (by rw [hleave, heq]) (by rw [hleave, heq])
    · exact .none rfl (by rw [hleave, heq]; rfl) (by rw [hleave, heq])
  | declare name type isConst isArgument span =>
    rcases declare_cases scope name type isConst isArgument span with ⟨_, hrun⟩ | ⟨_, hrun⟩
    · have htake : scope.take (.declare name type isConst isArgument span) = scope := by
        rw [Scope.take, hrun]
      exact .none (by rw [ScopeStep.created?, hrun]) (by rw [htake]) (by rw [htake])
    · let object : LocalObject := ⟨scope.nextId, name, type, isConst, isArgument⟩
      obtain ⟨frame, rest, hchain⟩ := chain_eq_cons h.current
      have hcreated : ScopeStep.created? scope (.declare name type isConst isArgument span) =
          some object := by
        rw [ScopeStep.created?, hrun]
        change Scope.lookup _ name = some object
        rw [lookup_eq, chain, chainFrom_insertAt _ hchain]
        simp [Frame.find?, object]
      refine .one hcreated rfl ?_ (by rw [Scope.take, hrun])
      rw [Scope.take, hrun]
      exact objects_insertAt object h.current

/-- Objects are numbered in the order in which they are created, and all of them are kept. -/
theorem Sound.created (h : scope.Sound) (steps : List ScopeStep) :
    (scope.created steps).map (·.id) = range' scope.nextId (scope.created steps).length ∧
      (steps.foldl Scope.take scope).objects.Perm (scope.created steps ++ scope.objects) := by
  induction steps generalizing scope with
  | nil => exact ⟨rfl, .refl _⟩
  | cons step rest ih =>
    obtain ⟨hids, hobjects⟩ := ih (h.take step)
    rw [foldl_cons, Scope.created]
    cases h.creates step with
    | none hcreated hkept hnext =>
      rw [hnext] at hids
      rw [hkept] at hobjects
      rw [hcreated]
      exact ⟨hids, hobjects⟩
    | one hcreated hid hadded hnext =>
      rw [hnext] at hids
      rw [hcreated, Option.toList_some, singleton_append, map_cons, length_cons,
        range'_succ, hid, hids]
      exact ⟨rfl, (hobjects.trans (hadded.append_left _)).trans perm_middle⟩

end Scope

/-- After any steps, a scope answers as the stack of finite maps that the same steps lead to.
A declaration is refused exactly if its name is visible, and then changes nothing.  No name is
declared twice on the way outwards.  Objects are numbered in the order of their creation, also
those in frames that have been left.  A block is left with what was visible before. -/
theorem scope_refines_mapStack (steps : List ScopeStep) :
    (∀ name, (Scope.after steps).lookup name = (MapStack.after steps).lookup name) ∧
    (∀ name type isConst isArgument span,
      ((Scope.after steps).declare name type isConst isArgument span =
          .error (.duplicateIdentifier name span) ↔
        ∃ object, (Scope.after steps).lookup name = some object) ∧
      ∀ cause, (Scope.after steps).declare name type isConst isArgument span = .error cause →
        cause = .duplicateIdentifier name span ∧
          Scope.after (steps ++ [.declare name type isConst isArgument span]) =
            Scope.after steps) ∧
    (Scope.after steps).names.Nodup ∧
    ((Scope.created {} steps).map (·.id)).Pairwise (· < ·) ∧
    (Scope.after steps).objects.Perm (Scope.created {} steps) ∧
    ∀ inner, Balanced inner → ∀ name,
      (Scope.after (steps ++ ScopeStep.block inner)).lookup name =
        (Scope.after steps).lookup name := by
  obtain ⟨hsound, hrepresents⟩ := Scope.after_represents steps
  obtain ⟨hids, hobjects⟩ := Scope.sound_start.created steps
  refine ⟨hrepresents.lookup, fun name type isConst isArgument span => ⟨?_, fun cause hcause => ?_⟩,
    hsound.distinct, ?_, ?_, fun inner hinner name => ?_⟩
  · exact Scope.declare_eq_error_iff _ name type isConst isArgument span
  · refine ⟨Scope.cause_of_declare _ name type isConst isArgument span hcause, ?_⟩
    rw [Scope.after_concat, Scope.take, hcause]
  · rw [hids]
    exact pairwise_lt_range'
  · rw [Scope.after]
    simpa [Scope.objects] using hobjects
  · rw [(Scope.after_represents (steps ++ ScopeStep.block inner)).2.lookup, hrepresents.lookup,
      MapStack.after, foldl_append]
    exact MapStack.lookup_of_block hinner (MapStack.after steps) name

/-- In a block with another inside, one name is refused because it is visible and two are declared.
Behind the block neither of the two is visible. -/
theorem nested_block_leaves_lookup :
    let declare (name : String) : ScopeStep := .declare name .int false false {}
    let inner := declare "y" :: ScopeStep.block [declare "x", declare "z"]
    Balanced inner ∧
      ((Scope.created {} (declare "x" :: ScopeStep.block inner)).map (·.name) = ["x", "y", "z"]) ∧
      ∀ name, (Scope.after ([declare "x"] ++ ScopeStep.block inner)).lookup name =
        (Scope.after [declare "x"]).lookup name := by
  intro declare inner
  have hbalanced : Balanced inner :=
    .declare _ _ _ _ _ (.block (.declare _ _ _ _ _ (.declare _ _ _ _ _ .nil)) .nil)
  obtain ⟨_, _, _, _, _, hblock⟩ := scope_refines_mapStack [declare "x"]
  exact ⟨hbalanced, by decide, hblock inner hbalanced⟩

end Accord
