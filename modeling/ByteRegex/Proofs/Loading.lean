import ByteRegex.Proofs.Validation
import Mathlib.Data.List.Forall2

/-! Loading flat automata that come from anywhere. The checks decide which of them describe an automaton,
and they come in an order in which nothing is looked up before it is known to be there. What is loaded
depends on nothing but the parts that its states name. -/

namespace ByteRegex.FlatAutomaton

variable {flat first second : FlatAutomaton} {state other : FlatState} {automaton : Automaton}

section Strict

/-! Loading with strict access. A part that goes past the end of its array, or a state that does not
exist, leaves no answer at all. -/

def part? {α : Type} (shared : Array α) (start length : UInt32) : Option (List α) :=
  if start.toNat + length.toNat ≤ shared.size then
    some (shared.extract start.toNat (start.toNat + length.toNat)).toList
  else none

def strictStateDefect (flat : FlatAutomaton) (index : Nat) (state : FlatState) : Option (Option FlatDefect) :=
  if flat.next.size < state.nextStart.toNat + state.nextLength.toNat then
    return some (.nextOutOfBounds index)
  else if flat.ranges.size < state.rangesStart.toNat + state.rangesLength.toNat then
    return some (.rangesOutOfBounds index)
  else do
    let next ← part? flat.next state.nextStart state.nextLength
    match next.find? flat.isMissing with
    | some id => return some (.missingSuccessor index id)
    | none =>
      let ranges ← part? flat.ranges state.rangesStart state.rangesLength
      return if ranges.any fun range => range.last < range.first then some (.reversedRange index) else none

def strictStatesDefect (flat : FlatAutomaton) : List (FlatState × Nat) → Option (Option FlatDefect)
  | [] => return none
  | (state, index) :: rest => do
    match ← flat.strictStateDefect index state with
    | some defect => return some defect
    | none => flat.strictStatesDefect rest

def strictAcceptDefect (flat : FlatAutomaton) : Option (Option FlatDefect) := do
  let state ← flat.states[flat.accept.toNat]?
  return if state.isEpsilon && state.nextLength == 0 then none else some (.acceptNotSink flat.accept)

def strictDefect (flat : FlatAutomaton) : Option (Option FlatDefect) :=
  if flat.sources.isEmpty then return some .noSources
  else match (flat.sources ++ [flat.accept]).find? flat.isMissing with
    | some id => return some (.missingState id)
    | none => do
      match ← flat.strictStatesDefect flat.states.toList.zipIdx with
      | some defect => return some defect
      | none => flat.strictAcceptDefect

def strictStateOf (flat : FlatAutomaton) (state : FlatState) : Option State := do
  let kind ←
    if state.isEpsilon then some .epsilon
    else (part? flat.ranges state.rangesStart state.rangesLength).map fun ranges =>
      .consuming { ranges, inverted := state.isInverted }
  let next ← part? flat.next state.nextStart state.nextLength
  return { kind, back := state.isBack, next := next.map UInt32.toNat }

def strictLoad (flat : FlatAutomaton) : Option (Except FlatDefect Automaton) := do
  match ← flat.strictDefect with
  | some defect => return .error defect
  | none =>
    let states ← flat.states.toList.mapM flat.strictStateOf
    return .ok {
      states := states.toArray
      sources := flat.sources.map UInt32.toNat
      accept := flat.accept.toNat }

theorem part?_of_le {α : Type} {shared : Array α} {start length : UInt32}
    (inside : start.toNat + length.toNat ≤ shared.size) :
    part? shared start length = some (shared.extract start.toNat (start.toNat + length.toNat)).toList :=
  if_pos inside

theorem strictStateDefect_eq (flat : FlatAutomaton) (index : Nat) (state : FlatState) :
    flat.strictStateDefect index state = some (flat.stateDefect? index state) := by
  rw [strictStateDefect, stateDefect?]
  split
  · rfl
  next next_le =>
  split
  · rfl
  next ranges_le =>
  have next_part : part? flat.next state.nextStart state.nextLength = some (flat.nextOf state) :=
    part?_of_le (Nat.le_of_not_lt next_le)
  have ranges_part : part? flat.ranges state.rangesStart state.rangesLength = some (flat.rangesOf state) :=
    part?_of_le (Nat.le_of_not_lt ranges_le)
  rw [next_part, ranges_part]
  simp only [Option.bind_eq_bind, Option.bind_some]
  cases (flat.nextOf state).find? flat.isMissing with
  | some id => rfl
  | none => rfl

theorem strictStatesDefect_eq (flat : FlatAutomaton) (states : List (FlatState × Nat)) :
    flat.strictStatesDefect states =
      some (states.findSome? fun (state, index) => flat.stateDefect? index state) := by
  induction states with
  | nil => rfl
  | cons pair rest ih =>
    obtain ⟨state, index⟩ := pair
    rw [strictStatesDefect, strictStateDefect_eq, List.findSome?_cons, Option.bind_eq_bind, Option.bind_some]
    split
    next defect found =>
      simp only [found]
      rfl
    next found =>
      simp only [found]
      exact ih

theorem strictAcceptDefect_eq (inside : flat.accept.toNat < flat.states.size) :
    flat.strictAcceptDefect = some flat.acceptDefect? := by
  rw [strictAcceptDefect, acceptDefect?, Array.getElem?_eq_getElem inside]
  rfl

theorem strictDefect_eq (flat : FlatAutomaton) : flat.strictDefect = some flat.defect? := by
  rw [strictDefect, defect?]
  split
  · rfl
  split
  next id found =>
    rw [found]
    rfl
  next found =>
    have inside := find?_isMissing_iff.mp found flat.accept (by simp)
    rw [found, strictStatesDefect_eq, strictAcceptDefect_eq inside]
    simp only [Option.bind_eq_bind, Option.bind_some, Option.map_none]
    split
    next defect failed => rw [failed]; rfl
    next passed => rw [passed]; rfl

theorem strictStateOf_eq (fits : flat.Fits state) : flat.strictStateOf state = some (flat.stateOf state) := by
  rw [strictStateOf, stateOf, part?_of_le fits.next_le, part?_of_le fits.ranges_le]
  split <;> rfl

/-- Strict access always gives an answer, and the same one. -/
theorem strictLoad_eq (flat : FlatAutomaton) : flat.strictLoad = some flat.toAutomaton := by
  rw [strictLoad, strictDefect_eq, toAutomaton]
  simp only [Option.bind_eq_bind, Option.bind_some]
  cases found : flat.defect? with
  | some defect => rfl
  | none =>
    have fits := (defect?_eq_none_iff.mp found).fits
    have loaded {states : List FlatState} (listed : ∀ state ∈ states, state ∈ flat.states) :
        states.mapM flat.strictStateOf = some (states.map flat.stateOf) := by
      induction states with
      | nil => rfl
      | cons state rest ih =>
        obtain ⟨head, tail⟩ := List.forall_mem_cons.mp listed
        rw [List.mapM_cons, strictStateOf_eq (fits state head), ih tail]
        rfl
    rw [loaded fun state => Array.mem_toList_iff.mp, Option.bind_some, ← List.map_toArray, Array.toArray_toList]
    rfl

end Strict

section Unseen

/-! What loading does not look at. -/

/-- The states name the same part of the successors, with the same numbers in it, and carry the same flags.
For a consuming state the same holds of the ranges; those of an epsilon state are its own affair. -/
structure SameState (first second : FlatAutomaton) (state other : FlatState) : Prop where
  isEpsilon : other.isEpsilon = state.isEpsilon
  isBack : other.isBack = state.isBack
  nextStart : other.nextStart = state.nextStart
  nextLength : other.nextLength = state.nextLength
  next : ∀ offset < state.nextLength.toNat,
    second.next[state.nextStart.toNat + offset]? = first.next[state.nextStart.toNat + offset]?
  isInverted : ¬ state.isEpsilon → other.isInverted = state.isInverted
  rangesStart : ¬ state.isEpsilon → other.rangesStart = state.rangesStart
  rangesLength : ¬ state.isEpsilon → other.rangesLength = state.rangesLength
  ranges : ¬ state.isEpsilon → ∀ offset < state.rangesLength.toNat,
    second.ranges[state.rangesStart.toNat + offset]? = first.ranges[state.rangesStart.toNat + offset]?

/-- The automata differ at most in entries that no state names, in what epsilon states say about ranges,
and in flags without a meaning. -/
structure SameParts (first second : FlatAutomaton) : Prop where
  states : List.Forall₂ (SameState first second) first.states.toList second.states.toList
  sources : second.sources = first.sources
  accept : second.accept = first.accept

theorem extract_congr {α : Type} {shared others : Array α} {start length : Nat}
    (same : ∀ offset < length, others[start + offset]? = shared[start + offset]?) :
    others.extract start (start + length) = shared.extract start (start + length) := by
  have entry (items : Array α) (offset : Nat) : (items.extract start (start + length))[offset]? =
      if offset < length then items[start + offset]? else none := by
    rw [Array.getElem?_extract]
    split
    next inside => rw [if_pos (by omega)]
    next outside =>
      split
      next => exact (Array.getElem?_eq_none (by omega)).symm
      next => rfl
  apply Array.ext_getElem?
  intro offset
  rw [entry, entry]
  split
  next inside => exact same offset inside
  next => rfl

namespace SameState

theorem nextOf (same : SameState first second state other) : second.nextOf other = first.nextOf state := by
  rw [FlatAutomaton.nextOf, FlatAutomaton.nextOf, same.nextStart, same.nextLength, extract_congr same.next]

theorem stateOf (same : SameState first second state other) : second.stateOf other = first.stateOf state := by
  rw [FlatAutomaton.stateOf, FlatAutomaton.stateOf, same.isEpsilon, same.isBack, same.nextOf]
  split
  next => rfl
  next consuming =>
    rw [rangesOf, rangesOf, same.isInverted consuming, same.rangesStart consuming, same.rangesLength consuming,
      extract_congr (same.ranges consuming)]

end SameState

namespace SameParts

theorem size (same : SameParts first second) : second.states.size = first.states.size :=
  same.states.length_eq.symm

theorem described (same : SameParts first second) : second.described = first.described := by
  have states : second.states.map second.stateOf = first.states.map first.stateOf := by
    have each : List.Forall₂ (· = ·) (first.states.toList.map first.stateOf)
        (second.states.toList.map second.stateOf) := by
      rw [List.forall₂_map_left_iff, List.forall₂_map_right_iff]
      exact same.states.imp fun _ _ same => same.stateOf.symm
    rw [List.forall₂_eq_eq_eq] at each
    apply Array.toList_inj.mp
    rw [Array.toList_map, Array.toList_map, each]
  rw [FlatAutomaton.described, FlatAutomaton.described, states, same.sources, same.accept]

theorem accept_sink (same : SameParts first second)
    (sink : ∃ state, first.states[first.accept.toNat]? = some state ∧ state.isEpsilon ∧ state.nextLength = 0) :
    ∃ state, second.states[second.accept.toNat]? = some state ∧ state.isEpsilon ∧ state.nextLength = 0 := by
  obtain ⟨state, found, epsilon, empty⟩ := sink
  obtain ⟨inside, here⟩ := Array.getElem?_eq_some_iff.mp found
  have there : first.accept.toNat < second.states.size := same.size ▸ inside
  have pair : SameState first second first.states[first.accept.toNat] second.states[first.accept.toNat] :=
    same.states.get inside there
  rw [here] at pair
  refine ⟨second.states[first.accept.toNat], ?_, ?_, ?_⟩
  · rw [same.accept, Array.getElem?_eq_getElem there]
  · rw [pair.isEpsilon]
    exact epsilon
  · rw [pair.nextLength, empty]

/-- Only what is written for an automaton without looking at it can go wrong. -/
theorem wellFormed (same : SameParts first second) (sound : first.WellFormed)
    (fits : ∀ state ∈ second.states, second.Fits state) : second.WellFormed := by
  refine ⟨?_, ?_, fits, same.accept_sink sound.accept_sink⟩
  · rw [same.sources]
    exact sound.sources_ne_nil
  · rw [same.sources, same.size]
    exact sound.source_lt

end SameParts

end Unseen

/-- Loading succeeds for the well-formed flat automata and no others, and looks nothing up that is not there
whether it succeeds or not. It gives an automaton of the library with one state for each flat one. Other data
with the same parts in it gives the same automaton, unless a part goes past the end of its array or has a
reversed range in it, which is checked for the ranges of epsilon states as well. -/
theorem toAutomaton_checked (flat : FlatAutomaton) :
    ((∃ automaton, flat.toAutomaton = .ok automaton) ↔ flat.WellFormed) ∧
    flat.strictLoad = some flat.toAutomaton ∧
    ∀ automaton, flat.toAutomaton = .ok automaton →
      automaton.size = flat.states.size ∧ automaton.Valid ∧
      ∀ other, SameParts flat other →
        (other.toAutomaton = .ok automaton ↔ ∀ state ∈ other.states, other.Fits state) := by
  refine ⟨?_, strictLoad_eq flat, ?_⟩
  · constructor
    · intro ⟨automaton, loaded⟩
      exact (toAutomaton_eq_ok_iff.mp loaded).1
    · exact fun wellFormed => ⟨flat.described, toAutomaton_eq_ok_iff.mpr ⟨wellFormed, rfl⟩⟩
  · intro automaton loaded
    obtain ⟨wellFormed, rfl⟩ := toAutomaton_eq_ok_iff.mp loaded
    refine ⟨Array.size_map .., valid_of_toAutomaton loaded, ?_⟩
    intro other same
    rw [toAutomaton_eq_ok_iff]
    constructor
    · exact fun accepted => accepted.1.fits
    · exact fun fits => ⟨same.wellFormed wellFormed fits, same.described⟩

/-- A consuming state with flags that mean nothing, an epsilon state with ranges whose successors start
where their array ends, and entries that belong to no state. -/
def cluttered : FlatAutomaton where
  states := #[⟨1, 2, 1, 1, 0xf8⟩, ⟨3, 0, 0, 2, 0x03⟩]
  next := #[0xffffffff, 1, 0]
  ranges := #[⟨0x61, 0x62⟩, ⟨0x30, 0x39⟩]
  sources := [0]
  accept := 1

def tidied : FlatAutomaton where
  states := #[⟨1, 2, 1, 1, 0⟩, ⟨3, 0, 0, 0, 0x41⟩]
  next := #[0, 1, 0, 9]
  ranges := #[⟨0xff, 0⟩, ⟨0x30, 0x39⟩]
  sources := [0]
  accept := 1

theorem toAutomaton_checked_cluttered : cluttered.WellFormed ∧ SameParts cluttered tidied ∧
    ∃ automaton, cluttered.toAutomaton = .ok automaton ∧ cluttered.strictLoad = some (.ok automaton) ∧
      automaton.size = 2 ∧ automaton.Valid ∧ tidied.toAutomaton = .ok automaton := by
  have wellFormed : cluttered.WellFormed := defect?_eq_none_iff.mp (by decide)
  have loaded : cluttered.toAutomaton = .ok cluttered.described := toAutomaton_eq_ok_iff.mpr ⟨wellFormed, rfl⟩
  have same : SameParts cluttered tidied := by
    refine ⟨.cons ?_ (.cons ?_ .nil), rfl, rfl⟩
    · constructor <;> decide
    · constructor <;> decide
  have fits : ∀ state ∈ tidied.states, tidied.Fits state := by
    have sound : tidied.WellFormed := defect?_eq_none_iff.mp (by decide)
    exact sound.fits
  obtain ⟨_, strict, describes⟩ := toAutomaton_checked cluttered
  obtain ⟨size, valid, unseen⟩ := describes _ loaded
  rw [loaded] at strict
  exact ⟨wellFormed, same, _, loaded, strict, size, valid, (unseen tidied same).mpr fits⟩

end ByteRegex.FlatAutomaton
