import ByteRegex.Proofs.Slices
import ByteRegex.Proofs.Validation

/-! Flattening and back. The running totals give each state its own slices of the shared arrays, and
as long as the totals have 32 bits, nothing about the automaton is lost. -/

namespace ByteRegex

/-- The automata that flat arrays have room for. -/
structure Automaton.Flattens (automaton : Automaton) : Prop where
  size_lt : automaton.size < UInt32.size
  transitions_lt : (automaton.states.toList.flatMap State.next).length < UInt32.size
  ranges_lt : (automaton.states.toList.flatMap State.ranges).length < UInt32.size
  ordered : ∀ state ∈ automaton.states, ∀ range ∈ state.ranges, range.first ≤ range.last

/-- The totals alone have 32 bits, whatever the ranges are. -/
structure Automaton.Addressable (automaton : Automaton) : Prop where
  size_lt : automaton.size < UInt32.size
  transitions_lt : (automaton.states.toList.flatMap State.next).length < UInt32.size
  ranges_lt : (automaton.states.toList.flatMap State.ranges).length < UInt32.size

theorem Automaton.Flattens.addressable {automaton : Automaton} (room : automaton.Flattens) :
    automaton.Addressable :=
  ⟨room.size_lt, room.transitions_lt, room.ranges_lt⟩

namespace FlatAutomaton

def nextTotal (automaton : Automaton) (index : Nat) : Nat :=
  Slices.start (fun state : State => state.next.length) automaton.states.toList index

def rangesTotal (automaton : Automaton) (index : Nat) : Nat :=
  Slices.start (fun state : State => state.ranges.length) automaton.states.toList index

/-- The flat state that stands for a state with this number. -/
def placed (automaton : Automaton) (index : Nat) (state : State) : FlatState :=
  place state (nextTotal automaton index) (rangesTotal automaton index)

theorem toList_placeAll (automaton : Automaton) :
    (placeAll automaton.states).toList = automaton.states.toList.mapIdx (placed automaton) := by
  rw [placeAll, ← Array.foldl_toList]
  have carried := Slices.toList_carrying (fun state (totals : Nat × Nat) => place state totals.1 totals.2)
    (fun totals state => (totals.1 + state.next.length, totals.2 + state.ranges.length))
    automaton.states.toList (fun index => (nextTotal automaton index, rangesTotal automaton index))
    (fun index state found => by simp only [nextTotal, rangesTotal, Slices.start_next found])
  simp only [nextTotal, rangesTotal, Slices.start_zero] at carried
  exact carried

theorem getElem?_ofAutomaton (automaton : Automaton) (index : Nat) :
    (ofAutomaton automaton).states[index]? = automaton.states[index]?.map (placed automaton index) := by
  rw [ofAutomaton, ← Array.getElem?_toList, toList_placeAll, List.getElem?_mapIdx, Array.getElem?_toList]

theorem size_ofAutomaton (automaton : Automaton) : (ofAutomaton automaton).states.size = automaton.size := by
  rw [ofAutomaton, ← Array.length_toList, toList_placeAll, List.length_mapIdx, Array.length_toList,
    Automaton.size]

theorem place_flags (state : State) (nextTotal rangesTotal : Nat) :
    (place state nextTotal rangesTotal).isEpsilon = state.isEpsilon ∧
    (place state nextTotal rangesTotal).isInverted = state.condition.any (·.inverted) ∧
    (place state nextTotal rangesTotal).isBack = state.back := by
  obtain ⟨kind, back, next⟩ := state
  cases kind with
  | epsilon =>
    have read : ∀ back : Bool,
        let state : FlatState :=
          ⟨0, 0, 0, 0, (if back then FlatState.backFlag else 0) ||| FlatState.epsilonFlag⟩
        state.isEpsilon = true ∧ state.isInverted = false ∧ state.isBack = back := by decide
    exact read back
  | consuming set =>
    have read : ∀ back inverted : Bool,
        let state : FlatState := ⟨0, 0, 0, 0, (if back then FlatState.backFlag else 0) |||
          if inverted then FlatState.invertedFlag else 0⟩
        state.isEpsilon = false ∧ state.isInverted = inverted ∧ state.isBack = back := by decide
    exact read back set.inverted

/-- Totals below 32 bits are not cut down, and neither is their difference. -/
theorem toNat_totals {total length : Nat} (fits : total + length < UInt32.size) :
    (UInt32.ofNat total).toNat = total ∧
      (UInt32.ofNat (total + length) - UInt32.ofNat total).toNat = length := by
  have first : (UInt32.ofNat total).toNat = total := UInt32.toNat_ofNat_of_lt (by omega)
  have last : (UInt32.ofNat (total + length)).toNat = total + length := UInt32.toNat_ofNat_of_lt fits
  refine ⟨first, ?_⟩
  rw [UInt32.toNat_sub_of_le _ _ (UInt32.le_iff_toNat_le.mpr (by omega)), first, last, Nat.add_sub_cancel_left]

variable {automaton : Automaton} {index : Nat} {state : State}

private theorem extract_totals {α : Type} (part : State → List α) {total : Nat} {shared : Array α}
    (found : automaton.states[index]? = some state)
    (begins : Slices.start (fun state => (part state).length) automaton.states.toList index = total)
    (laid : shared = automaton.states.flatMap fun state => (part state).toArray)
    (room : shared.size < UInt32.size) :
    let start := UInt32.ofNat total
    let length := UInt32.ofNat (total + (part state).length) - UInt32.ofNat total
    start.toNat + length.toNat ≤ shared.size ∧
      (shared.extract start.toNat (start.toNat + length.toNat)).toList = part state := by
  obtain ⟨inside, cut⟩ := Slices.extract_flatMap found begins
  rw [← laid] at inside cut
  obtain ⟨start, length⟩ := toNat_totals (Nat.lt_of_le_of_lt inside room)
  intro first width
  rw [start, length]
  exact ⟨inside, cut⟩

theorem nextOf_placed (room : automaton.Addressable) (found : automaton.states[index]? = some state) :
    (placed automaton index state).nextStart.toNat + (placed automaton index state).nextLength.toNat ≤
        (ofAutomaton automaton).next.size ∧
      (ofAutomaton automaton).nextOf (placed automaton index state) = state.next.map .ofNat := by
  have size : (ofAutomaton automaton).next.size < UInt32.size := by
    rw [ofAutomaton, ← Array.length_toList, Array.toList_flatMap, ← List.map_flatMap, List.length_map]
    exact room.transitions_lt
  have starts : Slices.start (fun state : State => (state.next.map UInt32.ofNat).length)
      automaton.states.toList index = nextTotal automaton index := by
    simp only [nextTotal, List.length_map]
  have cut := extract_totals (fun state => state.next.map UInt32.ofNat) found starts rfl size
  simp only [List.length_map] at cut
  exact cut

theorem rangesOf_placed (room : automaton.Addressable) (found : automaton.states[index]? = some state) :
    (placed automaton index state).rangesStart.toNat + (placed automaton index state).rangesLength.toNat ≤
        (ofAutomaton automaton).ranges.size ∧
      (ofAutomaton automaton).rangesOf (placed automaton index state) = state.ranges := by
  have size : (ofAutomaton automaton).ranges.size < UInt32.size := by
    rw [ofAutomaton, ← Array.length_toList, Array.toList_flatMap]
    exact room.ranges_lt
  exact extract_totals State.ranges found rfl rfl size

private theorem toNat_ids {ids : List StateId} (inside : ∀ id ∈ ids, id < automaton.size)
    (room : automaton.Addressable) : (ids.map UInt32.ofNat).map UInt32.toNat = ids := by
  rw [List.map_map]
  refine (List.map_congr_left ?_).trans (List.map_id ids)
  exact fun id listed => UInt32.toNat_ofNat_of_lt (Nat.lt_trans (inside id listed) room.size_lt)

theorem next_lt_placed (valid : automaton.Valid) (room : automaton.Addressable)
    (found : automaton.states[index]? = some state) :
    ∀ id ∈ (ofAutomaton automaton).nextOf (placed automaton index state),
      id.toNat < (ofAutomaton automaton).states.size := by
  have member := Array.mem_of_getElem? found
  intro id named
  rw [(nextOf_placed room found).2] at named
  have kept := List.mem_map_of_mem (f := UInt32.toNat) named
  rw [toNat_ids (valid.next_lt state member) room] at kept
  rw [size_ofAutomaton]
  exact valid.next_lt state member _ kept

/-- All that can be wrong with a flattened state are its ranges. -/
theorem fits_placed (valid : automaton.Valid) (room : automaton.Addressable)
    (found : automaton.states[index]? = some state)
    (ordered : ∀ range ∈ state.ranges, range.first ≤ range.last) :
    (ofAutomaton automaton).Fits (placed automaton index state) := by
  obtain ⟨ranges_le, ranges⟩ := rangesOf_placed room found
  exact ⟨(nextOf_placed room found).1, ranges_le, next_lt_placed valid room found, ranges ▸ ordered⟩

theorem stateOf_placed (valid : automaton.Valid) (room : automaton.Addressable)
    (found : automaton.states[index]? = some state) :
    (ofAutomaton automaton).stateOf (placed automaton index state) = state := by
  have next := toNat_ids (valid.next_lt state (Array.mem_of_getElem? found)) room
  obtain ⟨isEpsilon, isInverted, isBack⟩ :=
    place_flags state (nextTotal automaton index) (rangesTotal automaton index)
  rw [stateOf, (nextOf_placed room found).2, (rangesOf_placed room found).2, next, placed, isEpsilon,
    isInverted, isBack]
  obtain ⟨kind, back, next⟩ := state
  cases kind <;> rfl

theorem described_ofAutomaton (valid : automaton.Valid) (room : automaton.Addressable) :
    (ofAutomaton automaton).described = automaton := by
  have states : (ofAutomaton automaton).states.map (ofAutomaton automaton).stateOf = automaton.states := by
    apply Array.ext_getElem?
    intro index
    rw [Array.getElem?_map, getElem?_ofAutomaton]
    cases found : automaton.states[index]? with
    | none => rfl
    | some state => rw [Option.map_some, Option.map_some, stateOf_placed valid room found]
  have sources : (ofAutomaton automaton).sources.map UInt32.toNat = automaton.sources :=
    toNat_ids valid.source_lt room
  have accept : (ofAutomaton automaton).accept.toNat = automaton.accept :=
    UInt32.toNat_ofNat_of_lt (Nat.lt_trans valid.closed.accept_lt room.size_lt)
  rw [described, states, sources, accept]

theorem sources_ofAutomaton_ne_nil (valid : automaton.Valid) : (ofAutomaton automaton).sources ≠ [] :=
  fun empty => valid.sources_ne_nil (List.map_eq_nil_iff.mp empty)

theorem source_lt_ofAutomaton (valid : automaton.Valid) (room : automaton.Addressable) :
    ∀ id ∈ (ofAutomaton automaton).sources, id.toNat < (ofAutomaton automaton).states.size := by
  intro id named
  have kept : id.toNat ∈ (ofAutomaton automaton).described.sources := List.mem_map_of_mem named
  rw [described_ofAutomaton valid room] at kept
  rw [size_ofAutomaton]
  exact valid.source_lt _ kept

theorem accept_sink_ofAutomaton (valid : automaton.Valid) (room : automaton.Addressable) :
    ∃ state, (ofAutomaton automaton).states[(ofAutomaton automaton).accept.toNat]? = some state ∧
      state.isEpsilon ∧ state.nextLength = 0 := by
  obtain ⟨back, sink⟩ := valid.accept_sink
  have accept : (ofAutomaton automaton).accept.toNat = automaton.accept :=
    congrArg Automaton.accept (described_ofAutomaton valid room)
  refine ⟨placed automaton automaton.accept ⟨.epsilon, back, []⟩, ?_, ?_, ?_⟩
  · rw [accept, getElem?_ofAutomaton, sink, Option.map_some]
  · exact (place_flags ..).1
  · exact UInt32.sub_self (.ofNat (nextTotal automaton automaton.accept))

theorem wellFormed_ofAutomaton (valid : automaton.Valid) (room : automaton.Flattens) :
    (ofAutomaton automaton).WellFormed := by
  refine ⟨sources_ofAutomaton_ne_nil valid, source_lt_ofAutomaton valid room.addressable, ?_,
    accept_sink_ofAutomaton valid room.addressable⟩
  intro flatState member
  obtain ⟨index, found⟩ := Array.mem_iff_getElem?.mp member
  rw [getElem?_ofAutomaton, Option.map_eq_some_iff] at found
  obtain ⟨state, found, rfl⟩ := found
  exact fits_placed valid room.addressable found (room.ordered state (Array.mem_of_getElem? found))

/-- An automaton is read back from its flat form as it was. -/
theorem toAutomaton_ofAutomaton (valid : automaton.Valid) (room : automaton.Flattens) :
    (ofAutomaton automaton).toAutomaton = .ok automaton :=
  toAutomaton_eq_ok_iff.mpr ⟨wellFormed_ofAutomaton valid room, described_ofAutomaton valid room.addressable⟩

def sparse : Automaton where
  states := #[
    ⟨.consuming { ranges := [], inverted := true }, true, [1, 3]⟩,
    ⟨.consuming { ranges := [], inverted := false }, false, []⟩,
    ⟨.epsilon, true, []⟩,
    ⟨.epsilon, true, [0, 0, 2]⟩,
    ⟨.consuming { ranges := [⟨0, 0xff⟩, ⟨0x61, 0x61⟩], inverted := true }, false, [4]⟩]
  sources := [3, 0, 3]
  accept := 2

theorem toAutomaton_ofAutomaton_sparse : sparse.Valid ∧ sparse.Flattens ∧
    (ofAutomaton sparse).toAutomaton = .ok sparse := by
  have valid : sparse.Valid := ⟨by decide, by decide, by decide, true, rfl⟩
  have room : sparse.Flattens := ⟨by decide, by decide, by decide, by decide⟩
  exact ⟨valid, room, toAutomaton_ofAutomaton valid room⟩

end FlatAutomaton

end ByteRegex
