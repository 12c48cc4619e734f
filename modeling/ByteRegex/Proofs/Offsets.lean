import ByteRegex.Proofs.Flattening
import Mathlib.Algebra.Ring.Nat

/-! Running totals in 32 bits. States of a flat automaton may share their parts of an array, and each of them
gets its own when the automaton is flattened again. So the totals can outgrow the numbers that they are stored
in, however small the arrays were; lengths survive that, since they are differences, and starts do not. -/

namespace ByteRegex

namespace Slices

variable {α : Type} {width : α → Nat} {items : List α} {index later : Nat}

theorem start_mono (before : index ≤ later) : start width items index ≤ start width items later := by
  induction items generalizing index later with
  | nil => exact Nat.le_refl 0
  | cons first rest ih =>
    cases index with
    | zero => exact Nat.zero_le _
    | succ index =>
      obtain ⟨later, rfl⟩ := Nat.exists_eq_add_of_le' (Nat.le_trans (Nat.le_add_left 1 index) before)
      exact Nat.add_le_add_left (ih (Nat.le_of_succ_le_succ before)) _

theorem start_length (width : α → Nat) (items : List α) :
    start width items items.length = (items.map width).sum := by
  induction items with
  | nil => rfl
  | cons first rest ih => rw [List.length_cons, start_succ, ih, List.map_cons, List.sum_cons]

end Slices

namespace FlatAutomaton

/-- A number that is the same in 32 bits. -/
def Narrow (number : Nat) : Prop := (UInt32.ofNat number).toNat = number

theorem narrow_iff {number : Nat} : Narrow number ↔ number < UInt32.size := by
  rw [Narrow, UInt32.toNat_ofNat']
  exact Nat.mod_eq_iff_lt (by decide)

theorem narrow_toNat (id : UInt32) : Narrow id.toNat := congrArg UInt32.toNat UInt32.ofNat_toNat

theorem ofNat_add_sub (total length : Nat) :
    UInt32.ofNat (total + length) - UInt32.ofNat total = UInt32.ofNat length := by
  rw [Nat.add_comm, UInt32.ofNat_add, UInt32.add_sub_cancel]

section Totals

variable {α : Type} {width : α → Nat} {items : List α} {index : Nat} {item : α}

theorem narrow_start (fits : Slices.start width items items.length < UInt32.size) (inside : index ≤ items.length) :
    Narrow (Slices.start width items index) :=
  narrow_iff.mpr (Nat.lt_of_le_of_lt (Slices.start_mono inside) fits)

theorem narrow_width (width : α → Nat) (fits : Slices.start width items items.length < UInt32.size)
    (found : items[index]? = some item) : Narrow (width item) := by
  have inside : index < items.length := (List.getElem?_eq_some_iff.mp found).1
  have behind : Slices.start width items index + width item ≤ Slices.start width items items.length :=
    Slices.start_add_le found inside
  exact narrow_iff.mpr (by omega)

theorem ofNat_start_le (fits : Slices.start width items items.length < UInt32.size) (inside : index < items.length) :
    UInt32.ofNat (Slices.start width items index) ≤ UInt32.ofNat (Slices.start width items (index + 1)) := by
  rw [UInt32.le_iff_toNat_le, narrow_start fits (Nat.le_of_lt inside), narrow_start fits inside]
  exact Slices.start_mono (Nat.le_succ index)

end Totals

/-- The places of a flat state are what the arrays have grown to before it, and by it. -/
structure Placed (automaton : Automaton) (index : Nat) (state : State) (stored : FlatState) : Prop where
  nextStart : stored.nextStart.toNat = nextTotal automaton index
  nextLength : stored.nextLength.toNat = state.next.length
  rangesStart : stored.rangesStart.toNat = rangesTotal automaton index
  rangesLength : stored.rangesLength.toNat = state.ranges.length

/-- Flattening loses nothing of a total, and never takes a larger one from a smaller one. -/
structure Untruncated (automaton : Automaton) : Prop where
  nextTotals : ∀ index ≤ automaton.size, Narrow (nextTotal automaton index)
  rangesTotals : ∀ index ≤ automaton.size, Narrow (rangesTotal automaton index)
  nextDifferences : ∀ index < automaton.size,
    UInt32.ofNat (nextTotal automaton index) ≤ UInt32.ofNat (nextTotal automaton (index + 1))
  rangesDifferences : ∀ index < automaton.size,
    UInt32.ofNat (rangesTotal automaton index) ≤ UInt32.ofNat (rangesTotal automaton (index + 1))
  placed : ∀ index state stored, automaton.states[index]? = some state →
    (ofAutomaton automaton).states[index]? = some stored → Placed automaton index state stored

/-- How many successors the states name together. What several of them share is counted for each. -/
def namedNext (flat : FlatAutomaton) : Nat := (flat.states.toList.map fun state => state.nextLength.toNat).sum

def namedRanges (flat : FlatAutomaton) : Nat :=
  (flat.states.toList.map fun state => if state.isEpsilon then 0 else state.rangesLength.toNat).sum

variable {flat : FlatAutomaton} {automaton : Automaton} {index : Nat} {state : State} {stored : FlatState}

theorem eq_placed (found : automaton.states[index]? = some state)
    (made : (ofAutomaton automaton).states[index]? = some stored) : stored = placed automaton index state := by
  rw [getElem?_ofAutomaton, found] at made
  exact (Option.some.inj made).symm

theorem nextLength_placed : (placed automaton index state).nextLength = .ofNat state.next.length := ofNat_add_sub ..

theorem rangesLength_placed : (placed automaton index state).rangesLength = .ofNat state.ranges.length :=
  ofNat_add_sub ..

theorem untruncated_iff : Untruncated automaton ↔
    nextTotal automaton automaton.size < UInt32.size ∧ rangesTotal automaton automaton.size < UInt32.size := by
  constructor
  · intro untruncated
    exact ⟨narrow_iff.mp (untruncated.nextTotals _ (Nat.le_refl _)),
      narrow_iff.mp (untruncated.rangesTotals _ (Nat.le_refl _))⟩
  · rintro ⟨next, ranges⟩
    refine ⟨fun _ => narrow_start next, fun _ => narrow_start ranges, fun _ => ofNat_start_le next,
      fun _ => ofNat_start_le ranges, ?_⟩
    intro index state stored found made
    obtain rfl := eq_placed found made
    have listed : automaton.states.toList[index]? = some state := Array.getElem?_toList.trans found
    have inside : index ≤ automaton.size := Nat.le_of_lt (Array.getElem?_eq_some_iff.mp found).1
    refine ⟨narrow_start next inside, ?_, narrow_start ranges inside, ?_⟩
    · rw [nextLength_placed]
      exact narrow_width (fun state : State => state.next.length) next listed
    · rw [rangesLength_placed]
      exact narrow_width (fun state : State => state.ranges.length) ranges listed

theorem length_extract {α : Type} {shared : Array α} {start length : Nat}
    (inside : start + length ≤ shared.size) :
    (shared.extract start (start + length)).toList.length = length := by
  rw [Array.length_toList, Array.size_extract, Nat.min_eq_left inside, Nat.add_sub_cancel_left]

theorem length_next_stateOf {part : FlatState} (fits : flat.Fits part) :
    (flat.stateOf part).next.length = part.nextLength.toNat := by
  rw [stateOf, List.length_map]
  exact length_extract fits.next_le

theorem length_ranges_stateOf {part : FlatState} (fits : flat.Fits part) :
    (flat.stateOf part).ranges.length = if part.isEpsilon then 0 else part.rangesLength.toNat := by
  have length : (flat.rangesOf part).length = part.rangesLength.toNat := length_extract fits.ranges_le
  rw [State.ranges, stateOf, State.condition]
  by_cases epsilon : part.isEpsilon
  · simp [epsilon]
  · simp [epsilon, length]

theorem totals_described (wellFormed : flat.WellFormed) :
    nextTotal flat.described flat.described.size = flat.namedNext ∧
      rangesTotal flat.described flat.described.size = flat.namedRanges := by
  have fits : ∀ part ∈ flat.states.toList, flat.Fits part :=
    fun part listed => wellFormed.fits part (Array.mem_toList_iff.mp listed)
  have total (width : State → Nat) : Slices.start width flat.described.states.toList flat.described.size =
      (flat.states.toList.map (width ∘ flat.stateOf)).sum := by
    refine (Slices.start_length width flat.described.states.toList).trans ?_
    rw [described, Array.toList_map, List.map_map]
  rw [nextTotal, rangesTotal, total, total]
  exact ⟨congrArg List.sum (List.map_congr_left fun part listed => length_next_stateOf (fits part listed)),
    congrArg List.sum (List.map_congr_left fun part listed => length_ranges_stateOf (fits part listed))⟩

/-- The places are right if the states name few enough successors and ranges together. Otherwise the starts
are what 32 bits can hold of them, while lengths and numbers of states are right in any case. -/
theorem untruncated_iff_of_toAutomaton (loaded : flat.toAutomaton = .ok automaton) :
    (Untruncated automaton ↔ flat.namedNext < UInt32.size ∧ flat.namedRanges < UInt32.size) ∧
    (∀ index state stored, automaton.states[index]? = some state →
      (ofAutomaton automaton).states[index]? = some stored →
      stored.nextStart.toNat = nextTotal automaton index % UInt32.size ∧
      stored.nextLength.toNat = state.next.length ∧
      stored.rangesStart.toNat = rangesTotal automaton index % UInt32.size ∧
      stored.rangesLength.toNat = state.ranges.length) ∧
    Narrow automaton.accept ∧ (∀ id ∈ automaton.sources, Narrow id) ∧
    ∀ state ∈ automaton.states, ∀ id ∈ state.next, Narrow id := by
  obtain ⟨wellFormed, rfl⟩ := toAutomaton_eq_ok_iff.mp loaded
  refine ⟨?_, ?_, narrow_toNat flat.accept, List.forall_mem_map.mpr fun id _ => narrow_toNat id, ?_⟩
  · obtain ⟨next, ranges⟩ := totals_described wellFormed
    rw [untruncated_iff, next, ranges]
  · intro index state stored found made
    obtain rfl := eq_placed found made
    obtain ⟨part, listed, rfl⟩ := Array.mem_map.mp (Array.mem_of_getElem? found)
    have fits := wellFormed.fits part listed
    refine ⟨UInt32.toNat_ofNat', ?_, UInt32.toNat_ofNat', ?_⟩
    · rw [nextLength_placed, length_next_stateOf fits]
      exact narrow_toNat part.nextLength
    · rw [rangesLength_placed, length_ranges_stateOf fits]
      split
      · rfl
      · exact narrow_toNat part.rangesLength
  · intro state listed
    obtain ⟨part, _, rfl⟩ := Array.mem_map.mp listed
    exact List.forall_mem_map.mpr fun id _ => narrow_toNat id

def overlapping : FlatAutomaton where
  states := #[⟨0, 3, 0, 2, 0⟩, ⟨1, 2, 1, 1, 2⟩, ⟨0, 2, 0, 2, 1⟩, ⟨3, 0, 0, 0, 1⟩]
  next := #[1, 2, 3]
  ranges := #[⟨0x30, 0x39⟩, ⟨0x61, 0x7a⟩]
  sources := [0]
  accept := 3

theorem untruncated_iff_of_toAutomaton_overlapping : ∃ automaton, overlapping.toAutomaton = .ok automaton ∧
    overlapping.namedNext = 7 ∧ overlapping.namedRanges = 3 ∧ Untruncated automaton := by
  have wellFormed : overlapping.WellFormed := defect?_eq_none_iff.mp (by decide)
  have loaded : overlapping.toAutomaton = .ok overlapping.described := toAutomaton_eq_ok_iff.mpr ⟨wellFormed, rfl⟩
  have next : overlapping.namedNext = 7 := by decide
  have ranges : overlapping.namedRanges = 3 := by decide
  have few : overlapping.namedNext < UInt32.size ∧ overlapping.namedRanges < UInt32.size := by
    rw [next, ranges]
    decide
  exact ⟨_, loaded, next, ranges, (untruncated_iff_of_toAutomaton loaded).1.mpr few⟩

/-- Many states that share all their successors, and one without any. -/
def crowd (copies fan : Nat) : FlatAutomaton where
  states := (Array.replicate copies ⟨0, .ofNat fan, 0, 0, FlatState.epsilonFlag⟩).push
    ⟨0, 0, 0, 0, FlatState.epsilonFlag⟩
  next := Array.replicate fan 0
  ranges := #[]
  sources := [0]
  accept := .ofNat copies

section Crowd

variable {copies fan : Nat}

theorem getElem?_crowd {index : Nat} (inside : index < copies) :
    (crowd copies fan).states[index]? = some ⟨0, .ofNat fan, 0, 0, FlatState.epsilonFlag⟩ := by
  rw [crowd, Array.getElem?_push, Array.size_replicate, if_neg (Nat.ne_of_lt inside), Array.getElem?_replicate,
    if_pos inside]

theorem getElem?_crowd_last : (crowd copies fan).states[copies]? = some ⟨0, 0, 0, 0, FlatState.epsilonFlag⟩ := by
  rw [crowd, Array.getElem?_push, Array.size_replicate, if_pos rfl]

theorem nextOf_crowd (fan_lt : fan < UInt32.size) :
    (crowd copies fan).nextOf ⟨0, .ofNat fan, 0, 0, FlatState.epsilonFlag⟩ = List.replicate fan 0 := by
  have length : (UInt32.ofNat fan).toNat = fan := narrow_iff.mpr fan_lt
  simp [nextOf, crowd, length]

theorem wellFormed_crowd (copies_lt : copies < UInt32.size) (fan_lt : fan < UInt32.size) :
    (crowd copies fan).WellFormed := by
  have accept : (crowd copies fan).accept.toNat = copies := narrow_iff.mpr copies_lt
  have length : (UInt32.ofNat fan).toNat = fan := narrow_iff.mpr fan_lt
  refine ⟨by simp [crowd], by simp [crowd], ?_, ⟨0, 0, 0, 0, FlatState.epsilonFlag⟩, ?_, by decide, rfl⟩
  · intro part listed
    obtain shared | last := Array.mem_push.mp listed
    · obtain ⟨_, rfl⟩ := Array.mem_replicate.mp shared
      refine ⟨?_, Nat.le_refl _, ?_, ?_⟩
      · simp [crowd, length]
      · rw [nextOf_crowd fan_lt]
        intro id named
        rw [(List.mem_replicate.mp named).2]
        simp [crowd]
      · simp [rangesOf, crowd]
    · rw [last]
      refine ⟨Nat.zero_le _, Nat.le_refl _, ?_, ?_⟩ <;> simp [nextOf, rangesOf, crowd]
  · rw [accept, getElem?_crowd_last]

theorem nextTotal_crowd (fan_lt : fan < UInt32.size) {index : Nat} (inside : index ≤ copies) :
    nextTotal (crowd copies fan).described index = index * fan := by
  induction index with
  | zero => rw [nextTotal, Slices.start_zero, Nat.zero_mul]
  | succ index ih =>
    have found : (crowd copies fan).described.states.toList[index]? =
        some ((crowd copies fan).stateOf ⟨0, .ofNat fan, 0, 0, FlatState.epsilonFlag⟩) := by
      rw [described, Array.getElem?_toList, Array.getElem?_map, getElem?_crowd inside, Option.map_some]
    rw [nextTotal, Slices.start_next found, ← nextTotal, ih (Nat.le_of_succ_le inside), stateOf,
      nextOf_crowd fan_lt, List.length_map, List.length_replicate, Nat.succ_mul]

end Crowd

/-- Not even a megabyte of numbers is needed to pass 32 bits: the accepting state is said to start where the first
state does, and the last state in front of it has its length from taking a larger number away from zero. -/
theorem truncated_crowd : ∃ automaton, (crowd 32768 131072).toAutomaton = .ok automaton ∧
    (crowd 32768 131072).states.size < UInt32.size ∧ (crowd 32768 131072).next.size < UInt32.size ∧
    (crowd 32768 131072).ranges.size < UInt32.size ∧ nextTotal automaton 32768 = 4294967296 ∧
    (ofAutomaton automaton).states[32768]?.map FlatState.nextStart = some 0 ∧
    ¬ UInt32.ofNat (nextTotal automaton 32767) ≤ UInt32.ofNat (nextTotal automaton 32768) ∧
    ¬ Untruncated automaton := by
  have loaded : (crowd 32768 131072).toAutomaton = .ok (crowd 32768 131072).described :=
    toAutomaton_eq_ok_iff.mpr ⟨wellFormed_crowd (by decide) (by decide), rfl⟩
  -- The arrays are too large to be evaluated, so only what is known about their sizes and totals is used.
  have statesSize : (crowd 32768 131072).states.size = 32769 := by
    rw [crowd, Array.size_push, Array.size_replicate]
  have nextSize : (crowd 32768 131072).next.size = 131072 := Array.size_replicate
  have total : nextTotal (crowd 32768 131072).described 32768 = 4294967296 :=
    nextTotal_crowd (by decide) (Nat.le_refl _)
  have before : nextTotal (crowd 32768 131072).described 32767 = 4294836224 :=
    nextTotal_crowd (by decide) (by decide)
  have underflow : ¬ UInt32.ofNat 4294836224 ≤ UInt32.ofNat 4294967296 := by decide
  refine ⟨_, loaded, ?_, ?_, by decide, total, ?_, ?_, ?_⟩
  · rw [statesSize]
    decide
  · rw [nextSize]
    decide
  · rw [getElem?_ofAutomaton, described, Array.getElem?_map, getElem?_crowd_last, ← described]
    have start : UInt32.ofNat (nextTotal (crowd 32768 131072).described 32768) = 0 := by
      rw [total]
      decide
    exact congrArg some start
  · rwa [before, total]
  · intro untruncated
    have inside : 32767 < (crowd 32768 131072).described.size := by
      rw [Automaton.size, described, Array.size_map, statesSize]
      decide
    have difference := untruncated.nextDifferences 32767 inside
    rw [before, total] at difference
    exact underflow difference

end FlatAutomaton

end ByteRegex
