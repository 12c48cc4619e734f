import ByteRegex.Proofs.Places
import ByteRegex.Proofs.Runs
import ByteRegex.Proofs.Slices
import ByteRegex.Subset.Arrows

/-! What a set of arrows stands for. All that matters of a set are the states that its arrows point
to: the set after a byte points to the successors of those of them that consume the byte. -/

namespace ByteRegex

namespace IndexSet

variable {width : Nat}

theorem contains_singleton {first index : Nat} (inside : first < width) :
    (singleton first : IndexSet width).contains index ↔ index = first := by
  simp [singleton, contains_insert, contains_empty, inside, eq_comm]

theorem contains_interval {first count index : Nat} (inside : index < width) :
    (interval first count : IndexSet width).contains index ↔ first ≤ index ∧ index < first + count := by
  simp only [contains, interval, Nat.one_shiftLeft, BitVec.getLsbD_ofNat, Nat.testBit_shiftLeft,
    Nat.testBit_two_pow_sub_one, Bool.and_eq_true, decide_eq_true_eq]
  omega

end IndexSet

abbrev Automaton.arrows (automaton : Automaton) : Arrows := .ofAutomaton automaton

abbrev ArrowSet (automaton : Automaton) : Type := IndexSet automaton.arrows.width

namespace Arrows

variable {automaton : Automaton} {id : StateId} {byte : UInt8}

theorem targets_eq (automaton : Automaton) : automaton.arrows.targets.toList =
    automaton.sources ++ automaton.states.toList.flatMap State.next := rfl

theorem mem_heads {set : ArrowSet automaton} :
    id ∈ automaton.arrows.heads set ↔
      ∃ arrow, set.contains arrow ∧ automaton.arrows.targets[arrow]? = some id := by
  rw [heads, KeySet.mem_ofList, List.mem_map]
  have pointed {arrow : Nat} (inside : set.contains arrow) :
      automaton.arrows.targets[arrow]? =
        some (automaton.arrows.targets.getD arrow 0) := by
    have lt : arrow < automaton.arrows.targets.size := IndexSet.contains_lt inside
    rw [Array.getD_eq_getD_getElem?, Array.getElem?_eq_getElem lt, Option.getD_some]
  constructor
  · intro ⟨arrow, member, same⟩
    have inside := IndexSet.mem_toList.mp member
    exact ⟨arrow, inside, same ▸ pointed inside⟩
  · intro ⟨arrow, inside, found⟩
    exact ⟨arrow, IndexSet.mem_toList.mpr inside, Option.some.inj ((pointed inside).symm.trans found)⟩

theorem heads_singleton {index : Nat} {source : StateId}
    (listed : automaton.sources[index]? = some source) :
    id ∈ automaton.arrows.heads (.singleton index) ↔ id = source := by
  have inside := (List.getElem?_eq_some_iff.mp listed).1
  have lt : index < automaton.arrows.width := by
    simp only [Automaton.arrows, ofAutomaton, List.length_append]
    omega
  have target : automaton.arrows.targets[index]? = some source := by
    rw [← Array.getElem?_toList, targets_eq, List.getElem?_append_left inside, listed]
  rw [mem_heads]
  constructor
  · intro ⟨arrow, member, found⟩
    obtain rfl := (IndexSet.contains_singleton lt).mp member
    exact Option.some.inj (found.symm.trans target)
  · rintro rfl
    exact ⟨index, (IndexSet.contains_singleton lt).mpr rfl, target⟩

/-- The arrow of a state's first transition. -/
def firstArrow (automaton : Automaton) (id : StateId) : Nat :=
  automaton.sources.length + Slices.start (fun state : State => state.next.length) automaton.states.toList id

theorem getElem?_outgoing (automaton : Automaton) (id : StateId) :
    automaton.arrows.outgoing[id]? =
      automaton.states[id]?.map fun state => .interval (firstArrow automaton id) state.next.length := by
  have listed : automaton.arrows.outgoing.toList = automaton.states.toList.mapIdx fun id state =>
      .interval (firstArrow automaton id) state.next.length := by
    simp only [Automaton.arrows, ofAutomaton, leaving, ← Array.foldl_toList]
    exact Slices.toList_running
      (fun (state : State) first => IndexSet.interval first state.next.length)
      (·.next.length) ..
  rw [← Array.getElem?_toList, listed, List.getElem?_mapIdx, Array.getElem?_toList]

theorem target_firstArrow {place : Nat} {state : State} (found : automaton.states[id]? = some state)
    (inside : place < state.next.length) :
    automaton.arrows.targets[firstArrow automaton id + place]? = state.next[place]? := by
  rw [← Array.getElem?_toList, targets_eq, firstArrow, Nat.add_assoc,
    List.getElem?_append_right (by omega), Nat.add_sub_cancel_left]
  exact Slices.getElem?_flatMap (f := State.next) (by simpa using found) inside

private theorem contains_collected (sets : StateId → ArrowSet automaton)
    (heads : List StateId) (collected : ArrowSet automaton) (arrow : Nat) :
    (heads.foldl (fun set id => if automaton.reads id byte then set ∪ sets id else set)
      collected).contains arrow ↔
        collected.contains arrow ∨ ∃ id ∈ heads, automaton.reads id byte ∧ (sets id).contains arrow := by
  induction heads generalizing collected with
  | nil => simp
  | cons first rest ih =>
    rw [List.foldl_cons, ih]
    by_cases consumes : automaton.reads first byte
    · rw [if_pos consumes, IndexSet.contains_union]
      simp [consumes, or_assoc]
    · rw [if_neg consumes]
      simp [consumes]

/-- After a byte come the arrows that leave the heads which consume it. -/
theorem contains_after {heads : List StateId} {arrow : Nat} (inside : arrow < automaton.arrows.width) :
    (automaton.arrows.after automaton heads byte).contains arrow ↔ ∃ head ∈ heads, automaton.reads head byte ∧
      firstArrow automaton head ≤ arrow ∧ arrow < firstArrow automaton head + (automaton.next head).length := by
  have leaves {head : StateId} (consumes : automaton.reads head byte) :
      (automaton.arrows.outgoing.getD head ∅).contains arrow ↔
        firstArrow automaton head ≤ arrow ∧ arrow < firstArrow automaton head + (automaton.next head).length := by
    obtain ⟨set, back, found, _⟩ := Automaton.reads_iff.mp consumes
    rw [Array.getD_eq_getD_getElem?, getElem?_outgoing, found, Option.map_some, Option.getD_some]
    exact IndexSet.contains_interval inside
  rw [after]
  refine (contains_collected _ heads ∅ arrow).trans ⟨?_, ?_⟩
  · intro either
    cases either with
    | inl absent => simp [show (∅ : IndexSet _) = IndexSet.empty from rfl, IndexSet.contains_empty] at absent
    | inr present =>
      obtain ⟨head, listed, consumes, member⟩ := present
      exact ⟨head, listed, consumes, (leaves consumes).mp member⟩
  · intro ⟨head, listed, consumes, between⟩
    exact .inr ⟨head, listed, consumes, (leaves consumes).mpr between⟩

/-- The heads after a byte are the successors of the heads that consume it. -/
theorem mem_heads_after {heads : List StateId} :
    id ∈ automaton.arrows.heads (automaton.arrows.after automaton heads byte) ↔
      ∃ head ∈ heads, automaton.reads head byte ∧ id ∈ automaton.next head := by
  rw [mem_heads]
  constructor
  · intro ⟨arrow, member, target⟩
    obtain ⟨head, listed, consumes, first, last⟩ := (contains_after (IndexSet.contains_lt member)).mp member
    obtain ⟨set, back, found, _⟩ := Automaton.reads_iff.mp consumes
    obtain ⟨place, rfl⟩ := Nat.exists_eq_add_of_le first
    rw [target_firstArrow found (Nat.lt_of_add_lt_add_left last)] at target
    exact ⟨head, listed, consumes, List.mem_of_getElem? target⟩
  · intro ⟨head, listed, consumes, edge⟩
    obtain ⟨set, back, found, _⟩ := Automaton.reads_iff.mp consumes
    obtain ⟨place, edge⟩ := List.mem_iff_getElem?.mp edge
    have inside := (List.getElem?_eq_some_iff.mp edge).1
    have target := (target_firstArrow found inside).trans edge
    have lt : firstArrow automaton head + place < automaton.arrows.width :=
      (Array.getElem?_eq_some_iff.mp target).1
    refine ⟨_, (contains_after lt).mpr ⟨head, listed, consumes, ?_⟩, target⟩
    exact ⟨Nat.le_add_right _ _, Nat.add_lt_add_left inside _⟩

end Arrows

theorem Alphabet.mem_toList {alphabet : Alphabet} {byte : UInt8} :
    byte ∈ alphabet.toList ↔ alphabet.contains byte := by
  have listed : byte ∈ (List.range 256).map UInt8.ofNat :=
    List.mem_map.mpr ⟨byte.toNat, List.mem_range.mpr byte.toNat_lt, UInt8.ofNat_toNat⟩
  simp [toList, List.mem_filter, listed]

end ByteRegex
