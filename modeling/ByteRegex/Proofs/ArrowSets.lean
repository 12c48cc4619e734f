import ByteRegex.Proofs.Determinization
import Mathlib.Data.Set.Basic

/-! Arrows without numbers. An index set stands for the arrows whose numbers it contains, and no two index
sets stand for the same arrows. What the subset construction does with index sets is what is done here with
sets of arrows. -/

namespace ByteRegex

/-- The ways into a state: from outside, if it is listed as a source, and along the transitions. -/
inductive Arrow
  | entrance (place : Nat)
  | transition (id : StateId) (place : Nat)

def Arrow.number (automaton : Automaton) : Arrow → Nat
  | entrance place => place
  | transition id place => Arrows.firstArrow automaton id + place

namespace Automaton

def target? (automaton : Automaton) : Arrow → Option StateId
  | .entrance place => automaton.sources[place]?
  | .transition id place => (automaton.next id)[place]?

/-- All arrows that leave a state which consumes the byte and to which some arrow of the set points. -/
def follow (automaton : Automaton) (arrows : Set Arrow) (byte : UInt8) : Set Arrow :=
  {arrow | ∃ id place, arrow = .transition id place ∧ place < (automaton.next id).length ∧
    automaton.reads id byte ∧ ∃ before ∈ arrows, automaton.target? before = some id}

/-- The sets of arrows, other than the empty one, to which the words over the alphabet lead from an
entrance. -/
def reachedSets (automaton : Automaton) (alphabet : Alphabet) : Set (Set Arrow) :=
  {arrows | arrows.Nonempty ∧ ∃ place < automaton.sources.length, ∃ word : List UInt8,
    (∀ byte ∈ word, alphabet.contains byte) ∧ word.foldl automaton.follow {.entrance place} = arrows}

def arrowsOf (automaton : Automaton) (set : ArrowSet automaton) : Set Arrow :=
  {arrow | (∃ id, automaton.target? arrow = some id) ∧ set.contains (arrow.number automaton)}

variable {automaton : Automaton} {alphabet : Alphabet} {arrow : Arrow} {set first second : ArrowSet automaton}
  {id after : StateId} {place index : Nat} {byte : UInt8}

theorem start_le_firstArrow (automaton : Automaton) (id : StateId) :
    automaton.sources.length ≤ Arrows.firstArrow automaton id := Nat.le_add_right _ _

theorem exists_state_of_transition (points : automaton.target? (.transition id place) = some after) :
    ∃ state, automaton.states[id]? = some state ∧ state.next = automaton.next id ∧
      place < (automaton.next id).length := by
  have inside := (List.getElem?_eq_some_iff.mp points).1
  have below := lt_of_next (List.mem_of_getElem? points)
  have found := Array.getElem?_eq_getElem below
  exact ⟨_, found, (next_of found).symm, inside⟩

theorem number_lt_firstArrow {later : StateId} (points : automaton.target? (.transition id place) = some after)
    (before : id < later) :
    (Arrow.transition id place).number automaton < Arrows.firstArrow automaton later := by
  obtain ⟨state, found, same, inside⟩ := exists_state_of_transition points
  have behind : Slices.start (fun state : State => state.next.length) automaton.states.toList id +
      state.next.length ≤ Slices.start (fun state : State => state.next.length) automaton.states.toList later :=
    Slices.start_add_le (Array.getElem?_toList.trans found) before
  rw [same] at behind
  simp only [Arrow.number, Arrows.firstArrow]
  omega

/-- The number of an arrow tells it from every other one. -/
theorem number_inj {one other : Arrow} {head tail : StateId} (left : automaton.target? one = some head)
    (right : automaton.target? other = some tail) (same : one.number automaton = other.number automaton) :
    one = other := by
  have apart {entry : Nat} {into : StateId} (source : automaton.target? (.entrance entry) = some into)
      (id place : Nat) :
      entry ≠ (Arrow.transition id place).number automaton := by
    have inside : entry < automaton.sources.length := (List.getElem?_eq_some_iff.mp source).1
    have beyond := automaton.start_le_firstArrow id
    simp only [Arrow.number]
    omega
  cases one with
  | entrance entry =>
    cases other with
    | entrance otherEntry => exact congrArg Arrow.entrance same
    | transition id place => exact absurd same (apart left id place)
  | transition id place =>
    cases other with
    | entrance entry => exact absurd same.symm (apart right id place)
    | transition otherId otherPlace =>
      rcases Nat.lt_trichotomy id otherId with before | rfl | behind
      · have earlier := number_lt_firstArrow left before
        exact absurd same (Nat.ne_of_lt (Nat.lt_add_right otherPlace earlier))
      · simp only [Arrow.number, Nat.add_left_cancel_iff] at same
        rw [same]
      · have later := number_lt_firstArrow right behind
        exact absurd same (Nat.ne_of_gt (Nat.lt_add_right place later))

theorem targets_number (points : automaton.target? arrow = some id) :
    automaton.arrows.targets[arrow.number automaton]? = some id := by
  cases arrow with
  | entrance place =>
    have inside := (List.getElem?_eq_some_iff.mp points).1
    rw [← Array.getElem?_toList, Arrows.targets_eq]
    exact (List.getElem?_append_left inside).trans points
  | transition id place =>
    obtain ⟨state, found, same, inside⟩ := exists_state_of_transition points
    rw [Arrow.number, Arrows.target_firstArrow found (same ▸ inside), same]
    exact points

theorem exists_arrow (inside : index < automaton.arrows.width) :
    ∃ arrow id, automaton.target? arrow = some id ∧ arrow.number automaton = index := by
  by_cases early : index < automaton.sources.length
  · exact ⟨.entrance index, _, List.getElem?_eq_getElem early, rfl⟩
  · obtain ⟨position, rfl⟩ := Nat.exists_eq_add_of_le (Nat.le_of_not_lt early)
    obtain ⟨after, found⟩ : ∃ after, (automaton.states.toList.flatMap State.next)[position]? = some after := by
      refine ⟨_, List.getElem?_eq_getElem ?_⟩
      have width : automaton.arrows.width =
          automaton.sources.length + (automaton.states.toList.flatMap State.next).length := List.length_append
      omega
    obtain ⟨id, state, place, listed, leads, rfl⟩ := Slices.exists_slice found
    rw [Array.getElem?_toList] at listed
    refine ⟨.transition id place, after, ?_, Nat.add_assoc ..⟩
    rw [target?, next_of listed]
    exact leads

theorem mem_arrowsOf (points : automaton.target? arrow = some id) :
    arrow ∈ automaton.arrowsOf set ↔ set.contains (arrow.number automaton) :=
  and_iff_right ⟨id, points⟩

theorem exists_mem_arrowsOf (member : set.contains index) :
    ∃ arrow id, automaton.target? arrow = some id ∧ arrow.number automaton = index ∧
      arrow ∈ automaton.arrowsOf set := by
  obtain ⟨arrow, id, points, rfl⟩ := exists_arrow (IndexSet.contains_lt member)
  exact ⟨arrow, id, points, rfl, (mem_arrowsOf points).mpr member⟩

theorem arrowsOf_inj (same : automaton.arrowsOf first = automaton.arrowsOf second) : first = second := by
  apply IndexSet.ext
  intro index
  constructor
  · intro member
    obtain ⟨arrow, id, points, rfl, inside⟩ := exists_mem_arrowsOf member
    exact (mem_arrowsOf points).mp (same ▸ inside)
  · intro member
    obtain ⟨arrow, id, points, rfl, inside⟩ := exists_mem_arrowsOf member
    exact (mem_arrowsOf points).mp (same ▸ inside)

theorem arrowsOf_nonempty : (automaton.arrowsOf set).Nonempty ↔ ¬ set.isEmpty := by
  rw [IndexSet.isEmpty_iff, Classical.not_forall]
  constructor
  · intro ⟨arrow, _, member⟩
    exact ⟨_, fun absent => absent member⟩
  · intro ⟨index, present⟩
    obtain ⟨arrow, _, _, _, inside⟩ := exists_mem_arrowsOf (Classical.not_not.mp present)
    exact ⟨arrow, inside⟩

theorem mem_heads_iff : id ∈ automaton.arrows.heads set ↔
    ∃ arrow ∈ automaton.arrowsOf set, automaton.target? arrow = some id := by
  rw [Arrows.mem_heads]
  constructor
  · intro ⟨index, member, target⟩
    obtain ⟨arrow, head, points, rfl, inside⟩ := exists_mem_arrowsOf member
    rw [targets_number points] at target
    exact ⟨arrow, inside, points.trans target⟩
  · intro ⟨arrow, inside, points⟩
    exact ⟨_, inside.2, targets_number points⟩

theorem arrowsOf_singleton (listed : place < automaton.sources.length) :
    automaton.arrowsOf (.singleton place) = {.entrance place} := by
  have points : automaton.target? (.entrance place) = some automaton.sources[place] :=
    List.getElem?_eq_getElem listed
  have inside : place < automaton.arrows.width :=
    (Array.getElem?_eq_some_iff.mp (targets_number points)).1
  ext arrow
  constructor
  · intro ⟨⟨id, target⟩, member⟩
    exact number_inj target points ((IndexSet.contains_singleton inside).mp member)
  · intro same
    cases same
    exact (mem_arrowsOf points).mpr ((IndexSet.contains_singleton inside).mpr rfl)

theorem arrowsOf_after : automaton.arrowsOf (automaton.arrows.after automaton (automaton.arrows.heads set) byte) =
    automaton.follow (automaton.arrowsOf set) byte := by
  ext arrow
  constructor
  · intro ⟨⟨id, points⟩, member⟩
    obtain ⟨head, pointed, consumes, first, last⟩ :=
      (Arrows.contains_after (IndexSet.contains_lt member)).mp member
    obtain ⟨place, same⟩ := Nat.exists_eq_add_of_le first
    rw [same] at last
    have inside := Nat.lt_of_add_lt_add_left last
    have leaves : automaton.target? (.transition head place) = some (automaton.next head)[place] :=
      List.getElem?_eq_getElem inside
    exact ⟨head, place, number_inj points leaves same, inside, consumes, mem_heads_iff.mp pointed⟩
  · intro ⟨head, place, same, inside, consumes, pointed⟩
    subst same
    have points : automaton.target? (.transition head place) = some (automaton.next head)[place] :=
      List.getElem?_eq_getElem inside
    refine (mem_arrowsOf points).mpr ?_
    have lt := (Array.getElem?_eq_some_iff.mp (targets_number points)).1
    exact (Arrows.contains_after lt).mpr ⟨head, mem_heads_iff.mpr pointed, consumes, Nat.le_add_right _ _,
      Nat.add_lt_add_left inside _⟩

/-- The steps of an index set lead wherever a byte of the alphabet leads from its arrows, but not to
nothing. -/
theorem mem_steps_iff {after : ArrowSet automaton} :
    (byte, after) ∈ automaton.arrows.steps automaton alphabet set ↔ alphabet.contains byte ∧
      automaton.arrowsOf after = automaton.follow (automaton.arrowsOf set) byte ∧
      (automaton.arrowsOf after).Nonempty := by
  rw [mem_steps, arrowsOf_nonempty, ← arrowsOf_after]
  refine and_congr_right fun _ => and_congr_left fun _ => ⟨fun same => same ▸ rfl, arrowsOf_inj⟩

theorem accepting_iff : automaton.arrows.accepting automaton set ↔
    ∃ arrow ∈ automaton.arrowsOf set, automaton.target? arrow = some automaton.accept := by
  rw [Arrows.accepting, List.contains_iff_mem]
  exact mem_heads_iff

end Automaton

end ByteRegex
