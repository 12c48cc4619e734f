import ByteRegex.Proofs.DepthFirst
import ByteRegex.Proofs.Shortening
import ByteRegex.Proofs.Threads

/-! The endings of the chains of epsilon states that begin behind a state. The search keeps a stack on which a
state may stand more than once, and it goes through cycles; it finds every ending once, when the recursive
depth-first search would, and the next search begins with the same empty memory. -/

namespace ByteRegex

theorem KeySet.unmarked_of_empty {set : KeySet} (empty : set.toList = []) (key : Nat) :
    set.marks[key]? ≠ some true := by
  rw [ne_eq, getElem?_marks, empty]
  exact List.not_mem_nil

/-- The memory that is left by searches one after the other, which may have been in different automata. -/
def Search.after (capacity : Nat) (earlier : List (Automaton × StateId)) : Search :=
  earlier.foldl (fun memory search => (search.1.endings memory search.2).2) (.withCapacity capacity)

theorem Search.clean_after (capacity : Nat) (earlier : List (Automaton × StateId)) :
    (after capacity earlier).Clean := by
  rcases List.eq_nil_or_concat earlier with rfl | ⟨before, ⟨automaton, id⟩, rfl⟩
  · exact clean_withCapacity capacity
  · rw [after, List.concat_eq_append, List.foldl_concat]
    exact automaton.clean_endings _ id

namespace Automaton

variable {automaton : Automaton} {origin start id : StateId}

structure FindsEndings (automaton : Automaton) (origin : StateId) (answer : List StateId × Search) : Prop where
  order : answer.1 =
    (automaton.epsilonGraph.depthFirst [] (automaton.next origin)).filter automaton.isEnding
  nodup : answer.1.Nodup
  mem_iff : ∀ id, id ∈ answer.1 ↔
    (automaton.isConsuming id ∨ automaton.isEpsilon id ∧ automaton.next id = []) ∧
      ∃ after ∈ automaton.next origin, automaton.Path after [] id
  visited : answer.2.visited.isEmpty
  unmarked : ∀ key : StateId, answer.2.visited.marks[key]? ≠ some true
  stack : answer.2.stack = []

theorem isEnding_iff (inside : id < automaton.size) :
    automaton.isEnding id ↔ automaton.isConsuming id ∨ automaton.isEpsilon id ∧ automaton.next id = [] := by
  have found : automaton.states[id]? = some automaton.states[id] := Array.getElem?_eq_getElem inside
  rw [isConsuming_iff, next_of found]
  simp only [isEnding, isEpsilon, isSink, found, Option.any_some, State.isSink, inside, true_and]
  cases automaton.states[id].isEpsilon <;> simp

theorem lt_of_leads (bounded : ∀ id, ∀ after ∈ automaton.next id, after < automaton.size)
    (leads : automaton.epsilonGraph.Leads start id) (inside : start < automaton.size) : id < automaton.size := by
  cases leads with
  | refl => exact inside
  | tail _ edge => exact bounded _ id (mem_epsilonGraph_next.mp edge).2

/-- Whatever was searched for before, the endings behind a state are found exactly. -/
theorem endings_exact (bounded : ∀ state ∈ automaton.states, ∀ after ∈ state.next, after < automaton.size)
    (capacity : Nat) (earlier : List (Automaton × StateId)) (origin : StateId) :
    automaton.FindsEndings origin (automaton.endings (Search.after capacity earlier) origin) := by
  have clean := Search.clean_after capacity earlier
  have left := automaton.clean_endings (Search.after capacity earlier) origin
  refine ⟨?_, ?_, ?_, KeySet.isEmpty_iff.mpr left.visited, KeySet.unmarked_of_empty left.visited, left.stack⟩
  · rw [endings_spec clean, Graph.toList_explore_eq, clean.visited]
  · rw [endings_spec clean]
    exact (KeySet.nodup_toList _).filter _
  · intro id
    simp only [mem_endings clean, path_nil_iff]
    refine and_congr_left fun ⟨after, edge, leads⟩ => isEnding_iff ?_
    have bounded := next_lt_iff.mpr bounded
    exact lt_of_leads bounded leads (bounded origin after edge)

def entwined : Automaton where
  states := #[.epsilon [1, 2, 2], .loopback [3, 0, 2], .epsilon [4, 3, 5], .consuming (.single 0x61) [0],
    .epsilon [], .epsilon []]
  sources := [0]
  accept := 5

theorem endings_exact_entwined : (∀ state ∈ entwined.states, ∀ after ∈ state.next, after < entwined.size) ∧
    entwined.FindsEndings 0 (entwined.endings (Search.after 2 [(repeating, 0), (entwined, 3)]) 0) ∧
    (entwined.endings (Search.after 2 [(repeating, 0), (entwined, 3)]) 0).1 = [3, 4, 5] := by
  have bounded : ∀ state ∈ entwined.states, ∀ after ∈ state.next, after < entwined.size := by decide
  have finds := endings_exact bounded 2 [(repeating, 0), (entwined, 3)] 0
  refine ⟨bounded, finds, finds.order.trans ?_⟩
  have visited : entwined.epsilonGraph.depthFirst [] (entwined.next 0) = [1, 3, 0, 2, 4, 5] := by
    simp [entwined, epsilonGraph, next, isEpsilon, State.isEpsilon, Graph.depthFirst_of_mem,
      Graph.depthFirst_of_not_mem, State.epsilon, State.consuming, State.loopback]
  rw [visited]
  decide

end Automaton

end ByteRegex
