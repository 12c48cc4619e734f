import ByteRegex.Automaton.Shortcuts

/-! The search of a scanner along epsilon transitions. It is begun again for one start after the
other; what was met from an earlier start is not looked at a second time. -/

namespace ByteRegex

structure Closure where
  visited : KeySet
  /-- The states that are still to be looked at, the next one first. -/
  stack : List StateId
  threads : KeySet
  accepting : Bool

namespace Automaton

/-- Look at a state that was taken from the stack. Its successors are pushed if it only forks. -/
def visit (automaton : Automaton) (id : StateId) : Closure → Closure
  | ⟨visited, stack, threads, accepting⟩ =>
    match visited.add id with
    | (false, visited) => ⟨visited, stack, threads, accepting⟩
    | (true, visited) =>
      if !automaton.isEpsilon id then ⟨visited, stack, threads.insert id, accepting⟩
      -- Nothing follows the accepting state.
      else if id == automaton.accept then ⟨visited, stack, threads, true⟩
      else ⟨visited, automaton.next id ++ stack, threads, accepting⟩

theorem visit_eq (automaton : Automaton) (id : StateId) (visited : KeySet) (stack : List StateId)
    (threads : KeySet) (accepting : Bool) : automaton.visit id ⟨visited, stack, threads, accepting⟩ =
      if visited.contains id then ⟨visited, stack, threads, accepting⟩
      else if !automaton.isEpsilon id then ⟨visited.insert id, stack, threads.insert id, accepting⟩
      else if id == automaton.accept then ⟨visited.insert id, stack, threads, true⟩
      else ⟨visited.insert id, automaton.next id ++ stack, threads, accepting⟩ := by
  rw [visit, KeySet.add_eq]
  cases known : visited.contains id with
  | true => rw [KeySet.insert_of_contains known]; rfl
  | false => rfl

/-- What a visit pushes, it takes away from the edges that are left to be followed. -/
theorem visit_decreases (automaton : Automaton) (id : StateId) (closure : Closure) :
    (automaton.visit id closure).stack.length +
        automaton.epsilonGraph.unexplored (automaton.visit id closure).visited ≤
      closure.stack.length + automaton.epsilonGraph.unexplored closure.visited := by
  obtain ⟨visited, stack, threads, accepting⟩ := closure
  rw [visit_eq]
  split
  next => exact Nat.le_refl _
  next fresh =>
    have paid := automaton.epsilonGraph.unexplored_insert fresh
    split
    next => simp only [paid]; omega
    next epsilon =>
      have edges : automaton.epsilonGraph.next id = automaton.next id := if_pos (by simpa using epsilon)
      split <;> simp only [paid, edges, List.length_append] <;> omega

def settle (automaton : Automaton) : Closure → Closure
  | ⟨visited, [], threads, accepting⟩ => ⟨visited, [], threads, accepting⟩
  | ⟨visited, id :: stack, threads, accepting⟩ =>
    automaton.settle (automaton.visit id ⟨visited, stack, threads, accepting⟩)
termination_by closure => closure.stack.length + automaton.epsilonGraph.unexplored closure.visited
decreasing_by
  have := automaton.visit_decreases id ⟨visited, stack, threads, accepting⟩
  simp only [List.length_cons] at this ⊢
  omega

/-- Go on with the search from another start. -/
def close (automaton : Automaton) : Closure → StateId → Closure
  | ⟨visited, stack, threads, accepting⟩, start =>
    automaton.settle ⟨visited, start :: stack, threads, accepting⟩

theorem stack_settle (automaton : Automaton) (closure : Closure) :
    (automaton.settle closure).stack = [] := by
  fun_induction automaton.settle closure with
  | case1 => rfl
  | case2 _ _ _ _ _ ih => exact ih

/-- Searching leaves nothing on the stack. -/
theorem stack_foldl_close (automaton : Automaton) (starts : List StateId) {closure : Closure}
    (idle : closure.stack = []) : (starts.foldl automaton.close closure).stack = [] := by
  induction starts generalizing closure with
  | nil => exact idle
  | cons start rest ih => exact ih (automaton.stack_settle _)

end Automaton

end ByteRegex
