import ByteRegex.Automaton.Basic

/-! Renumbering in depth-first order. A construction lays out states in whatever order suits
it; the automaton that it hands out holds the reachable ones, numbered as a walk from the
sources meets them. -/

namespace ByteRegex

def transitions (arena : Array State) : Graph where
  size := arena.size
  next id := (arena[id]?.map State.next).getD []
  next_eq_nil id outside := by simp [Array.getElem?_eq_none outside]

namespace Automaton

/-- Number a state that was taken from the stack. The successors that have a number by then are
not pushed. -/
def assign (arena : Array State) (id : StateId) : Search → Search
  | ⟨visited, stack⟩ =>
    if visited.contains id then ⟨visited, stack⟩
    else
      let visited := visited.insert id
      ⟨visited, ((transitions arena).next id).filter (!visited.contains ·) ++ stack⟩

theorem assign_decreases (arena : Array State) (id : StateId) (search : Search) :
    (assign arena id search).stack.length +
        (transitions arena).unexplored (assign arena id search).visited ≤
      search.stack.length + (transitions arena).unexplored search.visited := by
  obtain ⟨visited, stack⟩ := search
  rw [assign]
  split
  next => exact Nat.le_refl _
  next fresh => exact (transitions arena).unexplored_visit fresh (List.length_filter_le _ _) stack

def enumerate (arena : Array State) : Search → Search
  | ⟨visited, []⟩ => ⟨visited, []⟩
  | ⟨visited, id :: stack⟩ => enumerate arena (assign arena id ⟨visited, stack⟩)
termination_by search => search.stack.length + (transitions arena).unexplored search.visited
decreasing_by
  have := assign_decreases arena id ⟨visited, stack⟩
  simp only [List.length_cons] at this ⊢
  omega

/-- Keep the states that the sources reach, in the order of the walk, and after them the
accepting state if the walk misses it. A source that is listed again is dropped. -/
def ofArena (arena : Array State) (sources : List StateId) (accept : StateId) : Automaton :=
  let order := (enumerate arena ⟨.withCapacity arena.size, sources⟩).visited.insert accept
  let places := order.positions
  let place id := places.getD id 0
  { states := order.items.filterMap fun id =>
      arena[id]?.map fun state => { state with next := state.next.map place }
    sources := (sources.map place).eraseDups
    accept := place accept }

end Automaton

end ByteRegex
