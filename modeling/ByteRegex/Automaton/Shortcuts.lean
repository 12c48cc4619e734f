import ByteRegex.Automaton.Basic

/-! Where epsilon states lead. A search that goes on through epsilon states only and stops at
the states that consume gives both the threads of a scanner and the shortcuts that replace
chains of epsilon states. -/

namespace ByteRegex

/-- A search for the endings of chains. -/
structure Chase extends Search where
  found : Array StateId

namespace Automaton

def epsilonGraph (automaton : Automaton) : Graph where
  size := automaton.size
  next id := if automaton.isEpsilon id then automaton.next id else []
  next_eq_nil id outside := by
    have absent : automaton.states[id]? = none := Array.getElem?_eq_none outside
    simp [next, absent]

/-- A state at which a chain of epsilon states ends: it consumes, or nothing follows it. -/
def isEnding (automaton : Automaton) (id : StateId) : Bool :=
  !automaton.isEpsilon id || automaton.isSink id

/-- Look at a state that was taken from the stack. Its successors are pushed if it only forks. -/
def meet (automaton : Automaton) (id : StateId) : Chase → Chase
  | ⟨⟨visited, stack⟩, found⟩ =>
    match visited.add id with
    | (false, visited) => ⟨⟨visited, stack⟩, found⟩
    | (true, visited) =>
      ⟨⟨visited, automaton.epsilonGraph.next id ++ stack⟩,
        if automaton.isEnding id then found.push id else found⟩

theorem meet_eq (automaton : Automaton) (id : StateId) (visited : KeySet) (stack : List StateId)
    (found : Array StateId) : automaton.meet id ⟨⟨visited, stack⟩, found⟩ =
      if visited.contains id then ⟨⟨visited, stack⟩, found⟩
      else
        ⟨⟨visited.insert id, automaton.epsilonGraph.next id ++ stack⟩,
          if automaton.isEnding id then found.push id else found⟩ := by
  rw [meet, KeySet.add_eq]
  cases known : visited.contains id with
  | true => rw [KeySet.insert_of_contains known]; rfl
  | false => rfl

theorem meet_decreases (automaton : Automaton) (id : StateId) (chase : Chase) :
    (automaton.meet id chase).stack.length +
        automaton.epsilonGraph.unexplored (automaton.meet id chase).visited ≤
      chase.stack.length + automaton.epsilonGraph.unexplored chase.visited := by
  obtain ⟨⟨visited, stack⟩, found⟩ := chase
  rw [meet_eq]
  split
  next => exact Nat.le_refl _
  next fresh => exact automaton.epsilonGraph.unexplored_visit fresh (Nat.le_refl _) stack

def chase (automaton : Automaton) : Chase → Chase
  | ⟨⟨visited, []⟩, found⟩ => ⟨⟨visited, []⟩, found⟩
  | ⟨⟨visited, id :: stack⟩, found⟩ => automaton.chase (automaton.meet id ⟨⟨visited, stack⟩, found⟩)
termination_by chase => chase.stack.length + automaton.epsilonGraph.unexplored chase.visited
decreasing_by
  have := automaton.meet_decreases id ⟨⟨visited, stack⟩, found⟩
  simp only [List.length_cons] at this ⊢
  omega

/-- The endings of all chains that begin with a successor of the state, in the order in which
the search meets them. The search uses an empty memory and gives it back empty. -/
def endings (automaton : Automaton) (memory : Search) (id : StateId) : List StateId × Search :=
  let done := automaton.chase ⟨⟨memory.visited, automaton.next id ++ memory.stack⟩, #[]⟩
  (done.found.toList, ⟨done.visited.clear, done.stack⟩)

def shortcuts (automaton : Automaton) : Array (List StateId) :=
  ((List.range automaton.size).foldl
    (fun (found, memory) id =>
      let (ends, memory) := automaton.endings memory id
      (found.push ends, memory))
    (#[], Search.withCapacity automaton.size)).1

def shortcutGraph (automaton : Automaton) : Graph := .ofEdges automaton.shortcuts

end Automaton

end ByteRegex
