import ByteRegex.KeySet

/-! Depth-first search over numbered nodes. Renumbering, epsilon closures and the search for
shortcuts meet what this search meets; they differ in the successors that they follow and in
what they note on the way. -/

namespace ByteRegex

/-- A search under way. -/
structure Search where
  visited : KeySet
  /-- The nodes that are still to be looked at, the next one first. -/
  stack : List Nat

namespace Search

/-- Nothing was visited yet, and the bitmap already covers the nodes below `capacity`. -/
def withCapacity (capacity : Nat) : Search := ⟨.withCapacity capacity, []⟩

instance : EmptyCollection Search := ⟨withCapacity 0⟩

end Search

/-- A graph whose nodes from `size` on are dead ends. -/
structure Graph where
  size : Nat
  next : Nat → List Nat
  next_eq_nil : ∀ node, size ≤ node → next node = []

namespace Graph

def ofEdges (edges : Array (List Nat)) : Graph where
  size := edges.size
  next node := edges.getD node []
  next_eq_nil node outside := by simp [Array.getD_eq_getD_getElem?, Array.getElem?_eq_none outside]

def total (weight : Nat → Nat) : (bound : Nat) → Nat
  | 0 => 0
  | bound + 1 => total weight bound + weight bound

/-- Edges that leave the nodes outside a set. Visiting a node pays for its own edges, which
is why a search makes at most one move per edge and per node it starts with. -/
def unexplored (graph : Graph) (visited : KeySet) : Nat :=
  total (fun node => if visited.contains node then 0 else (graph.next node).length) graph.size

private theorem total_remove (weight : Nat → Nat) (visited : Nat → Bool) (node : Nat)
    (fresh : visited node = false) (bound : Nat) :
    total (fun other => if visited other then 0 else weight other) bound =
      total (fun other => if visited other || other == node then 0 else weight other) bound +
        if node < bound then weight node else 0 := by
  induction bound with
  | zero => simp [total]
  | succ bound ih =>
    rw [total, total, ih]
    by_cases same : bound = node
    · subst same
      simp [fresh]
    · have other : (bound == node) = false := by simpa using same
      have below : node < bound + 1 ↔ node < bound := by omega
      simp only [other, Bool.or_false, below]
      omega

theorem unexplored_insert (graph : Graph) {visited : KeySet} {node : Nat}
    (fresh : ¬ visited.contains node) :
    graph.unexplored visited =
      graph.unexplored (visited.insert node) + (graph.next node).length := by
  have removed := total_remove (fun other => (graph.next other).length) visited.contains node
    (by simpa using fresh) graph.size
  simp only [unexplored, KeySet.contains_insert]
  rw [removed]
  split
  next => rfl
  next outside => simp [graph.next_eq_nil node (by omega)]

/-- A visit may push as many nodes as it takes edges away. -/
theorem unexplored_visit (graph : Graph) {visited : KeySet} {node : Nat} {pushed : List Nat}
    (fresh : ¬ visited.contains node) (edges : pushed.length ≤ (graph.next node).length)
    (stack : List Nat) :
    (pushed ++ stack).length + graph.unexplored (visited.insert node) ≤
      stack.length + graph.unexplored visited := by
  rw [graph.unexplored_insert fresh, List.length_append]
  omega

/-- Visit everything reachable from the pending nodes through nodes not visited before, each
node before its successors and the successors from left to right. -/
def explore (graph : Graph) (visited : KeySet) : List Nat → KeySet
  | [] => visited
  | node :: rest =>
    if visited.contains node then graph.explore visited rest
    else graph.explore (visited.insert node) (graph.next node ++ rest)
termination_by pending => pending.length + graph.unexplored visited
decreasing_by
  · simp
  · rename_i fresh
    have := graph.unexplored_insert fresh
    simp
    omega

end Graph

end ByteRegex
