import ByteRegex.Graph
import Mathlib.Logic.Relation

/-! What a depth-first search finds. A search that begins with nothing visited meets exactly the
nodes to which a chain of edges leads from the nodes that it begins with. -/

namespace ByteRegex.Graph

def Leads (graph : Graph) : Nat → Nat → Prop :=
  Relation.ReflTransGen fun node after => after ∈ graph.next node

/-- No successor of a visited node is forgotten: it was visited or is still pending. -/
def Expanded (graph : Graph) (visited : KeySet) (pending : List Nat) : Prop :=
  ∀ node ∈ visited.toList, ∀ after ∈ graph.next node, after ∈ visited.toList ∨ after ∈ pending

theorem Leads.step {graph : Graph} {node after final : Nat} (edge : after ∈ graph.next node)
    (rest : graph.Leads after final) : graph.Leads node final := .head edge rest

theorem Leads.mono {first second : Graph} (edges : ∀ node, ∀ after ∈ first.next node, after ∈ second.next node)
    {node final : Nat} (leads : first.Leads node final) : second.Leads node final :=
  Relation.ReflTransGen.mono edges _ _ leads

theorem explore_keeps (graph : Graph) {visited : KeySet} {pending : List Nat} {node : Nat}
    (inside : node ∈ visited.toList) : node ∈ (graph.explore visited pending).toList := by
  fun_induction graph.explore visited pending with
  | case1 => exact inside
  | case2 _ _ _ _ ih => exact ih inside
  | case3 _ _ _ _ ih => exact ih (KeySet.mem_toList_insert.mpr (.inl inside))

theorem explore_visits (graph : Graph) {visited : KeySet} {pending : List Nat} {start : Nat}
    (begins : start ∈ pending) : start ∈ (graph.explore visited pending).toList := by
  fun_induction graph.explore visited pending with
  | case1 => simp at begins
  | case2 visited node rest known ih =>
    rcases List.mem_cons.mp begins with rfl | later
    · exact graph.explore_keeps (KeySet.contains_iff.mp known)
    · exact ih later
  | case3 visited node rest _ ih =>
    rcases List.mem_cons.mp begins with rfl | later
    · exact graph.explore_keeps (KeySet.mem_toList_insert.mpr (.inr rfl))
    · exact ih (List.mem_append.mpr (.inr later))

theorem explore_expanded (graph : Graph) {visited : KeySet} {pending : List Nat}
    (expanded : graph.Expanded visited pending) :
    graph.Expanded (graph.explore visited pending) [] := by
  fun_induction graph.explore visited pending with
  | case1 => exact expanded
  | case2 visited node rest known ih =>
    apply ih
    intro other inside after edge
    rcases expanded other inside after edge with seen | waiting
    · exact .inl seen
    rcases List.mem_cons.mp waiting with rfl | waiting
    · exact .inl (KeySet.contains_iff.mp known)
    · exact .inr waiting
  | case3 visited node rest _ ih =>
    apply ih
    intro other inside after edge
    rcases KeySet.mem_toList_insert.mp inside with old | rfl
    · rcases expanded other old after edge with seen | waiting
      · exact .inl (KeySet.mem_toList_insert.mpr (.inl seen))
      rcases List.mem_cons.mp waiting with rfl | waiting
      · exact .inl (KeySet.mem_toList_insert.mpr (.inr rfl))
      · exact .inr (List.mem_append.mpr (.inr waiting))
    · -- What the new node leads to is now at the front.
      exact .inr (List.mem_append.mpr (.inl edge))

theorem explore_reached (graph : Graph) {visited : KeySet} {pending : List Nat} {node : Nat}
    (found : node ∈ (graph.explore visited pending).toList) :
    node ∈ visited.toList ∨ ∃ start ∈ pending, graph.Leads start node := by
  fun_induction graph.explore visited pending with
  | case1 => exact .inl found
  | case2 visited first rest _ ih =>
    rcases ih found with seen | ⟨start, begins, leads⟩
    · exact .inl seen
    · exact .inr ⟨start, List.mem_cons_of_mem _ begins, leads⟩
  | case3 visited first rest _ ih =>
    rcases ih found with seen | ⟨start, begins, leads⟩
    · rcases KeySet.mem_toList_insert.mp seen with old | rfl
      · exact .inl old
      · exact .inr ⟨node, List.mem_cons_self, .refl⟩
    rcases List.mem_append.mp begins with edge | waiting
    · exact .inr ⟨first, List.mem_cons_self, leads.step edge⟩
    · exact .inr ⟨start, List.mem_cons_of_mem _ waiting, leads⟩

theorem explore_append (graph : Graph) (visited : KeySet) (first second : List Nat) :
    graph.explore visited (first ++ second) = graph.explore (graph.explore visited first) second := by
  fun_induction graph.explore visited first with
  | case1 => rfl
  | case2 visited node rest known ih =>
    rw [List.cons_append, explore, if_pos known, ih]
  | case3 visited node rest fresh ih =>
    rw [List.cons_append, explore, if_neg fresh, ← List.append_assoc, ih]

/-- A set that is closed under successors is not left by a chain of edges. -/
theorem Leads.stays {graph : Graph} {visited : KeySet} (expanded : graph.Expanded visited [])
    {node final : Nat} (leads : graph.Leads node final) (inside : node ∈ visited.toList) :
    final ∈ visited.toList := by
  induction leads with
  | refl => exact inside
  | tail _ edge ih => exact (expanded _ ih _ edge).resolve_right List.not_mem_nil

/-- What the search finds does not depend on the bitmap that it was given for its memory. -/
theorem mem_explore (graph : Graph) {memory : KeySet} (empty : memory.toList = [])
    {pending : List Nat} {node : Nat} :
    node ∈ (graph.explore memory pending).toList ↔ ∃ start ∈ pending, graph.Leads start node := by
  constructor
  · intro found
    refine (graph.explore_reached found).resolve_left ?_
    simp [empty]
  · rintro ⟨start, begins, leads⟩
    have expanded : graph.Expanded memory pending := by
      intro other inside
      simp [empty] at inside
    exact leads.stays (graph.explore_expanded expanded) (graph.explore_visits begins)

theorem toList_explore (graph : Graph) {first second : KeySet} (same : first.toList = second.toList)
    (pending : List Nat) :
    (graph.explore first pending).toList = (graph.explore second pending).toList := by
  fun_induction graph.explore first pending generalizing second with
  | case1 => simpa only [explore] using same
  | case2 first node rest known ih =>
    rw [ih same, explore, if_pos ((KeySet.contains_congr same node).symm.trans known)]
  | case3 first node rest fresh ih =>
    have fresh' : ¬ second.contains node := KeySet.contains_congr same node ▸ fresh
    rw [explore, if_neg fresh']
    exact ih (KeySet.toList_insert_congr same node)

theorem contains_explore (graph : Graph) {memory : KeySet} (empty : memory.toList = [])
    {pending : List Nat} {node : Nat} :
    (graph.explore memory pending).contains node ↔
      ∃ start ∈ pending, graph.Leads start node := by
  rw [KeySet.contains_iff, graph.mem_explore empty]

end ByteRegex.Graph
