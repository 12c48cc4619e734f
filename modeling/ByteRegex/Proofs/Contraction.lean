import ByteRegex.Proofs.Search

/-! Searches that meet the same nodes in the same order. A node that only leads onward can be left out
of a graph, and it makes no difference how often a node lists a successor. -/

namespace ByteRegex.Graph

/-- The coarse graph leaves out the nodes of the fine one that have `onward` as their only successor. -/
structure Contracts (fine coarse : Graph) (onward : Nat → Nat) : Prop where
  onward_onward : ∀ node, onward (onward node) = onward node
  passes : ∀ node, onward node ≠ node → fine.next node = [onward node]
  stays : ∀ node, onward node = node → coarse.next node = (fine.next node).map onward

variable {fine coarse graph : Graph} {onward : Nat → Nat} {visited memory : KeySet} {pending : List Nat}

theorem explore_of_contains {node : Nat} (known : visited.contains node) :
    graph.explore visited (node :: pending) = graph.explore visited pending := by
  rw [explore, if_pos known]

theorem explore_of_fresh {node : Nat} (fresh : ¬ visited.contains node) :
    graph.explore visited (node :: pending) =
      graph.explore (visited.insert node) (graph.next node ++ pending) := by
  rw [explore, if_neg fresh]

/-- The search of the coarse graph meets what that of the fine graph meets, in the same order, but for
the nodes that are left out. One that was met is followed at once by the node behind it. -/
theorem Contracts.toList_explore (contracts : Contracts fine coarse onward)
    (same : memory.toList = visited.toList.filter fun node => onward node == node)
    (followed : ∀ node ∈ visited.toList,
      onward node ∈ visited.toList ∨ pending.head? = some (onward node)) :
    (coarse.explore memory (pending.map onward)).toList =
      (fine.explore visited pending).toList.filter fun node => onward node == node := by
  fun_induction fine.explore visited pending generalizing memory with
  | case1 visited => rwa [List.map_nil, explore]
  | case2 visited node rest known ih =>
    have seen : node ∈ visited.toList := KeySet.contains_iff.mp known
    -- If the node behind a visited one were pending, it would be this one, which was visited.
    have ahead : ∀ other ∈ visited.toList, onward other ∈ visited.toList := by
      intro other met
      rcases followed other met with seen | next
      · exact seen
      · exact Option.some.inj next ▸ seen
    have behind : memory.contains (onward node) := by
      rw [KeySet.contains_iff, same, List.mem_filter]
      exact ⟨ahead node seen, by simpa using contracts.onward_onward node⟩
    rw [List.map_cons, explore_of_contains behind]
    exact ih same fun other met => .inl (ahead other met)
  | case3 visited node rest fresh ih =>
    have absent : node ∉ visited.toList := fun seen => fresh (KeySet.contains_iff.mpr seen)
    have grown : (visited.insert node).toList = visited.toList ++ [node] := by
      rw [KeySet.toList_insert, if_neg absent]
    by_cases stays : onward node = node
    · have unmet : ¬ memory.contains node := by
        rw [KeySet.contains_iff, same]
        exact fun met => absent (List.mem_filter.mp met).1
      rw [List.map_cons, stays, explore_of_fresh unmet, contracts.stays node stays, ← List.map_append]
      refine ih ?_ ?_
      · rw [grown, List.filter_append, ← same, KeySet.toList_insert,
          if_neg (unmet ∘ KeySet.contains_iff.mpr)]
        simp [stays]
      · intro other met
        rw [grown, List.mem_append, List.mem_singleton] at met ⊢
        rcases met with met | rfl
        · rcases followed other met with seen | next
          · exact .inl (.inl seen)
          · exact .inl (.inr (Option.some.inj next).symm)
        · exact .inl (.inr stays)
    · -- A node that is left out gives its place in the list to the node behind it.
      have passed : ((fine.next node ++ rest).map onward) = (node :: rest).map onward := by
        rw [contracts.passes node stays, List.map_append, List.map_singleton, contracts.onward_onward]
        rfl
      rw [← passed]
      refine ih ?_ ?_
      · rw [grown, List.filter_append, ← same]
        simp [stays]
      · intro other met
        rw [contracts.passes node stays]
        rw [grown, List.mem_append, List.mem_singleton] at met ⊢
        rcases met with met | rfl
        · rcases followed other met with seen | next
          · exact .inl (.inl seen)
          · -- Nothing that is left out lies behind another node.
            have leads : node = onward other := Option.some.inj next
            exact absurd (by rw [leads, contracts.onward_onward]) stays
        · exact .inr rfl

theorem Contracts.toList_explore_of_empty (contracts : Contracts fine coarse onward)
    (unmarked : memory.toList = []) (unvisited : visited.toList = []) (pending : List Nat) :
    (coarse.explore memory (pending.map onward)).toList =
      (fine.explore visited pending).toList.filter fun node => onward node == node :=
  contracts.toList_explore (by rw [unmarked, unvisited]; rfl) (by simp [unvisited])

theorem explore_filter {dropped : Nat → Bool} (known : ∀ node, dropped node → visited.contains node)
    (pending : List Nat) :
    graph.explore visited (pending.filter (!dropped ·)) = graph.explore visited pending := by
  induction pending generalizing visited with
  | nil => rfl
  | cons first rest ih =>
    cases drops : dropped first with
    | true =>
      rw [explore_of_contains (known first drops), ← ih known]
      simp [drops]
    | false =>
      have kept : (first :: rest).filter (!dropped ·) = [first] ++ rest.filter (!dropped ·) := by
        simp [drops]
      have later : ∀ node, dropped node → (graph.explore visited [first]).contains node :=
        fun node drops => KeySet.contains_iff.mpr (graph.explore_keeps (KeySet.contains_iff.mp (known node drops)))
      rw [kept, explore_append, ih later, ← explore_append]
      rfl

theorem explore_eraseDups (graph : Graph) (visited : KeySet) (pending : List Nat) :
    graph.explore visited pending.eraseDups = graph.explore visited pending := by
  match pending with
  | [] => rfl
  | first :: rest =>
    have shorter : (rest.filter fun item => !item == first).length < (first :: rest).length :=
      Nat.lt_succ_of_le (List.length_filter_le _ rest)
    have met : ∀ node, node == first → (graph.explore visited [first]).contains node := fun node same =>
      KeySet.contains_iff.mpr (graph.explore_visits (List.mem_singleton.mpr (beq_iff_eq.mp same)))
    rw [List.eraseDups_cons, ← List.singleton_append, explore_append,
      graph.explore_eraseDups _ (rest.filter fun item => !item == first), explore_filter met,
      ← explore_append, List.singleton_append]
termination_by pending.length
decreasing_by exact shorter

theorem explore_congr (same : ∀ node, coarse.next node = (fine.next node).eraseDups) :
    coarse.explore visited pending = fine.explore visited pending := by
  fun_induction fine.explore visited pending with
  | case1 => rw [explore]
  | case2 visited node rest known ih => rw [explore_of_contains known, ih]
  | case3 visited node rest fresh ih =>
    rw [explore_of_fresh fresh, same, explore_append, explore_eraseDups, ← explore_append]
    exact ih

end ByteRegex.Graph
