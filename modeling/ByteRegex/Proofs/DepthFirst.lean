import ByteRegex.Proofs.Contraction
import Mathlib.Data.Finset.Card
import Mathlib.Data.Finset.Range
import Mathlib.Data.Finset.SDiff

/-! The recursive depth-first search. A node is followed at once by all that its successors lead to, and only
then does the search go on to the next one. The search that keeps a list of pending nodes meets the same nodes
in the same order, and under other numbers it meets the same nodes again. -/

namespace ByteRegex

namespace KeySet

variable {first second : KeySet} {move : Nat → Nat} {key : Nat}

theorem contains_map (same : second.toList = first.toList.map move)
    (injective : ∀ other ∈ first.toList, move other = move key → other = key) :
    second.contains (move key) ↔ first.contains key := by
  rw [contains_iff, contains_iff, same, List.mem_map]
  constructor
  · intro ⟨other, inside, equal⟩
    exact injective other inside equal ▸ inside
  · exact fun inside => ⟨key, inside, rfl⟩

theorem toList_insert_map (same : second.toList = first.toList.map move)
    (injective : ∀ other ∈ first.toList, move other = move key → other = key) :
    (second.insert (move key)).toList = (first.insert key).toList.map move := by
  have known := contains_map same injective
  rw [contains_iff, contains_iff] at known
  rw [toList_insert, toList_insert]
  simp only [known]
  split
  · exact same
  · rw [same, List.map_append, List.map_singleton]

end KeySet

namespace Graph

/-- How many nodes of the graph are still to be seen. -/
def unseen (graph : Graph) (seen : List Nat) : Nat := (Finset.range graph.size \ seen.toFinset).card

theorem unseen_mono (graph : Graph) {seen order : List Nat} (kept : seen ⊆ order) :
    graph.unseen order ≤ graph.unseen seen := by
  refine Finset.card_le_card (Finset.sdiff_subset_sdiff (Finset.Subset.refl _) ?_)
  intro node inside
  exact List.mem_toFinset.mpr (kept (List.mem_toFinset.mp inside))

theorem unseen_concat_lt (graph : Graph) {seen : List Nat} {node : Nat} (fresh : node ∉ seen)
    (inside : node < graph.size) : graph.unseen (seen ++ [node]) < graph.unseen seen := by
  apply Finset.card_lt_card
  refine Finset.ssubset_iff_subset_ne.mpr ⟨?_, ?_⟩
  · refine Finset.sdiff_subset_sdiff (Finset.Subset.refl _) ?_
    intro other listed
    simp [List.mem_toFinset.mp listed]
  · intro same
    have left : node ∈ Finset.range graph.size \ seen.toFinset := by simp [inside, fresh]
    simp [← same] at left

/-- Visit the nodes one after the other, each with all that its successors lead to. What was seen before is
not visited again. -/
def visit (graph : Graph) (seen : List Nat) : (nodes : List Nat) → { order : List Nat // seen ⊆ order }
  | [] => ⟨seen, List.Subset.refl seen⟩
  | node :: rest =>
    if node ∈ seen then graph.visit seen rest
    else
      let below := graph.visit (seen ++ [node]) (graph.next node)
      let whole := graph.visit below.1 rest
      ⟨whole.1, fun _ met => whole.2 (below.2 (List.mem_append_left [node] met))⟩
termination_by nodes => (graph.unseen seen, nodes.length)
decreasing_by
  · exact Prod.Lex.right _ (Nat.lt_succ_self _)
  · rename_i fresh
    by_cases inside : node < graph.size
    · exact Prod.Lex.left _ _ (graph.unseen_concat_lt fresh inside)
    · -- A dead end has nothing to go on with.
      rw [graph.next_eq_nil node (Nat.le_of_not_lt inside)]
      exact Prod.Lex.right' _ (graph.unseen_mono (List.subset_append_left seen [node])) (Nat.succ_pos _)
  · exact Prod.Lex.right' _ (graph.unseen_mono fun _ met => below.2 (List.mem_append_left [node] met))
      (Nat.lt_succ_self _)

def depthFirst (graph : Graph) (seen nodes : List Nat) : List Nat := (graph.visit seen nodes).1

variable {graph other : Graph} {seen rest : List Nat} {node : Nat}

@[simp] theorem depthFirst_nil : graph.depthFirst seen [] = seen := by
  rw [depthFirst, visit]

theorem depthFirst_of_mem (known : node ∈ seen) :
    graph.depthFirst seen (node :: rest) = graph.depthFirst seen rest := by
  rw [depthFirst, visit, if_pos known, depthFirst]

theorem depthFirst_of_not_mem (fresh : node ∉ seen) : graph.depthFirst seen (node :: rest) =
    graph.depthFirst (graph.depthFirst (seen ++ [node]) (graph.next node)) rest := by
  rw [depthFirst, visit, if_neg fresh]
  rfl

theorem depthFirst_append (first second : List Nat) :
    graph.depthFirst seen (first ++ second) = graph.depthFirst (graph.depthFirst seen first) second := by
  induction first generalizing seen with
  | nil => rw [List.nil_append, depthFirst_nil]
  | cons node rest ih =>
    by_cases known : node ∈ seen
    · rw [List.cons_append, depthFirst_of_mem known, depthFirst_of_mem known, ih]
    · rw [List.cons_append, depthFirst_of_not_mem known, depthFirst_of_not_mem known, ih]

/-- Putting the successors in front of what is pending is visiting them first. -/
theorem toList_explore_eq (graph : Graph) (visited : KeySet) (pending : List Nat) :
    (graph.explore visited pending).toList = graph.depthFirst visited.toList pending := by
  fun_induction graph.explore visited pending with
  | case1 => rw [depthFirst_nil]
  | case2 visited node rest known ih => rw [ih, depthFirst_of_mem (KeySet.contains_iff.mp known)]
  | case3 visited node rest fresh ih =>
    have absent : node ∉ visited.toList := fun met => fresh (KeySet.contains_iff.mpr met)
    rw [ih, depthFirst_append, depthFirst_of_not_mem absent, KeySet.toList_insert, if_neg absent]

/-- The other graph has every node of a region, and its edges, under another number. -/
structure Embeds (graph other : Graph) (region : Nat → Prop) (move : Nat → Nat) : Prop where
  next : ∀ node, region node → ∀ after ∈ graph.next node, region after
  injective : ∀ first second, region first → region second → move first = move second → first = second
  edges : ∀ node, region node → other.next (move node) = (graph.next node).map move

variable {region : Nat → Prop} {move : Nat → Nat} {visited memory : KeySet} {pending : List Nat}

theorem Embeds.toList_explore (embeds : Embeds graph other region move)
    (same : memory.toList = visited.toList.map move) (met : ∀ node ∈ visited.toList, region node)
    (starts : ∀ node ∈ pending, region node) :
    (other.explore memory (pending.map move)).toList = (graph.explore visited pending).toList.map move := by
  fun_induction graph.explore visited pending generalizing memory with
  | case1 => rwa [List.map_nil, explore]
  | case2 visited node rest known ih =>
    have distinct : ∀ other ∈ visited.toList, move other = move node → other = node :=
      fun other seen => embeds.injective other node (met other seen) (starts node List.mem_cons_self)
    rw [List.map_cons, explore_of_contains ((KeySet.contains_map same distinct).mpr known)]
    exact ih same met fun later listed => starts later (List.mem_cons_of_mem node listed)
  | case3 visited node rest fresh ih =>
    have here := starts node List.mem_cons_self
    have distinct : ∀ other ∈ visited.toList, move other = move node → other = node :=
      fun other seen => embeds.injective other node (met other seen) here
    rw [List.map_cons, explore_of_fresh (fresh ∘ (KeySet.contains_map same distinct).mp), embeds.edges node here,
      ← List.map_append]
    -- The region is closed under successors, so the search never leaves it.
    refine ih (KeySet.toList_insert_map same distinct) ?_ ?_
    · intro later seen
      rcases KeySet.mem_toList_insert.mp seen with old | rfl
      · exact met later old
      · exact here
    · intro later listed
      rcases List.mem_append.mp listed with edge | waiting
      · exact embeds.next node here later edge
      · exact starts later (List.mem_cons_of_mem node waiting)

end Graph

end ByteRegex
