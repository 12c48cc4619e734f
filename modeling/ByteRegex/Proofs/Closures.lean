import ByteRegex.Automaton.Closure
import ByteRegex.Proofs.Runs

/-! What a scanner finds along epsilon transitions. The searches from one start after the other meet
what a single search from all of them meets, and sort it: the consuming states are the threads, and
the flag tells whether the accepting state is there. -/

namespace ByteRegex

variable {automaton : Automaton} {closure : Closure}

structure Closure.Sorted (automaton : Automaton) (closure : Closure) : Prop where
  threads : closure.threads.toList = closure.visited.toList.filter (!automaton.isEpsilon ·)
  accepting : closure.accepting = closure.visited.contains automaton.accept

namespace Automaton

theorem visit_sorted (epsilon : automaton.isEpsilon automaton.accept) (id : StateId)
    (sorted : closure.Sorted automaton) : (automaton.visit id closure).Sorted automaton := by
  obtain ⟨visited, stack, threads, accepting⟩ := closure
  obtain ⟨collected, flagged⟩ := sorted
  simp only at collected flagged
  rw [visit_eq]
  split
  next => exact ⟨collected, flagged⟩
  next fresh =>
    -- The state is met for the first time, so it is not among the threads either.
    have absent : id ∉ visited.toList := fun known => fresh (KeySet.contains_iff.mpr known)
    have grown : (visited.insert id).toList = visited.toList ++ [id] := by
      rw [KeySet.toList_insert, if_neg absent]
    split
    next consuming =>
      have unthreaded : id ∉ threads.toList := by
        rw [collected]
        exact fun thread => absent ((List.mem_filter.mp thread).1)
      have other : automaton.accept ≠ id := by
        rintro rfl
        simp [epsilon] at consuming
      refine ⟨?_, by simp [KeySet.contains_insert, other, flagged]⟩
      rw [KeySet.toList_insert, if_neg unthreaded, grown, List.filter_append, collected]
      simp [consuming]
    next forking =>
      have kept : threads.toList = (visited.insert id).toList.filter (!automaton.isEpsilon ·) := by
        rw [grown, List.filter_append, collected]
        simpa using forking
      split
      next same => exact ⟨kept, by simp [KeySet.contains_insert, beq_iff_eq.mp same]⟩
      next other =>
        have other : automaton.accept ≠ id := fun same => other (by simp [same])
        exact ⟨kept, by simp [KeySet.contains_insert, other, flagged]⟩

theorem settle_sorted (epsilon : automaton.isEpsilon automaton.accept) (sorted : closure.Sorted automaton) :
    (automaton.settle closure).Sorted automaton := by
  fun_induction automaton.settle closure with
  | case1 => exact sorted
  | case2 visited id stack threads accepting ih =>
    exact ih (visit_sorted epsilon id ⟨sorted.threads, sorted.accepting⟩)

/-- Nothing follows the accepting state, so a search that stops there misses nothing. -/
theorem visited_settle (sink : automaton.next automaton.accept = []) (closure : Closure) :
    (automaton.settle closure).visited = automaton.epsilonGraph.explore closure.visited closure.stack := by
  fun_induction automaton.settle closure with
  | case1 => rw [Graph.explore]
  | case2 visited id stack threads accepting ih =>
    rw [ih, Graph.explore, visit_eq]
    split
    next => rfl
    next =>
      split
      next consuming =>
        have dead : automaton.epsilonGraph.next id = [] := if_neg (by simpa using consuming)
        rw [dead, List.nil_append]
      next forking =>
        have edges : automaton.epsilonGraph.next id = automaton.next id := if_pos (by simpa using forking)
        rw [edges]
        split
        next same => rw [beq_iff_eq.mp same, sink, List.nil_append]
        next => rfl

theorem foldl_close_spec (closed : automaton.Closed) (starts : List StateId) (idle : closure.stack = [])
    (sorted : closure.Sorted automaton) : (starts.foldl automaton.close closure).Sorted automaton ∧
      (starts.foldl automaton.close closure).visited = automaton.epsilonGraph.explore closure.visited starts := by
  induction starts generalizing closure with
  | nil => exact ⟨sorted, by rw [Graph.explore]; rfl⟩
  | cons start rest ih =>
    obtain ⟨visited, stack, threads, accepting⟩ := closure
    obtain rfl : stack = [] := idle
    have begins : (Closure.mk visited [start] threads accepting).Sorted automaton :=
      ⟨sorted.threads, sorted.accepting⟩
    obtain ⟨sorts, visits⟩ := ih (automaton.stack_settle ⟨visited, [start], threads, accepting⟩)
      (settle_sorted closed.accept_epsilon begins)
    refine ⟨sorts, visits.trans ?_⟩
    rw [visited_settle closed.accept_next, ← Graph.explore_append]
    rfl

/-- A search with sets that were cleared meets exactly the states behind the starts. -/
theorem foldl_close_cleared (closed : automaton.Closed) (starts : List StateId) (visited threads : KeySet)
    {stack : List StateId} (idle : stack = []) :
    (starts.foldl automaton.close ⟨visited.clear, stack, threads.clear, false⟩).Sorted automaton ∧
    ∀ id, id ∈ (starts.foldl automaton.close ⟨visited.clear, stack, threads.clear, false⟩).visited.toList ↔
      ∃ start ∈ starts, automaton.epsilonGraph.Leads start id := by
  have cleared : (Closure.mk visited.clear stack threads.clear false).Sorted automaton := by
    refine ⟨by rw [KeySet.toList_clear, KeySet.toList_clear]; rfl, ?_⟩
    rw [Bool.eq_iff_iff, KeySet.contains_iff, KeySet.toList_clear]
    simp
  obtain ⟨sorted, visits⟩ := foldl_close_spec closed starts idle cleared
  refine ⟨sorted, fun id => ?_⟩
  rw [visits, automaton.epsilonGraph.mem_explore (KeySet.toList_clear visited)]

end Automaton

end ByteRegex
