import ByteRegex.Automaton.Closure
import ByteRegex.Automaton.Renumber
import ByteRegex.Proofs.Shortening

/-! How long the searches of an automaton take. Each of them takes one state after the other off its stack and
expands it only if it was not met before. So there are at most as many rounds as the search begins with states
and the automaton has transitions, whatever cycles it goes through and however often it lists a successor. -/

namespace ByteRegex

/-- A loop that takes nodes off a stack and remembers those that it has met. -/
structure Loop (σ : Type) where
  visited : σ → KeySet
  stack : σ → List Nat
  /-- Takes the node on top of the stack and deals with it. -/
  round : σ → σ

namespace Loop

variable {σ : Type}

/-- The rounds until nothing is left on the stack, each by the state that it begins with. -/
inductive Rounds (loop : Loop σ) : σ → List σ → σ → Prop
  | done {state} (empty : loop.stack state = []) : Rounds loop state [] state
  | round {state trace final} (pending : loop.stack state ≠ []) (rest : Rounds loop (loop.round state) trace final) :
    Rounds loop state (state :: trace) final

/-- The node on top of the stack, if it was not met before. -/
def expanded? (loop : Loop σ) (state : σ) : Option Nat :=
  (loop.stack state).head?.filter (!(loop.visited state).contains ·)

/-- No node is expanded twice or after it was met before, and all rounds are paid for: by what is on the stack
at the beginning, and by the transitions. -/
structure Frugal (loop : Loop σ) (before : KeySet) (pushed transitions : Nat) (trace : List σ) : Prop where
  once : (before.toList ++ trace.filterMap loop.expanded?).Nodup
  length_le : trace.length ≤ pushed + transitions

/-- Nothing but successors of the node that is expanded is pushed, each at most as often as it is listed. -/
structure Searches (loop : Loop σ) (graph : Graph) : Prop where
  skip : ∀ {state node rest}, loop.stack state = node :: rest → (loop.visited state).contains node →
    loop.visited (loop.round state) = loop.visited state ∧ loop.stack (loop.round state) = rest
  expand : ∀ {state node rest}, loop.stack state = node :: rest → ¬ (loop.visited state).contains node →
    loop.visited (loop.round state) = (loop.visited state).insert node ∧
      ∃ pushed, pushed.Sublist (graph.next node) ∧ loop.stack (loop.round state) = pushed ++ rest

variable {loop : Loop σ} {graph : Graph} {state final : σ} {trace : List σ}

theorem Rounds.stack_final (rounds : loop.Rounds state trace final) : loop.stack final = [] := by
  induction rounds with
  | done empty => exact empty
  | round _ _ ih => exact ih

theorem Rounds.toList_visited (searches : loop.Searches graph) (rounds : loop.Rounds state trace final) :
    (loop.visited final).toList = (loop.visited state).toList ++ trace.filterMap loop.expanded? := by
  induction rounds with
  | done => rw [List.filterMap_nil, List.append_nil]
  | @round state trace final pending rest ih =>
    obtain ⟨node, stack, top⟩ := List.exists_cons_of_ne_nil pending
    by_cases known : (loop.visited state).contains node
    · have none : loop.expanded? state = none := by simp [expanded?, top, known]
      rw [ih, (searches.skip top known).1, List.filterMap_cons_none none]
    · have some : loop.expanded? state = some node := by simp [expanded?, top, known]
      have absent : node ∉ (loop.visited state).toList := fun met => known (KeySet.contains_iff.mpr met)
      rw [ih, (searches.expand top known).1, KeySet.toList_insert, if_neg absent, List.filterMap_cons_some some,
        List.append_assoc, List.singleton_append]

/-- Every round takes a node off the stack, and the successors that it pushes are never pushed again. -/
theorem Rounds.length_le (searches : loop.Searches graph) (rounds : loop.Rounds state trace final) :
    trace.length + graph.unexplored (loop.visited final) ≤
      (loop.stack state).length + graph.unexplored (loop.visited state) := by
  induction rounds with
  | done => exact Nat.add_le_add_right (Nat.zero_le _) _
  | @round state trace final pending rest ih =>
    obtain ⟨node, stack, top⟩ := List.exists_cons_of_ne_nil pending
    rw [top, List.length_cons, List.length_cons]
    by_cases known : (loop.visited state).contains node
    · obtain ⟨visited, popped⟩ := searches.skip top known
      rw [visited, popped] at ih
      omega
    · obtain ⟨visited, pushed, edges, grown⟩ := searches.expand top known
      rw [visited, grown] at ih
      have paid := graph.unexplored_visit known edges.length_le stack
      omega

end Loop

def transitionCount (arena : Array State) : Nat := (arena.toList.flatMap State.next).length

theorem Graph.total_mono {weight other : Nat → Nat} (smaller : ∀ node, weight node ≤ other node) (bound : Nat) :
    total weight bound ≤ total other bound := by
  induction bound with
  | zero => exact Nat.le_refl _
  | succ bound ih => exact Nat.add_le_add ih (smaller bound)

theorem Graph.total_eq_length (next : Nat → List Nat) (bound : Nat) :
    total (fun node => (next node).length) bound = ((List.range bound).flatMap next).length := by
  induction bound with
  | zero => rfl
  | succ bound ih =>
    rw [total, ih, List.range_succ, List.flatMap_append, List.length_append, List.flatMap_singleton]

theorem unexplored_le (arena : Array State) (visited : KeySet) :
    (transitions arena).unexplored visited ≤ transitionCount arena := by
  have listed : (List.range arena.size).map (transitions arena).next = arena.toList.map State.next := by
    apply List.ext_getElem (by simp)
    intro id inside _
    have inside : id < arena.size := by simpa using inside
    simp [transitions, inside]
  calc (transitions arena).unexplored visited
    _ ≤ Graph.total (fun id => ((transitions arena).next id).length) arena.size :=
      Graph.total_mono (fun id => by split <;> simp) arena.size
    _ = ((List.range arena.size).flatMap (transitions arena).next).length := Graph.total_eq_length _ _
    _ = transitionCount arena := by rw [List.flatMap_def, listed, transitionCount, List.flatMap_def]

namespace Automaton

def closing (automaton : Automaton) : Loop Closure where
  visited := Closure.visited
  stack := Closure.stack
  round
    | ⟨visited, [], threads, accepting⟩ => ⟨visited, [], threads, accepting⟩
    | ⟨visited, id :: stack, threads, accepting⟩ => automaton.visit id ⟨visited, stack, threads, accepting⟩

def chasing (automaton : Automaton) : Loop Chase where
  visited chase := chase.visited
  stack chase := chase.stack
  round
    | ⟨⟨visited, []⟩, found⟩ => ⟨⟨visited, []⟩, found⟩
    | ⟨⟨visited, id :: stack⟩, found⟩ => automaton.meet id ⟨⟨visited, stack⟩, found⟩

def assigning (arena : Array State) : Loop Search where
  visited := Search.visited
  stack := Search.stack
  round
    | ⟨visited, []⟩ => ⟨visited, []⟩
    | ⟨visited, id :: stack⟩ => assign arena id ⟨visited, stack⟩

/-- Searches along epsilon transitions from one start after the other, and the rounds of all of them. -/
inductive Closes (automaton : Automaton) : Closure → List StateId → List Closure → Closure → Prop
  | nil {closure} : Closes automaton closure [] [] closure
  | cons {closure start starts trace middle later final}
    (first : automaton.closing.Rounds
      ⟨closure.visited, start :: closure.stack, closure.threads, closure.accepting⟩ trace middle)
    (rest : Closes automaton middle starts later final) :
    Closes automaton closure (start :: starts) (trace ++ later) final

variable {automaton : Automaton}

theorem searches_closing (automaton : Automaton) : automaton.closing.Searches (transitions automaton.states) where
  skip := by
    rintro ⟨visited, _, threads, accepting⟩ id rest rfl known
    change visited.contains id at known
    change (automaton.visit id ⟨visited, rest, threads, accepting⟩).visited = visited ∧
      (automaton.visit id ⟨visited, rest, threads, accepting⟩).stack = rest
    rw [visit_eq, if_pos known]
    exact ⟨rfl, rfl⟩
  expand := by
    rintro ⟨visited, _, threads, accepting⟩ id rest rfl fresh
    change ¬ visited.contains id at fresh
    change (automaton.visit id ⟨visited, rest, threads, accepting⟩).visited = visited.insert id ∧
      ∃ pushed, pushed.Sublist (automaton.next id) ∧
        (automaton.visit id ⟨visited, rest, threads, accepting⟩).stack = pushed ++ rest
    rw [visit_eq, if_neg fresh]
    split
    · exact ⟨rfl, [], List.nil_sublist _, rfl⟩
    split
    · exact ⟨rfl, [], List.nil_sublist _, rfl⟩
    · exact ⟨rfl, automaton.next id, List.Sublist.refl _, rfl⟩

theorem searches_chasing (automaton : Automaton) : automaton.chasing.Searches (transitions automaton.states) where
  skip := by
    rintro ⟨⟨visited, _⟩, found⟩ id rest rfl known
    change visited.contains id at known
    change (automaton.meet id ⟨⟨visited, rest⟩, found⟩).visited = visited ∧
      (automaton.meet id ⟨⟨visited, rest⟩, found⟩).stack = rest
    rw [meet_eq, if_pos known]
    exact ⟨rfl, rfl⟩
  expand := by
    rintro ⟨⟨visited, _⟩, found⟩ id rest rfl fresh
    change ¬ visited.contains id at fresh
    change (automaton.meet id ⟨⟨visited, rest⟩, found⟩).visited = visited.insert id ∧
      ∃ pushed, pushed.Sublist (automaton.next id) ∧
        (automaton.meet id ⟨⟨visited, rest⟩, found⟩).stack = pushed ++ rest
    have edges : (automaton.epsilonGraph.next id).Sublist (automaton.next id) := by
      simp only [epsilonGraph]
      split
      · exact List.Sublist.refl _
      · exact List.nil_sublist _
    rw [meet_eq, if_neg fresh]
    exact ⟨rfl, _, edges, rfl⟩

theorem searches_assigning (arena : Array State) : (assigning arena).Searches (transitions arena) where
  skip := by
    rintro ⟨visited, _⟩ id rest rfl known
    change visited.contains id at known
    change (assign arena id ⟨visited, rest⟩).visited = visited ∧ (assign arena id ⟨visited, rest⟩).stack = rest
    rw [assign, if_pos known]
    exact ⟨rfl, rfl⟩
  expand := by
    rintro ⟨visited, _⟩ id rest rfl fresh
    change ¬ visited.contains id at fresh
    change (assign arena id ⟨visited, rest⟩).visited = visited.insert id ∧
      ∃ pushed, pushed.Sublist ((transitions arena).next id) ∧
        (assign arena id ⟨visited, rest⟩).stack = pushed ++ rest
    rw [assign, if_neg fresh]
    exact ⟨rfl, _, List.filter_sublist, rfl⟩

theorem exists_rounds_settle (automaton : Automaton) (closure : Closure) :
    ∃ trace, automaton.closing.Rounds closure trace (automaton.settle closure) := by
  fun_induction automaton.settle closure with
  | case1 => exact ⟨[], .done rfl⟩
  | case2 visited id stack threads accepting ih =>
    obtain ⟨trace, rounds⟩ := ih
    exact ⟨_, .round (List.cons_ne_nil id stack) rounds⟩

theorem exists_rounds_chase (automaton : Automaton) (chase : Chase) :
    ∃ trace, automaton.chasing.Rounds chase trace (automaton.chase chase) := by
  fun_induction automaton.chase chase with
  | case1 => exact ⟨[], .done rfl⟩
  | case2 visited id stack found ih =>
    obtain ⟨trace, rounds⟩ := ih
    exact ⟨_, .round (List.cons_ne_nil id stack) rounds⟩

theorem exists_rounds_enumerate (arena : Array State) (search : Search) :
    ∃ trace, (assigning arena).Rounds search trace (enumerate arena search) := by
  fun_induction enumerate arena search with
  | case1 => exact ⟨[], .done rfl⟩
  | case2 visited id stack ih =>
    obtain ⟨trace, rounds⟩ := ih
    exact ⟨_, .round (List.cons_ne_nil id stack) rounds⟩

theorem frugal_of_rounds {σ : Type} {loop : Loop σ} {arena : Array State} {state final : σ} {trace : List σ}
    (searches : loop.Searches (transitions arena)) (rounds : loop.Rounds state trace final) :
    loop.Frugal (loop.visited state) (loop.stack state).length (transitionCount arena) trace where
  once := by
    rw [← rounds.toList_visited searches]
    exact KeySet.nodup_toList _
  length_le := by
    have paid := rounds.length_le searches
    have all := unexplored_le arena (loop.visited state)
    omega

section closes

variable {closure final : Closure} {starts : List StateId} {trace : List Closure}

theorem exists_closes (automaton : Automaton) (closure : Closure) (starts : List StateId) :
    ∃ trace, automaton.Closes closure starts trace (starts.foldl automaton.close closure) := by
  induction starts generalizing closure with
  | nil => exact ⟨[], .nil⟩
  | cons start rest ih =>
    obtain ⟨visited, stack, threads, accepting⟩ := closure
    obtain ⟨trace, first⟩ := automaton.exists_rounds_settle ⟨visited, start :: stack, threads, accepting⟩
    obtain ⟨later, rest⟩ := ih (automaton.close ⟨visited, stack, threads, accepting⟩ start)
    exact ⟨trace ++ later, .cons first rest⟩

theorem Closes.toList_visited (closes : automaton.Closes closure starts trace final) :
    final.visited.toList = closure.visited.toList ++ trace.filterMap automaton.closing.expanded? := by
  induction closes with
  | nil => rw [List.filterMap_nil, List.append_nil]
  | cons first rest ih =>
    have met := first.toList_visited automaton.searches_closing
    rw [ih, List.filterMap_append, ← List.append_assoc]
    exact congrArg (· ++ _) met

theorem Closes.length_le (closes : automaton.Closes closure starts trace final) :
    trace.length + (transitions automaton.states).unexplored final.visited ≤
      closure.stack.length + starts.length + (transitions automaton.states).unexplored closure.visited := by
  induction closes with
  | nil => simp
  | @cons closure start starts trace middle later final first rest ih =>
    have paid := first.length_le automaton.searches_closing
    have emptied : middle.stack = [] := first.stack_final
    simp only [closing, List.length_cons, List.length_append, emptied, List.length_nil] at paid ih ⊢
    omega

theorem Closes.frugal (closes : automaton.Closes closure starts trace final) :
    automaton.closing.Frugal closure.visited (closure.stack.length + starts.length)
      (transitionCount automaton.states) trace where
  once := by
    rw [← closes.toList_visited]
    exact KeySet.nodup_toList _
  length_le := by
    have paid := closes.length_le
    have all := unexplored_le automaton.states closure.visited
    omega

end closes

/-- The searches of the scanner, also from one start after the other, those of the optimizer and the one that
numbers the states of an arena all come to an end, and none takes more rounds than there are states that it
begins with and transitions. -/
theorem searches_end (automaton : Automaton) :
    (∀ closure starts, ∃ trace,
      automaton.Closes closure starts trace (starts.foldl automaton.close closure) ∧
      automaton.closing.Frugal closure.visited (closure.stack.length + starts.length)
        (transitionCount automaton.states) trace) ∧
    (∀ memory id, ∃ trace final,
      automaton.chasing.Rounds ⟨⟨memory.visited, automaton.next id ++ memory.stack⟩, #[]⟩ trace final ∧
      (final.found.toList, ⟨final.visited.clear, []⟩) = automaton.endings memory id ∧
      automaton.chasing.Frugal memory.visited (automaton.next id ++ memory.stack).length
        (transitionCount automaton.states) trace) ∧
    ∀ arena sources, ∃ trace final,
      (assigning arena).Rounds ⟨.withCapacity arena.size, sources⟩ trace final ∧
      final = enumerate arena ⟨.withCapacity arena.size, sources⟩ ∧
      (assigning arena).Frugal (.withCapacity arena.size) sources.length (transitionCount arena) trace := by
  refine ⟨?_, ?_, ?_⟩
  · intro closure starts
    obtain ⟨trace, closes⟩ := automaton.exists_closes closure starts
    exact ⟨trace, closes, closes.frugal⟩
  · intro memory id
    obtain ⟨trace, rounds⟩ := automaton.exists_rounds_chase
      ⟨⟨memory.visited, automaton.next id ++ memory.stack⟩, #[]⟩
    refine ⟨trace, _, rounds, ?_, frugal_of_rounds automaton.searches_chasing rounds⟩
    rw [endings, automaton.stack_chase]
  · intro arena sources
    obtain ⟨trace, rounds⟩ := exists_rounds_enumerate arena ⟨.withCapacity arena.size, sources⟩
    exact ⟨trace, _, rounds, rfl, frugal_of_rounds (searches_assigning arena) rounds⟩

end Automaton

end ByteRegex
