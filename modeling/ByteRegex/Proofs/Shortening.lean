import ByteRegex.Automaton.Optimize
import ByteRegex.Proofs.Runs

/-! Shortcuts past epsilon states. A run that ends in the accepting state only stops to consume or
to accept, so it can take the shortcut to its next stop every time. -/

namespace ByteRegex

/-- Nothing is visited and nothing is left to be looked at. -/
structure Search.Clean (search : Search) : Prop where
  visited : search.visited.toList = []
  stack : search.stack = []

theorem Search.clean_withCapacity (capacity : Nat) : (withCapacity capacity).Clean := ⟨rfl, rfl⟩

theorem Search.clean_empty : (∅ : Search).Clean := clean_withCapacity 0

namespace Automaton

variable {automaton : Automaton} {id final : StateId} {byte : UInt8} {word : List UInt8}

theorem stack_chase (automaton : Automaton) (chase : Chase) : (automaton.chase chase).stack = [] := by
  fun_induction automaton.chase chase with
  | case1 => rfl
  | case2 _ _ _ _ ih => exact ih

theorem visited_chase (automaton : Automaton) (chase : Chase) :
    (automaton.chase chase).visited = automaton.epsilonGraph.explore chase.visited chase.stack := by
  fun_induction automaton.chase chase with
  | case1 => rw [Graph.explore]
  | case2 visited id stack found ih =>
    rw [ih, Graph.explore, meet_eq]
    split <;> rfl

theorem found_chase {chase : Chase}
    (collected : chase.found.toList = chase.visited.toList.filter automaton.isEnding) :
    (automaton.chase chase).found.toList = (automaton.chase chase).visited.toList.filter automaton.isEnding := by
  fun_induction automaton.chase chase with
  | case1 => exact collected
  | case2 visited id stack found ih =>
    simp only at collected
    apply ih
    rw [meet_eq]
    split
    next => exact collected
    next fresh =>
      have absent : id ∉ visited.toList := fun known => fresh (KeySet.contains_iff.mpr known)
      rw [KeySet.toList_insert, if_neg absent, List.filter_append, ← collected]
      split
      next ending => simp [ending]
      next passing => simp [passing]

theorem endings_spec {memory : Search} (clean : memory.Clean) (id : StateId) :
    (automaton.endings memory id).1 =
      (automaton.epsilonGraph.explore memory.visited (automaton.next id)).toList.filter automaton.isEnding := by
  have collected : ([] : List StateId) = memory.visited.toList.filter automaton.isEnding := by
    rw [clean.visited]
    rfl
  rw [endings]
  refine (found_chase collected).trans ?_
  rw [visited_chase, clean.stack, List.append_nil]

theorem clean_endings (automaton : Automaton) (memory : Search) (id : StateId) :
    (automaton.endings memory id).2.Clean :=
  ⟨KeySet.toList_clear _, automaton.stack_chase _⟩

theorem mem_endings {memory : Search} (clean : memory.Clean) :
    final ∈ (automaton.endings memory id).1 ↔
      automaton.isEnding final ∧ ∃ after ∈ automaton.next id, automaton.epsilonGraph.Leads after final := by
  rw [endings_spec clean, List.mem_filter, automaton.epsilonGraph.mem_explore clean.visited, and_comm]

theorem endings_eq {memory : Search} (clean : memory.Clean) :
    (automaton.endings memory id).1 = (automaton.endings ∅ id).1 := by
  have same : memory.visited.toList = (∅ : Search).visited.toList := clean.visited
  rw [endings_spec clean, endings_spec Search.clean_empty, automaton.epsilonGraph.toList_explore same]

/-- The search for the shortcuts of one state leaves nothing behind for the next one. -/
theorem toList_shortcuts (automaton : Automaton) : automaton.shortcuts.toList =
    (List.range automaton.size).map fun id => (automaton.endings ∅ id).1 := by
  have collected (ids : List StateId) (found : Array (List StateId)) (memory : Search) (clean : memory.Clean) :
      (ids.foldl (fun state id =>
        (state.1.push (automaton.endings state.2 id).1, (automaton.endings state.2 id).2))
        (found, memory)).1.toList =
        found.toList ++ ids.map fun id => (automaton.endings ∅ id).1 := by
    induction ids generalizing found memory with
    | nil => simp
    | cons id rest ih =>
      refine (ih (found.push (automaton.endings memory id).1) _ (automaton.clean_endings memory id)).trans ?_
      rw [Array.toList_push, List.map_cons, endings_eq clean, List.append_assoc, List.singleton_append]
  simpa [shortcuts] using collected (List.range automaton.size) #[] (.withCapacity automaton.size)
    (Search.clean_withCapacity automaton.size)

theorem shortcutGraph_next (automaton : Automaton) (id : StateId) :
    automaton.shortcutGraph.next id = (automaton.endings ∅ id).1 := by
  have listed : automaton.shortcutGraph.next id =
      (((List.range automaton.size).map fun id => (automaton.endings ∅ id).1)[id]?).getD [] := by
    rw [← toList_shortcuts, Array.getElem?_toList]
    exact Array.getD_eq_getD_getElem? ..
  rw [listed, List.getElem?_map]
  by_cases inside : id < automaton.size
  · rw [List.getElem?_range inside, Option.map_some, Option.getD_some]
  · rw [List.getElem?_eq_none (by simpa using inside), Option.map_none, Option.getD_none]
    symm
    apply List.eq_nil_iff_forall_not_mem.mpr
    intro final ends
    obtain ⟨_, after, edge, _⟩ := (mem_endings Search.clean_empty).mp ends
    exact inside (lt_of_next edge)

theorem mem_shortcutGraph_next : final ∈ automaton.shortcutGraph.next id ↔
    automaton.isEnding final ∧ ∃ after ∈ automaton.next id, automaton.epsilonGraph.Leads after final := by
  rw [shortcutGraph_next]
  exact mem_endings Search.clean_empty

theorem nodup_shortcutGraph_next (automaton : Automaton) (id : StateId) :
    (automaton.shortcutGraph.next id).Nodup := by
  rw [shortcutGraph_next, endings_spec Search.clean_empty]
  exact (KeySet.nodup_toList _).filter _

theorem isEnding_accept (closed : automaton.Closed) : automaton.isEnding automaton.accept := by
  obtain ⟨_, found⟩ := isEpsilon_iff.mp closed.accept_epsilon
  simp [isEnding, isSink, found, State.isSink, closed.accept_next]

theorem isEnding_of_reads (consumes : automaton.reads id byte) : automaton.isEnding id := by
  simp [isEnding, not_isEpsilon_of_reads consumes]

theorem next_of_isEnding (ending : automaton.isEnding id) (epsilon : automaton.isEpsilon id) :
    automaton.next id = [] := by
  obtain ⟨_, found⟩ := isEpsilon_iff.mp epsilon
  simpa [isEnding, epsilon, isSink, found, State.isSink] using ending

theorem shortcuts_of_isEnding (ending : automaton.isEnding id) (epsilon : automaton.isEpsilon id) :
    automaton.shortcutGraph.next id = [] := by
  apply List.eq_nil_iff_forall_not_mem.mpr
  intro final edge
  obtain ⟨_, after, edge, _⟩ := mem_shortcutGraph_next.mp edge
  simp [next_of_isEnding ending epsilon] at edge

/-- The first stop of an accepting run. -/
theorem Path.ending (closed : automaton.Closed) (path : automaton.Path id word automaton.accept) :
    ∃ stop, automaton.isEnding stop ∧ automaton.epsilonGraph.Leads id stop ∧
      automaton.Path stop word automaton.accept := by
  cases word with
  | nil => exact ⟨automaton.accept, isEnding_accept closed, path_nil_iff.mp path, .here _⟩
  | cons byte rest =>
    obtain ⟨middle, leads, consumes, after, edge, path⟩ := path_cons_iff.mp path
    exact ⟨middle, isEnding_of_reads consumes, leads, path.consume consumes edge⟩

/-- What a state leads to, it also leads to past the shortcuts. -/
theorem exists_shortcut_iff (closed : automaton.Closed) :
    (∃ stop ∈ automaton.shortcutGraph.next id, automaton.Path stop word automaton.accept) ↔
      ∃ after ∈ automaton.next id, automaton.Path after word automaton.accept := by
  constructor
  · rintro ⟨stop, edge, path⟩
    obtain ⟨_, after, edge, leads⟩ := mem_shortcutGraph_next.mp edge
    exact ⟨after, edge, .of_leads leads path⟩
  · rintro ⟨after, edge, path⟩
    obtain ⟨stop, ending, leads, path⟩ := path.ending closed
    exact ⟨stop, mem_shortcutGraph_next.mpr ⟨ending, after, edge, leads⟩, path⟩

/-- The shortcuts of a state, once for every time that it is listed as a source. -/
def collected (automaton : Automaton) (id : StateId) : List StateId :=
  (List.replicate (max 1 (automaton.sources.count id)) (automaton.shortcutGraph.next id)).flatten

theorem mem_collected : final ∈ automaton.collected id ↔ final ∈ automaton.shortcutGraph.next id := by
  have listed : max 1 (automaton.sources.count id) ≠ 0 := Nat.pos_iff_ne_zero.mp (Nat.le_max_left 1 _)
  simp [collected, List.mem_replicate, listed]

/-- The automaton with shortcuts for transitions and without the epsilon sources that have some.
All other states are still in their places. -/
def shortened (automaton : Automaton) : Automaton where
  states := automaton.states.mapIdx fun id state =>
    { state with next := automaton.collected id }
  sources := automaton.sources.flatMap fun id =>
    if automaton.isReplaced automaton.shortcutGraph id then automaton.shortcutGraph.next id else [id]
  accept := automaton.accept

theorem shortened_states : automaton.shortened.states[id]? =
    automaton.states[id]?.map fun state => { state with next := automaton.collected id } := by
  simp [shortened, Array.getElem?_mapIdx]

theorem size_shortened : automaton.shortened.size = automaton.size := by
  simp [shortened, size]

theorem mem_shortened_next : final ∈ automaton.shortened.next id ↔ final ∈ automaton.shortcutGraph.next id := by
  rw [next, shortened_states]
  cases found : automaton.states[id]? with
  | some state => exact mem_collected
  | none =>
    refine ⟨fun absent => absurd absent List.not_mem_nil, ?_⟩
    intro edge
    obtain ⟨_, after, edge, _⟩ := mem_shortcutGraph_next.mp edge
    simp [next, found] at edge

theorem shortened_next_eq_nil (nothing : automaton.shortcutGraph.next id = []) :
    automaton.shortened.next id = [] := by
  apply List.eq_nil_iff_forall_not_mem.mpr
  intro final edge
  rw [mem_shortened_next, nothing] at edge
  cases edge

theorem shortened_isEpsilon : automaton.shortened.isEpsilon id = automaton.isEpsilon id := by
  rw [isEpsilon, shortened_states, isEpsilon]
  cases automaton.states[id]? <;> rfl

theorem shortened_reads : automaton.shortened.reads id byte = automaton.reads id byte := by
  rw [reads, shortened_states, reads]
  cases automaton.states[id]? <;> rfl

theorem Path.shorten {stop : StateId} (leads : automaton.epsilonGraph.Leads id stop)
    (ending : automaton.isEnding stop) (rest : automaton.shortened.Path stop word final) :
    automaton.shortened.Path id word final := by
  rcases Relation.ReflTransGen.cases_head leads with rfl | ⟨after, edge, leads⟩
  · exact rest
  obtain ⟨epsilon, edge⟩ := mem_epsilonGraph_next.mp edge
  have shortcut := mem_shortcutGraph_next.mpr ⟨ending, after, edge, leads⟩
  exact rest.jump (shortened_isEpsilon.trans epsilon) (mem_shortened_next.mpr shortcut)

theorem Path.of_shortened (closed : automaton.Closed)
    (path : automaton.shortened.Path id word automaton.accept) :
    automaton.Path id word automaton.accept := by
  generalize target : automaton.accept = final at path
  induction path with
  | here => exact .here _
  | fork found edge _ ih =>
    subst target
    have epsilon := shortened_isEpsilon.symm.trans (isEpsilon_of found)
    have edge := mem_shortened_next.mp (mem_next_of found edge)
    obtain ⟨after, edge, path⟩ := (exists_shortcut_iff closed).mp ⟨_, edge, ih rfl⟩
    exact path.jump epsilon edge
  | read found inside edge _ ih =>
    subst target
    have consumes := shortened_reads.symm.trans (reads_of found inside)
    have edge := mem_shortened_next.mp (mem_next_of found edge)
    obtain ⟨after, edge, path⟩ := (exists_shortcut_iff closed).mp ⟨_, edge, ih rfl⟩
    exact path.consume consumes edge

theorem shortened_path_iff (closed : automaton.Closed) :
    automaton.shortened.Path id word automaton.accept ↔ automaton.Path id word automaton.accept := by
  refine ⟨Path.of_shortened closed, ?_⟩
  induction word generalizing id with
  | nil => exact fun path => .shorten (path_nil_iff.mp path) (isEnding_accept closed) (.here _)
  | cons byte rest ih =>
    intro path
    obtain ⟨middle, leads, consumes, next⟩ := path_cons_iff.mp path
    obtain ⟨stop, edge, path⟩ := (exists_shortcut_iff closed).mpr next
    exact .shorten leads (isEnding_of_reads consumes)
      ((ih path).consume (shortened_reads.trans consumes) (mem_shortened_next.mpr edge))

theorem isReplaced_iff {graph : Graph} : automaton.isReplaced graph id ↔
    id ∈ automaton.sources ∧ automaton.isEpsilon id ∧ graph.next id ≠ [] := by
  simp [isReplaced, and_assoc]

/-- Only the accepting state and dead ends are epsilon states without shortcuts, so what stands
behind a source that goes is enough to begin with. -/
theorem accepts_shortened (closed : automaton.Closed) :
    automaton.shortened.Accepts word ↔ automaton.Accepts word := by
  constructor
  · rintro ⟨start, listed, path⟩
    obtain ⟨source, listed, begins⟩ := List.mem_flatMap.mp listed
    have path := path.of_shortened closed
    split at begins
    next replaced =>
      obtain ⟨after, edge, path⟩ := (exists_shortcut_iff closed).mp ⟨start, begins, path⟩
      exact ⟨source, listed, path.jump (isReplaced_iff.mp replaced).2.1 edge⟩
    next =>
      obtain rfl := List.mem_singleton.mp begins
      exact ⟨start, listed, path⟩
  · rintro ⟨source, listed, path⟩
    by_cases replaced : automaton.isReplaced automaton.shortcutGraph source
    · obtain ⟨_, epsilon, leading⟩ := isReplaced_iff.mp replaced
      have next : ∃ after ∈ automaton.next source, automaton.Path after word automaton.accept := by
        rcases path_iff.mp path with ⟨_, rfl⟩ | ⟨_, next⟩ | ⟨_, _, _, consumes, _⟩
        · exact absurd (shortcuts_of_isEnding (isEnding_accept closed) epsilon) leading
        · exact next
        · exact absurd epsilon (not_isEpsilon_of_reads consumes)
      obtain ⟨stop, edge, path⟩ := (exists_shortcut_iff closed).mpr next
      refine ⟨stop, List.mem_flatMap.mpr ⟨source, listed, ?_⟩, (shortened_path_iff closed).mpr path⟩
      rwa [if_pos replaced]
    · refine ⟨source, List.mem_flatMap.mpr ⟨source, listed, ?_⟩, (shortened_path_iff closed).mpr path⟩
      rw [if_neg replaced]
      exact List.mem_singleton_self source

end Automaton

end ByteRegex
