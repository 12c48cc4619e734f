import ByteRegex.Automaton.Renumber
import ByteRegex.Proofs.Contraction
import ByteRegex.Proofs.Places
import ByteRegex.Proofs.Runs

/-! Keeping some states of an automaton under new numbers. If the states that are kept include the
sources, the accepting state and the successors of every state that is kept, then the runs from one
of them to another are the same as before. -/

namespace ByteRegex.Automaton

/-- The states of `order`, each under its place in it. -/
def select (automaton : Automaton) (order : KeySet) : Automaton where
  states := order.items.filterMap fun id =>
    automaton.states[id]?.map fun state => { state with next := state.next.map order.place }
  sources := (automaton.sources.map order.place).eraseDups
  accept := order.place automaton.accept

/-- No run leaves the states of `order`. -/
structure Covers (automaton : Automaton) (order : KeySet) : Prop where
  lt : ∀ id ∈ order.toList, id < automaton.size
  next : ∀ id ∈ order.toList, ∀ after ∈ automaton.next id, after ∈ order.toList
  source : ∀ id ∈ automaton.sources, id ∈ order.toList
  accept : automaton.accept ∈ order.toList

def EachClass (automaton : Automaton) (property : CharClass → Prop) : Prop :=
  ∀ state ∈ automaton.states, ∀ set ∈ state.condition, property set

private theorem getElem?_filterMap {α β : Type} {items : List α} {f : α → Option β}
    (total : ∀ item ∈ items, (f item).isSome) (index : Nat) :
    (items.filterMap f)[index]? = items[index]?.bind f := by
  induction items generalizing index with
  | nil => simp
  | cons first rest ih =>
    obtain ⟨value, found⟩ := Option.isSome_iff_exists.mp (total first List.mem_cons_self)
    rw [List.filterMap_cons_some found]
    cases index with
    | zero => simp [found]
    | succ index => exact ih (fun item inside => total item (List.mem_cons_of_mem _ inside)) index

theorem nodup_eraseDups {α : Type} [DecidableEq α] (items : List α) : items.eraseDups.Nodup := by
  match items with
  | [] => simp
  | first :: rest =>
    have shorter : (rest.filter fun item => !item == first).length < (first :: rest).length :=
      Nat.lt_succ_of_le (List.length_filter_le _ rest)
    rw [List.eraseDups_cons, List.nodup_cons]
    exact ⟨by simp, nodup_eraseDups _⟩
termination_by items.length
decreasing_by exact shorter

variable {automaton : Automaton} {order : KeySet} {id final : StateId} {word : List UInt8}

private theorem Covers.isSome (covers : automaton.Covers order) {β : Type} (f : State → β) :
    ∀ id ∈ order.toList, (automaton.states[id]?.map f).isSome := by
  intro id inside
  simp [Array.getElem?_eq_getElem (covers.lt id inside)]

theorem size_select (covers : automaton.Covers order) :
    (automaton.select order).size = order.toList.length := by
  have total := covers.isSome fun state => { state with next := state.next.map order.place }
  rw [size, ← Array.length_toList, select, Array.toList_filterMap]
  exact List.filterMap_length_eq_length.mpr total

/-- A state that is kept has kept its role; its successors have the new numbers. -/
theorem select_states (covers : automaton.Covers order) (inside : id ∈ order.toList) :
    (automaton.select order).states[order.place id]? =
      automaton.states[id]?.map fun state => { state with next := state.next.map order.place } := by
  have total := covers.isSome fun state => { state with next := state.next.map order.place }
  rw [← Array.getElem?_toList, select, Array.toList_filterMap]
  exact (getElem?_filterMap total _).trans (by rw [KeySet.getElem?_place inside, Option.bind_some])

theorem select_next (covers : automaton.Covers order) (inside : id ∈ order.toList) :
    (automaton.select order).next (order.place id) = (automaton.next id).map order.place := by
  rw [next, select_states covers inside, next]
  cases automaton.states[id]? <;> rfl

theorem select_isEpsilon (covers : automaton.Covers order) (inside : id ∈ order.toList) :
    (automaton.select order).isEpsilon (order.place id) = automaton.isEpsilon id := by
  rw [isEpsilon, select_states covers inside, isEpsilon]
  cases automaton.states[id]? <;> rfl

theorem select_reads (covers : automaton.Covers order) (inside : id ∈ order.toList) (byte : UInt8) :
    (automaton.select order).reads (order.place id) byte = automaton.reads id byte := by
  rw [reads, select_states covers inside, reads]
  cases automaton.states[id]? <;> rfl

theorem EachClass.select {property : CharClass → Prop} (each : automaton.EachClass property) :
    (automaton.select order).EachClass property := by
  intro state member
  obtain ⟨id, _, kept⟩ := Array.mem_filterMap.mp member
  obtain ⟨original, found, rfl⟩ := Option.map_eq_some_iff.mp kept
  exact each original (Array.mem_of_getElem? found)

theorem mem_select_sources : id ∈ (automaton.select order).sources ↔
    ∃ source ∈ automaton.sources, order.place source = id := by
  simp [select]

theorem nodup_select_sources : (automaton.select order).sources.Nodup := nodup_eraseDups _

theorem select_sources_ne_nil (listed : automaton.sources ≠ []) : (automaton.select order).sources ≠ [] := by
  obtain ⟨source, others, whole⟩ := List.exists_cons_of_ne_nil listed
  exact List.ne_nil_of_mem (mem_select_sources.mpr ⟨source, whole ▸ List.mem_cons_self, rfl⟩)

theorem exists_place (covers : automaton.Covers order) (inside : id < (automaton.select order).size) :
    ∃ old ∈ order.toList, order.place old = id := by
  rw [size_select covers] at inside
  exact ⟨order.toList[id], List.getElem_mem inside, KeySet.place_eq (List.getElem?_eq_getElem inside)⟩

theorem closed_select (covers : automaton.Covers order) (closed : automaton.Closed) :
    (automaton.select order).Closed := by
  have place_lt {old : StateId} (inside : old ∈ order.toList) :
      order.place old < (automaton.select order).size := by
    rw [size_select covers]
    exact KeySet.place_lt inside
  refine ⟨?_, ?_, ?_, ?_⟩
  · intro id after edge
    obtain ⟨old, inside, rfl⟩ := exists_place covers (lt_of_next edge)
    rw [select_next covers inside] at edge
    obtain ⟨target, follows, rfl⟩ := List.mem_map.mp edge
    exact place_lt (covers.next old inside target follows)
  · intro id source
    obtain ⟨old, listed, rfl⟩ := mem_select_sources.mp source
    exact place_lt (covers.source old listed)
  · exact (select_isEpsilon covers covers.accept).trans closed.accept_epsilon
  · exact (select_next covers covers.accept).trans (by rw [closed.accept_next, List.map_nil])

theorem Path.select (covers : automaton.Covers order) (path : automaton.Path id word final)
    (inside : id ∈ order.toList) :
    (automaton.select order).Path (order.place id) word (order.place final) := by
  induction path with
  | here => exact .here _
  | fork found edge _ ih =>
    have edge := mem_next_of found edge
    have epsilon := (select_isEpsilon covers inside).trans (isEpsilon_of found)
    refine (ih (covers.next _ inside _ edge)).jump epsilon ?_
    exact select_next covers inside ▸ List.mem_map_of_mem edge
  | read found contains edge _ ih =>
    have edge := mem_next_of found edge
    have consumes := (select_reads covers inside _).trans (reads_of found contains)
    refine (ih (covers.next _ inside _ edge)).consume consumes ?_
    exact select_next covers inside ▸ List.mem_map_of_mem edge

/-- A run of the selection is a run of the whole automaton under the new numbers. -/
theorem Path.of_select (covers : automaton.Covers order) {start : StateId}
    (path : (automaton.select order).Path start word final) (inside : id ∈ order.toList)
    (begins : order.place id = start) :
    ∃ old ∈ order.toList, order.place old = final ∧ automaton.Path id word old := by
  induction path generalizing id with
  | here => exact ⟨id, inside, begins, .here id⟩
  | fork found edge _ ih =>
    subst begins
    have edge := mem_next_of found edge
    rw [select_next covers inside] at edge
    obtain ⟨after, edge, placed⟩ := List.mem_map.mp edge
    obtain ⟨old, kept, ends, path⟩ := ih (covers.next id inside after edge) placed
    have epsilon := (select_isEpsilon covers inside).symm.trans (isEpsilon_of found)
    exact ⟨old, kept, ends, path.jump epsilon edge⟩
  | read found contains edge _ ih =>
    subst begins
    have edge := mem_next_of found edge
    rw [select_next covers inside] at edge
    obtain ⟨after, edge, placed⟩ := List.mem_map.mp edge
    obtain ⟨old, kept, ends, path⟩ := ih (covers.next id inside after edge) placed
    have consumes := (select_reads covers inside _).symm.trans (reads_of found contains)
    exact ⟨old, kept, ends, path.consume consumes edge⟩

theorem accepts_select (covers : automaton.Covers order) :
    (automaton.select order).Accepts word ↔ automaton.Accepts word := by
  constructor
  · rintro ⟨_, source, path⟩
    obtain ⟨old, listed, rfl⟩ := mem_select_sources.mp source
    obtain ⟨final, kept, ends, path⟩ := path.of_select covers (covers.source old listed) rfl
    obtain rfl := KeySet.place_inj kept covers.accept ends
    exact ⟨old, listed, path⟩
  · rintro ⟨source, listed, path⟩
    exact ⟨order.place source, mem_select_sources.mpr ⟨source, listed, rfl⟩,
      path.select covers (covers.source source listed)⟩

/-- The successors that are not pushed would be passed over later on. -/
theorem visited_enumerate (arena : Array State) (search : Search) :
    (enumerate arena search).visited = (transitions arena).explore search.visited search.stack := by
  fun_induction enumerate arena search with
  | case1 => rw [Graph.explore]
  | case2 visited id stack ih =>
    rw [ih, assign]
    split
    next known => exact (Graph.explore_of_contains known).symm
    next fresh =>
      rw [Graph.explore_of_fresh fresh, Graph.explore_append, Graph.explore_append]
      rw [Graph.explore_filter fun _ known => known]

/-- Renumbering keeps the states that its search meets, and the accepting state. -/
theorem ofArena_eq_select (arena : Array State) (sources : List StateId) (accept : StateId) :
    ofArena arena sources accept = select ⟨arena, sources, accept⟩
      (((transitions arena).explore (.withCapacity arena.size) sources).insert accept) := by
  rw [← visited_enumerate arena ⟨.withCapacity arena.size, sources⟩]
  rfl

theorem covers_walk {arena : Array State} {sources : List StateId} {accept : StateId}
    (closed : Closed ⟨arena, sources, accept⟩) : Covers ⟨arena, sources, accept⟩
      (((transitions arena).explore (.withCapacity arena.size) sources).insert accept) := by
  have met (id : StateId) :
      id ∈ (((transitions arena).explore (.withCapacity arena.size) sources).insert accept).toList ↔
        (∃ source ∈ sources, (transitions arena).Leads source id) ∨ id = accept := by
    rw [KeySet.mem_toList_insert, (transitions arena).mem_explore rfl]
  refine ⟨?_, ?_, ?_, ?_⟩
  · intro id inside
    rcases (met id).mp inside with ⟨source, listed, leads⟩ | rfl
    · cases leads with
      | refl => exact closed.source_lt _ listed
      | tail _ edge => exact closed.next_lt _ _ edge
    · exact closed.accept_lt
  · intro id inside after edge
    rcases (met id).mp inside with ⟨source, listed, leads⟩ | rfl
    · exact (met after).mpr (.inl ⟨source, listed, leads.tail edge⟩)
    · simp [closed.accept_next] at edge
  · exact fun id listed => (met id).mpr (.inl ⟨id, listed, .refl⟩)
  · exact (met accept).mpr (.inr rfl)

theorem accepts_ofArena {arena : Array State} {sources : List StateId} {accept : StateId}
    (closed : Closed ⟨arena, sources, accept⟩) :
    (ofArena arena sources accept).Accepts word ↔ Accepts ⟨arena, sources, accept⟩ word := by
  rw [ofArena_eq_select, accepts_select (covers_walk closed)]

theorem closed_ofArena {arena : Array State} {sources : List StateId} {accept : StateId}
    (closed : Closed ⟨arena, sources, accept⟩) : (ofArena arena sources accept).Closed := by
  rw [ofArena_eq_select]
  exact closed_select (covers_walk closed) closed

theorem nodup_ofArena_sources (arena : Array State) (sources : List StateId) (accept : StateId) :
    (ofArena arena sources accept).sources.Nodup := by
  rw [ofArena_eq_select]
  exact nodup_select_sources

end ByteRegex.Automaton
