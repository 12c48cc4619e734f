import ByteRegex.Proofs.DepthFirst
import ByteRegex.Proofs.Reduction

/-! Renumbering is the recursive depth-first search. The states that are kept stand in the order in which the
search visits them, so neither the numbers that they had before nor the states out of reach leave a trace. -/

namespace ByteRegex

theorem KeySet.place_eq_idxOf {set : KeySet} {key : Nat} (inside : key ∈ set.toList) :
    set.place key = set.toList.idxOf key :=
  place_eq (List.getElem?_idxOf inside)

namespace Automaton

/-- The states that the recursive search visits from the sources, in that order, and behind them the accepting
state if it is not among them. -/
def preorder (automaton : Automaton) : List StateId :=
  let visited := (transitions automaton.states).depthFirst [] automaton.sources
  if automaton.accept ∈ visited then visited else visited ++ [automaton.accept]

/-- The states of `order` are all there is to the renumbered automaton, each under its place in it. -/
structure Renumbers (automaton : Automaton) (order : List StateId) (renumbered : Automaton) : Prop where
  nodup : order.Nodup
  size : renumbered.size = order.length
  states : ∀ (place : Nat) (id : StateId), order[place]? = some id → ∃ state, automaton.states[id]? = some state ∧
    (∀ after ∈ state.next, after ∈ order) ∧
    renumbered.states[place]? = some { state with next := state.next.map order.idxOf }
  source_mem : ∀ source ∈ automaton.sources, source ∈ order
  sources : renumbered.sources = (automaton.sources.map order.idxOf).eraseDups
  accept_mem : automaton.accept ∈ order
  accept : renumbered.accept = order.idxOf automaton.accept

/-- The states that no renumbering can do without. -/
def Needed (automaton : Automaton) (id : StateId) : Prop :=
  (∃ source ∈ automaton.sources, (transitions automaton.states).Leads source id) ∨ id = automaton.accept

/-- The other automaton has the states that are needed under other numbers, and whatever else. -/
structure Relocates (automaton other : Automaton) (move : StateId → StateId) : Prop where
  injective : ∀ first second, automaton.Needed first → automaton.Needed second → move first = move second →
    first = second
  states : ∀ id, automaton.Needed id →
    other.states[move id]? = automaton.states[id]?.map fun state => { state with next := state.next.map move }
  sources : other.sources = automaton.sources.map move
  accept : other.accept = move automaton.accept

def reached (automaton : Automaton) : KeySet :=
  (transitions automaton.states).explore (.withCapacity automaton.states.size) automaton.sources

/-- The states that renumbering keeps, in the order in which it meets them. -/
def walk (automaton : Automaton) : KeySet := automaton.reached.insert automaton.accept

variable {automaton other : Automaton} {order : KeySet} {id : StateId} {move : StateId → StateId}

theorem toList_walk (automaton : Automaton) : automaton.walk.toList = automaton.preorder := by
  rw [walk, KeySet.toList_insert, reached, Graph.toList_explore_eq]
  rfl

theorem mem_reached_iff : id ∈ automaton.reached.toList ↔
    ∃ source ∈ automaton.sources, (transitions automaton.states).Leads source id :=
  (transitions automaton.states).mem_explore rfl

theorem mem_walk_iff_needed : id ∈ automaton.walk.toList ↔ automaton.Needed id := by
  rw [walk, KeySet.mem_toList_insert, mem_reached_iff, Needed]

theorem renumbers_select (covers : automaton.Covers order) :
    Renumbers automaton order.toList (automaton.select order) := by
  have placed {ids : List StateId} (inside : ∀ id ∈ ids, id ∈ order.toList) :
      ids.map order.place = ids.map order.toList.idxOf :=
    List.map_congr_left fun id listed => KeySet.place_eq_idxOf (inside id listed)
  refine ⟨order.nodup_toList, size_select covers, ?_, covers.source, ?_, covers.accept, ?_⟩
  · intro place id found
    have inside := List.mem_of_getElem? found
    obtain ⟨state, present⟩ : ∃ state, automaton.states[id]? = some state :=
      ⟨_, Array.getElem?_eq_getElem (covers.lt id inside)⟩
    have next : ∀ after ∈ state.next, after ∈ order.toList :=
      fun after edge => covers.next id inside after (mem_next_of present edge)
    refine ⟨state, present, next, ?_⟩
    have selected := select_states covers inside
    rw [KeySet.place_eq found, present, Option.map_some, placed next] at selected
    exact selected
  · rw [select, placed covers.source]
  · exact KeySet.place_eq_idxOf covers.accept

namespace Relocates

variable (relocates : Relocates automaton other move) (closed : automaton.Closed)

include relocates

theorem next (needed : automaton.Needed id) : other.next (move id) = (automaton.next id).map move := by
  rw [Automaton.next, relocates.states id needed, Automaton.next]
  cases automaton.states[id]? <;> rfl

include closed

theorem embeds : (transitions automaton.states).Embeds (transitions other.states) automaton.Needed move where
  next id needed after edge := by
    rcases needed with ⟨source, listed, leads⟩ | rfl
    · exact .inl ⟨source, listed, leads.tail edge⟩
    · have sink : (transitions automaton.states).next automaton.accept = [] := closed.accept_next
      rw [sink] at edge
      cases edge
  injective := relocates.injective
  edges _ needed := relocates.next needed

theorem toList_walk : other.walk.toList = automaton.walk.toList.map move := by
  have met : other.reached.toList = automaton.reached.toList.map move := by
    rw [reached, relocates.sources]
    exact (relocates.embeds closed).toList_explore rfl (fun _ impossible => absurd impossible List.not_mem_nil)
      fun source listed => .inl ⟨source, listed, .refl⟩
  rw [walk, walk, relocates.accept]
  refine KeySet.toList_insert_map met ?_
  exact fun id visited => relocates.injective id _ (.inl (mem_reached_iff.mp visited)) (.inr rfl)

theorem place_walk (needed : automaton.Needed id) : other.walk.place (move id) = automaton.walk.place id := by
  have found := KeySet.getElem?_place (mem_walk_iff_needed.mpr needed)
  apply KeySet.place_eq
  rw [relocates.toList_walk closed, List.getElem?_map, found, Option.map_some]

theorem select_walk : other.select other.walk = automaton.select automaton.walk := by
  have moved {ids : List StateId} (needed : ∀ id ∈ ids, automaton.Needed id) :
      (ids.map move).map other.walk.place = ids.map automaton.walk.place := by
    rw [List.map_map]
    exact List.map_congr_left fun id listed => relocates.place_walk closed (needed id listed)
  have states : (other.select other.walk).states = (automaton.select automaton.walk).states := by
    apply Array.toList_inj.mp
    rw [select, select, Array.toList_filterMap, Array.toList_filterMap]
    change other.walk.toList.filterMap _ = automaton.walk.toList.filterMap _
    rw [relocates.toList_walk closed, List.filterMap_map]
    refine List.filterMap_congr fun id kept => ?_
    have needed := mem_walk_iff_needed.mp kept
    rw [Function.comp_apply, relocates.states id needed]
    cases found : automaton.states[id]? with
    | none => rfl
    | some state =>
      have next := moved fun after edge => (relocates.embeds closed).next id needed after (mem_next_of found edge)
      rw [Option.map_some, Option.map_some, Option.map_some, next]
  refine ext states ?_ ?_
  · change (other.sources.map other.walk.place).eraseDups = (automaton.sources.map automaton.walk.place).eraseDups
    rw [relocates.sources, moved fun source listed => .inl ⟨source, listed, .refl⟩]
  · change other.walk.place other.accept = automaton.walk.place automaton.accept
    rw [relocates.accept, relocates.place_walk closed (.inr rfl)]

end Relocates

/-- Renumbering lists the states in the order in which the recursive search visits them. Another layout of the
states that are needed, among whatever others, is renumbered to the same automaton. -/
theorem renumbers_ofArena {arena : Array State} {sources : List StateId} {accept : StateId}
    (closed : Closed ⟨arena, sources, accept⟩) :
    Renumbers ⟨arena, sources, accept⟩ (preorder ⟨arena, sources, accept⟩) (ofArena arena sources accept) ∧
    ∀ other move, Relocates ⟨arena, sources, accept⟩ other move →
      ofArena other.states other.sources other.accept = ofArena arena sources accept := by
  constructor
  · rw [← toList_walk, ofArena_eq_select]
    exact renumbers_select (covers_walk closed)
  · intro other move relocates
    rw [ofArena_eq_select, ofArena_eq_select]
    exact relocates.select_walk closed

def scattered : Automaton where
  states := #[.epsilon [], .consuming (.single 0x61) [3, 4, 3], .epsilon [0], .loopback [1, 3], .consuming .any [3]]
  sources := [1, 4, 1]
  accept := 0

def gathered : Automaton where
  states := #[.consuming .any [2], .consuming (.single 0x61) [2, 0, 2], .loopback [1, 2], .epsilon [], .epsilon [1]]
  sources := [1, 0, 1]
  accept := 3

def gather (id : StateId) : StateId := [3, 1, 5, 2, 0].getD id id

theorem preorder_scattered : scattered.preorder = [1, 3, 4, 0] := by
  simp [preorder, scattered, transitions, Graph.depthFirst_of_mem, Graph.depthFirst_of_not_mem, State.epsilon,
    State.consuming, State.loopback]

theorem relocates_gathered : Relocates scattered gathered gather := by
  have kept {id : StateId} (needed : scattered.Needed id) : id ∈ [1, 3, 4, 0] := by
    rw [← preorder_scattered, ← toList_walk]
    exact mem_walk_iff_needed.mpr needed
  refine ⟨?_, ?_, rfl, rfl⟩
  · have distinct : ∀ first ∈ [1, 3, 4, 0], ∀ second ∈ [1, 3, 4, 0], gather first = gather second → first = second := by
      decide
    exact fun first second left right => distinct first (kept left) second (kept right)
  · have same : ∀ id ∈ [1, 3, 4, 0], gathered.states[gather id]? =
        scattered.states[id]?.map fun state => { state with next := state.next.map gather } := by
      decide
    exact fun id needed => same id (kept needed)

theorem renumbers_ofArena_scattered : scattered.Closed ∧ Relocates scattered gathered gather ∧
    Renumbers scattered [1, 3, 4, 0] (ofArena scattered.states scattered.sources scattered.accept) ∧
    ofArena gathered.states gathered.sources gathered.accept =
      ofArena scattered.states scattered.sources scattered.accept := by
  have closed : scattered.Closed := by decide
  obtain ⟨renumbers, unmoved⟩ := renumbers_ofArena closed
  refine ⟨closed, relocates_gathered, ?_, unmoved gathered gather relocates_gathered⟩
  rw [← preorder_scattered]
  exact renumbers

end Automaton

end ByteRegex
