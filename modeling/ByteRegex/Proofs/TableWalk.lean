import ByteRegex.Proofs.Contraction
import ByteRegex.Proofs.Determinism

/-! The order of the forks. Renumbering meets the forks of a table as a walk over its rows meets the rows,
so the epsilon states are numbered in that order whatever the classes are. -/

namespace ByteRegex

namespace Automaton

def epsilons (automaton : Automaton) : List StateId := (List.range automaton.size).filter automaton.isEpsilon

/-- The state behind a consuming state, and any other state itself. -/
def onward (automaton : Automaton) (id : StateId) : StateId :=
  if automaton.isConsuming id then (automaton.next id).headD id else id

variable {automaton : Automaton} {order : KeySet} {id after : StateId} {byte : UInt8}

theorem onward_of_not_isConsuming (staying : ¬ automaton.isConsuming id) : automaton.onward id = id :=
  if_neg staying

theorem onward_of_isConsuming (consuming : automaton.isConsuming id) (next : automaton.next id = [after]) :
    automaton.onward id = after := by
  rw [onward, if_pos consuming, next]
  rfl

theorem epsilons_select (covers : automaton.Covers order) :
    (automaton.select order).epsilons = (order.toList.filter automaton.isEpsilon).map order.place := by
  have numbered : List.range order.toList.length = order.toList.map order.place := by
    apply List.ext_getElem
    · rw [List.length_range, List.length_map]
    · intro index _ inside
      rw [List.length_map] at inside
      rw [List.getElem_range, List.getElem_map, KeySet.place_eq (List.getElem?_eq_getElem inside)]
  rw [epsilons, size_select covers, numbered, List.filter_map]
  exact congrArg _ (List.filter_congr fun id inside => select_isEpsilon covers inside)

theorem select_moves_iff (covers : automaton.Covers order) (inside : id ∈ order.toList) :
    (automaton.select order).Moves (order.place id) byte after ↔
      ∃ old, automaton.Moves id byte old ∧ order.place old = after := by
  simp only [Moves, select_next covers inside]
  constructor
  · rintro ⟨_, placed, consumes, placedAfter⟩
    obtain ⟨leaf, edge, rfl⟩ := List.mem_map.mp placed
    have kept := covers.next id inside leaf edge
    rw [select_reads covers kept] at consumes
    rw [select_next covers kept] at placedAfter
    obtain ⟨old, follows, rfl⟩ := List.mem_map.mp placedAfter
    exact ⟨old, ⟨leaf, edge, consumes, follows⟩, rfl⟩
  · rintro ⟨old, ⟨leaf, edge, consumes, follows⟩, rfl⟩
    have kept := covers.next id inside leaf edge
    refine ⟨order.place leaf, List.mem_map_of_mem edge, (select_reads covers kept byte).trans consumes, ?_⟩
    rw [select_next covers kept]
    exact List.mem_map_of_mem follows

theorem select_accepting_iff (covers : automaton.Covers order) (inside : id ∈ order.toList) :
    (automaton.select order).accept ∈ (automaton.select order).next (order.place id) ↔
      automaton.accept ∈ automaton.next id := by
  rw [select_next covers inside]
  refine ⟨fun placed => ?_, List.mem_map_of_mem⟩
  obtain ⟨after, edge, same⟩ := List.mem_map.mp placed
  rwa [KeySet.place_inj (covers.next id inside after edge) covers.accept same] at edge

end Automaton

namespace Row

/-- The rows, with the accepting state behind them, as a graph. -/
def graph (rows : List Row) : Graph where
  size := rows.length
  next number := (rows[number]?.map fun row =>
    row.edges.map (·.2) ++ if row.accepting then [rows.length] else []).getD []
  next_eq_nil number outside := by simp [List.getElem?_eq_none outside]

/-- The rows that are met from the sources, and the accepting state. -/
def walk (rows : List Row) (sources : List Nat) : KeySet :=
  ((graph rows).explore (.withCapacity rows.length) sources).insert rows.length

/-- The order in which the states of a table are numbered. -/
def order (rows : List Row) (sources : List Nat) : KeySet :=
  ((transitions (arena rows)).explore (.withCapacity (arena rows).size) sources).insert rows.length

variable {rows : List Row} {sources : List Nat} {row : Row} {number : Nat} {byte : UInt8} {id : StateId}

theorem toAutomaton_eq_select (rows : List Row) (sources : List Nat) :
    toAutomaton rows sources = (raw rows sources).select (order rows sources) :=
  Automaton.ofArena_eq_select (arena rows) sources rows.length

theorem accept_toAutomaton (rows : List Row) (sources : List Nat) :
    (toAutomaton rows sources).accept = (order rows sources).place rows.length := by
  rw [toAutomaton_eq_select]
  rfl

theorem covers_order (bounded : Bounded rows) (listed : ∀ source ∈ sources, source < rows.length) :
    (raw rows sources).Covers (order rows sources) :=
  Automaton.covers_walk (closed_raw bounded listed)

theorem raw_moves_iff {after : StateId} (found : rows[number]? = some row) :
    (raw rows sources).Moves number byte after ↔
      ∃ edge ∈ row.edges, edge.1.contains byte ∧ edge.2 = after := by
  constructor
  · rintro ⟨leaf, follows, consumes, next⟩
    obtain ⟨place, edge, listed, contains, rfl⟩ := exists_edge_of_reads found follows consumes
    rw [raw_next_leaf found listed] at next
    exact ⟨edge, List.mem_of_getElem? listed, contains, (List.mem_singleton.mp next).symm⟩
  · rintro ⟨edge, member, contains, rfl⟩
    obtain ⟨place, listed⟩ := List.mem_iff_getElem?.mp member
    refine ⟨_, (mem_raw_next_fork found).mpr (.inl ⟨place, edge, listed, rfl⟩), ?_, ?_⟩
    · rwa [raw_reads_leaf found listed]
    · rw [raw_next_leaf found listed]
      exact List.mem_singleton_self _

theorem raw_accepting_iff (found : rows[number]? = some row) :
    (raw rows sources).accept ∈ (raw rows sources).next number ↔ row.accepting := by
  rw [mem_raw_next_fork found]
  constructor
  · rintro (⟨place, edge, listed, same⟩ | ⟨accepting, _⟩)
    · have beyond : rows.length < firstLeaf rows number + place := by
        rw [firstLeaf]
        omega
      exact absurd same (Nat.ne_of_gt beyond)
    · exact accepting
  · exact fun accepting => .inr ⟨accepting, rfl⟩

theorem raw_onward_row (found : rows[number]? = some row) : (raw rows sources).onward number = number := by
  apply Automaton.onward_of_not_isConsuming
  intro consuming
  exact (Automaton.isConsuming_iff.mp consuming).2 (Automaton.isEpsilon_of (states_fork found))

theorem raw_onward_leaf {place : Nat} {edge : CharClass × Nat} (found : rows[number]? = some row)
    (listed : row.edges[place]? = some edge) :
    (raw rows sources).onward (firstLeaf rows number + place) = edge.2 :=
  Automaton.onward_of_isConsuming (raw_isConsuming_leaf found listed) (raw_next_leaf found listed)

theorem graph_next (found : rows[number]? = some row) : (graph rows).next number =
    row.edges.map (·.2) ++ if row.accepting then [rows.length] else [] := by
  simp [graph, found]

theorem not_isConsuming_accept : ¬ (raw rows sources).isConsuming rows.length := fun consuming =>
  (Automaton.isConsuming_iff.mp consuming).2 (Automaton.isEpsilon_of states_accept)

theorem map_onward_next (found : rows[number]? = some row) :
    ((raw rows sources).next number).map (raw rows sources).onward = (graph rows).next number := by
  have leaves : (List.range' (firstLeaf rows number) row.edges.length).map (raw rows sources).onward =
      row.edges.map (·.2) := by
    apply List.ext_getElem
    · simp
    · intro place _ inside
      rw [List.length_map] at inside
      rw [List.getElem_map, List.getElem_range', Nat.one_mul, List.getElem_map]
      exact raw_onward_leaf found (List.getElem?_eq_getElem inside)
  have accept : (raw rows sources).onward rows.length = rows.length :=
    Automaton.onward_of_not_isConsuming not_isConsuming_accept
  rw [raw_next_fork found, List.map_append, leaves, graph_next found]
  cases row.accepting <;> simp [accept]

theorem onward_lt_of_isConsuming (bounded : Bounded rows) (consuming : (raw rows sources).isConsuming id) :
    (raw rows sources).next id = [(raw rows sources).onward id] ∧
      (raw rows sources).onward id < rows.length ∧ rows.length < id := by
  obtain ⟨number, row, place, edge, found, listed, rfl⟩ := exists_leaf_of_isConsuming consuming
  rw [raw_onward_leaf found listed, firstLeaf]
  exact ⟨raw_next_leaf found listed,
    bounded row (List.mem_of_getElem? found) edge (List.mem_of_getElem? listed), by omega⟩

theorem onward_eq_self_iff (bounded : Bounded rows) :
    (raw rows sources).onward id = id ↔ ¬ (raw rows sources).isConsuming id := by
  refine ⟨fun stays consuming => ?_, Automaton.onward_of_not_isConsuming⟩
  obtain ⟨_, below, beyond⟩ := onward_lt_of_isConsuming bounded consuming
  rw [stays] at below
  exact Nat.lt_asymm below beyond

/-- Without its consuming states, the automaton of a table is the graph of its rows. -/
theorem contracts_raw (bounded : Bounded rows) :
    Graph.Contracts (transitions (arena rows)) (graph rows) (raw rows sources).onward := by
  refine ⟨?_, ?_, ?_⟩
  · intro id
    by_cases consuming : (raw rows sources).isConsuming id
    · exact raw_onward_row (List.getElem?_eq_getElem (onward_lt_of_isConsuming bounded consuming).2.1)
    · rw [Automaton.onward_of_not_isConsuming consuming, Automaton.onward_of_not_isConsuming consuming]
  · intro id passed
    have consuming : (raw rows sources).isConsuming id :=
      Classical.byContradiction fun staying => passed (Automaton.onward_of_not_isConsuming staying)
    exact (onward_lt_of_isConsuming bounded consuming).1
  · intro id stays
    change (graph rows).next id = ((raw rows sources).next id).map _
    by_cases inside : id < (raw rows sources).size
    · rcases states_cases inside with ⟨row, found⟩ | rfl |
        ⟨number, row, place, set, target, found, listed, rfl⟩
      · exact (map_onward_next found).symm
      · rw [Automaton.next_of states_accept, (graph rows).next_eq_nil rows.length (Nat.le_refl _)]
        rfl
      · exact absurd (raw_isConsuming_leaf found listed) ((onward_eq_self_iff bounded).mp stays)
    · have far : rows.length ≤ id :=
        Nat.le_trans (Nat.le_of_lt (lt_of_states states_accept)) (Nat.le_of_not_lt inside)
      rw [(graph rows).next_eq_nil _ far, Automaton.next, Array.getElem?_eq_none (Nat.le_of_not_lt inside)]
      rfl

/-- What the numbering of a table meets besides consuming states is what the walk over its rows meets. -/
theorem filter_order (bounded : Bounded rows) (listed : ∀ source ∈ sources, source < rows.length) :
    (order rows sources).toList.filter (raw rows sources).isEpsilon = (walk rows sources).toList := by
  have stays : ∀ source ∈ sources, (raw rows sources).onward source = id source :=
    fun source member => raw_onward_row (List.getElem?_eq_getElem (listed source member))
  have starts : sources.map (raw rows sources).onward = sources :=
    (List.map_congr_left stays).trans (List.map_id sources)
  have blank (capacity : Nat) : (KeySet.withCapacity capacity).toList = [] := rfl
  have met : ((graph rows).explore (.withCapacity rows.length) sources).toList =
      ((transitions (arena rows)).explore (.withCapacity (arena rows).size) sources).toList.filter
        fun id => (raw rows sources).onward id == id := by
    rw [← (contracts_raw bounded).toList_explore_of_empty (blank rows.length) (blank (arena rows).size),
      starts]
  have accept : (raw rows sources).onward rows.length = rows.length :=
    Automaton.onward_of_not_isConsuming not_isConsuming_accept
  have staying : ∀ id ∈ (order rows sources).toList,
      (raw rows sources).isEpsilon id = ((raw rows sources).onward id == id) := by
    intro id inside
    have below := (covers_order bounded listed).lt id inside
    rw [Bool.eq_iff_iff, beq_iff_eq, onward_eq_self_iff bounded, Automaton.isConsuming_iff]
    simp [below]
  rw [List.filter_congr staying, order, walk, KeySet.toList_insert, KeySet.toList_insert, met]
  by_cases reached : rows.length ∈
      ((transitions (arena rows)).explore (.withCapacity (arena rows).size) sources).toList
  · rw [if_pos reached, if_pos (List.mem_filter.mpr ⟨reached, by simpa using accept⟩)]
  · rw [if_neg reached, if_neg (reached ∘ List.mem_of_mem_filter), List.filter_append]
    simp [accept]

theorem epsilons_toAutomaton (bounded : Bounded rows) (listed : ∀ source ∈ sources, source < rows.length) :
    (toAutomaton rows sources).epsilons = (walk rows sources).toList.map (order rows sources).place := by
  rw [toAutomaton_eq_select, Automaton.epsilons_select (covers_order bounded listed),
    filter_order bounded listed]

def leafIds (rows : List Row) (number : Nat) : List StateId :=
  List.range' (firstLeaf rows number) ((rows[number]?.map (·.edges.length)).getD 0)

theorem mem_leafIds : id ∈ leafIds rows number ↔
    ∃ row place edge, rows[number]? = some row ∧ row.edges[place]? = some edge ∧
      firstLeaf rows number + place = id := by
  rw [leafIds, List.mem_range']
  cases found : rows[number]? with
  | none => simp
  | some row =>
    constructor
    · rintro ⟨place, inside, rfl⟩
      exact ⟨row, place, _, rfl, List.getElem?_eq_getElem inside, by rw [Nat.one_mul]⟩
    · rintro ⟨_, place, edge, same, listed, rfl⟩
      obtain rfl := Option.some.inj same
      exact ⟨place, (List.getElem?_eq_some_iff.mp listed).1, by rw [Nat.one_mul]⟩

theorem disjoint_leafIds {other : Nat} (before : number < other) :
    (leafIds rows number).Disjoint (leafIds rows other) := by
  intro id left right
  obtain ⟨row, place, edge, found, listed, rfl⟩ := mem_leafIds.mp left
  obtain ⟨_, another, _, _, _, same⟩ := mem_leafIds.mp right
  have inside := (List.getElem?_eq_some_iff.mp listed).1
  have behind : Slices.start (fun row : Row => row.edges.length) rows number + row.edges.length ≤
      Slices.start (fun row : Row => row.edges.length) rows other := Slices.start_add_le found before
  rw [firstLeaf, firstLeaf] at same
  change (_ : Nat) = _ at same
  omega

theorem nodup_leafIds {numbers : List Nat} (distinct : numbers.Nodup) :
    (numbers.flatMap (leafIds rows)).Nodup := by
  refine List.nodup_flatMap.mpr ⟨fun _ _ => List.nodup_range', distinct.imp ?_⟩
  intro number other differ
  rcases Nat.lt_or_gt_of_ne differ with before | behind
  · exact disjoint_leafIds before
  · exact fun _ left right => disjoint_leafIds behind right left

theorem exists_row_of_mem_order (bounded : Bounded rows) (listed : ∀ source ∈ sources, source < rows.length)
    (inside : id ∈ (order rows sources).toList) (consuming : (raw rows sources).isConsuming id) :
    ∃ number ∈ (walk rows sources).toList, id ∈ leafIds rows number := by
  obtain ⟨_, _, beyond⟩ := onward_lt_of_isConsuming bounded consuming
  have reached := (KeySet.mem_toList_insert.mp inside).resolve_right (Nat.ne_of_gt beyond)
  obtain ⟨source, start, leads⟩ := ((transitions (arena rows)).mem_explore rfl).mp reached
  rcases Relation.ReflTransGen.cases_tail leads with rfl | ⟨number, before, edge⟩
  · exact absurd (listed id start) (Nat.lt_asymm beyond)
  have kept : number ∈ (order rows sources).toList := by
    refine KeySet.mem_toList_insert.mpr (.inl ?_)
    exact ((transitions (arena rows)).mem_explore rfl).mpr ⟨source, start, before⟩
  change id ∈ (raw rows sources).next number at edge
  have forking : ¬ (raw rows sources).isConsuming number := by
    intro leaf
    obtain ⟨next, below, _⟩ := onward_lt_of_isConsuming bounded leaf
    rw [next, List.mem_singleton] at edge
    exact Nat.lt_asymm beyond (edge ▸ below)
  have epsilon : (raw rows sources).isEpsilon number := by
    have lt := (covers_order bounded listed).lt number kept
    simpa [Automaton.isConsuming_iff, lt] using forking
  refine ⟨number, ?_, ?_⟩
  · rw [← filter_order bounded listed]
    exact List.mem_filter.mpr ⟨kept, epsilon⟩
  · by_cases accepts : number = rows.length
    · rw [accepts, Automaton.next_of states_accept] at edge
      cases edge
    · obtain ⟨row, found⟩ := exists_row_of_isFork (Automaton.isFork_iff.mpr ⟨epsilon, accepts⟩)
      rcases (mem_raw_next_fork found).mp edge with ⟨place, leaf, member, same⟩ | ⟨_, rfl⟩
      · exact mem_leafIds.mpr ⟨row, place, leaf, found, member, same⟩
      · exact absurd consuming not_isConsuming_accept

theorem mem_order_iff (bounded : Bounded rows) (listed : ∀ source ∈ sources, source < rows.length) :
    id ∈ (order rows sources).toList ↔ id ∈ (walk rows sources).toList ∨
      ∃ number ∈ (walk rows sources).toList, id ∈ leafIds rows number := by
  have walked {id : StateId} (met : id ∈ (walk rows sources).toList) :
      id ∈ (order rows sources).toList ∧ (raw rows sources).isEpsilon id := by
    rwa [← filter_order bounded listed, List.mem_filter] at met
  constructor
  · intro inside
    by_cases epsilon : (raw rows sources).isEpsilon id
    · rw [← filter_order bounded listed]
      exact .inl (List.mem_filter.mpr ⟨inside, epsilon⟩)
    · have consuming := Automaton.isConsuming_iff.mpr ⟨(covers_order bounded listed).lt id inside, epsilon⟩
      exact .inr (exists_row_of_mem_order bounded listed inside consuming)
  · rintro (met | ⟨number, met, leaf⟩)
    · exact (walked met).1
    · obtain ⟨row, place, edge, found, member, same⟩ := mem_leafIds.mp leaf
      exact (covers_order bounded listed).next number (walked met).1 id
        ((mem_raw_next_fork found).mpr (.inl ⟨place, edge, member, same⟩))

/-- The states of the automaton are the rows that are met, the accepting state, and the classes of these
rows. -/
theorem size_toAutomaton (bounded : Bounded rows) (listed : ∀ source ∈ sources, source < rows.length) :
    (toAutomaton rows sources).size =
      ((walk rows sources).toList ++ (walk rows sources).toList.flatMap (leafIds rows)).length := by
  have distinct : ((walk rows sources).toList ++ (walk rows sources).toList.flatMap (leafIds rows)).Nodup := by
    refine List.nodup_append.mpr ⟨KeySet.nodup_toList _, nodup_leafIds (KeySet.nodup_toList _), ?_⟩
    rintro id met _ consuming rfl
    rw [← filter_order bounded listed, List.mem_filter] at met
    obtain ⟨number, _, leaf⟩ := List.mem_flatMap.mp consuming
    obtain ⟨row, place, edge, found, member, rfl⟩ := mem_leafIds.mp leaf
    exact (Automaton.isConsuming_iff.mp (raw_isConsuming_leaf found member)).2 met.2
  rw [toAutomaton_eq_select, Automaton.size_select (covers_order bounded listed)]
  apply List.Perm.length_eq
  refine (List.perm_ext_iff_of_nodup (KeySet.nodup_toList _) distinct).mpr fun id => ?_
  rw [mem_order_iff bounded listed, List.mem_append, List.mem_flatMap]

end Row

end ByteRegex
