import ByteRegex.Proofs.TableWalk

/-! Classes of bytes with a common target. They are the ranges of those bytes, as few as possible, and
all that they change is that some consuming states become one: the epsilon states stay in their order
and the bytes lead from one to the other as before. -/

namespace ByteRegex

namespace Automaton

/-- Epsilon states that are at the same place among those of their automata. -/
def Matched (plain compacted : Automaton) (left right : StateId) : Prop :=
  ∃ place : Nat, plain.epsilons[place]? = some left ∧ compacted.epsilons[place]? = some right

/-- The successors of an epsilon state lead to different states. -/
def Spread (automaton : Automaton) : Prop :=
  ∀ id, automaton.isFork id → ∀ first ∈ automaton.next id, ∀ second ∈ automaton.next id, first ≠ second →
    ∀ after ∈ automaton.next first, after ∉ automaton.next second

/-- The second automaton is the first one with some of its consuming states merged. -/
structure Merges (plain compacted : Automaton) : Prop where
  length_epsilons : plain.epsilons.length = compacted.epsilons.length
  source : ∀ left right, plain.Matched compacted left right →
    (left ∈ plain.sources ↔ right ∈ compacted.sources)
  accept : plain.Matched compacted plain.accept compacted.accept
  accepting : ∀ left right, plain.Matched compacted left right →
    (plain.accept ∈ plain.next left ↔ compacted.accept ∈ compacted.next right)
  moves_iff : ∀ left right, plain.Matched compacted left right → ∀ byte,
    ((∃ after, plain.Moves left byte after) ↔ ∃ after, compacted.Moves right byte after)
  moves : ∀ left right, plain.Matched compacted left right → ∀ byte leftAfter rightAfter,
    plain.Moves left byte leftAfter → compacted.Moves right byte rightAfter →
      plain.Matched compacted leftAfter rightAfter
  /-- Nothing is left to be merged. -/
  spread : compacted.Spread
  separate : compacted.EachClass fun set => set.inverted = false ∧ ByteRange.Separate set.ranges

theorem Spread.select {automaton : Automaton} {order : KeySet} (spread : automaton.Spread)
    (covers : automaton.Covers order) : (automaton.select order).Spread := by
  intro id fork first left second right differ after follows also
  obtain ⟨original, inside, rfl⟩ := exists_place covers (lt_of_isEpsilon (isFork_iff.mp fork).1)
  rw [select_isFork covers inside] at fork
  rw [select_next covers inside] at left right
  obtain ⟨one, edge, rfl⟩ := List.mem_map.mp left
  obtain ⟨other, otherEdge, rfl⟩ := List.mem_map.mp right
  have kept := covers.next original inside
  rw [select_next covers (kept one edge)] at follows
  rw [select_next covers (kept other otherEdge)] at also
  obtain ⟨target, leads, rfl⟩ := List.mem_map.mp follows
  obtain ⟨same, otherLeads, placed⟩ := List.mem_map.mp also
  obtain rfl := KeySet.place_inj (covers.next other (kept other otherEdge) same otherLeads)
    (covers.next one (kept one edge) target leads) placed
  exact spread original fork one edge other otherEdge (differ ∘ congrArg order.place) same leads otherLeads

end Automaton

namespace Row

theorem spread_raw {rows : List Row} {sources : List Nat}
    (distinct : ∀ row ∈ rows, (row.edges.map (·.2)).Nodup) : (raw rows sources).Spread := by
  intro id fork first left second right differ after follows also
  obtain ⟨row, found⟩ := exists_row_of_isFork fork
  have consuming {leaf : StateId} (edge : leaf ∈ (raw rows sources).next id)
      (leads : after ∈ (raw rows sources).next leaf) :
      ∃ place, (row.edges.map (·.2))[place]? = some after ∧ firstLeaf rows id + place = leaf := by
    rcases (mem_raw_next_fork found).mp edge with ⟨place, edge, listed, rfl⟩ | ⟨_, rfl⟩
    · rw [raw_next_leaf found listed] at leads
      refine ⟨place, ?_, rfl⟩
      rw [List.getElem?_map, listed, Option.map_some, List.mem_singleton.mp leads]
    · rw [Automaton.next_of states_accept] at leads
      cases leads
  obtain ⟨place, target, rfl⟩ := consuming left follows
  obtain ⟨other, same, rfl⟩ := consuming right also
  have inside := (List.getElem?_eq_some_iff.mp target).1
  obtain rfl : place = other :=
    (List.getElem?_inj inside (distinct row (List.mem_of_getElem? found))).mp (target.trans same.symm)
  exact differ rfl

theorem spread_toAutomaton {rows : List Row} {sources : List Nat} (bounded : Bounded rows)
    (listed : ∀ source ∈ sources, source < rows.length)
    (distinct : ∀ row ∈ rows, (row.edges.map (·.2)).Nodup) : (toAutomaton rows sources).Spread := by
  rw [toAutomaton_eq_select]
  exact (spread_raw distinct).select (covers_order bounded listed)

section table

variable {table : List (Bool × List (UInt8 × Nat))} {compact : Bool} {sources : List Nat} {number : Nat}
  {byte : UInt8} {id after : StateId}

theorem length_ofTable : (ofTable compact table).length = table.length := List.length_map _

theorem getElem?_ofTable {entry : Bool × List (UInt8 × Nat)} (found : table[number]? = some entry) :
    (ofTable compact table)[number]? = some (ofSteps compact entry.1 entry.2) := by
  rw [ofTable, List.getElem?_map, found, Option.map_some]

theorem raw_next_length : (raw (ofTable compact table) sources).next table.length = [] := by
  have sink : (raw (ofTable compact table) sources).next (ofTable compact table).length = [] :=
    Automaton.next_of states_accept
  rwa [length_ofTable] at sink

theorem accepting_ofSteps (compact accepting : Bool) (steps : List (UInt8 × Nat)) :
    (ofSteps compact accepting steps).accepting = accepting := rfl

theorem targets_ofSteps (compact accepting : Bool) (steps : List (UInt8 × Nat)) :
    (ofSteps compact accepting steps).edges.map (·.2) =
      if compact then (steps.map (·.2)).eraseDups else steps.map (·.2) := by
  cases compact with
  | false => exact List.map_map
  | true => exact List.map_map.trans (targets_groupByTarget steps)

theorem step_lt (bounded : Bounded (ofTable false table)) {entry : Bool × List (UInt8 × Nat)}
    (found : table[number]? = some entry) : ∀ target ∈ entry.2.map (·.2), target < table.length := by
  intro target listed
  have targets := targets_ofSteps false entry.1 entry.2
  rw [if_neg Bool.false_ne_true] at targets
  rw [← targets] at listed
  obtain ⟨edge, leaves, rfl⟩ := List.mem_map.mp listed
  have below := bounded _ (List.mem_of_getElem? (getElem?_ofTable found)) edge leaves
  rwa [length_ofTable] at below

/-- Sharing classes does not change which rows are met, nor when. -/
theorem walk_ofTable (bounded : Bounded (ofTable false table)) :
    walk (ofTable true table) sources = walk (ofTable false table) sources := by
  have same : ∀ number, (graph (ofTable true table)).next number =
      ((graph (ofTable false table)).next number).eraseDups := by
    intro number
    cases found : table[number]? with
    | none =>
      have outside (compact : Bool) : (ofTable compact table).length ≤ number :=
        length_ofTable.symm ▸ List.getElem?_eq_none_iff.mp found
      rw [(graph _).next_eq_nil number (outside true), (graph _).next_eq_nil number (outside false),
        List.eraseDups_nil]
    | some entry =>
      have absent : table.length ∉ entry.2.map (·.2) :=
        fun listed => Nat.lt_irrefl _ (step_lt bounded found _ listed)
      rw [graph_next (getElem?_ofTable found), graph_next (getElem?_ofTable found), targets_ofSteps,
        targets_ofSteps, length_ofTable, length_ofTable, if_pos rfl, if_neg Bool.false_ne_true,
        accepting_ofSteps, accepting_ofSteps]
      split
      · rw [eraseDups_concat, if_neg absent]
      · rw [List.append_nil, List.append_nil]
  rw [walk, walk, length_ofTable, length_ofTable, Graph.explore_congr same]

theorem accept_ofTable (table : List (Bool × List (UInt8 × Nat))) (sources : List Nat) (compact : Bool) :
    (toAutomaton (ofTable compact table) sources).accept =
      (order (ofTable compact table) sources).place table.length := by
  rw [accept_toAutomaton, length_ofTable]

/-- What is needed of a table: the bytes of an entry ascend, and the targets are entries. -/
structure Tabular (table : List (Bool × List (UInt8 × Nat))) (sources : List Nat) : Prop where
  ascending : ∀ entry ∈ table, (entry.2.map (·.1)).Pairwise (· < ·)
  bounded : ∀ compact, Bounded (ofTable compact table)
  listed : ∀ source ∈ sources, source < table.length

namespace Tabular

variable {entry : Bool × List (UInt8 × Nat)}

theorem listed_ofTable (tabular : Tabular table sources) (compact : Bool) :
    ∀ source ∈ sources, source < (ofTable compact table).length :=
  fun source member => length_ofTable.symm ▸ tabular.listed source member

theorem covers (tabular : Tabular table sources) (compact : Bool) :
    (raw (ofTable compact table) sources).Covers (order (ofTable compact table) sources) :=
  covers_order (tabular.bounded compact) (tabular.listed_ofTable compact)

theorem walk_eq (tabular : Tabular table sources) (compact : Bool) :
    walk (ofTable compact table) sources = walk (ofTable false table) sources := by
  cases compact with
  | false => rfl
  | true => exact walk_ofTable (tabular.bounded false)

theorem epsilons (tabular : Tabular table sources) (compact : Bool) :
    (toAutomaton (ofTable compact table) sources).epsilons =
      (walk (ofTable false table) sources).toList.map (order (ofTable compact table) sources).place := by
  rw [epsilons_toAutomaton (tabular.bounded compact) (tabular.listed_ofTable compact), tabular.walk_eq]

theorem matched_iff (tabular : Tabular table sources) {left right : StateId} :
    (toAutomaton (ofTable false table) sources).Matched (toAutomaton (ofTable true table) sources) left right ↔
      ∃ number ∈ (walk (ofTable false table) sources).toList,
        (order (ofTable false table) sources).place number = left ∧
        (order (ofTable true table) sources).place number = right := by
  simp only [Automaton.Matched, tabular.epsilons, List.getElem?_map, Option.map_eq_some_iff,
    List.mem_iff_getElem?]
  constructor
  · rintro ⟨place, ⟨number, found, rfl⟩, other, same, rfl⟩
    obtain rfl := Option.some.inj (found.symm.trans same)
    exact ⟨number, ⟨place, found⟩, rfl, rfl⟩
  · rintro ⟨number, ⟨place, found⟩, rfl, rfl⟩
    exact ⟨place, ⟨number, found, rfl⟩, number, found, rfl⟩

theorem mem_walk_iff (tabular : Tabular table sources) (compact : Bool) :
    number ∈ (walk (ofTable false table) sources).toList ↔
      number ∈ (order (ofTable compact table) sources).toList ∧
        (raw (ofTable compact table) sources).isEpsilon number := by
  rw [← tabular.walk_eq compact, ← filter_order (tabular.bounded compact) (tabular.listed_ofTable compact),
    List.mem_filter]

theorem cases_walk (tabular : Tabular table sources)
    (met : number ∈ (walk (ofTable false table) sources).toList) :
    (∃ entry, table[number]? = some entry) ∨ number = table.length := by
  obtain ⟨_, epsilon⟩ := (tabular.mem_walk_iff false).mp met
  by_cases accepts : number = table.length
  · exact .inr accepts
  · have fork : (raw (ofTable false table) sources).isFork number :=
      Automaton.isFork_iff.mpr ⟨epsilon, fun same => accepts (same.trans length_ofTable)⟩
    obtain ⟨row, found⟩ := exists_row_of_isFork fork
    rw [ofTable, List.getElem?_map, Option.map_eq_some_iff] at found
    obtain ⟨entry, found, _⟩ := found
    exact .inl ⟨entry, found⟩

theorem accept_mem_walk (table : List (Bool × List (UInt8 × Nat))) (sources : List Nat) :
    table.length ∈ (walk (ofTable false table) sources).toList :=
  KeySet.mem_toList_insert.mpr (.inr length_ofTable.symm)

theorem mem_walk_of_step {target : Nat} (met : number ∈ (walk (ofTable false table) sources).toList)
    (found : table[number]? = some entry) (step : (byte, target) ∈ entry.2) :
    target ∈ (walk (ofTable false table) sources).toList := by
  have edge : target ∈ (graph (ofTable false table)).next number := by
    rw [graph_next (getElem?_ofTable found), targets_ofSteps, if_neg Bool.false_ne_true]
    exact List.mem_append_left _ (List.mem_map_of_mem (f := (·.2)) step)
  rcases KeySet.mem_toList_insert.mp met with reached | rfl
  · obtain ⟨source, listed, leads⟩ := ((graph _).mem_explore rfl).mp reached
    refine KeySet.mem_toList_insert.mpr (.inl ?_)
    exact ((graph _).mem_explore rfl).mpr ⟨source, listed, leads.tail edge⟩
  · have inside := (List.getElem?_eq_some_iff.mp found).1
    rw [length_ofTable] at inside
    exact absurd inside (Nat.lt_irrefl _)

variable (tabular : Tabular table sources) (compact : Bool)
  (met : number ∈ (walk (ofTable false table) sources).toList)

include tabular met

theorem mem_sources_iff : (order (ofTable compact table) sources).place number ∈
    (toAutomaton (ofTable compact table) sources).sources ↔ number ∈ sources := by
  have covers := tabular.covers compact
  have inside := ((tabular.mem_walk_iff compact).mp met).1
  rw [toAutomaton_eq_select, Automaton.mem_select_sources]
  constructor
  · rintro ⟨source, listed, same⟩
    rwa [KeySet.place_inj (covers.source source listed) inside same] at listed
  · exact fun listed => ⟨number, listed, rfl⟩

theorem accepting_iff : (toAutomaton (ofTable compact table) sources).accept ∈
    (toAutomaton (ofTable compact table) sources).next ((order (ofTable compact table) sources).place number) ↔
      ∃ entry, table[number]? = some entry ∧ entry.1 = true := by
  have inside := ((tabular.mem_walk_iff compact).mp met).1
  rw [toAutomaton_eq_select, Automaton.select_accepting_iff (tabular.covers compact) inside]
  rcases tabular.cases_walk met with ⟨entry, found⟩ | rfl
  · rw [raw_accepting_iff (getElem?_ofTable found)]
    simp [found, accepting_ofSteps]
  · simp [raw_next_length]

theorem moves_iff {after : StateId} : (toAutomaton (ofTable compact table) sources).Moves
    ((order (ofTable compact table) sources).place number) byte after ↔
      ∃ entry, table[number]? = some entry ∧ ∃ target, (byte, target) ∈ entry.2 ∧
        (order (ofTable compact table) sources).place target = after := by
  have inside := ((tabular.mem_walk_iff compact).mp met).1
  rw [toAutomaton_eq_select, Automaton.select_moves_iff (tabular.covers compact) inside]
  rcases tabular.cases_walk met with ⟨entry, found⟩ | rfl
  · simp only [raw_moves_iff (getElem?_ofTable found), mem_edges_ofSteps, found, Option.some.injEq,
      exists_eq_left']
  · simp [Automaton.Moves, raw_next_length]

omit met in
theorem merges : (toAutomaton (ofTable false table) sources).Merges
    (toAutomaton (ofTable true table) sources) := by
  refine ⟨?_, ?_, ?_, ?_, ?_, ?_, ?_, ?_⟩
  · rw [tabular.epsilons, tabular.epsilons, List.length_map, List.length_map]
  · intro left right matched
    obtain ⟨number, met, rfl, rfl⟩ := tabular.matched_iff.mp matched
    rw [tabular.mem_sources_iff false met, tabular.mem_sources_iff true met]
  · refine tabular.matched_iff.mpr ⟨table.length, accept_mem_walk table sources, ?_, ?_⟩
    · exact (accept_ofTable table sources false).symm
    · exact (accept_ofTable table sources true).symm
  · intro left right matched
    obtain ⟨number, met, rfl, rfl⟩ := tabular.matched_iff.mp matched
    rw [tabular.accepting_iff false met, tabular.accepting_iff true met]
  · intro left right matched byte
    obtain ⟨number, met, rfl, rfl⟩ := tabular.matched_iff.mp matched
    simp only [tabular.moves_iff false met, tabular.moves_iff true met]
    constructor
    · rintro ⟨_, entry, found, target, step, _⟩
      exact ⟨_, entry, found, target, step, rfl⟩
    · rintro ⟨_, entry, found, target, step, _⟩
      exact ⟨_, entry, found, target, step, rfl⟩
  · intro left right matched byte leftAfter rightAfter leftMoves rightMoves
    obtain ⟨number, met, rfl, rfl⟩ := tabular.matched_iff.mp matched
    obtain ⟨entry, found, target, step, rfl⟩ := (tabular.moves_iff false met).mp leftMoves
    obtain ⟨other, same, second, otherStep, rfl⟩ := (tabular.moves_iff true met).mp rightMoves
    obtain rfl := Option.some.inj (found.symm.trans same)
    -- One byte leads to one target.
    have distinct : (entry.2.map (·.1)).Nodup :=
      (tabular.ascending entry (List.mem_of_getElem? found)).imp UInt8.ne_of_lt
    obtain rfl := (Prod.mk.inj (List.inj_on_of_nodup_map distinct step otherStep rfl)).2
    exact tabular.matched_iff.mpr ⟨target, mem_walk_of_step met found step, rfl, rfl⟩
  · refine spread_toAutomaton (tabular.bounded true) (tabular.listed_ofTable true) ?_
    refine List.forall_mem_map.mpr fun entry _ => ?_
    rw [targets_ofSteps, if_pos rfl]
    exact Automaton.nodup_eraseDups _
  · refine eachClass_toAutomaton (List.forall_mem_map.mpr fun entry member edge listed => ?_)
    obtain ⟨group, grouped, rfl⟩ := List.mem_map.mp listed
    exact ⟨rfl, separate_groupByTarget (tabular.ascending entry member) group grouped⟩

omit met in
theorem size_le : (toAutomaton (ofTable true table) sources).size ≤
    (toAutomaton (ofTable false table) sources).size := by
  have fewer : ∀ number ∈ (walk (ofTable false table) sources).toList,
      (leafIds (ofTable true table) number).length ≤ (leafIds (ofTable false table) number).length := by
    intro number _
    rw [leafIds, leafIds, List.length_range', List.length_range']
    cases found : table[number]? with
    | none => simp [ofTable, found]
    | some entry =>
      have classes (compact : Bool) : ((ofTable compact table)[number]?.map (·.edges.length)).getD 0 =
          ((ofSteps compact entry.1 entry.2).edges.map (·.2)).length := by
        rw [getElem?_ofTable found, List.length_map]
        rfl
      rw [classes, classes, targets_ofSteps, targets_ofSteps, if_pos rfl, if_neg Bool.false_ne_true]
      exact (Automaton.nodup_eraseDups _).length_le_of_subset fun _ => List.mem_eraseDups.mp
  rw [size_toAutomaton (tabular.bounded true) (tabular.listed_ofTable true),
    size_toAutomaton (tabular.bounded false) (tabular.listed_ofTable false), tabular.walk_eq,
    List.length_append, List.length_append]
  exact Nat.add_le_add_left (Slices.length_flatMap_le fewer) _

end Tabular

end table

end Row

namespace Automaton

variable {prepared : Automaton} {alphabet : Alphabet}

theorem tabular_table (prepared : Automaton) (alphabet : Alphabet) :
    Row.Tabular (table prepared alphabet) ((prepared.arrows.starts prepared).map (number prepared alphabet)) := by
  refine ⟨fun entry member => (table_spec entry member).1, ?_, ?_⟩
  · intro compact
    rw [← determinizeArrows_table]
    exact bounded_rows
  · intro source listed
    have below : source < (prepared.determinizeArrows alphabet false).rows.length :=
      numbered_starts source listed
    rwa [determinizeArrows_table, Row.length_ofTable] at below

/-- Giving bytes with a common target a common class only merges consuming states: the epsilon states stay
in their order with the same transitions between them, the language stays the same, and there are not more
states. -/
theorem merges_determinize {automaton : Automaton} (closed : automaton.Closed)
    (distinct : automaton.sources.Nodup) (alphabet : Alphabet) :
    ∃ plain compacted, automaton.determinize alphabet false = .ok plain ∧
      automaton.determinize alphabet true = .ok compacted ∧
      plain.automaton.Deterministic alphabet ∧ compacted.automaton.Deterministic alphabet ∧
      plain.automaton.Merges compacted.automaton ∧
      (∀ word, compacted.automaton.Accepts word ↔ plain.automaton.Accepts word) ∧
      compacted.automaton.size ≤ plain.automaton.size := by
  obtain ⟨plain, succeeds, _, accepts⟩ := determinize_spec closed distinct alphabet false
  obtain ⟨compacted, also, _, same⟩ := determinize_spec closed distinct alphabet true
  obtain ⟨prepared, prepares, rfl⟩ := determinize_eq_ok_iff.mp succeeds
  obtain ⟨_, again, rfl⟩ := determinize_eq_ok_iff.mp also
  obtain rfl := Except.ok.inj (prepares.symm.trans again)
  have tabular := tabular_table prepared alphabet
  refine ⟨_, _, succeeds, also, deterministic_determinizeArrows, deterministic_determinizeArrows, ?_,
    fun word => (same word).trans (accepts word).symm, ?_⟩
  · rw [determinizeArrows_automaton, determinizeArrows_automaton, determinizeArrows_table,
      determinizeArrows_table]
    exact tabular.merges
  · rw [determinizeArrows_automaton, determinizeArrows_automaton, determinizeArrows_table,
      determinizeArrows_table]
    exact tabular.size_le

theorem merges_determinize_tangled : tangled.Closed ∧ tangled.sources.Nodup ∧
    ∃ plain compacted, tangled.determinize (.ofBytes [0x61, 0x62, 0x64, 0xff]) false = .ok plain ∧
      tangled.determinize (.ofBytes [0x61, 0x62, 0x64, 0xff]) true = .ok compacted ∧
      plain.automaton.Deterministic (.ofBytes [0x61, 0x62, 0x64, 0xff]) ∧
      compacted.automaton.Deterministic (.ofBytes [0x61, 0x62, 0x64, 0xff]) ∧
      plain.automaton.Merges compacted.automaton ∧
      (∀ word, compacted.automaton.Accepts word ↔ plain.automaton.Accepts word) ∧
      compacted.automaton.size ≤ plain.automaton.size :=
  ⟨by decide, by decide, merges_determinize (by decide) (by decide) (.ofBytes [0x61, 0x62, 0x64, 0xff])⟩

end Automaton

end ByteRegex
