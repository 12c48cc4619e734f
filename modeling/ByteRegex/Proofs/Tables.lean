import ByteRegex.Proofs.Grouping
import ByteRegex.Proofs.Slices
import ByteRegex.Subset.Row

/-! Tables as automata. The automaton of a table runs from the fork of a row through one of its
consuming states to the fork of the next row, which is reading the table itself. -/

namespace ByteRegex

theorem CharClass.contains_single (first byte : UInt8) :
    (single first).contains byte ↔ byte = first := by
  simp [single, contains, ByteRange.contains_single]

theorem CharClass.contains_runs (bytes : List UInt8) (byte : UInt8) :
    ({ ranges := ByteRange.runs bytes } : CharClass).contains byte ↔ byte ∈ bytes := by
  rw [contains, Bool.bne_false, ByteRange.any_runs]

namespace Row

/-- Reading the table: the rows that a word leads through, from the row with a number to one that
accepts. -/
def Accepts (rows : List Row) (number : Nat) : List UInt8 → Prop
  | [] => ∃ row, rows[number]? = some row ∧ row.accepting
  | byte :: word => ∃ row, rows[number]? = some row ∧
    ∃ edge ∈ row.edges, edge.1.contains byte ∧ Accepts rows edge.2 word

/-- Bytes that share a class still lead where each of them led alone. -/
theorem mem_edges_ofSteps {compact accepting : Bool} {steps : List (UInt8 × Nat)} {byte : UInt8}
    {target : Nat} :
    (∃ edge ∈ (ofSteps compact accepting steps).edges, edge.1.contains byte ∧ edge.2 = target) ↔
      (byte, target) ∈ steps := by
  cases compact with
  | false =>
    constructor
    · intro ⟨edge, listed, inside, leads⟩
      obtain ⟨⟨first, after⟩, step, rfl⟩ := List.mem_map.mp listed
      obtain rfl := (CharClass.contains_single first byte).mp inside
      exact leads ▸ step
    · intro step
      exact ⟨_, List.mem_map_of_mem step, (CharClass.contains_single byte byte).mpr rfl, rfl⟩
  | true =>
    constructor
    · intro ⟨edge, listed, inside, leads⟩
      obtain ⟨⟨wanted, ranges⟩, member, rfl⟩ := List.mem_map.mp listed
      obtain ⟨_, rfl⟩ := mem_groupByTarget.mp member
      obtain rfl : wanted = target := leads
      exact mem_bytesTo.mp ((CharClass.contains_runs _ byte).mp inside)
    · intro step
      have wanted : target ∈ steps.map (·.2) := List.mem_map_of_mem (f := (·.2)) step
      refine ⟨_, List.mem_map_of_mem (mem_groupByTarget.mpr ⟨wanted, rfl⟩), ?_, rfl⟩
      exact (CharClass.contains_runs _ byte).mpr (mem_bytesTo.mpr step)

theorem edges_ofSteps {compact accepting : Bool} {steps : List (UInt8 × Nat)} :
    ∀ edge ∈ (ofSteps compact accepting steps).edges, ∃ byte, (byte, edge.2) ∈ steps := by
  intro edge listed
  cases compact with
  | false =>
    obtain ⟨⟨byte, target⟩, step, rfl⟩ := List.mem_map.mp listed
    exact ⟨byte, step⟩
  | true =>
    obtain ⟨⟨wanted, ranges⟩, member, rfl⟩ := List.mem_map.mp listed
    obtain ⟨⟨byte, _⟩, step, rfl⟩ := List.mem_map.mp (mem_groupByTarget.mp member).1
    exact ⟨byte, step⟩

/-- The automaton of a table before its states are renumbered. -/
def raw (rows : List Row) (sources : List Nat) : Automaton := ⟨arena rows, sources, rows.length⟩

/-- The number of the first consuming state of a row. -/
def firstLeaf (rows : List Row) (number : Nat) : StateId :=
  rows.length + 1 + Slices.start (fun row => row.edges.length) rows number

variable {rows : List Row} {sources : List Nat} {row : Row} {number : Nat} {word : List UInt8}

theorem toList_arena (rows : List Row) : (arena rows).toList =
    (rows.mapIdx fun number row => row.fork rows.length (firstLeaf rows number)) ++
      .epsilon [] :: rows.flatMap leaves := by
  let forks := (rows.foldl (fun (forks, first) (row : Row) =>
    (forks.push (row.fork rows.length first), first + row.edges.length)) (#[], rows.length + 1)).1
  have split : arena rows = forks.push (.epsilon []) ++ (rows.flatMap leaves).toArray := rfl
  have listed : forks.toList = rows.mapIdx fun number row => row.fork rows.length (firstLeaf rows number) :=
    Slices.toList_running (fun (row : Row) first => row.fork rows.length first) (·.edges.length) ..
  rw [split, Array.toList_append, Array.toList_push, listed, List.append_assoc, List.singleton_append]

theorem states_fork (found : rows[number]? = some row) :
    (raw rows sources).states[number]? = some (row.fork rows.length (firstLeaf rows number)) := by
  have inside := (List.getElem?_eq_some_iff.mp found).1
  rw [raw, ← Array.getElem?_toList, toList_arena, List.getElem?_append_left (by simpa using inside),
    List.getElem?_mapIdx, found, Option.map_some]

theorem states_accept : (raw rows sources).states[rows.length]? = some (.epsilon []) := by
  rw [raw, ← Array.getElem?_toList, toList_arena, List.getElem?_append_right (by simp)]
  simp

private theorem states_leaves (place : Nat) : (raw rows sources).states[rows.length + 1 + place]? =
    (rows.flatMap leaves)[place]? := by
  rw [raw, ← Array.getElem?_toList, toList_arena, List.getElem?_append_right (by simp; omega),
    List.length_mapIdx, Nat.add_assoc, Nat.add_sub_cancel_left, Nat.add_comm 1, List.getElem?_cons_succ]

theorem states_leaf {set : CharClass} {target place : Nat} (found : rows[number]? = some row)
    (edge : row.edges[place]? = some (set, target)) :
    (raw rows sources).states[firstLeaf rows number + place]? = some (.consuming set [target]) := by
  have leaf : row.leaves[place]? = some (.consuming set [target]) := by
    simp [leaves, edge]
  have width : (fun row : Row => row.edges.length) = fun row => row.leaves.length := by
    simp [leaves]
  rw [firstLeaf, Nat.add_assoc, states_leaves, width,
    Slices.getElem?_flatMap found (List.getElem?_eq_some_iff.mp leaf).1, leaf]

theorem states_cases {id : StateId} (inside : id < (raw rows sources).size) :
    (∃ row, rows[id]? = some row) ∨ id = rows.length ∨
      ∃ number row place set target, rows[number]? = some row ∧
        row.edges[place]? = some (set, target) ∧ id = firstLeaf rows number + place := by
  rcases Nat.lt_trichotomy id rows.length with fork | accept | leaf
  · exact .inl ⟨rows[id], List.getElem?_eq_getElem fork⟩
  · exact .inr (.inl accept)
  · obtain ⟨position, rfl⟩ := Nat.exists_eq_add_of_le (Nat.succ_le_of_lt leaf)
    have found := Array.getElem?_eq_getElem inside
    rw [states_leaves] at found
    obtain ⟨number, row, place, listed, leaf, same⟩ := Slices.exists_slice found
    rw [leaves, List.getElem?_map, Option.map_eq_some_iff] at leaf
    obtain ⟨⟨set, target⟩, edge, _⟩ := leaf
    refine .inr (.inr ⟨number, row, place, set, target, listed, edge, ?_⟩)
    rw [same, firstLeaf, ← Nat.add_assoc]
    simp [leaves]

theorem eachClass_toAutomaton {property : CharClass → Prop}
    (each : ∀ row ∈ rows, ∀ edge ∈ row.edges, property edge.1) :
    (toAutomaton rows sources).EachClass property := by
  rw [toAutomaton, Automaton.ofArena_eq_select]
  apply Automaton.EachClass.select
  intro state member set
  rw [← Array.mem_toList_iff, toList_arena] at member
  rcases List.mem_append.mp member with fork | rest
  · obtain ⟨_, _, rfl⟩ := List.mem_mapIdx.mp fork
    exact nofun
  rcases List.mem_cons.mp rest with rfl | leaf
  · exact nofun
  · obtain ⟨row, listed, leaf⟩ := List.mem_flatMap.mp leaf
    obtain ⟨edge, leaves, rfl⟩ := List.mem_map.mp leaf
    rintro ⟨⟩
    exact each row listed edge leaves

def Bounded (rows : List Row) : Prop := ∀ row ∈ rows, ∀ edge ∈ row.edges, edge.2 < rows.length

theorem lt_of_states {states : Array State} {id : StateId} {state : State}
    (found : states[id]? = some state) : id < states.size :=
  (Array.getElem?_eq_some_iff.mp found).1

theorem closed_raw (bounded : Bounded rows) (listed : ∀ source ∈ sources, source < rows.length) :
    (raw rows sources).Closed := by
  have beyond {number : Nat} (inside : number ≤ rows.length) : number < (raw rows sources).size :=
    Nat.lt_of_le_of_lt inside (lt_of_states states_accept)
  refine ⟨?_, ?_, Automaton.isEpsilon_of states_accept, Automaton.next_of states_accept⟩
  · intro id after edge
    rcases states_cases (Automaton.lt_of_next edge) with ⟨row, found⟩ | rfl |
      ⟨number, row, place, set, target, found, leaf, rfl⟩
    · rw [Automaton.next_of (states_fork found), fork] at edge
      rcases List.mem_append.mp edge with leaf | accepts
      · obtain ⟨place, inside, rfl⟩ := List.mem_range'.mp leaf
        rw [Nat.one_mul]
        exact lt_of_states (states_leaf found (List.getElem?_eq_getElem inside))
      · split at accepts
        · obtain rfl := List.mem_singleton.mp accepts
          exact beyond (Nat.le_refl _)
        · cases accepts
    · rw [Automaton.next_of states_accept] at edge
      cases edge
    · rw [Automaton.next_of (states_leaf found leaf)] at edge
      obtain rfl := List.mem_singleton.mp edge
      exact beyond (Nat.le_of_lt
        (bounded row (List.mem_of_getElem? found) _ (List.mem_of_getElem? leaf)))
  · exact fun source member => beyond (Nat.le_of_lt (listed source member))

private theorem path_leaf_iff {set : CharClass} {target place : Nat} (found : rows[number]? = some row)
    (edge : row.edges[place]? = some (set, target)) :
    (raw rows sources).Path (firstLeaf rows number + place) word rows.length ↔
      ∃ byte rest, word = byte :: rest ∧ set.contains byte ∧
        (raw rows sources).Path target rest rows.length := by
  have state : (raw rows sources).states[firstLeaf rows number + place]? = _ := states_leaf found edge
  constructor
  · intro path
    rcases Automaton.path_iff.mp path with ⟨_, here⟩ | ⟨epsilon, _⟩ |
      ⟨byte, rest, whole, consumes, after, next, path⟩
    · have beyond : rows.length < firstLeaf rows number + place := by
        rw [firstLeaf]
        omega
      exact absurd here (Nat.ne_of_gt beyond)
    · obtain ⟨_, epsilon⟩ := Automaton.isEpsilon_iff.mp epsilon
      simp [state, State.consuming] at epsilon
    · obtain ⟨_, _, consuming, inside⟩ := Automaton.reads_iff.mp consumes
      rw [Automaton.next_of state] at next consuming
      rw [state] at consuming
      cases consuming
      obtain rfl := List.mem_singleton.mp next
      exact ⟨byte, rest, whole, inside, path⟩
  · intro ⟨byte, rest, whole, inside, path⟩
    subst whole
    exact .read state inside (List.mem_singleton_self target) path

private theorem path_fork_iff (found : rows[number]? = some row) :
    (raw rows sources).Path number word rows.length ↔ word = [] ∧ row.accepting ∨
      ∃ byte rest, word = byte :: rest ∧ ∃ edge ∈ row.edges, edge.1.contains byte ∧
        (raw rows sources).Path edge.2 rest rows.length := by
  have state : (raw rows sources).states[number]? = _ := states_fork found
  have next : (raw rows sources).next number = List.range' (firstLeaf rows number) row.edges.length ++
      if row.accepting then [rows.length] else [] := Automaton.next_of state
  constructor
  · intro path
    rcases Automaton.path_iff.mp path with ⟨_, here⟩ | ⟨_, after, edge, path⟩ | ⟨_, _, _, consumes, _⟩
    · exact absurd here (Nat.ne_of_lt (List.getElem?_eq_some_iff.mp found).1)
    · rw [next] at edge
      rcases List.mem_append.mp edge with leaf | accepts
      · obtain ⟨place, inside, rfl⟩ := List.mem_range'.mp leaf
        rw [Nat.one_mul] at path
        obtain ⟨byte, rest, whole, contains, path⟩ :=
          (path_leaf_iff found (List.getElem?_eq_getElem inside)).mp path
        exact .inr ⟨byte, rest, whole, _, List.getElem_mem inside, contains, path⟩
      · split at accepts
        next accepting =>
          obtain rfl := List.mem_singleton.mp accepts
          exact .inl ⟨(path.of_sink (Automaton.isEpsilon_of states_accept)
            (Automaton.next_of states_accept)).1, accepting⟩
        next => cases accepts
    · exact absurd (Automaton.isEpsilon_of state) (Automaton.not_isEpsilon_of_reads consumes)
  · rintro (⟨rfl, accepting⟩ | ⟨byte, rest, rfl, ⟨set, target⟩, member, contains, path⟩)
    · refine .jump (Automaton.isEpsilon_of state) ?_ (.here _)
      simp [next, accepting]
    · obtain ⟨place, edge⟩ := List.mem_iff_getElem?.mp member
      refine .jump (Automaton.isEpsilon_of state) ?_
        ((path_leaf_iff found edge).mpr ⟨byte, rest, rfl, contains, path⟩)
      rw [next]
      refine List.mem_append.mpr (.inl (List.mem_range'.mpr ⟨place, ?_, by rw [Nat.one_mul]⟩))
      exact (List.getElem?_eq_some_iff.mp edge).1

theorem raw_path_iff (bounded : Bounded rows) (inside : number < rows.length) :
    (raw rows sources).Path number word rows.length ↔ Accepts rows number word := by
  induction word generalizing number with
  | nil =>
    have found := List.getElem?_eq_getElem inside
    rw [path_fork_iff found]
    simp [Accepts, found]
  | cons byte rest ih =>
    have found := List.getElem?_eq_getElem inside
    have below : ∀ edge ∈ rows[number].edges, edge.2 < rows.length :=
      bounded _ (List.getElem_mem inside)
    rw [path_fork_iff found]
    constructor
    · intro path
      rcases path with ⟨impossible, _⟩ | ⟨_, _, whole, edge, member, contains, path⟩
      · cases impossible
      obtain ⟨rfl, rfl⟩ := List.cons.inj whole
      exact ⟨_, found, edge, member, contains, (ih (below edge member)).mp path⟩
    · intro ⟨row, same, edge, member, contains, accepts⟩
      obtain rfl := Option.some.inj (found.symm.trans same)
      exact .inr ⟨byte, rest, rfl, edge, member, contains, (ih (below edge member)).mpr accepts⟩

/-- The automaton of a table accepts what can be read from the table. -/
theorem accepts_toAutomaton (bounded : Bounded rows)
    (listed : ∀ source ∈ sources, source < rows.length) :
    (toAutomaton rows sources).Accepts word ↔ ∃ source ∈ sources, Accepts rows source word := by
  have closed : Automaton.Closed ⟨arena rows, sources, rows.length⟩ := closed_raw bounded listed
  rw [toAutomaton, Automaton.accepts_ofArena closed]
  constructor
  · intro ⟨source, member, path⟩
    exact ⟨source, member, (raw_path_iff bounded (listed source member)).mp path⟩
  · intro ⟨source, member, accepts⟩
    exact ⟨source, member, (raw_path_iff bounded (listed source member)).mpr accepts⟩

theorem closed_toAutomaton (bounded : Bounded rows)
    (listed : ∀ source ∈ sources, source < rows.length) : (toAutomaton rows sources).Closed :=
  Automaton.closed_ofArena (closed_raw bounded listed)

end Row

end ByteRegex
