import ByteRegex.Proofs.Determinization
import ByteRegex.Proofs.Threads
import Mathlib.Data.List.Nodup
import Mathlib.Data.List.Pairwise
import Mathlib.Tactic.Choose

/-! Determinism. Between two bytes a run of a deterministic automaton is in an epsilon state, from which
the next byte leads to at most one other. So every source has at most one run, and a scanner never has
more of these states at once than there are sources. -/

namespace ByteRegex

namespace Automaton

/-- The epsilon states at which a byte is chosen: all but the accepting one. -/
def isFork (automaton : Automaton) (id : StateId) : Bool := automaton.isEpsilon id && id != automaton.accept

/-- From an epsilon state through one of its consuming successors. -/
def Moves (automaton : Automaton) (id : StateId) (byte : UInt8) (after : StateId) : Prop :=
  ∃ leaf ∈ automaton.next id, automaton.reads leaf byte ∧ after ∈ automaton.next leaf

structure Deterministic (automaton : Automaton) (alphabet : Alphabet) : Prop where
  source : ∀ id ∈ automaton.sources, automaton.isFork id
  /-- A fork leads to consuming states, and possibly once to the accepting state. -/
  fork : ∀ id, automaton.isFork id → ∃ leaves, (∀ leaf ∈ leaves, automaton.isConsuming leaf) ∧
    (automaton.next id = leaves ∨ automaton.next id = leaves ++ [automaton.accept])
  leaf : ∀ id, automaton.isConsuming id → ∃ after, automaton.isFork after ∧ automaton.next id = [after]
  /-- No two successors of a fork consume the same byte. -/
  choice : ∀ id, automaton.isFork id → (automaton.next id).Pairwise fun first second =>
    ∀ byte, ¬ (automaton.reads first byte ∧ automaton.reads second byte)
  inside : ∀ id, automaton.isFork id → ∀ leaf ∈ automaton.next id, ∀ byte,
    automaton.reads leaf byte → alphabet.contains byte

variable {automaton : Automaton} {alphabet : Alphabet} {order : KeySet} {start id first second : StateId}
  {byte : UInt8} {word : List UInt8}

theorem isFork_iff : automaton.isFork id ↔ automaton.isEpsilon id ∧ id ≠ automaton.accept := by
  simp [isFork]

theorem isConsuming_of_reads (consumes : automaton.reads id byte) : automaton.isConsuming id := by
  obtain ⟨_, _, found, _⟩ := reads_iff.mp consumes
  exact isConsuming_iff.mpr ⟨(Array.getElem?_eq_some_iff.mp found).1, not_isEpsilon_of_reads consumes⟩

namespace Deterministic

theorem mem_next (deterministic : automaton.Deterministic alphabet) (begins : automaton.isFork start)
    (edge : id ∈ automaton.next start) : automaton.isConsuming id ∨ id = automaton.accept := by
  obtain ⟨leaves, consuming, next | next⟩ := deterministic.fork start begins
  · exact .inl (consuming id (next ▸ edge))
  · rw [next] at edge
    rcases List.mem_append.mp edge with leaf | accepts
    · exact .inl (consuming id leaf)
    · exact .inr (List.mem_singleton.mp accepts)

/-- A run from one fork to another is a chain of moves. -/
theorem path_cases (deterministic : automaton.Deterministic alphabet) (closed : automaton.Closed)
    (begins : automaton.isFork start) (ends : automaton.isFork id) (path : automaton.Path start word id) :
    word = [] ∧ start = id ∨ ∃ byte rest after, word = byte :: rest ∧ automaton.Moves start byte after ∧
      automaton.isFork after ∧ automaton.Path after rest id := by
  obtain ⟨forking, _⟩ := isFork_iff.mp begins
  obtain ⟨epsilon, other⟩ := isFork_iff.mp ends
  rcases path_iff.mp path with here | ⟨_, leaf, edge, path⟩ | ⟨_, _, _, consumes, _⟩
  · exact .inl here
  · rcases deterministic.mem_next begins edge with consuming | rfl
    · rcases path_iff.mp path with ⟨_, rfl⟩ | ⟨epsilon, _⟩ |
        ⟨byte, rest, whole, consumes, after, follows, path⟩
      · exact absurd epsilon (isConsuming_iff.mp consuming).2
      · exact absurd epsilon (isConsuming_iff.mp consuming).2
      · obtain ⟨target, fork, next⟩ := deterministic.leaf leaf consuming
        obtain rfl : after = target := by simpa [next] using follows
        exact .inr ⟨byte, rest, after, whole, ⟨leaf, edge, consumes, follows⟩, fork, path⟩
    · obtain ⟨_, rfl⟩ := path.of_sink closed.accept_epsilon closed.accept_next
      exact absurd rfl other
  · exact absurd forking (not_isEpsilon_of_reads consumes)

theorem moves_unique (deterministic : automaton.Deterministic alphabet) (begins : automaton.isFork start)
    (left : automaton.Moves start byte first) (right : automaton.Moves start byte second) : first = second := by
  obtain ⟨leaf, edge, consumes, follows⟩ := left
  obtain ⟨other, otherEdge, otherConsumes, otherFollows⟩ := right
  have apart := deterministic.choice start begins
  have same : leaf = other := by
    apply Classical.byContradiction
    intro differ
    have symmetric : Std.Symm fun first second =>
        ∀ byte, ¬ (automaton.reads first byte ∧ automaton.reads second byte) :=
      ⟨fun _ _ apart byte both => apart byte both.symm⟩
    exact apart.forall edge otherEdge differ byte ⟨consumes, otherConsumes⟩
  subst same
  obtain ⟨target, _, next⟩ := deterministic.leaf leaf (isConsuming_of_reads consumes)
  rw [next] at follows otherFollows
  exact (List.mem_singleton.mp follows).trans (List.mem_singleton.mp otherFollows).symm

theorem path_unique (deterministic : automaton.Deterministic alphabet) (closed : automaton.Closed)
    (begins : automaton.isFork start) (left : automaton.isFork first) (right : automaton.isFork second)
    (path : automaton.Path start word first) (other : automaton.Path start word second) : first = second := by
  induction word generalizing start with
  | nil =>
    rcases deterministic.path_cases closed begins left path with ⟨_, rfl⟩ | ⟨_, _, _, impossible, _⟩
    · rcases deterministic.path_cases closed begins right other with ⟨_, same⟩ | ⟨_, _, _, impossible, _⟩
      · exact same
      · cases impossible
    · cases impossible
  | cons byte rest ih =>
    rcases deterministic.path_cases closed begins left path with ⟨impossible, _⟩ |
      ⟨_, _, after, same, moves, fork, path⟩
    · cases impossible
    rcases deterministic.path_cases closed begins right other with ⟨impossible, _⟩ |
      ⟨_, _, _, again, also, _, other⟩
    · cases impossible
    obtain ⟨rfl, rfl⟩ := List.cons.inj same
    obtain ⟨rfl, rfl⟩ := List.cons.inj again
    obtain rfl := deterministic.moves_unique begins moves also
    exact ih fork path other

end Deterministic

theorem select_isFork (covers : automaton.Covers order) (inside : id ∈ order.toList) :
    (automaton.select order).isFork (order.place id) = automaton.isFork id := by
  have accept : order.place id = order.place automaton.accept ↔ id = automaton.accept :=
    ⟨KeySet.place_inj inside covers.accept, congrArg order.place⟩
  rw [Bool.eq_iff_iff, isFork_iff, isFork_iff, select_isEpsilon covers inside]
  exact and_congr_right' (not_congr accept)

theorem select_isConsuming (covers : automaton.Covers order) (inside : id ∈ order.toList) :
    (automaton.select order).isConsuming (order.place id) = automaton.isConsuming id := by
  rw [isConsuming, select_states covers inside, isConsuming]
  cases automaton.states[id]? <;> rfl

theorem Deterministic.select (deterministic : automaton.Deterministic alphabet)
    (covers : automaton.Covers order) : (automaton.select order).Deterministic alphabet := by
  have old {id : StateId} (fork : (automaton.select order).isFork id) :
      ∃ original ∈ order.toList, order.place original = id ∧ automaton.isFork original := by
    obtain ⟨original, inside, rfl⟩ := exists_place covers (lt_of_isEpsilon (isFork_iff.mp fork).1)
    exact ⟨original, inside, rfl, (select_isFork covers inside).symm.trans fork⟩
  refine ⟨?_, ?_, ?_, ?_, ?_⟩
  · intro id source
    obtain ⟨original, listed, rfl⟩ := mem_select_sources.mp source
    exact (select_isFork covers (covers.source original listed)).trans (deterministic.source original listed)
  · intro id fork
    obtain ⟨original, inside, rfl, forking⟩ := old fork
    obtain ⟨leaves, consuming, next⟩ := deterministic.fork original forking
    refine ⟨leaves.map order.place, ?_, ?_⟩
    · refine List.forall_mem_map.mpr fun leaf listed => ?_
      have edge : leaf ∈ automaton.next original := by
        rcases next with next | next <;> simp [next, listed]
      exact (select_isConsuming covers (covers.next original inside leaf edge)).trans (consuming leaf listed)
    · rw [select_next covers inside]
      rcases next with next | next
      · exact .inl (by rw [next])
      · exact .inr (by rw [next, List.map_append]; rfl)
  · intro id consuming
    obtain ⟨original, inside, rfl⟩ := exists_place covers (isConsuming_iff.mp consuming).1
    rw [select_isConsuming covers inside] at consuming
    obtain ⟨after, fork, next⟩ := deterministic.leaf original consuming
    have follows : after ∈ order.toList := covers.next original inside after (by simp [next])
    refine ⟨order.place after, (select_isFork covers follows).trans fork, ?_⟩
    rw [select_next covers inside, next]
    rfl
  · intro id fork
    obtain ⟨original, inside, rfl, forking⟩ := old fork
    rw [select_next covers inside, List.pairwise_map]
    refine (deterministic.choice original forking).imp_of_mem fun {first second} left right apart byte => ?_
    rw [select_reads covers (covers.next original inside first left),
      select_reads covers (covers.next original inside second right)]
    exact apart byte
  · intro id fork target placed byte consumes
    obtain ⟨original, inside, rfl, forking⟩ := old fork
    rw [select_next covers inside] at placed
    obtain ⟨leaf, edge, rfl⟩ := List.mem_map.mp placed
    rw [select_reads covers (covers.next original inside leaf edge)] at consumes
    exact deterministic.inside original forking leaf edge byte consumes

end Automaton

namespace Row

/-- No byte is in two classes, and none from outside the alphabet in any. -/
structure Deterministic (row : Row) (alphabet : Alphabet) : Prop where
  choice : row.edges.Pairwise fun first second =>
    ∀ byte, ¬ (first.1.contains byte ∧ second.1.contains byte)
  inside : ∀ edge ∈ row.edges, ∀ byte, edge.1.contains byte → alphabet.contains byte

variable {alphabet : Alphabet} {rows : List Row} {sources : List Nat} {row : Row} {number : Nat} {byte : UInt8}

/-- The rows of a table of steps, which tells of each row whether it accepts and which bytes lead where. -/
def ofTable (compact : Bool) (table : List (Bool × List (UInt8 × Nat))) : List Row :=
  table.map fun (accepting, steps) => ofSteps compact accepting steps

theorem deterministic_ofSteps {compact accepting : Bool} {steps : List (UInt8 × Nat)}
    (ascending : (steps.map (·.1)).Pairwise (· < ·)) (inside : ∀ step ∈ steps, alphabet.contains step.1) :
    (ofSteps compact accepting steps).Deterministic alphabet := by
  refine ⟨?_, ?_⟩
  · cases compact with
    | false =>
      refine List.pairwise_map.mpr ((List.pairwise_map.mp ascending).imp ?_)
      rintro first second below byte ⟨left, right⟩
      rw [CharClass.contains_single] at left right
      exact UInt8.ne_of_lt below (left.symm.trans right)
    | true =>
      have distinct : (steps.map (·.1)).Nodup := ascending.imp UInt8.ne_of_lt
      change ((groupByTarget steps).map _).Pairwise _
      rw [groupByTarget_eq]
      refine List.pairwise_map.mpr (List.pairwise_map.mpr ((Automaton.nodup_eraseDups _).imp ?_))
      rintro first second differ byte ⟨left, right⟩
      rw [CharClass.contains_runs] at left right
      have same := List.inj_on_of_nodup_map distinct (mem_bytesTo.mp left) (mem_bytesTo.mp right) rfl
      exact differ (Prod.mk.inj same).2
  · intro edge listed byte contains
    have step := mem_edges_ofSteps.mp ⟨edge, listed, contains, rfl⟩
    exact inside _ step

theorem raw_next_fork (found : rows[number]? = some row) : (raw rows sources).next number =
    List.range' (firstLeaf rows number) row.edges.length ++ if row.accepting then [rows.length] else [] :=
  Automaton.next_of (states_fork found)

theorem raw_isFork (found : rows[number]? = some row) : (raw rows sources).isFork number :=
  Automaton.isFork_iff.mpr ⟨Automaton.isEpsilon_of (states_fork found),
    Nat.ne_of_lt (List.getElem?_eq_some_iff.mp found).1⟩

section leaf

variable {place : Nat} {edge : CharClass × Nat}

theorem raw_isConsuming_leaf (found : rows[number]? = some row) (listed : row.edges[place]? = some edge) :
    (raw rows sources).isConsuming (firstLeaf rows number + place) := by
  rw [Automaton.isConsuming, states_leaf found listed]
  rfl

theorem raw_next_leaf (found : rows[number]? = some row) (listed : row.edges[place]? = some edge) :
    (raw rows sources).next (firstLeaf rows number + place) = [edge.2] :=
  Automaton.next_of (states_leaf found listed)

theorem raw_reads_leaf (found : rows[number]? = some row) (listed : row.edges[place]? = some edge) :
    (raw rows sources).reads (firstLeaf rows number + place) byte = edge.1.contains byte := by
  rw [Automaton.reads, states_leaf found listed]
  rfl

end leaf

theorem raw_reads_accept : (raw rows sources).reads rows.length byte = false := by
  rw [Automaton.reads, states_accept]
  rfl

/-- Each row has a fork of its own, and the forks are the rows. -/
theorem exists_row_of_isFork {id : StateId} (fork : (raw rows sources).isFork id) :
    ∃ row, rows[id]? = some row := by
  obtain ⟨epsilon, other⟩ := Automaton.isFork_iff.mp fork
  rcases states_cases (Automaton.lt_of_isEpsilon epsilon) with row | rfl |
    ⟨number, row, place, set, target, found, leaf, rfl⟩
  · exact row
  · exact absurd rfl other
  · exact absurd epsilon (Automaton.isConsuming_iff.mp (raw_isConsuming_leaf found leaf)).2

theorem exists_leaf_of_isConsuming {id : StateId} (consuming : (raw rows sources).isConsuming id) :
    ∃ number row place edge, rows[number]? = some row ∧ row.edges[place]? = some edge ∧
      firstLeaf rows number + place = id := by
  obtain ⟨inside, forking⟩ := Automaton.isConsuming_iff.mp consuming
  rcases states_cases inside with ⟨row, found⟩ | rfl |
    ⟨number, row, place, set, target, found, listed, rfl⟩
  · exact absurd (Automaton.isEpsilon_of (states_fork found)) forking
  · exact absurd (Automaton.isEpsilon_of states_accept) forking
  · exact ⟨number, row, place, (set, target), found, listed, rfl⟩

theorem mem_raw_next_fork {id : StateId} (found : rows[number]? = some row) :
    id ∈ (raw rows sources).next number ↔
      (∃ place edge, row.edges[place]? = some edge ∧ firstLeaf rows number + place = id) ∨
        row.accepting ∧ id = rows.length := by
  rw [raw_next_fork found, List.mem_append, List.mem_range']
  refine or_congr ?_ (by split <;> simp_all)
  constructor
  · rintro ⟨place, inside, rfl⟩
    exact ⟨place, _, List.getElem?_eq_getElem inside, by rw [Nat.one_mul]⟩
  · rintro ⟨place, edge, listed, rfl⟩
    exact ⟨place, (List.getElem?_eq_some_iff.mp listed).1, by rw [Nat.one_mul]⟩

theorem exists_edge_of_reads {leaf : StateId} (found : rows[number]? = some row)
    (follows : leaf ∈ (raw rows sources).next number) (consumes : (raw rows sources).reads leaf byte) :
    ∃ place edge, row.edges[place]? = some edge ∧ edge.1.contains byte ∧
      firstLeaf rows number + place = leaf := by
  rcases (mem_raw_next_fork found).mp follows with ⟨place, edge, listed, rfl⟩ | ⟨_, rfl⟩
  · rw [raw_reads_leaf found listed] at consumes
    exact ⟨place, edge, listed, consumes, rfl⟩
  · rw [raw_reads_accept] at consumes
    cases consumes

theorem pairwise_raw_next_fork (found : rows[number]? = some row) (deterministic : row.Deterministic alphabet) :
    ((raw rows sources).next number).Pairwise fun first second =>
      ∀ byte, ¬ ((raw rows sources).reads first byte ∧ (raw rows sources).reads second byte) := by
  have apart := deterministic.choice
  rw [raw_next_fork found, List.pairwise_append]
  refine ⟨?_, ?_, ?_⟩
  · rw [List.pairwise_iff_getElem] at apart ⊢
    intro first second left right before byte
    simp only [List.length_range'] at left right
    rw [List.getElem_range', List.getElem_range', Nat.one_mul, Nat.one_mul,
      raw_reads_leaf found (List.getElem?_eq_getElem left),
      raw_reads_leaf found (List.getElem?_eq_getElem right)]
    exact apart first second left right before byte
  · split
    · exact List.pairwise_singleton _ _
    · exact .nil
  · -- The accepting state, which comes last, consumes nothing.
    rintro first _ second accepts byte ⟨_, consumes⟩
    obtain rfl : second = rows.length := by
      split at accepts
      · exact List.mem_singleton.mp accepts
      · cases accepts
    rw [raw_reads_accept] at consumes
    cases consumes

theorem deterministic_raw (bounded : Bounded rows) (listed : ∀ source ∈ sources, source < rows.length)
    (deterministic : ∀ row ∈ rows, row.Deterministic alphabet) :
    (raw rows sources).Deterministic alphabet := by
  refine ⟨?_, ?_, ?_, ?_, ?_⟩
  · exact fun id source => raw_isFork (List.getElem?_eq_getElem (listed id source))
  · intro id fork
    obtain ⟨row, found⟩ := exists_row_of_isFork fork
    refine ⟨List.range' (firstLeaf rows id) row.edges.length, ?_, ?_⟩
    · intro leaf member
      obtain ⟨place, inside, rfl⟩ := List.mem_range'.mp member
      rw [Nat.one_mul]
      exact raw_isConsuming_leaf found (List.getElem?_eq_getElem inside)
    · rw [raw_next_fork found]
      cases row.accepting with
      | false => exact .inl (List.append_nil _)
      | true => exact .inr rfl
  · intro id consuming
    obtain ⟨number, row, place, edge, found, listed, rfl⟩ := exists_leaf_of_isConsuming consuming
    have below := bounded row (List.mem_of_getElem? found) edge (List.mem_of_getElem? listed)
    exact ⟨edge.2, raw_isFork (List.getElem?_eq_getElem below), raw_next_leaf found listed⟩
  · intro id fork
    obtain ⟨row, found⟩ := exists_row_of_isFork fork
    exact pairwise_raw_next_fork found (deterministic row (List.mem_of_getElem? found))
  · intro id fork leaf edge byte consumes
    obtain ⟨row, found⟩ := exists_row_of_isFork fork
    obtain ⟨place, edge, listed, contains, _⟩ := exists_edge_of_reads found edge consumes
    have apart := deterministic row (List.mem_of_getElem? found)
    exact apart.inside edge (List.mem_of_getElem? listed) byte contains

theorem deterministic_toAutomaton (bounded : Bounded rows) (listed : ∀ source ∈ sources, source < rows.length)
    (deterministic : ∀ row ∈ rows, row.Deterministic alphabet) :
    (toAutomaton rows sources).Deterministic alphabet := by
  rw [toAutomaton, Automaton.ofArena_eq_select]
  exact (deterministic_raw bounded listed deterministic).select
    (Automaton.covers_walk (closed_raw bounded listed))

end Row

theorem Alphabet.ascending_toList (alphabet : Alphabet) : alphabet.toList.Pairwise (· < ·) := by
  refine List.Pairwise.filter _ (List.pairwise_map.mpr (List.pairwise_lt_range.imp_of_mem ?_))
  intro first second left right below
  rw [List.mem_range] at left right
  rwa [UInt8.lt_iff_toNat_lt, UInt8.toNat_ofNat_of_lt' left, UInt8.toNat_ofNat_of_lt' right]

namespace Automaton

variable {prepared automaton : Automaton} {alphabet : Alphabet} {compact : Bool}

theorem ascending_steps (set : ArrowSet prepared) :
    ((prepared.arrows.steps prepared alphabet set).map (·.1)).Pairwise (· < ·) := by
  have kept : ((prepared.arrows.steps prepared alphabet set).map (·.1)).Sublist
      ((alphabet.toList.map fun byte =>
        (byte, prepared.arrows.after prepared (prepared.arrows.heads set) byte)).map (·.1)) :=
    .map _ List.filter_sublist
  rw [List.map_map, Function.comp_def, List.map_id'] at kept
  exact alphabet.ascending_toList.sublist kept

def table (prepared : Automaton) (alphabet : Alphabet) : List (Bool × List (UInt8 × Nat)) :=
  (discovered prepared alphabet).1.order.toList.map fun set =>
    (prepared.arrows.accepting prepared set, (prepared.arrows.steps prepared alphabet set).map
      fun (byte, after) => (byte, number prepared alphabet after))

theorem determinizeArrows_table : (prepared.determinizeArrows alphabet compact).rows =
    Row.ofTable compact (table prepared alphabet) := by
  apply List.ext_getElem?
  intro index
  rw [Row.ofTable, table, List.map_map, List.getElem?_map, Array.getElem?_toList]
  cases listed : (discovered prepared alphabet).1.order[index]? with
  | none =>
    rw [Option.map_none, List.getElem?_eq_none_iff, length_rows]
    exact Array.getElem?_eq_none_iff.mp listed
  | some set => exact getElem?_rows listed

theorem table_spec : ∀ entry ∈ table prepared alphabet,
    (entry.2.map (·.1)).Pairwise (· < ·) ∧ ∀ step ∈ entry.2, alphabet.contains step.1 := by
  refine List.forall_mem_map.mpr fun set _ => ⟨?_, List.forall_mem_map.mpr fun step member => ?_⟩
  · rw [List.map_map]
    exact ascending_steps set
  · exact (mem_steps.mp member).1

theorem deterministic_determinizeArrows :
    (prepared.determinizeArrows alphabet compact).automaton.Deterministic alphabet := by
  rw [determinizeArrows_automaton]
  refine Row.deterministic_toAutomaton bounded_rows numbered_starts ?_
  rw [determinizeArrows_table]
  refine List.forall_mem_map.mpr fun entry member => ?_
  obtain ⟨ascending, inside⟩ := table_spec entry member
  exact Row.deterministic_ofSteps ascending inside

end Automaton

namespace Scanner

/-- The forks that the scanner is in. -/
def live (scanner : Scanner) : List StateId := scanner.visited.toList.filter scanner.automaton.isFork

variable {automaton : Automaton} {alphabet : Alphabet} {scanner : Scanner} {word : List UInt8} {id : StateId}

theorem At.mem_live (here : At automaton scanner word) :
    id ∈ scanner.live ↔ automaton.isFork id ∧ automaton.Reaches word id := by
  rw [live, List.mem_filter, here.visited, here.same]
  exact and_comm

/-- Each fork that a scanner is in has a source of its own. -/
theorem At.length_live_le (here : At automaton scanner word) (deterministic : automaton.Deterministic alphabet) :
    scanner.live.length ≤ automaton.sources.length := by
  have reached : ∀ id ∈ scanner.live, ∃ source ∈ automaton.sources, automaton.Path source word id :=
    fun id live => (here.mem_live.mp live).2
  choose! origin listed path using reached
  have distinct : (scanner.live.map origin).Nodup := by
    refine List.Nodup.map_on ?_ (scanner.visited.nodup_toList.filter _)
    intro first left second right same
    have other := path second right
    rw [← same] at other
    exact deterministic.path_unique here.closed (deterministic.source _ (listed first left))
      (here.mem_live.mp left).1 (here.mem_live.mp right).1 (path first left) other
  have few := distinct.length_le_of_subset (List.forall_mem_map.mpr listed)
  rwa [List.length_map] at few

end Scanner

namespace Automaton

/-- The subset construction makes a deterministic automaton over the alphabet, whether or not bytes share
classes. An input leads from a source to at most one fork, and a scanner is never in more forks at once
than there are sources. -/
theorem deterministic_determinize {automaton : Automaton} (closed : automaton.Closed)
    (distinct : automaton.sources.Nodup) (alphabet : Alphabet) (compact : Bool) :
    ∃ result, automaton.determinize alphabet compact = .ok result ∧ result.automaton.Deterministic alphabet ∧
      (∀ source ∈ result.automaton.sources, ∀ word first second,
        result.automaton.isFork first → result.automaton.isFork second →
        result.automaton.Path source word first → result.automaton.Path source word second → first = second) ∧
      ∀ scanner : Scanner, scanner.automaton = result.automaton → ∀ word,
        (∀ id, id ∈ (scanner.after word).live ↔
          result.automaton.isFork id ∧ result.automaton.Reaches word id) ∧
        (scanner.after word).live.length ≤ result.automaton.sources.length := by
  obtain ⟨result, succeeds, closed, _⟩ := determinize_spec closed distinct alphabet compact
  have deterministic : result.automaton.Deterministic alphabet := by
    obtain ⟨prepared, _, rfl⟩ := determinize_eq_ok_iff.mp succeeds
    exact deterministic_determinizeArrows
  refine ⟨result, succeeds, deterministic, ?_, ?_⟩
  · exact fun source listed word first second left right =>
      deterministic.path_unique closed (deterministic.source source listed) left right
  · intro scanner same word
    have here := Scanner.after_at (same ▸ closed) word
    rw [same] at here
    exact ⟨fun id => here.mem_live, here.length_live_le deterministic⟩

theorem deterministic_determinize_tangled : tangled.Closed ∧ tangled.sources.Nodup ∧
    ∃ result, tangled.determinize (.ofBytes [0x61, 0x7a]) true = .ok result ∧
      result.automaton.Deterministic (.ofBytes [0x61, 0x7a]) ∧
      (∀ source ∈ result.automaton.sources, ∀ word first second,
        result.automaton.isFork first → result.automaton.isFork second →
        result.automaton.Path source word first → result.automaton.Path source word second → first = second) ∧
      ∀ scanner : Scanner, scanner.automaton = result.automaton → ∀ word,
        (∀ id, id ∈ (scanner.after word).live ↔
          result.automaton.isFork id ∧ result.automaton.Reaches word id) ∧
        (scanner.after word).live.length ≤ result.automaton.sources.length :=
  ⟨by decide, by decide, deterministic_determinize (by decide) (by decide) (.ofBytes [0x61, 0x7a]) true⟩

end Automaton

end ByteRegex
