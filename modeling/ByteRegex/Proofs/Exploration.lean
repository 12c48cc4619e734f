import ByteRegex.Proofs.ArrowSets
import ByteRegex.Proofs.Merging
import ByteRegex.Proofs.Reduction
import Mathlib.Data.Set.Card

/-! The sets that the subset construction finds. They are the sets of arrows to which the words over the
alphabet lead, each is found once, and each has a fork of its own in the automaton that is made of them. -/

namespace ByteRegex

namespace Automaton

/-- The forks of an automaton stand for the sets of arrows that can be reached in the prepared one. -/
structure Represents (prepared : Automaton) (alphabet : Alphabet) (automaton : Automaton)
    (sets : StateId → Set Arrow) : Prop where
  bijective : Set.BijOn sets {id | automaton.isFork id} (prepared.reachedSets alphabet)
  /-- Every source has a fork of its own. -/
  sources : automaton.sources.map sets =
    (List.range prepared.sources.length).map fun place => {Arrow.entrance place}
  moves : ∀ id, automaton.isFork id → ∀ byte after, automaton.Moves id byte after ↔
    automaton.isFork after ∧ alphabet.contains byte ∧ sets after = prepared.follow (sets id) byte
  accepting : ∀ id, automaton.isFork id → (automaton.accept ∈ automaton.next id ↔
    ∃ arrow ∈ sets id, prepared.target? arrow = some prepared.accept)
  reached : ∀ id, automaton.isFork id →
    ∃ word : List UInt8, (∀ byte ∈ word, alphabet.contains byte) ∧ automaton.Reaches word id

variable {prepared : Automaton} {alphabet : Alphabet} {compact : Bool} {set after : ArrowSet prepared}
  {arrows : Set Arrow} {id : StateId} {byte : UInt8} {word : List UInt8}

section search

theorem singleton_mem_discovered {place : Nat} (listed : place < prepared.sources.length) :
    .singleton place ∈ (discovered prepared alphabet).1.order :=
  (discovered_spec prepared alphabet).1 _ (mem_starts.mpr ⟨place, listed, rfl⟩)

theorem mem_discovered_of_step (member : set ∈ (discovered prepared alphabet).1.order)
    (step : (byte, after) ∈ prepared.arrows.steps prepared alphabet set) :
    after ∈ (discovered prepared alphabet).1.order := by
  obtain ⟨_, followed, complete⟩ := discovered_spec prepared alphabet
  have listed := getElem?_number member
  have inside := (Array.getElem?_eq_some_iff.mp listed).1
  exact followed.known _ set (complete ▸ inside) listed _ step

/-- What holds of the sets to begin with, and is kept by the steps of the sets that are found, holds of all of
them. -/
theorem discovered_each (property : ArrowSet prepared → Prop)
    (begins : ∀ set ∈ prepared.arrows.starts prepared, property set)
    (kept : ∀ set ∈ (discovered prepared alphabet).1.order, property set →
      ∀ step ∈ prepared.arrows.steps prepared alphabet set, property step.2) :
    ∀ set ∈ (discovered prepared alphabet).1.order, property set := by
  have each : ∀ set ∈ (discovered prepared alphabet).1.order,
      set ∈ (discovered prepared alphabet).1.order ∧ property set := by
    apply Subsets.followUp_each
    · intro set both step listed
      exact ⟨mem_discovered_of_step both.1 listed, kept set both.1 both.2 step listed⟩
    · intro set member
      cases (Subsets.mem_insertAll id).mp member with
      | inl impossible => exact absurd impossible (Array.not_mem_empty set)
      | inr start =>
        obtain ⟨_, listed, rfl⟩ := start
        exact ⟨(discovered_spec prepared alphabet).1 _ listed, begins _ listed⟩
  exact fun set member => (each set member).2

theorem follow_empty (prepared : Automaton) (byte : UInt8) : prepared.follow ∅ byte = ∅ := by
  apply Set.eq_empty_of_forall_notMem
  intro arrow ⟨_, _, _, _, _, before, impossible, _⟩
  exact impossible

theorem nonempty_of_foldl_follow (filled : (word.foldl prepared.follow arrows).Nonempty) : arrows.Nonempty := by
  induction word generalizing arrows with
  | nil => exact filled
  | cons byte rest ih =>
    apply Set.nonempty_iff_ne_empty.mpr
    intro empty
    have later := ih filled
    rw [empty, follow_empty] at later
    exact Set.not_nonempty_empty later

theorem start_mem_reachedSets {place : Nat} (listed : place < prepared.sources.length) :
    {.entrance place} ∈ prepared.reachedSets alphabet :=
  ⟨Set.singleton_nonempty _, place, listed, [], List.forall_mem_nil _, rfl⟩

theorem follow_mem_reachedSets (reached : arrows ∈ prepared.reachedSets alphabet)
    (member : alphabet.contains byte) (filled : (prepared.follow arrows byte).Nonempty) :
    prepared.follow arrows byte ∈ prepared.reachedSets alphabet := by
  obtain ⟨_, place, listed, word, bytes, rfl⟩ := reached
  refine ⟨filled, place, listed, word ++ [byte], ?_, List.foldl_append⟩
  exact List.forall_mem_append.mpr ⟨bytes, List.forall_mem_singleton.mpr member⟩

theorem arrowsOf_mem_reachedSets (member : set ∈ (discovered prepared alphabet).1.order) :
    prepared.arrowsOf set ∈ prepared.reachedSets alphabet := by
  refine discovered_each (fun set => prepared.arrowsOf set ∈ prepared.reachedSets alphabet) ?_ ?_ set member
  · intro set start
    obtain ⟨place, listed, rfl⟩ := mem_starts.mp start
    rw [arrowsOf_singleton listed]
    exact start_mem_reachedSets listed
  · intro set _ reached ⟨byte, after⟩ listed
    obtain ⟨contained, follows, filled⟩ := mem_steps_iff.mp listed
    rw [follows] at filled ⊢
    exact follow_mem_reachedSets reached contained filled

/-- From a set that is found every word leads to another one, unless it leads to nothing. -/
theorem exists_discovered_foldl (member : set ∈ (discovered prepared alphabet).1.order)
    (bytes : ∀ byte ∈ word, alphabet.contains byte)
    (filled : (word.foldl prepared.follow (prepared.arrowsOf set)).Nonempty) :
    ∃ after ∈ (discovered prepared alphabet).1.order,
      prepared.arrowsOf after = word.foldl prepared.follow (prepared.arrowsOf set) := by
  induction word generalizing set with
  | nil => exact ⟨set, member, rfl⟩
  | cons byte rest ih =>
    obtain ⟨contained, bytes⟩ := List.forall_mem_cons.mp bytes
    have follows : prepared.arrowsOf (prepared.arrows.after prepared (prepared.arrows.heads set) byte) =
        prepared.follow (prepared.arrowsOf set) byte := arrowsOf_after
    rw [List.foldl_cons, ← follows] at filled ⊢
    -- What leads to something is not empty on the way, so there is a step for the byte.
    have step := mem_steps_iff.mpr ⟨contained, follows, nonempty_of_foldl_follow filled⟩
    exact ih (mem_discovered_of_step member step) bytes filled

theorem exists_discovered (reached : arrows ∈ prepared.reachedSets alphabet) :
    ∃ set ∈ (discovered prepared alphabet).1.order, prepared.arrowsOf set = arrows := by
  obtain ⟨filled, place, listed, word, bytes, rfl⟩ := reached
  rw [← arrowsOf_singleton listed] at filled ⊢
  exact exists_discovered_foldl (singleton_mem_discovered listed) bytes filled

/-- The search finds what can be reached, and nothing else. -/
theorem bijOn_arrowsOf (prepared : Automaton) (alphabet : Alphabet) :
    Set.BijOn prepared.arrowsOf {set | set ∈ (discovered prepared alphabet).1.order.toList}
      (prepared.reachedSets alphabet) := by
  refine ⟨?_, ?_, ?_⟩
  · intro set member
    exact arrowsOf_mem_reachedSets (Array.mem_toList_iff.mp member)
  · exact fun _ _ _ _ => arrowsOf_inj
  · intro arrows reached
    obtain ⟨set, member, same⟩ := exists_discovered reached
    exact ⟨set, Array.mem_toList_iff.mpr member, same⟩

theorem finite_reachedSets (prepared : Automaton) (alphabet : Alphabet) :
    (prepared.reachedSets alphabet).Finite := by
  rw [← (bijOn_arrowsOf prepared alphabet).image_eq]
  exact (List.finite_toSet _).image _

theorem length_rows_eq_ncard : (prepared.determinizeArrows alphabet compact).rows.length =
    (prepared.reachedSets alphabet).ncard := by
  have found := bijOn_arrowsOf prepared alphabet
  have distinct := (discovered prepared alphabet).1.nodup
  rw [← found.image_eq, found.injOn.ncard_image, ← List.coe_toFinset, Set.ncard_coe_finset,
    List.toFinset_card_of_nodup distinct, length_rows, Array.length_toList]

end search

end Automaton

namespace Row.Tabular

variable {table : List (Bool × List (UInt8 × Nat))} {sources : List Nat} {number : Nat} {id : StateId}

theorem isFork_place (tabular : Tabular table sources) (compact : Bool)
    (met : number ∈ (walk (ofTable false table) sources).toList) {entry : Bool × List (UInt8 × Nat)}
    (found : table[number]? = some entry) : (toAutomaton (ofTable compact table) sources).isFork
      ((order (ofTable compact table) sources).place number) := by
  have inside := ((tabular.mem_walk_iff compact).mp met).1
  rw [toAutomaton_eq_select, Automaton.select_isFork (tabular.covers compact) inside]
  exact raw_isFork (getElem?_ofTable found)

theorem exists_of_isFork (tabular : Tabular table sources) (compact : Bool)
    (fork : (toAutomaton (ofTable compact table) sources).isFork id) :
    ∃ number entry, table[number]? = some entry ∧ (order (ofTable compact table) sources).place number = id := by
  obtain ⟨epsilon, other⟩ := Automaton.isFork_iff.mp fork
  have listed : id ∈ (toAutomaton (ofTable compact table) sources).epsilons :=
    List.mem_filter.mpr ⟨List.mem_range.mpr (Automaton.lt_of_isEpsilon epsilon), epsilon⟩
  rw [tabular.epsilons] at listed
  obtain ⟨number, met, rfl⟩ := List.mem_map.mp listed
  cases tabular.cases_walk met with
  | inl entry =>
    obtain ⟨entry, found⟩ := entry
    exact ⟨number, entry, found, rfl⟩
  | inr accepts =>
    subst accepts
    exact absurd (accept_ofTable table sources compact).symm other

end Row.Tabular

namespace Automaton

variable {prepared : Automaton} {alphabet : Alphabet} {compact : Bool} {set first second : ArrowSet prepared}
  {id : StateId} {byte : UInt8}

section forks

def numbering (prepared : Automaton) (alphabet : Alphabet) (compact : Bool) : KeySet :=
  Row.order (Row.ofTable compact (table prepared alphabet))
    ((prepared.arrows.starts prepared).map (number prepared alphabet))

def forkOf (prepared : Automaton) (alphabet : Alphabet) (compact : Bool) (set : ArrowSet prepared) : StateId :=
  (numbering prepared alphabet compact).place (number prepared alphabet set)

/-- The arrows of the set whose fork it is. -/
def setAt (prepared : Automaton) (alphabet : Alphabet) (compact : Bool) (id : StateId) : Set Arrow :=
  {arrow | ∃ set ∈ (discovered prepared alphabet).1.order,
    forkOf prepared alphabet compact set = id ∧ arrow ∈ prepared.arrowsOf set}

theorem determinizeArrows_toAutomaton : (prepared.determinizeArrows alphabet compact).automaton =
    Row.toAutomaton (Row.ofTable compact (table prepared alphabet))
      ((prepared.arrows.starts prepared).map (number prepared alphabet)) := by
  rw [determinizeArrows_automaton, determinizeArrows_table]

theorem getElem?_table (member : set ∈ (discovered prepared alphabet).1.order) :
    (table prepared alphabet)[number prepared alphabet set]? = some (prepared.arrows.accepting prepared set,
      (prepared.arrows.steps prepared alphabet set).map
        fun (byte, after) => (byte, number prepared alphabet after)) := by
  rw [table, List.getElem?_map, Array.getElem?_toList, getElem?_number member, Option.map_some]

theorem number_inj_of_mem (left : first ∈ (discovered prepared alphabet).1.order)
    (right : second ∈ (discovered prepared alphabet).1.order)
    (same : number prepared alphabet first = number prepared alphabet second) : first = second := by
  have listed := getElem?_number left
  rw [same, getElem?_number right] at listed
  exact (Option.some.inj listed).symm

theorem number_mem_walk (member : set ∈ (discovered prepared alphabet).1.order) :
    number prepared alphabet set ∈ (Row.walk (Row.ofTable false (table prepared alphabet))
      ((prepared.arrows.starts prepared).map (number prepared alphabet))).toList := by
  refine discovered_each (fun set => number prepared alphabet set ∈ (Row.walk
    (Row.ofTable false (table prepared alphabet))
    ((prepared.arrows.starts prepared).map (number prepared alphabet))).toList) ?_ ?_ set member
  · intro set start
    refine KeySet.mem_toList_insert.mpr (.inl ?_)
    exact ((Row.graph _).mem_explore rfl).mpr ⟨_, List.mem_map_of_mem start, .refl⟩
  · intro set known met step listed
    exact Row.Tabular.mem_walk_of_step met (getElem?_table known)
      (List.mem_map_of_mem (f := fun step => (step.1, number prepared alphabet step.2)) listed)

theorem forkOf_inj (left : first ∈ (discovered prepared alphabet).1.order)
    (right : second ∈ (discovered prepared alphabet).1.order)
    (same : forkOf prepared alphabet compact first = forkOf prepared alphabet compact second) :
    first = second := by
  have tabular := tabular_table prepared alphabet
  have one := ((tabular.mem_walk_iff compact).mp (number_mem_walk left)).1
  have other := ((tabular.mem_walk_iff compact).mp (number_mem_walk right)).1
  exact number_inj_of_mem left right (KeySet.place_inj one other same)

theorem setAt_forkOf (member : set ∈ (discovered prepared alphabet).1.order) :
    setAt prepared alphabet compact (forkOf prepared alphabet compact set) = prepared.arrowsOf set := by
  ext arrow
  constructor
  · intro ⟨other, known, same, inside⟩
    exact forkOf_inj known member same ▸ inside
  · exact fun inside => ⟨set, member, rfl, inside⟩

theorem isFork_iff_exists : (prepared.determinizeArrows alphabet compact).automaton.isFork id ↔
    ∃ set ∈ (discovered prepared alphabet).1.order, forkOf prepared alphabet compact set = id := by
  have tabular := tabular_table prepared alphabet
  rw [determinizeArrows_toAutomaton]
  constructor
  · intro fork
    obtain ⟨index, entry, found, placed⟩ := tabular.exists_of_isFork compact fork
    rw [table, List.getElem?_map, Array.getElem?_toList] at found
    obtain ⟨set, listed, _⟩ := Option.map_eq_some_iff.mp found
    refine ⟨set, Array.mem_of_getElem? listed, ?_⟩
    rwa [forkOf, number_eq listed]
  · intro placed
    obtain ⟨set, member, rfl⟩ := placed
    exact tabular.isFork_place compact (number_mem_walk member) (getElem?_table member)

theorem moves_forkOf_iff (member : set ∈ (discovered prepared alphabet).1.order) :
    (prepared.determinizeArrows alphabet compact).automaton.Moves (forkOf prepared alphabet compact set) byte id ↔
      ∃ after, (byte, after) ∈ prepared.arrows.steps prepared alphabet set ∧
        forkOf prepared alphabet compact after = id := by
  rw [determinizeArrows_toAutomaton]
  refine ((tabular_table prepared alphabet).moves_iff compact (number_mem_walk member)).trans ⟨?_, ?_⟩
  · intro ⟨entry, found, target, step, placed⟩
    cases (getElem?_table member).symm.trans found
    obtain ⟨⟨_, after⟩, listed, same⟩ := List.mem_map.mp step
    cases same
    exact ⟨after, listed, placed⟩
  · intro ⟨after, listed, placed⟩
    exact ⟨_, getElem?_table member, number prepared alphabet after,
      List.mem_map_of_mem (f := fun step => (step.1, number prepared alphabet step.2)) listed, placed⟩

theorem accepting_forkOf_iff (member : set ∈ (discovered prepared alphabet).1.order) :
    (prepared.determinizeArrows alphabet compact).automaton.accept ∈
        (prepared.determinizeArrows alphabet compact).automaton.next (forkOf prepared alphabet compact set) ↔
      prepared.arrows.accepting prepared set := by
  rw [determinizeArrows_toAutomaton]
  refine ((tabular_table prepared alphabet).accepting_iff compact (number_mem_walk member)).trans ⟨?_, ?_⟩
  · intro ⟨entry, found, accepts⟩
    cases (getElem?_table member).symm.trans found
    exact accepts
  · exact fun accepts => ⟨_, getElem?_table member, accepts⟩

theorem sources_determinizeArrows : (prepared.determinizeArrows alphabet compact).automaton.sources =
    (prepared.arrows.starts prepared).map (forkOf prepared alphabet compact) := by
  have distinct : ((prepared.arrows.starts prepared).map (forkOf prepared alphabet compact)).Nodup := by
    rw [Arrows.starts, List.map_map]
    refine List.Nodup.map_on ?_ List.nodup_range
    intro first left second right same
    have one := List.mem_range.mp left
    have other := List.mem_range.mp right
    have sets := congrArg prepared.arrowsOf
      (forkOf_inj (singleton_mem_discovered one) (singleton_mem_discovered other) same)
    rw [arrowsOf_singleton one, arrowsOf_singleton other] at sets
    exact Arrow.entrance.inj (Set.singleton_injective sets)
  rw [determinizeArrows_toAutomaton, Row.toAutomaton_eq_select, select]
  change ((List.map _ _).map (numbering prepared alphabet compact).place).eraseDups = _
  rw [List.map_map]
  exact eraseDups_of_nodup distinct

theorem Moves.path {automaton : Automaton} {start after : StateId} (fork : automaton.isFork start)
    (moves : automaton.Moves start byte after) : automaton.Path start [byte] after := by
  obtain ⟨leaf, edge, consumes, follows⟩ := moves
  exact .jump (isFork_iff.mp fork).1 edge (.consume consumes follows (.here after))

theorem exists_reaches_forkOf (member : set ∈ (discovered prepared alphabet).1.order) :
    ∃ word : List UInt8, (∀ byte ∈ word, alphabet.contains byte) ∧
      (prepared.determinizeArrows alphabet compact).automaton.Reaches word
        (forkOf prepared alphabet compact set) := by
  refine discovered_each (fun set => ∃ word : List UInt8, (∀ byte ∈ word, alphabet.contains byte) ∧
    (prepared.determinizeArrows alphabet compact).automaton.Reaches word
      (forkOf prepared alphabet compact set)) ?_ ?_ set member
  · intro set start
    refine ⟨[], List.forall_mem_nil _, _, ?_, .here _⟩
    rw [sources_determinizeArrows]
    exact List.mem_map_of_mem start
  · intro set known ⟨word, bytes, source, listed, path⟩ ⟨byte, after⟩ step
    refine ⟨word ++ [byte], ?_, source, listed, path.append ?_⟩
    · exact List.forall_mem_append.mpr ⟨bytes, List.forall_mem_singleton.mpr (mem_steps.mp step).1⟩
    · have moves : (prepared.determinizeArrows alphabet compact).automaton.Moves
          (forkOf prepared alphabet compact set) byte (forkOf prepared alphabet compact after) :=
        (moves_forkOf_iff known).mpr ⟨after, step, rfl⟩
      exact moves.path (isFork_iff_exists.mpr ⟨set, known, rfl⟩)

end forks

theorem represents_determinizeArrows : Represents prepared alphabet
    (prepared.determinizeArrows alphabet compact).automaton (setAt prepared alphabet compact) := by
  refine ⟨⟨?_, ?_, ?_⟩, ?_, ?_, ?_, ?_⟩
  · intro id fork
    obtain ⟨set, member, rfl⟩ := isFork_iff_exists.mp fork
    rw [setAt_forkOf member]
    exact arrowsOf_mem_reachedSets member
  · intro left leftFork right rightFork same
    obtain ⟨first, known, rfl⟩ := isFork_iff_exists.mp leftFork
    obtain ⟨second, also, rfl⟩ := isFork_iff_exists.mp rightFork
    rw [setAt_forkOf known, setAt_forkOf also] at same
    rw [arrowsOf_inj same]
  · intro arrows reached
    obtain ⟨set, member, same⟩ := exists_discovered reached
    exact ⟨_, isFork_iff_exists.mpr ⟨set, member, rfl⟩, (setAt_forkOf member).trans same⟩
  · rw [sources_determinizeArrows, Arrows.starts, List.map_map, List.map_map]
    refine List.map_congr_left fun place listed => ?_
    have inside := List.mem_range.mp listed
    exact (setAt_forkOf (singleton_mem_discovered inside)).trans (arrowsOf_singleton inside)
  · intro id fork byte after
    obtain ⟨set, member, rfl⟩ := isFork_iff_exists.mp fork
    rw [moves_forkOf_iff member, setAt_forkOf member]
    constructor
    · intro stepped
      obtain ⟨next, step, rfl⟩ := stepped
      have known := mem_discovered_of_step member step
      obtain ⟨contained, follows, _⟩ := mem_steps_iff.mp step
      exact ⟨isFork_iff_exists.mpr ⟨next, known, rfl⟩, contained, (setAt_forkOf known).trans follows⟩
    · -- A fork stands for a set that is not empty, which is all that a step needs besides.
      intro conditions
      obtain ⟨afterFork, contained, follows⟩ := conditions
      obtain ⟨next, known, rfl⟩ := isFork_iff_exists.mp afterFork
      rw [setAt_forkOf known] at follows
      have filled := (arrowsOf_mem_reachedSets known).1
      exact ⟨next, mem_steps_iff.mpr ⟨contained, follows, filled⟩, rfl⟩
  · intro id fork
    obtain ⟨set, member, rfl⟩ := isFork_iff_exists.mp fork
    rw [accepting_forkOf_iff member, setAt_forkOf member]
    exact accepting_iff
  · intro id fork
    obtain ⟨set, member, rfl⟩ := isFork_iff_exists.mp fork
    exact exists_reaches_forkOf member

/-- The search of the subset construction ends. There is one row, and one fork in the automaton, for each set
of arrows to which a word over the alphabet leads from an entrance; a byte leads from fork to fork as it leads
from set to set, and each fork is reached. -/
theorem represents_determinize {automaton : Automaton} (closed : automaton.Closed)
    (distinct : automaton.sources.Nodup) (alphabet : Alphabet) (compact : Bool) :
    ∃ result, automaton.determinize alphabet compact = .ok result ∧ automaton.prepare = .ok result.prepared ∧
      (result.prepared.reachedSets alphabet).Finite ∧
      result.rows.length = (result.prepared.reachedSets alphabet).ncard ∧
      ∃ sets, Represents result.prepared alphabet result.automaton sets := by
  obtain ⟨result, succeeds, _⟩ := determinize_spec closed distinct alphabet compact
  obtain ⟨prepared, prepares, rfl⟩ := determinize_eq_ok_iff.mp succeeds
  exact ⟨_, succeeds, prepares, finite_reachedSets prepared alphabet, length_rows_eq_ncard,
    setAt prepared alphabet compact, represents_determinizeArrows⟩

theorem represents_determinize_tangled : tangled.Closed ∧ tangled.sources.Nodup ∧
    ∃ result, tangled.determinize (.ofBytes [0x61]) true = .ok result ∧
      tangled.prepare = .ok result.prepared ∧
      (result.prepared.reachedSets (.ofBytes [0x61])).Finite ∧
      result.rows.length = (result.prepared.reachedSets (.ofBytes [0x61])).ncard ∧
      ∃ sets, Represents result.prepared (.ofBytes [0x61]) result.automaton sets :=
  ⟨by decide, by decide, represents_determinize (by decide) (by decide) (.ofBytes [0x61]) true⟩

end Automaton

end ByteRegex
