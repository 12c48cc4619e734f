import ByteRegex.Proofs.Arrows
import ByteRegex.Proofs.Optimization
import ByteRegex.Proofs.SubsetSearch
import ByteRegex.Proofs.Tables
import ByteRegex.Subset.Determinize

/-! The subset construction keeps the words over its alphabet. A set of arrows accepts what some
state that it points to accepts; its row in the table says the same of its number. -/

namespace ByteRegex.Automaton

theorem EpsilonDead.path_nil {automaton : Automaton} (dead : automaton.EpsilonDead) {id final : StateId} :
    automaton.Path id [] final ↔ id = final := by
  constructor
  · intro path
    rcases path_iff.mp path with ⟨_, here⟩ | ⟨epsilon, after, edge, _⟩ | ⟨_, _, impossible, _⟩
    · exact here
    · simp [dead id epsilon] at edge
    · cases impossible
  · rintro rfl
    exact .here id

theorem EpsilonDead.path_cons {automaton : Automaton} (dead : automaton.EpsilonDead) {id final : StateId}
    {byte : UInt8} {word : List UInt8} : automaton.Path id (byte :: word) final ↔
      automaton.reads id byte ∧ ∃ after ∈ automaton.next id, automaton.Path after word final := by
  constructor
  · intro path
    rcases path_iff.mp path with ⟨impossible, _⟩ | ⟨epsilon, after, edge, _⟩ |
      ⟨first, rest, whole, consumes, next⟩
    · cases impossible
    · simp [dead id epsilon] at edge
    · obtain ⟨rfl, rfl⟩ := List.cons.inj whole
      exact ⟨consumes, next⟩
  · intro ⟨consumes, after, edge, path⟩
    exact path.consume consumes edge

variable {prepared : Automaton} {alphabet : Alphabet} {compact : Bool}

/-- The sets that come up, in the order of their numbers, and their steps. -/
def discovered (prepared : Automaton) (alphabet : Alphabet) :
    Subsets prepared.arrows.width ×
      Array (List (UInt8 × ArrowSet prepared)) :=
  Subsets.followUp (prepared.arrows.steps prepared alphabet)
    ((prepared.arrows.starts prepared).foldl Subsets.insert .empty) #[]

def number (prepared : Automaton) (alphabet : Alphabet)
    (set : ArrowSet prepared) : Nat :=
  ((discovered prepared alphabet).1.find? set).getD 0

theorem determinizeArrows_rows : (prepared.determinizeArrows alphabet compact).rows =
    ((discovered prepared alphabet).1.order.toList.zip (discovered prepared alphabet).2.toList).map
      fun (set, steps) => .ofSteps compact (prepared.arrows.accepting prepared set)
        (steps.map fun (byte, after) => (byte, number prepared alphabet after)) := rfl

theorem determinizeArrows_automaton : (prepared.determinizeArrows alphabet compact).automaton =
    Row.toAutomaton (prepared.determinizeArrows alphabet compact).rows
      ((prepared.arrows.starts prepared).map (number prepared alphabet)) := rfl

theorem discovered_spec (prepared : Automaton) (alphabet : Alphabet) :
    (∀ set ∈ prepared.arrows.starts prepared, set ∈ (discovered prepared alphabet).1.order) ∧
    Subsets.Followed (prepared.arrows.steps prepared alphabet)
      (discovered prepared alphabet).1 (discovered prepared alphabet).2 ∧
    (discovered prepared alphabet).2.size = (discovered prepared alphabet).1.order.size := by
  obtain ⟨grows, followed, complete⟩ := Subsets.followUp_spec (Subsets.followed_nothing
    (prepared.arrows.steps prepared alphabet)
    ((prepared.arrows.starts prepared).foldl Subsets.insert .empty))
  exact ⟨fun set start => grows.mem ((Subsets.insertAll_extends id _ .empty).2 set start),
    followed, complete⟩

theorem number_eq {set : ArrowSet prepared} {index : Nat}
    (listed : (discovered prepared alphabet).1.order[index]? = some set) :
    number prepared alphabet set = index := by
  rw [number, Subsets.find?_eq_some.mpr listed, Option.getD_some]

theorem getElem?_number {set : ArrowSet prepared}
    (member : set ∈ (discovered prepared alphabet).1.order) :
    (discovered prepared alphabet).1.order[number prepared alphabet set]? = some set := by
  obtain ⟨index, listed⟩ := Array.mem_iff_getElem?.mp member
  rwa [number_eq listed]

theorem length_rows : (prepared.determinizeArrows alphabet compact).rows.length =
    (discovered prepared alphabet).1.order.size := by
  obtain ⟨_, _, complete⟩ := discovered_spec prepared alphabet
  rw [determinizeArrows_rows, List.length_map, List.length_zip, Array.length_toList, Array.length_toList, complete,
    Nat.min_self]

theorem getElem?_rows {set : ArrowSet prepared} {index : Nat}
    (listed : (discovered prepared alphabet).1.order[index]? = some set) :
    (prepared.determinizeArrows alphabet compact).rows[index]? =
      some (.ofSteps compact (prepared.arrows.accepting prepared set)
        ((prepared.arrows.steps prepared alphabet set).map
          fun (byte, after) => (byte, number prepared alphabet after))) := by
  obtain ⟨_, followed, complete⟩ := discovered_spec prepared alphabet
  have inside := (Array.getElem?_eq_some_iff.mp listed).1
  have row := followed.row index set (complete ▸ inside) listed
  rw [← Array.getElem?_toList] at listed row
  have zipped : ((discovered prepared alphabet).1.order.toList.zip
      (discovered prepared alphabet).2.toList)[index]? =
        some (set, prepared.arrows.steps prepared alphabet set) :=
    List.getElem?_zip_eq_some.mpr ⟨listed, row⟩
  rw [determinizeArrows_rows, List.getElem?_map, zipped, Option.map_some]

theorem mem_steps {set after : ArrowSet prepared} {byte : UInt8} :
    (byte, after) ∈ prepared.arrows.steps prepared alphabet set ↔
      alphabet.contains byte ∧ after = prepared.arrows.after prepared
        (prepared.arrows.heads set) byte ∧ ¬ after.isEmpty := by
  rw [Arrows.steps, List.mem_filter, List.mem_map]
  constructor
  · intro ⟨⟨other, member, same⟩, filled⟩
    obtain ⟨rfl, rfl⟩ := Prod.mk.inj same
    exact ⟨Alphabet.mem_toList.mp member, rfl, by simpa using filled⟩
  · intro ⟨member, same, filled⟩
    exact ⟨⟨byte, Alphabet.mem_toList.mpr member, by rw [same]⟩, by simpa using filled⟩

theorem bounded_rows : Row.Bounded (prepared.determinizeArrows alphabet compact).rows := by
  obtain ⟨_, followed, complete⟩ := discovered_spec prepared alphabet
  intro row member edge listed
  obtain ⟨index, found⟩ := List.mem_iff_getElem?.mp member
  have inside := (List.getElem?_eq_some_iff.mp found).1
  rw [length_rows] at inside ⊢
  have set := Array.getElem?_eq_getElem inside
  obtain rfl := Option.some.inj (found.symm.trans (getElem?_rows set))
  obtain ⟨byte, step⟩ := Row.edges_ofSteps edge listed
  obtain ⟨⟨_, after⟩, step, same⟩ := List.mem_map.mp step
  have known := followed.known index _ (complete ▸ inside) set _ step
  rw [← (Prod.mk.inj same).2]
  exact (Array.getElem?_eq_some_iff.mp (getElem?_number known)).1

/-- Reading the table from the number of a set is running from one of its heads, and never
leaving the alphabet. -/
private theorem table_accepts (dead : prepared.EpsilonDead) {word : List UInt8}
    {set : ArrowSet prepared} {index : Nat}
    (listed : (discovered prepared alphabet).1.order[index]? = some set) :
    Row.Accepts (prepared.determinizeArrows alphabet compact).rows index word ↔
      (∃ head ∈ prepared.arrows.heads set, prepared.Path head word prepared.accept) ∧
      ∀ byte ∈ word, alphabet.contains byte := by
  obtain ⟨_, followed, complete⟩ := discovered_spec prepared alphabet
  induction word generalizing set index with
  | nil =>
    simp only [Row.Accepts, getElem?_rows listed, Option.some.injEq, exists_eq_left', dead.path_nil]
    simp [Row.ofSteps, Arrows.accepting]
  | cons byte rest ih =>
    have inside := (Array.getElem?_eq_some_iff.mp listed).1
    have known {after : ArrowSet prepared}
        (step : (byte, after) ∈ prepared.arrows.steps prepared alphabet set) :=
      ih (getElem?_number (followed.known index set (complete ▸ inside) listed _ step))
    constructor
    · -- A step of the table comes from some step of the sets, and that from a transition.
      intro accepted
      obtain ⟨row, same, edge, member, contains, accepts⟩ := accepted
      obtain rfl := Option.some.inj ((getElem?_rows listed).symm.trans same)
      obtain ⟨⟨_, after⟩, step, same⟩ :=
        List.mem_map.mp (Row.mem_edges_ofSteps.mp ⟨edge, member, contains, rfl⟩)
      obtain ⟨rfl, numbered⟩ := Prod.mk.inj same
      rw [← numbered] at accepts
      obtain ⟨⟨id, pointed, path⟩, bytes⟩ := (known step).mp accepts
      obtain ⟨member, rfl, _⟩ := mem_steps.mp step
      obtain ⟨head, pointed, consumes, edge⟩ := Arrows.mem_heads_after.mp pointed
      exact ⟨⟨head, pointed, path.consume consumes edge⟩, List.forall_mem_cons.mpr ⟨member, bytes⟩⟩
    · intro accepted
      obtain ⟨⟨head, pointed, path⟩, bytes⟩ := accepted
      obtain ⟨member, bytes⟩ := List.forall_mem_cons.mp bytes
      obtain ⟨consumes, id, edge, path⟩ := dead.path_cons.mp path
      have pointed := Arrows.mem_heads_after.mpr ⟨head, pointed, consumes, edge⟩
      -- The set behind the byte has an arrow at least, so the step was not dropped.
      obtain ⟨arrow, filled, _⟩ := Arrows.mem_heads.mp pointed
      have step := mem_steps.mpr ⟨member, rfl, fun empty => IndexSet.isEmpty_iff.mp empty arrow filled⟩
      have numbered := List.mem_map_of_mem
        (f := fun step => (step.1, number prepared alphabet step.2)) step
      obtain ⟨edge, leaves, contains, leads⟩ := Row.mem_edges_ofSteps.mpr numbered
      refine ⟨_, getElem?_rows listed, edge, leaves, contains, ?_⟩
      rw [leads]
      exact (known step).mpr ⟨⟨id, pointed, path⟩, bytes⟩

theorem mem_starts {set : ArrowSet prepared} : set ∈ prepared.arrows.starts prepared ↔
    ∃ index < prepared.sources.length, set = .singleton index := by
  simp [Arrows.starts, eq_comm]

theorem numbered_starts : ∀ source ∈ (prepared.arrows.starts prepared).map (number prepared alphabet),
    source < (prepared.determinizeArrows alphabet compact).rows.length := by
  intro source listed
  obtain ⟨set, start, rfl⟩ := List.mem_map.mp listed
  have known := (discovered_spec prepared alphabet).1 set start
  rw [length_rows]
  exact (Array.getElem?_eq_some_iff.mp (getElem?_number known)).1

theorem accepts_determinizeArrows (dead : prepared.EpsilonDead) {word : List UInt8} :
    (prepared.determinizeArrows alphabet compact).automaton.Accepts word ↔
      prepared.Accepts word ∧ ∀ byte ∈ word, alphabet.contains byte := by
  have reading {index : Nat} (inside : index < prepared.sources.length) :
      Row.Accepts (prepared.determinizeArrows alphabet compact).rows
        (number prepared alphabet (.singleton index)) word ↔
      prepared.Path prepared.sources[index] word prepared.accept ∧
        ∀ byte ∈ word, alphabet.contains byte := by
    have known := (discovered_spec prepared alphabet).1 _ (mem_starts.mpr ⟨index, inside, rfl⟩)
    rw [table_accepts dead (getElem?_number known)]
    simp only [Arrows.heads_singleton (List.getElem?_eq_getElem inside), exists_eq_left]
  rw [determinizeArrows_automaton, Row.accepts_toAutomaton bounded_rows numbered_starts]
  constructor
  · intro ⟨source, listed, accepts⟩
    obtain ⟨set, start, rfl⟩ := List.mem_map.mp listed
    obtain ⟨index, inside, rfl⟩ := mem_starts.mp start
    obtain ⟨path, bytes⟩ := (reading inside).mp accepts
    exact ⟨⟨_, List.getElem_mem inside, path⟩, bytes⟩
  · intro ⟨⟨source, listed, path⟩, bytes⟩
    obtain ⟨index, inside, rfl⟩ := List.mem_iff_getElem.mp listed
    exact ⟨_, List.mem_map_of_mem (mem_starts.mpr ⟨index, inside, rfl⟩), (reading inside).mpr ⟨path, bytes⟩⟩

theorem closed_determinizeArrows :
    (prepared.determinizeArrows alphabet compact).automaton.Closed := by
  rw [determinizeArrows_automaton]
  exact Row.closed_toAutomaton bounded_rows numbered_starts

theorem isEpsilonFree_iff {automaton : Automaton} : automaton.isEpsilonFree ↔
    ∀ id, automaton.isEpsilon id → id = automaton.accept := by
  constructor
  · intro free id epsilon
    have alone := List.all_eq_true.mp free id (List.mem_range.mpr (lt_of_isEpsilon epsilon))
    simpa [epsilon] using alone
  · intro alone
    refine List.all_eq_true.mpr fun id _ => ?_
    by_cases epsilon : automaton.isEpsilon id
    · simp [alone id epsilon]
    · simp [epsilon]

theorem epsilonDead_of_isEpsilonFree {automaton : Automaton} (closed : automaton.Closed)
    (free : automaton.isEpsilonFree) : automaton.EpsilonDead := by
  intro id epsilon
  rw [isEpsilonFree_iff.mp free id epsilon, closed.accept_next]

/-- What the subset construction does to any automaton whose numbers name states, unless the optimizer
is left with a source that was optimized out. -/
theorem determinize_of_settled {automaton : Automaton} (closed : automaton.Closed)
    (settled : automaton.Settled) (alphabet : Alphabet) (compact : Bool) :
    ∃ result, automaton.determinize alphabet compact = .ok result ∧ result.automaton.Closed ∧
      ∀ word, result.automaton.Accepts word ↔
        automaton.Accepts word ∧ ∀ byte ∈ word, alphabet.contains byte := by
  by_cases free : automaton.isEpsilonFree
  · refine ⟨automaton.determinizeArrows alphabet compact, by rw [determinize, if_pos free]; rfl,
      closed_determinizeArrows, ?_⟩
    exact fun word => accepts_determinizeArrows (epsilonDead_of_isEpsilonFree closed free)
  · obtain ⟨optimized, succeeds, _, _, dead, same⟩ := optimize_of_settled closed settled
    refine ⟨optimized.determinizeArrows alphabet compact,
      by rw [determinize, if_neg free, succeeds]; rfl, closed_determinizeArrows, ?_⟩
    intro word
    rw [accepts_determinizeArrows dead, same]

theorem determinize_spec {automaton : Automaton} (closed : automaton.Closed)
    (distinct : automaton.sources.Nodup) (alphabet : Alphabet) (compact : Bool) :
    ∃ result, automaton.determinize alphabet compact = .ok result ∧ result.automaton.Closed ∧
      ∀ word, result.automaton.Accepts word ↔
        automaton.Accepts word ∧ ∀ byte ∈ word, alphabet.contains byte :=
  determinize_of_settled closed (settled_of_nodup distinct) alphabet compact

/-- A source that the optimizer stumbles over is an epsilon state, so the subset construction needs the
optimizer. -/
theorem determinize_of_unsettled {automaton : Automaton} (closed : automaton.Closed)
    (unsettled : ¬ automaton.Settled) (alphabet : Alphabet) (compact : Bool) :
    automaton.determinize alphabet compact = .error .danglingSource := by
  have forking : ¬ automaton.isEpsilonFree := by
    intro free
    apply unsettled
    intro id replaced
    obtain ⟨_, epsilon, leading⟩ := isReplaced_iff.mp replaced
    obtain ⟨stop, edge⟩ := List.exists_mem_of_ne_nil _ leading
    obtain ⟨_, after, edge, _⟩ := mem_shortcutGraph_next.mp edge
    rw [epsilonDead_of_isEpsilonFree closed free id epsilon] at edge
    cases edge
  rw [determinize, if_neg forking, (optimize_eq_error_iff closed).mpr ⟨rfl, unsettled⟩]
  rfl

theorem determinizeArrows_sources (listed : prepared.sources ≠ []) :
    (prepared.determinizeArrows alphabet compact).automaton.sources.Nodup ∧
      (prepared.determinizeArrows alphabet compact).automaton.sources ≠ [] := by
  rw [determinizeArrows_automaton, Row.toAutomaton, ofArena_eq_select]
  refine ⟨nodup_select_sources, select_sources_ne_nil ?_⟩
  simpa [Arrows.starts] using listed

/-- What is made deterministic in the end. -/
def prepare (automaton : Automaton) : Except Fault Automaton :=
  if automaton.isEpsilonFree then .ok automaton else automaton.optimize

theorem determinize_eq_ok_iff {automaton : Automaton} {result : Determinization} :
    automaton.determinize alphabet compact = .ok result ↔
      ∃ prepared, automaton.prepare = .ok prepared ∧ prepared.determinizeArrows alphabet compact = result := by
  have prepares : automaton.determinize alphabet compact =
      automaton.prepare.map (·.determinizeArrows alphabet compact) := by
    rw [determinize, prepare]
    split
    · rfl
    · cases automaton.optimize <;> rfl
  rw [prepares]
  cases automaton.prepare <;> simp [Except.map]

theorem sources_prepare_ne_nil {automaton : Automaton} (prepares : automaton.prepare = .ok prepared)
    (listed : automaton.sources ≠ []) : prepared.sources ≠ [] := by
  rw [prepare] at prepares
  split at prepares
  · cases prepares
    exact listed
  · exact sources_optimize_ne_nil prepares listed

theorem sources_determinize {automaton : Automaton} {result : Determinization}
    (succeeds : automaton.determinize alphabet compact = .ok result) (listed : automaton.sources ≠ []) :
    result.automaton.sources.Nodup ∧ result.automaton.sources ≠ [] := by
  obtain ⟨prepared, prepares, rfl⟩ := determinize_eq_ok_iff.mp succeeds
  exact determinizeArrows_sources (sources_prepare_ne_nil prepares listed)

/-- The subset construction succeeds and keeps the words over the alphabet, whether or not bytes
share classes. -/
theorem accepts_determinize {automaton : Automaton} (closed : automaton.Closed)
    (distinct : automaton.sources.Nodup) (alphabet : Alphabet) (compact : Bool) :
    ∃ result, automaton.determinize alphabet compact = .ok result ∧
      ∀ word, result.automaton.Accepts word ↔
        automaton.Accepts word ∧ ∀ byte ∈ word, alphabet.contains byte := by
  obtain ⟨result, succeeds, _, same⟩ := determinize_spec closed distinct alphabet compact
  exact ⟨result, succeeds, same⟩

theorem accepts_determinize_tangled : tangled.Closed ∧ tangled.sources.Nodup ∧
    ∃ result, tangled.determinize (.ofBytes [0x61]) true = .ok result ∧
      ∀ word, result.automaton.Accepts word ↔
        tangled.Accepts word ∧ ∀ byte ∈ word, (Alphabet.ofBytes [0x61]).contains byte :=
  ⟨by decide, by decide, accepts_determinize (by decide) (by decide) (.ofBytes [0x61]) true⟩

end ByteRegex.Automaton
