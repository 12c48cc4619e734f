import ByteRegex.Proofs.Selection
import ByteRegex.Proofs.Shortening
import Mathlib.Data.List.Basic

/-! Removal of epsilon states keeps the language. The result is a selection from the automaton with
shortcuts: what the shortcuts reach, but for the sources that gave way to what is behind them. Every
number that is left is looked up among those of the states that are kept, and one lookup can fail: that
of a source which gave way at its first listing and is listed again. -/

namespace ByteRegex.Automaton

/-- The states that outlast the epsilon states, in ascending order. -/
def kept (automaton : Automaton) : List StateId :=
  (List.range automaton.size).filter fun id =>
    ((automaton.shortcutGraph.explore (.withCapacity automaton.size) automaton.sources).contains id ||
      id == automaton.accept) && !automaton.isReplaced automaton.shortcutGraph id

/-- A source that gives way to what is behind it is listed once. -/
def Settled (automaton : Automaton) : Prop :=
  ∀ id, automaton.isReplaced automaton.shortcutGraph id → automaton.sources.count id ≤ 1

/-- Nothing is left that is followed for free. -/
def EpsilonDead (automaton : Automaton) : Prop :=
  ∀ id, automaton.isEpsilon id → automaton.next id = []

variable {automaton : Automaton} {id : StateId}

theorem mem_kept : id ∈ automaton.kept ↔ id < automaton.size ∧
    ((∃ source ∈ automaton.sources, automaton.shortcutGraph.Leads source id) ∨ id = automaton.accept) ∧
    ¬ automaton.isReplaced automaton.shortcutGraph id := by
  simp only [kept, List.mem_filter, List.mem_range, Bool.and_eq_true, Bool.or_eq_true, beq_iff_eq,
    Bool.not_eq_true', Bool.not_eq_true]
  rw [automaton.shortcutGraph.contains_explore rfl]

theorem nodup_kept (automaton : Automaton) : automaton.kept.Nodup :=
  List.nodup_range.filter _

theorem settled_of_nodup (distinct : automaton.sources.Nodup) : automaton.Settled :=
  fun id _ => List.nodup_iff_count.mp distinct id

instance : Decidable automaton.Settled :=
  decidable_of_iff
    (∀ id ∈ automaton.sources, automaton.isReplaced automaton.shortcutGraph id → automaton.sources.count id ≤ 1)
    ⟨fun each id replaced => each id (isReplaced_iff.mp replaced).1 replaced, fun settled id _ => settled id⟩

section remap

/-- The states that are kept, under their old numbers. -/
def remainder (automaton : Automaton) : List State :=
  automaton.kept.filterMap fun id =>
    automaton.states[id]?.map fun state => { state with next := automaton.collected id }

/-- The sources that are left, under their old numbers. -/
def beginnings (automaton : Automaton) : List StateId :=
  replaceSources (automaton.isReplaced automaton.shortcutGraph) automaton.collected automaton.sources

/-- No old number is in use but those of the states that are kept. -/
structure Remaining (automaton : Automaton) : Prop where
  next : ∀ state ∈ automaton.remainder, ∀ after ∈ state.next, after ∈ automaton.kept
  source : ∀ id ∈ automaton.beginnings, id ∈ automaton.kept
  accept : automaton.accept ∈ automaton.kept

instance : Decidable automaton.Remaining :=
  decidable_of_iff
    ((∀ state ∈ automaton.remainder, ∀ after ∈ state.next, after ∈ automaton.kept) ∧
      (∀ id ∈ automaton.beginnings, id ∈ automaton.kept) ∧ automaton.accept ∈ automaton.kept)
    ⟨fun ⟨next, source, accept⟩ => ⟨next, source, accept⟩,
      fun ⟨next, source, accept⟩ => ⟨next, source, accept⟩⟩

def renumbered (automaton : Automaton) : Automaton where
  states := (automaton.remainder.map fun state =>
    { state with next := state.next.map (KeySet.ofList automaton.kept).place }).toArray
  sources := (automaton.beginnings.map (KeySet.ofList automaton.kept).place).eraseDups
  accept := (KeySet.ofList automaton.kept).place automaton.accept

private theorem mapM_eq_ite {α β ε : Type} {f : α → Except ε β} {possible : α → Prop}
    [DecidablePred possible] {g : α → β} {fault : ε}
    (each : ∀ item, f item = if possible item then .ok (g item) else .error fault) (items : List α) :
    items.mapM f = if ∀ item ∈ items, possible item then .ok (items.map g) else .error fault := by
  induction items with
  | nil => rfl
  | cons first rest ih =>
    rw [List.mapM_cons, each, ih]
    simp only [List.forall_mem_cons]
    by_cases here : possible first
    · rw [if_pos here]
      by_cases later : ∀ item ∈ rest, possible item
      · rw [if_pos later, if_pos ⟨here, later⟩]
        rfl
      · have some : ¬ (possible first ∧ ∀ item ∈ rest, possible item) := fun both => later both.2
        rw [if_neg later, if_neg some]
        rfl
    · have some : ¬ (possible first ∧ ∀ item ∈ rest, possible item) := fun both => here both.1
      rw [if_neg here, if_neg some]
      rfl

theorem remap_newNumbers (automaton : Automaton) (id : StateId) :
    remap (newNumbers automaton.size automaton.kept) id =
      if id ∈ automaton.kept then .ok ((KeySet.ofList automaton.kept).place id)
      else .error .danglingSource := by
  have table : newNumbers automaton.size automaton.kept =
    KeySet.fill some automaton.kept 0 (.replicate automaton.size none) := rfl
  rw [remap, table, Array.getD_eq_getD_getElem?]
  by_cases inside : id ∈ automaton.kept
  · obtain ⟨place, found⟩ := List.mem_iff_getElem?.mp inside
    have placed : (KeySet.ofList automaton.kept).place id = place := by
      apply KeySet.place_eq
      rwa [KeySet.toList_ofList automaton.nodup_kept]
    have below : id < (Array.replicate automaton.size (none : Option StateId)).size := by
      rw [Array.size_replicate]
      exact (mem_kept.mp inside).1
    rw [KeySet.fill_of_getElem? some automaton.nodup_kept found below, if_pos inside, placed, Nat.zero_add]
    rfl
  · have absent : (Array.replicate automaton.size (none : Option StateId))[id]?.getD none = none := by
      rw [Array.getElem?_replicate]
      split <;> rfl
    rw [KeySet.fill_of_not_mem some inside, absent, if_neg inside]

private theorem remapState_newNumbers (automaton : Automaton) (state : State) :
    remapState (newNumbers automaton.size automaton.kept) state =
      if ∀ after ∈ state.next, after ∈ automaton.kept then
        .ok { state with next := state.next.map (KeySet.ofList automaton.kept).place }
      else .error .danglingSource := by
  rw [remapState, mapM_eq_ite automaton.remap_newNumbers]
  split <;> rfl

theorem optimize_eq_ite (automaton : Automaton) : automaton.optimize =
      if automaton.Remaining then .ok automaton.renumbered else .error .danglingSource := by
  change (do
    let states ← automaton.remainder.mapM (remapState (newNumbers automaton.size automaton.kept))
    let sources ← automaton.beginnings.mapM (remap (newNumbers automaton.size automaton.kept))
    let accept ← remap (newNumbers automaton.size automaton.kept) automaton.accept
    return { states := states.toArray, sources := sources.eraseDups, accept } : Except Fault Automaton) = _
  rw [mapM_eq_ite automaton.remapState_newNumbers, mapM_eq_ite automaton.remap_newNumbers,
    remap_newNumbers]
  by_cases remaining : automaton.Remaining
  · rw [if_pos remaining, if_pos remaining.next, if_pos remaining.source, if_pos remaining.accept]
    rfl
  · rw [if_neg remaining]
    split
    next next =>
      split
      next source =>
        have accept : automaton.accept ∉ automaton.kept := fun accept => remaining ⟨next, source, accept⟩
        rw [if_neg accept]
        rfl
      next => rfl
    next => rfl

end remap

section sources

variable {replaced : StateId → Bool} {next : StateId → List StateId} {sources : List StateId}

theorem replaceSources_eq (once : ∀ id, replaced id → sources.count id ≤ 1) :
    replaceSources replaced next sources =
      sources.flatMap fun id => if replaced id then next id else [id] := by
  induction sources generalizing replaced with
  | nil => rfl
  | cons first rest ih =>
    -- What is listed once is not among the others, so for them nothing is gone by now.
    have others : ∀ id ∈ rest, (replaced id && id != first) = replaced id := by
      intro id listed
      cases gone : replaced id with
      | false => rfl
      | true =>
        have differ : id ≠ first := by
          rintro rfl
          have single := once id gone
          rw [List.count_cons_self] at single
          exact absurd (List.count_pos_iff.mpr listed) (by omega)
        simpa using differ
    rw [replaceSources, List.flatMap_cons, ih]
    · congr 1
      apply List.flatMap_congr
      intro id listed
      rw [others id listed]
    · intro id gone
      exact Nat.le_trans List.count_le_count_cons (once id (Bool.and_eq_true_iff.mp gone).1)

theorem mem_replaceSources_of_not (stays : ¬ replaced id) (listed : id ∈ sources) :
    id ∈ replaceSources replaced next sources := by
  induction sources generalizing replaced with
  | nil => cases listed
  | cons first rest ih =>
    rw [replaceSources, List.mem_append]
    cases listed with
    | head => exact .inl (by rw [if_neg stays]; exact List.mem_singleton_self id)
    | tail _ listed => exact .inr (ih (fun gone => stays (Bool.and_eq_true_iff.mp gone).1) listed)

theorem mem_replaceSources_of_count (gone : replaced id) (again : 1 < sources.count id) :
    id ∈ replaceSources replaced next sources := by
  induction sources generalizing replaced with
  | nil => cases again
  | cons first rest ih =>
    rw [replaceSources, List.mem_append]
    by_cases same : first = id
    · -- Its first listing is replaced, the other one stays.
      subst same
      rw [List.count_cons_self] at again
      refine .inr (mem_replaceSources_of_not (by simp) (List.count_pos_iff.mp ?_))
      omega
    · rw [List.count_cons_of_ne same] at again
      exact .inr (ih (by simp [gone, Ne.symm same]) again)

end sources

theorem collected_of_isReplaced (settled : automaton.Settled)
    (replaced : automaton.isReplaced automaton.shortcutGraph id) :
    automaton.collected id = automaton.shortcutGraph.next id := by
  have single : max 1 (automaton.sources.count id) = 1 := Nat.max_eq_left (settled id replaced)
  rw [collected, single, List.replicate_one, List.flatten_singleton]

theorem beginnings_eq (settled : automaton.Settled) : automaton.beginnings = automaton.shortened.sources := by
  rw [beginnings, replaceSources_eq settled]
  apply List.flatMap_congr
  intro id _
  split
  next replaced => exact collected_of_isReplaced settled replaced
  next => rfl

theorem renumbered_eq (settled : automaton.Settled) :
    automaton.renumbered = automaton.shortened.select (.ofList automaton.kept) := by
  have order : (KeySet.ofList automaton.kept).items = automaton.kept.toArray :=
    Array.toList_inj.mp (KeySet.toList_ofList automaton.nodup_kept)
  rw [renumbered, select, beginnings_eq settled, order, List.filterMap_toArray, remainder,
    List.map_filterMap]
  simp only [shortened_states, Option.map_map]
  rfl

theorem Remaining.settled (remaining : automaton.Remaining) : automaton.Settled := by
  intro id replaced
  apply Nat.le_of_not_lt
  intro again
  have left := remaining.source id (mem_replaceSources_of_count replaced again)
  exact (mem_kept.mp left).2.2 replaced

theorem eq_of_optimize {optimized : Automaton} (succeeds : automaton.optimize = .ok optimized) :
    automaton.Settled ∧ optimized = automaton.shortened.select (.ofList automaton.kept) := by
  rw [optimize_eq_ite] at succeeds
  split at succeeds
  next remaining =>
    cases succeeds
    exact ⟨remaining.settled, renumbered_eq remaining.settled⟩
  next => cases succeeds

theorem sources_optimize_ne_nil {optimized : Automaton} (succeeds : automaton.optimize = .ok optimized)
    (listed : automaton.sources ≠ []) : optimized.sources ≠ [] := by
  obtain ⟨_, rfl⟩ := eq_of_optimize succeeds
  apply select_sources_ne_nil
  intro empty
  obtain ⟨source, others, whole⟩ := List.exists_cons_of_ne_nil listed
  have nothing := List.flatMap_eq_nil_iff.mp empty source (whole ▸ List.mem_cons_self)
  split at nothing
  next replaced => exact (isReplaced_iff.mp replaced).2.2 nothing
  next => cases nothing

theorem not_isReplaced_of_isEnding (ending : automaton.isEnding id) :
    ¬ automaton.isReplaced automaton.shortcutGraph id := by
  intro replaced
  obtain ⟨_, epsilon, leading⟩ := isReplaced_iff.mp replaced
  exact leading (shortcuts_of_isEnding ending epsilon)

private theorem shortcut_lt (closed : automaton.Closed) {stop : StateId}
    (edge : stop ∈ automaton.shortcutGraph.next id) : stop < automaton.size := by
  obtain ⟨_, after, first, rest⟩ := mem_shortcutGraph_next.mp edge
  cases rest with
  | refl => exact closed.next_lt _ _ first
  | tail _ last => exact closed.next_lt _ _ (mem_epsilonGraph_next.mp last).2

private theorem shortcut_kept (closed : automaton.Closed) {source stop : StateId}
    (listed : source ∈ automaton.sources) (leads : automaton.shortcutGraph.Leads source id)
    (edge : stop ∈ automaton.shortcutGraph.next id) : stop ∈ automaton.kept := by
  have ending := (mem_shortcutGraph_next.mp edge).1
  exact mem_kept.mpr ⟨shortcut_lt closed edge, .inl ⟨source, listed, leads.tail edge⟩,
    not_isReplaced_of_isEnding ending⟩

private theorem source_kept (closed : automaton.Closed) {start : StateId}
    (listed : start ∈ automaton.shortened.sources) : start ∈ automaton.kept := by
  obtain ⟨source, listed, begins⟩ := List.mem_flatMap.mp listed
  split at begins
  next => exact shortcut_kept closed listed .refl begins
  next remaining =>
    obtain rfl := List.mem_singleton.mp begins
    exact mem_kept.mpr ⟨closed.source_lt _ listed, .inl ⟨start, listed, .refl⟩, remaining⟩

private theorem closed_shortened (closed : automaton.Closed) : automaton.shortened.Closed := by
  refine ⟨?_, ?_, ?_, ?_⟩
  · intro id after edge
    rw [size_shortened]
    exact shortcut_lt closed (mem_shortened_next.mp edge)
  · intro id listed
    rw [size_shortened]
    exact (mem_kept.mp (source_kept closed listed)).1
  · exact shortened_isEpsilon.trans closed.accept_epsilon
  · exact shortened_next_eq_nil (shortcuts_of_isEnding (isEnding_accept closed) closed.accept_epsilon)

theorem covers_kept (closed : automaton.Closed) :
    automaton.shortened.Covers (.ofList automaton.kept) := by
  refine ⟨?_, ?_, ?_, ?_⟩
  · intro id inside
    rw [size_shortened]
    exact (mem_kept.mp (KeySet.mem_ofList.mp inside)).1
  · intro id inside after edge
    rw [mem_shortened_next] at edge
    obtain ⟨_, met, _⟩ := mem_kept.mp (KeySet.mem_ofList.mp inside)
    rcases met with ⟨source, listed, leads⟩ | rfl
    · exact KeySet.mem_ofList.mpr (shortcut_kept closed listed leads edge)
    · rw [shortcuts_of_isEnding (isEnding_accept closed) closed.accept_epsilon] at edge
      cases edge
  · exact fun start listed => KeySet.mem_ofList.mpr (source_kept closed listed)
  · exact KeySet.mem_ofList.mpr (mem_kept.mpr ⟨closed.accept_lt, .inr rfl,
      not_isReplaced_of_isEnding (isEnding_accept closed)⟩)

/-- An epsilon state that outlasts the others is a source with nothing behind it, the end of a
chain, or the accepting state. -/
theorem shortcuts_of_kept (closed : automaton.Closed) (inside : id ∈ automaton.kept)
    (epsilon : automaton.isEpsilon id) : automaton.shortcutGraph.next id = [] := by
  obtain ⟨_, met, remaining⟩ := mem_kept.mp inside
  rcases met with ⟨source, listed, leads⟩ | rfl
  · cases leads with
    | refl =>
      apply Classical.byContradiction
      intro leading
      exact remaining (isReplaced_iff.mpr ⟨listed, epsilon, leading⟩)
    | tail _ edge => exact shortcuts_of_isEnding (mem_shortcutGraph_next.mp edge).1 epsilon
  · exact shortcuts_of_isEnding (isEnding_accept closed) epsilon

/-- The optimizer looks up nothing that is gone, except for a source that is listed again. -/
theorem remaining_iff (closed : automaton.Closed) : automaton.Remaining ↔ automaton.Settled := by
  refine ⟨Remaining.settled, fun settled => ?_⟩
  have covers := covers_kept closed
  refine ⟨?_, ?_, KeySet.mem_ofList.mp covers.accept⟩
  · intro state member after edge
    obtain ⟨id, inside, found⟩ := List.mem_filterMap.mp member
    obtain ⟨old, _, rfl⟩ := Option.map_eq_some_iff.mp found
    have shortcut := mem_shortened_next.mpr (mem_collected.mp edge)
    exact KeySet.mem_ofList.mp (covers.next id (KeySet.mem_ofList.mpr inside) after shortcut)
  · intro id listed
    rw [beginnings_eq settled] at listed
    exact KeySet.mem_ofList.mp (covers.source id listed)

theorem optimize_eq (closed : automaton.Closed) (settled : automaton.Settled) :
    automaton.optimize = .ok (automaton.shortened.select (.ofList automaton.kept)) := by
  rw [optimize_eq_ite, if_pos ((remaining_iff closed).mpr settled), renumbered_eq settled]

/-- The optimizer fails on the automata that list a source twice which it removes, and on no others. -/
theorem optimize_eq_error_iff (closed : automaton.Closed) {fault : Fault} :
    automaton.optimize = .error fault ↔ fault = .danglingSource ∧ ¬ automaton.Settled := by
  rw [optimize_eq_ite, ← remaining_iff closed]
  split
  next remaining => simp [remaining]
  next lost => simp [lost, eq_comm]

/-- What the optimizer does to any automaton whose numbers name states, unless it is left with a source
that was optimized out. -/
theorem optimize_of_settled (closed : automaton.Closed) (settled : automaton.Settled) :
    ∃ optimized, automaton.optimize = .ok optimized ∧ optimized.Closed ∧ optimized.sources.Nodup ∧
      optimized.EpsilonDead ∧ ∀ word, optimized.Accepts word ↔ automaton.Accepts word := by
  have covers := covers_kept closed
  refine ⟨_, optimize_eq closed settled, closed_select covers (closed_shortened closed),
    nodup_select_sources, ?_, ?_⟩
  · intro id epsilon
    obtain ⟨old, inside, rfl⟩ := exists_place covers (lt_of_isEpsilon epsilon)
    rw [select_isEpsilon covers inside, shortened_isEpsilon] at epsilon
    rw [select_next covers inside,
      shortened_next_eq_nil (shortcuts_of_kept closed (KeySet.mem_ofList.mp inside) epsilon), List.map_nil]
  · intro word
    rw [accepts_select covers, accepts_shortened closed]

theorem optimize_spec (closed : automaton.Closed) (distinct : automaton.sources.Nodup) :
    ∃ optimized, automaton.optimize = .ok optimized ∧ optimized.Closed ∧ optimized.sources.Nodup ∧
      optimized.EpsilonDead ∧ ∀ word, optimized.Accepts word ↔ automaton.Accepts word :=
  optimize_of_settled closed (settled_of_nodup distinct)

/-- Removing epsilon states succeeds and keeps the language. -/
theorem accepts_optimize (closed : automaton.Closed) (distinct : automaton.sources.Nodup) :
    ∃ optimized, automaton.optimize = .ok optimized ∧
      ∀ word, optimized.Accepts word ↔ automaton.Accepts word := by
  obtain ⟨optimized, succeeds, _, _, _, same⟩ := optimize_spec closed distinct
  exact ⟨optimized, succeeds, same⟩

def tangled : Automaton where
  states := #[.epsilon [1, 2], .epsilon [0], .consuming .any [0, 4], .epsilon [], .epsilon []]
  sources := [0, 2, 3, 4]
  accept := 4

theorem accepts_optimize_tangled : tangled.Closed ∧ tangled.sources.Nodup ∧
    ∃ optimized, tangled.optimize = .ok optimized ∧
      ∀ word, optimized.Accepts word ↔ tangled.Accepts word :=
  ⟨by decide, by decide, accepts_optimize (by decide) (by decide)⟩

end ByteRegex.Automaton
