import ByteRegex.Proofs.Contraction
import ByteRegex.Proofs.Optimization
import Mathlib.Data.List.Basic
import Mathlib.Data.List.Nodup

/-! Automata that the optimizer leaves as they are. Nothing in them is followed for free, no number is
listed again, and only the accepting state may be out of reach; whatever the optimizer is given, this is
what it makes of it. -/

namespace ByteRegex

theorem Graph.explore_of_edgeless {graph : Graph} (edgeless : ∀ node, graph.next node = [])
    (visited : KeySet) (pending : List Nat) : graph.explore visited pending = visited.insertAll pending := by
  fun_induction graph.explore visited pending with
  | case1 => rfl
  | case2 visited node rest known ih =>
    have same : visited.insert node = visited := KeySet.insert_of_contains known
    rw [ih, KeySet.insertAll, KeySet.insertAll, List.foldl_cons, same]
  | case3 visited node rest _ ih =>
    rw [edgeless node, List.nil_append] at ih ⊢
    exact ih

theorem KeySet.toList_ofList_eraseDups (keys : List Nat) : (KeySet.ofList keys).toList = keys.eraseDups := by
  let edgeless : Graph := ⟨0, fun _ => [], fun _ _ => rfl⟩
  have searched (pending : List Nat) : edgeless.explore ∅ pending = KeySet.ofList pending :=
    Graph.explore_of_edgeless (fun _ => rfl) ∅ pending
  rw [← searched, ← edgeless.explore_eraseDups, searched, toList_ofList (Automaton.nodup_eraseDups keys)]

theorem eraseDups_of_nodup {keys : List Nat} (nodup : keys.Nodup) : keys.eraseDups = keys := by
  rw [← KeySet.toList_ofList_eraseDups, KeySet.toList_ofList nodup]

namespace Automaton

/-- There is nothing left to optimize. -/
structure Reduced (automaton : Automaton) : Prop where
  dead : automaton.EpsilonDead
  distinct : automaton.sources.Nodup
  next_nodup : ∀ id, (automaton.next id).Nodup
  reached : ∀ id < automaton.size, id ≠ automaton.accept →
    ∃ source ∈ automaton.sources, (transitions automaton.states).Leads source id

theorem ext {first second : Automaton} (states : first.states = second.states)
    (sources : first.sources = second.sources) (accept : first.accept = second.accept) : first = second := by
  cases first
  cases second
  cases states
  cases sources
  cases accept
  rfl

variable {automaton optimized : Automaton} {order : KeySet} {id final : StateId}

theorem EpsilonDead.isEnding (dead : automaton.EpsilonDead) (id : StateId) : automaton.isEnding id := by
  by_cases epsilon : automaton.isEpsilon id
  · obtain ⟨_, found⟩ := isEpsilon_iff.mp epsilon
    simp [Automaton.isEnding, isSink, found, State.isSink, dead id epsilon]
  · simp [Automaton.isEnding, epsilon]

theorem EpsilonDead.epsilonGraph_next (dead : automaton.EpsilonDead) (id : StateId) :
    automaton.epsilonGraph.next id = [] := by
  apply List.eq_nil_iff_forall_not_mem.mpr
  intro after edge
  obtain ⟨epsilon, edge⟩ := mem_epsilonGraph_next.mp edge
  rw [dead id epsilon] at edge
  cases edge

theorem EpsilonDead.shortcutGraph_next (dead : automaton.EpsilonDead) (id : StateId) :
    automaton.shortcutGraph.next id = (automaton.next id).eraseDups := by
  have met : (automaton.epsilonGraph.explore ∅ (automaton.next id)).toList = (automaton.next id).eraseDups := by
    rw [Graph.explore_of_edgeless dead.epsilonGraph_next]
    exact KeySet.toList_ofList_eraseDups _
  rw [Automaton.shortcutGraph_next, endings_spec Search.clean_empty]
  change (automaton.epsilonGraph.explore ∅ (automaton.next id)).toList.filter automaton.isEnding = _
  rw [met]
  exact List.filter_eq_self.mpr fun final _ => dead.isEnding final

theorem EpsilonDead.not_isReplaced (dead : automaton.EpsilonDead) (id : StateId) :
    ¬ automaton.isReplaced automaton.shortcutGraph id :=
  not_isReplaced_of_isEnding (dead.isEnding id)

theorem EpsilonDead.shortened_sources (dead : automaton.EpsilonDead) :
    automaton.shortened.sources = automaton.sources := by
  have single : ∀ id ∈ automaton.sources, (if automaton.isReplaced automaton.shortcutGraph id then
      automaton.shortcutGraph.next id else [id]) = [id] := fun id _ => if_neg (dead.not_isReplaced id)
  exact (List.flatMap_congr single).trans (List.flatMap_singleton' _)

theorem collected_of_nodup (distinct : automaton.sources.Nodup) (id : StateId) :
    automaton.collected id = automaton.shortcutGraph.next id := by
  have once := List.nodup_iff_count.mp distinct id
  rw [collected, Nat.max_eq_left once]
  simp

theorem shortened_next (distinct : automaton.sources.Nodup) (id : StateId) :
    automaton.shortened.next id = automaton.shortcutGraph.next id := by
  rw [next, shortened_states]
  cases found : automaton.states[id]? with
  | some state => exact collected_of_nodup distinct id
  | none =>
    symm
    apply List.eq_nil_iff_forall_not_mem.mpr
    intro stop edge
    obtain ⟨_, after, edge, _⟩ := mem_shortcutGraph_next.mp edge
    have inside := lt_of_next edge
    exact Nat.not_lt.mpr (Array.getElem?_eq_none_iff.mp found) inside

/-- A chain of transitions among the states that are kept is one under the new numbers. -/
theorem leads_select (covers : automaton.Covers order) (inside : id ∈ order.toList)
    (leads : (transitions automaton.states).Leads id final) :
    (transitions (automaton.select order).states).Leads (order.place id) (order.place final) ∧
      final ∈ order.toList := by
  induction leads with
  | refl => exact ⟨.refl, inside⟩
  | tail _ edge ih =>
    obtain ⟨leads, kept⟩ := ih
    refine ⟨leads.tail ?_, covers.next _ kept _ edge⟩
    change _ ∈ (automaton.select order).next _
    rw [select_next covers kept]
    exact List.mem_map_of_mem edge

/-- What is reached past the shortcuts is reached from what the sources gave way to. -/
theorem exists_shortened_source {source : StateId} (listed : source ∈ automaton.sources)
    (leads : automaton.shortcutGraph.Leads source id)
    (remaining : ¬ automaton.isReplaced automaton.shortcutGraph id) :
    ∃ start ∈ automaton.shortened.sources, (transitions automaton.shortened.states).Leads start id := by
  have walk {start : StateId} (leads : automaton.shortcutGraph.Leads start id) :
      (transitions automaton.shortened.states).Leads start id :=
    leads.mono fun _ _ edge => mem_shortened_next.mpr edge
  by_cases replaced : automaton.isReplaced automaton.shortcutGraph source
  · cases Relation.ReflTransGen.cases_head leads with
    | inl same => exact absurd (same ▸ replaced) remaining
    | inr onward =>
      obtain ⟨start, edge, leads⟩ := onward
      refine ⟨start, List.mem_flatMap.mpr ⟨source, listed, ?_⟩, walk leads⟩
      rwa [if_pos replaced]
  · refine ⟨source, List.mem_flatMap.mpr ⟨source, listed, ?_⟩, walk leads⟩
    rw [if_neg replaced]
    exact List.mem_singleton_self source

theorem size_optimize_le (closed : automaton.Closed) (succeeds : automaton.optimize = .ok optimized) :
    optimized.size ≤ automaton.size := by
  obtain ⟨_, rfl⟩ := eq_of_optimize succeeds
  rw [size_select (covers_kept closed), KeySet.toList_ofList automaton.nodup_kept]
  calc automaton.kept.length ≤ (List.range automaton.size).length := List.length_filter_le _ _
    _ = automaton.size := List.length_range

theorem reduced_optimize (closed : automaton.Closed) (distinct : automaton.sources.Nodup) :
    ∃ optimized, automaton.optimize = .ok optimized ∧ optimized.Closed ∧ optimized.Reduced := by
  obtain ⟨optimized, succeeds, tidy, nodup, dead, _⟩ := optimize_spec closed distinct
  refine ⟨optimized, succeeds, tidy, dead, nodup, ?_, ?_⟩
  all_goals
    obtain ⟨_, rfl⟩ := eq_of_optimize succeeds
    have covers := covers_kept closed
  · -- New numbers are as different as the old ones, among the states that are kept.
    intro id
    by_cases inside : id < (automaton.shortened.select (.ofList automaton.kept)).size
    · obtain ⟨old, kept, rfl⟩ := exists_place covers inside
      rw [select_next covers kept, shortened_next distinct]
      refine List.Nodup.map_on ?_ (automaton.nodup_shortcutGraph_next old)
      intro first left second right
      rw [← shortened_next distinct] at left right
      exact KeySet.place_inj (covers.next old kept first left) (covers.next old kept second right)
    · rw [next, Array.getElem?_eq_none (Nat.le_of_not_lt inside)]
      exact List.nodup_nil
  · intro id inside other
    obtain ⟨old, kept, rfl⟩ := exists_place covers inside
    obtain ⟨_, met, remaining⟩ := mem_kept.mp (KeySet.mem_ofList.mp kept)
    cases met with
    | inl met =>
      obtain ⟨source, listed, leads⟩ := met
      obtain ⟨start, begins, leads⟩ := exists_shortened_source listed leads remaining
      exact ⟨_, mem_select_sources.mpr ⟨start, begins, rfl⟩,
        (leads_select covers (covers.source start begins) leads).1⟩
    | inr accepts =>
      subst accepts
      exact absurd rfl other

theorem Reduced.shortened_eq (reduced : automaton.Reduced) : automaton.shortened = automaton := by
  have states : automaton.shortened.states = automaton.states := by
    apply Array.ext_getElem?
    intro id
    rw [shortened_states]
    cases found : automaton.states[id]? with
    | none => rfl
    | some state =>
      rw [Option.map_some, collected_of_nodup reduced.distinct, reduced.dead.shortcutGraph_next,
        eraseDups_of_nodup (reduced.next_nodup id), next_of found]
  exact ext states reduced.dead.shortened_sources rfl

theorem Reduced.kept_eq (reduced : automaton.Reduced) : automaton.kept = List.range automaton.size := by
  refine List.filter_eq_self.mpr fun id listed => ?_
  have inside := List.mem_range.mp listed
  have met : (∃ source ∈ automaton.sources, automaton.shortcutGraph.Leads source id) ∨ id = automaton.accept := by
    by_cases accepts : id = automaton.accept
    · exact .inr accepts
    · obtain ⟨source, begins, leads⟩ := reduced.reached id inside accepts
      refine .inl ⟨source, begins, leads.mono fun before after edge => ?_⟩
      rw [reduced.dead.shortcutGraph_next before, List.mem_eraseDups]
      exact edge
  have remains : id ∈ automaton.kept := mem_kept.mpr ⟨inside, met, reduced.dead.not_isReplaced id⟩
  exact (List.mem_filter.mp remains).2

theorem select_range (closed : automaton.Closed) (distinct : automaton.sources.Nodup) :
    automaton.select (.ofList (List.range automaton.size)) = automaton := by
  have listed : (KeySet.ofList (List.range automaton.size)).toList = List.range automaton.size :=
    KeySet.toList_ofList List.nodup_range
  have place {id : StateId} (inside : id < automaton.size) :
      (KeySet.ofList (List.range automaton.size)).place id = id := by
    apply KeySet.place_eq
    rw [listed, List.getElem?_range inside]
  have covers : automaton.Covers (.ofList (List.range automaton.size)) := by
    refine ⟨?_, ?_, ?_, ?_⟩ <;> simp only [listed, List.mem_range]
    · exact fun id inside => inside
    · exact fun id _ => closed.next_lt id
    · exact closed.source_lt
    · exact closed.accept_lt
  have states : (automaton.select (.ofList (List.range automaton.size))).states = automaton.states := by
    apply Array.ext_getElem?
    intro id
    by_cases inside : id < automaton.size
    · have kept : id ∈ (KeySet.ofList (List.range automaton.size)).toList := by
        rwa [listed, List.mem_range]
      have found := Array.getElem?_eq_getElem inside
      have same : automaton.states[id].next.map (KeySet.ofList (List.range automaton.size)).place =
          automaton.states[id].next := by
        refine (List.map_congr_left fun after edge => ?_).trans (List.map_id _)
        exact place (closed.next_lt id after (mem_next_of found edge))
      have selected := select_states covers kept
      rw [place inside, found, Option.map_some, same] at selected
      exact selected.trans found.symm
    · have size := size_select covers
      rw [listed, List.length_range] at size
      have outside := Nat.le_of_not_lt inside
      rw [Array.getElem?_eq_none outside]
      exact Array.getElem?_eq_none (Nat.le_trans (Nat.le_of_eq size) outside)
  have sources : (automaton.select (.ofList (List.range automaton.size))).sources = automaton.sources := by
    have same : automaton.sources.map (KeySet.ofList (List.range automaton.size)).place = automaton.sources :=
      (List.map_congr_left fun id source => place (closed.source_lt id source)).trans (List.map_id _)
    rw [select, same, eraseDups_of_nodup distinct]
  exact ext states sources (place closed.accept_lt)

theorem optimize_of_reduced (closed : automaton.Closed) (reduced : automaton.Reduced) :
    automaton.optimize = .ok automaton := by
  rw [optimize_eq closed (settled_of_nodup reduced.distinct), reduced.shortened_eq, reduced.kept_eq,
    select_range closed reduced.distinct]

/-- One pass of the optimizer leaves nothing for a second one: the same states in the same order, with
their successors in the same order. -/
theorem optimize_optimize (closed : automaton.Closed) (distinct : automaton.sources.Nodup) :
    ∃ optimized, automaton.optimize = .ok optimized ∧ optimized.optimize = .ok optimized := by
  obtain ⟨optimized, succeeds, closed, reduced⟩ := reduced_optimize closed distinct
  exact ⟨optimized, succeeds, optimize_of_reduced closed reduced⟩

def stranded : Automaton where
  states := #[.loopback [2], .epsilon [], .consuming .any [0, 0, 2], .epsilon [4], .epsilon [3], .epsilon []]
  sources := [1, 0, 4]
  accept := 5

theorem optimize_optimize_stranded : stranded.Closed ∧ stranded.sources.Nodup ∧
    ∃ optimized, stranded.optimize = .ok optimized ∧ optimized.optimize = .ok optimized :=
  ⟨by decide, by decide, optimize_optimize (by decide) (by decide)⟩

end Automaton

end ByteRegex
