import ByteRegex.Proofs.ArrowSets
import ByteRegex.Proofs.Exploration
import ByteRegex.Proofs.Reduction
import Mathlib.Data.List.Forall2

/-! Searches side by side. An automaton without its unreachable states and without repeated transitions has
fewer arrows, but the sets that are found in the one and in the other come in pairs and under the same numbers.
So the subset construction makes the same of both. -/

namespace ByteRegex

namespace Subsets

variable {width narrow : Nat} {label : Type} {related : IndexSet width → IndexSet narrow → Prop}
  {found : Subsets width} {twins : Subsets narrow} {set : IndexSet width} {twin : IndexSet narrow}

/-- Sets with the same number are related. -/
def Aligned (related : IndexSet width → IndexSet narrow → Prop) (found : Subsets width)
    (twins : Subsets narrow) : Prop :=
  List.Forall₂ related found.order.toList twins.order.toList

private theorem getElem?_iff_of_forall₂ {sets : List (IndexSet width)} {others : List (IndexSet narrow)}
    (unique : Relator.BiUnique related) (aligned : List.Forall₂ related sets others) (pair : related set twin)
    (index : Nat) : sets[index]? = some set ↔ others[index]? = some twin := by
  induction aligned generalizing index with
  | nil => simp
  | cons first _ ih =>
    cases index with
    | zero =>
      rw [List.getElem?_cons_zero, List.getElem?_cons_zero, Option.some_inj, Option.some_inj]
      exact Relator.rel_eq unique first pair
    | succ index => exact ih index

theorem Aligned.find?_eq (aligned : Aligned related found twins) (unique : Relator.BiUnique related)
    (pair : related set twin) : found.find? set = twins.find? twin := by
  apply Option.ext
  intro number
  rw [find?_eq_some, find?_eq_some, ← Array.getElem?_toList, ← Array.getElem?_toList]
  exact getElem?_iff_of_forall₂ unique aligned pair number

theorem Aligned.insert (aligned : Aligned related found twins) (unique : Relator.BiUnique related)
    (pair : related set twin) : Aligned related (found.insert set) (twins.insert twin) := by
  rw [Aligned, order_insert, order_insert, aligned.find?_eq unique pair]
  split
  · exact aligned
  · rw [Array.toList_push, Array.toList_push]
    exact List.rel_append aligned (.cons pair .nil)

theorem Aligned.insertAll {item other : Type} {matching : item → other → Prop} {pick : item → IndexSet width}
    {choose : other → IndexSet narrow} {items : List item} {others : List other}
    (aligned : Aligned related found twins) (unique : Relator.BiUnique related)
    (picked : ∀ item other, matching item other → related (pick item) (choose other))
    (listed : List.Forall₂ matching items others) :
    Aligned related (items.foldl (fun found item => found.insert (pick item)) found)
      (others.foldl (fun found item => found.insert (choose item)) twins) := by
  induction listed generalizing found twins with
  | nil => exact aligned
  | cons first _ ih => exact ih (aligned.insert unique (picked _ _ first))

variable {steps : IndexSet width → List (label × IndexSet width)}
  {twinSteps : IndexSet narrow → List (label × IndexSet narrow)}

/-- Searches that take related steps stay side by side. -/
theorem Aligned.followUp (aligned : Aligned related found twins) (unique : Relator.BiUnique related)
    (stepwise : ∀ set twin, related set twin → List.Forall₂
      (fun step other => step.1 = other.1 ∧ related step.2 other.2) (steps set) (twinSteps twin))
    {rows : Array (List (label × IndexSet width))} {twinRows : Array (List (label × IndexSet narrow))}
    (level : rows.size = twinRows.size) :
    Aligned related (Subsets.followUp steps found rows).1 (Subsets.followUp twinSteps twins twinRows).1 := by
  fun_induction Subsets.followUp steps found rows generalizing twins twinRows
  case case1 found rows pending row ih =>
    have inside : twinRows.size < twins.order.size := by
      have size : found.order.size = twins.order.size := aligned.length_eq
      omega
    have onward : Subsets.followUp twinSteps twins twinRows =
        Subsets.followUp twinSteps ((twinSteps twins.order[twinRows.size]).foldl
          (fun found step => found.insert step.2) twins) (twinRows.push (twinSteps twins.order[twinRows.size])) := by
      rw [Subsets.followUp, dif_pos inside]
    -- Both searches follow up the sets with the same number.
    have pair : related found.order[rows.size] twins.order[twinRows.size] := by
      have taken := aligned.get pending (level ▸ inside)
      simpa [level] using taken
    rw [onward]
    apply ih
    · exact aligned.insertAll unique (fun _ _ both => both.2) (stepwise _ _ pair)
    · rw [Array.size_push, Array.size_push, level]
  case case2 found rows finished =>
    have size : found.order.size = twins.order.size := aligned.length_eq
    rw [Subsets.followUp, dif_neg (by omega)]
    exact aligned

end Subsets

namespace Automaton

/-- The second automaton has the states of `order`, each under its place in it, with the same sources and the
same transitions; but it may list a transition fewer times. -/
structure Mirrors (automaton copy : Automaton) (order : KeySet) : Prop where
  covers : automaton.Covers order
  sources : copy.sources = automaton.sources.map order.place
  accept : copy.accept = order.place automaton.accept
  next : ∀ id ∈ order.toList, ∀ after, after ∈ copy.next (order.place id) ↔
    ∃ target ∈ automaton.next id, order.place target = after
  reads : ∀ id ∈ order.toList, ∀ byte, copy.reads (order.place id) byte = automaton.reads id byte

inductive Twin (automaton copy : Automaton) (order : KeySet) : Arrow → Arrow → Prop
  | entrance {place : Nat} (listed : place < automaton.sources.length) :
    Twin automaton copy order (.entrance place) (.entrance place)
  | transition {id after : StateId} {place other : Nat} (inside : id ∈ order.toList)
    (leads : (automaton.next id)[place]? = some after)
    (also : (copy.next (order.place id))[other]? = some (order.place after)) :
    Twin automaton copy order (.transition id place) (.transition (order.place id) other)

/-- Sets that contain the twins of each other's arrows. -/
structure Paired (automaton copy : Automaton) (order : KeySet) (arrows twins : Set Arrow) : Prop where
  mem_iff : ∀ arrow twin, Twin automaton copy order arrow twin → (arrow ∈ arrows ↔ twin ∈ twins)
  exists_twin : ∀ arrow ∈ arrows, ∃ twin, Twin automaton copy order arrow twin
  exists_arrow : ∀ twin ∈ twins, ∃ arrow, Twin automaton copy order arrow twin

variable {automaton copy : Automaton} {order : KeySet} {alphabet : Alphabet} {compact : Bool}
  {arrows twins : Set Arrow} {arrow twin : Arrow} {set : ArrowSet automaton} {other : ArrowSet copy}
  {id : StateId} {byte : UInt8} {place : Nat}

theorem Twin.target (both : Twin automaton copy order arrow twin) (mirrors : Mirrors automaton copy order) :
    ∃ after ∈ order.toList, automaton.target? arrow = some after ∧
      copy.target? twin = some (order.place after) := by
  cases both with
  | @entrance place listed =>
    have found := List.getElem?_eq_getElem listed
    refine ⟨_, mirrors.covers.source _ (List.getElem_mem listed), found, ?_⟩
    rw [target?, mirrors.sources, List.getElem?_map, found, Option.map_some]
  | @transition id after place other inside leads also =>
    exact ⟨after, mirrors.covers.next id inside after (List.mem_of_getElem? leads), leads, also⟩

theorem exists_twin_of_transition (mirrors : Mirrors automaton copy order) (inside : id ∈ order.toList)
    (listed : place < (automaton.next id).length) :
    ∃ twin, Twin automaton copy order (.transition id place) twin := by
  have edge := (mirrors.next id inside _).mpr ⟨_, List.getElem_mem listed, rfl⟩
  obtain ⟨other, also⟩ := List.mem_iff_getElem?.mp edge
  exact ⟨_, .transition inside (List.getElem?_eq_getElem listed) also⟩

theorem exists_transition_of_twin (mirrors : Mirrors automaton copy order) (inside : id ∈ order.toList)
    (listed : place < (copy.next (order.place id)).length) :
    ∃ arrow, Twin automaton copy order arrow (.transition (order.place id) place) := by
  have found := List.getElem?_eq_getElem listed
  obtain ⟨after, edge, placed⟩ := (mirrors.next id inside _).mp (List.getElem_mem listed)
  obtain ⟨other, leads⟩ := List.mem_iff_getElem?.mp edge
  exact ⟨_, .transition inside leads (placed ▸ found)⟩

namespace Paired

variable (paired : Paired automaton copy order arrows twins)

include paired

theorem nonempty_iff : arrows.Nonempty ↔ twins.Nonempty := by
  constructor
  · intro ⟨arrow, member⟩
    obtain ⟨twin, both⟩ := paired.exists_twin arrow member
    exact ⟨twin, (paired.mem_iff arrow twin both).mp member⟩
  · intro ⟨twin, member⟩
    obtain ⟨arrow, both⟩ := paired.exists_arrow twin member
    exact ⟨arrow, (paired.mem_iff arrow twin both).mpr member⟩

theorem subset_of_left {others : Set Arrow} (also : Paired automaton copy order others twins) :
    arrows ⊆ others := by
  intro arrow member
  obtain ⟨twin, both⟩ := paired.exists_twin arrow member
  exact (also.mem_iff arrow twin both).mpr ((paired.mem_iff arrow twin both).mp member)

theorem subset_of_right {others : Set Arrow} (also : Paired automaton copy order arrows others) :
    twins ⊆ others := by
  intro twin member
  obtain ⟨arrow, both⟩ := paired.exists_arrow twin member
  exact (also.mem_iff arrow twin both).mp ((paired.mem_iff arrow twin both).mpr member)

theorem pointed_iff (mirrors : Mirrors automaton copy order) (inside : id ∈ order.toList) :
    (∃ arrow ∈ arrows, automaton.target? arrow = some id) ↔
      ∃ twin ∈ twins, copy.target? twin = some (order.place id) := by
  constructor
  · intro ⟨arrow, member, points⟩
    obtain ⟨twin, both⟩ := paired.exists_twin arrow member
    obtain ⟨after, _, target, twinTarget⟩ := both.target mirrors
    cases points.symm.trans target
    exact ⟨twin, (paired.mem_iff arrow twin both).mp member, twinTarget⟩
  · intro ⟨twin, member, points⟩
    obtain ⟨arrow, both⟩ := paired.exists_arrow twin member
    obtain ⟨after, kept, target, twinTarget⟩ := both.target mirrors
    have same := KeySet.place_inj kept inside (Option.some.inj (twinTarget.symm.trans points))
    exact ⟨arrow, (paired.mem_iff arrow twin both).mpr member, same ▸ target⟩

theorem follow (mirrors : Mirrors automaton copy order) (byte : UInt8) :
    Paired automaton copy order (automaton.follow arrows byte) (copy.follow twins byte) := by
  refine ⟨?_, ?_, ?_⟩
  · intro arrow twin both
    cases both with
    | entrance listed =>
      constructor
      · intro ⟨_, _, impossible, _⟩
        cases impossible
      · intro ⟨_, _, impossible, _⟩
        cases impossible
    | @transition id after place other inside leads also =>
      -- Both leave one state, to which both sets point or neither does.
      constructor
      · intro ⟨_, _, same, _, consumes, pointed⟩
        cases same
        exact ⟨_, other, rfl, (List.getElem?_eq_some_iff.mp also).1,
          (mirrors.reads id inside byte).trans consumes, (paired.pointed_iff mirrors inside).mp pointed⟩
      · intro ⟨_, _, same, _, consumes, pointed⟩
        cases same
        exact ⟨id, place, rfl, (List.getElem?_eq_some_iff.mp leads).1,
          (mirrors.reads id inside byte).symm.trans consumes, (paired.pointed_iff mirrors inside).mpr pointed⟩
  · intro arrow ⟨id, place, same, listed, _, before, member, points⟩
    subst same
    obtain ⟨_, both⟩ := paired.exists_twin before member
    obtain ⟨after, kept, target, _⟩ := both.target mirrors
    cases points.symm.trans target
    exact exists_twin_of_transition mirrors kept listed
  · intro twin ⟨id, place, same, listed, _, before, member, points⟩
    subst same
    obtain ⟨_, both⟩ := paired.exists_arrow before member
    obtain ⟨after, kept, _, target⟩ := both.target mirrors
    cases points.symm.trans target
    exact exists_transition_of_twin mirrors kept listed

end Paired

theorem paired_entrance (listed : place < automaton.sources.length) :
    Paired automaton copy order {.entrance place} {.entrance place} := by
  refine ⟨?_, ?_, ?_⟩
  · intro arrow twin both
    cases both with
    | entrance => exact Iff.rfl
    | transition => exact iff_of_false nofun nofun
  · intro arrow same
    cases Set.mem_singleton_iff.mp same
    exact ⟨.entrance place, .entrance listed⟩
  · intro twin same
    cases Set.mem_singleton_iff.mp same
    exact ⟨.entrance place, .entrance listed⟩

/-- Index sets that stand for paired sets of arrows. Each has at most one partner. -/
def Partners (automaton copy : Automaton) (order : KeySet) (set : ArrowSet automaton) (other : ArrowSet copy) :
    Prop := Paired automaton copy order (automaton.arrowsOf set) (copy.arrowsOf other)

theorem biUnique_partners : Relator.BiUnique (Partners automaton copy order) := by
  constructor
  · intro first second other one two
    apply arrowsOf_inj
    exact Set.Subset.antisymm (Paired.subset_of_left one two) (Paired.subset_of_left two one)
  · intro set first second one two
    apply arrowsOf_inj
    exact Set.Subset.antisymm (Paired.subset_of_right one two) (Paired.subset_of_right two one)

theorem Partners.accepting_eq (partners : Partners automaton copy order set other)
    (mirrors : Mirrors automaton copy order) :
    automaton.arrows.accepting automaton set = copy.arrows.accepting copy other := by
  rw [Bool.eq_iff_iff, accepting_iff, accepting_iff, mirrors.accept]
  exact partners.pointed_iff mirrors mirrors.covers.accept

theorem Partners.steps (partners : Partners automaton copy order set other)
    (mirrors : Mirrors automaton copy order) : List.Forall₂
      (fun step twin => step.1 = twin.1 ∧ Partners automaton copy order step.2 twin.2)
      (automaton.arrows.steps automaton alphabet set) (copy.arrows.steps copy alphabet other) := by
  apply List.rel_filter
  · intro step twin ⟨_, both⟩
    have filled := both.nonempty_iff
    rw [arrowsOf_nonempty, arrowsOf_nonempty] at filled
    simpa using filled
  · refine List.forall₂_map_left_iff.mpr (List.forall₂_map_right_iff.mpr (List.forall₂_same.mpr ?_))
    intro byte _
    refine ⟨rfl, ?_⟩
    rw [Partners, arrowsOf_after, arrowsOf_after]
    exact Paired.follow partners mirrors byte

namespace Mirrors

variable (mirrors : Mirrors automaton copy order)

include mirrors

theorem starts : List.Forall₂ (Partners automaton copy order) (automaton.arrows.starts automaton)
    (copy.arrows.starts copy) := by
  have length : copy.sources.length = automaton.sources.length := by
    rw [mirrors.sources, List.length_map]
  rw [Arrows.starts, Arrows.starts, length]
  refine List.forall₂_map_left_iff.mpr (List.forall₂_map_right_iff.mpr (List.forall₂_same.mpr ?_))
  intro place listed
  have inside := List.mem_range.mp listed
  rw [Partners, arrowsOf_singleton inside, arrowsOf_singleton (length.symm ▸ inside)]
  exact paired_entrance inside

theorem aligned_discovered (alphabet : Alphabet) : Subsets.Aligned (Partners automaton copy order)
    (discovered automaton alphabet).1 (discovered copy alphabet).1 := by
  have empty : Subsets.Aligned (Partners automaton copy order) .empty .empty := .nil
  have begun := empty.insertAll biUnique_partners (fun _ _ both => both) mirrors.starts
  exact begun.followUp biUnique_partners (fun _ _ partners => partners.steps mirrors) rfl

theorem number_eq (partners : Partners automaton copy order set other) :
    number automaton alphabet set = number copy alphabet other := by
  rw [number, number, (mirrors.aligned_discovered alphabet).find?_eq biUnique_partners partners]

theorem table_eq (alphabet : Alphabet) : table automaton alphabet = table copy alphabet := by
  rw [← List.forall₂_eq_eq_eq, table, table, List.forall₂_map_left_iff, List.forall₂_map_right_iff]
  refine (mirrors.aligned_discovered alphabet).imp fun set other partners => ?_
  refine Prod.ext (partners.accepting_eq mirrors) ?_
  rw [← List.forall₂_eq_eq_eq, List.forall₂_map_left_iff, List.forall₂_map_right_iff]
  refine (partners.steps mirrors).imp fun step twin both => ?_
  exact Prod.ext both.1 (mirrors.number_eq both.2)

theorem determinizeArrows_eq (alphabet : Alphabet) (compact : Bool) :
    (automaton.determinizeArrows alphabet compact).automaton =
      (copy.determinizeArrows alphabet compact).automaton := by
  have numbers : (automaton.arrows.starts automaton).map (number automaton alphabet) =
      (copy.arrows.starts copy).map (number copy alphabet) := by
    rw [← List.forall₂_eq_eq_eq, List.forall₂_map_left_iff, List.forall₂_map_right_iff]
    exact mirrors.starts.imp fun _ _ partners => mirrors.number_eq partners
  rw [determinizeArrows_toAutomaton, determinizeArrows_toAutomaton, mirrors.table_eq, numbers]

end Mirrors

/-- Where there is nothing to follow for free, optimizing drops what is out of reach and what is listed
again. -/
theorem EpsilonDead.mirrors_optimized (dead : automaton.EpsilonDead) (closed : automaton.Closed)
    (distinct : automaton.sources.Nodup) :
    Mirrors automaton (automaton.shortened.select (.ofList automaton.kept)) (.ofList automaton.kept) := by
  have covers := covers_kept closed
  have next (id : StateId) : automaton.shortened.next id = (automaton.next id).eraseDups :=
    (shortened_next distinct id).trans (dead.shortcutGraph_next id)
  have source : ∀ id ∈ automaton.sources, id ∈ (KeySet.ofList automaton.kept).toList := by
    have listed := covers.source
    rwa [dead.shortened_sources] at listed
  refine ⟨⟨?_, ?_, source, covers.accept⟩, ?_, rfl, ?_, ?_⟩
  · exact fun id inside => (covers.lt id inside).trans_eq size_shortened
  · intro id inside after edge
    apply covers.next id inside after
    rwa [next, List.mem_eraseDups]
  · rw [select, dead.shortened_sources]
    refine eraseDups_of_nodup (List.Nodup.map_on ?_ distinct)
    exact fun first left second right => KeySet.place_inj (source first left) (source second right)
  · intro id inside after
    rw [select_next covers inside, next, List.mem_map]
    simp only [List.mem_eraseDups]
  · exact fun id inside byte => (select_reads covers inside byte).trans shortened_reads

theorem prepare_of_reduced (closed : automaton.Closed) (reduced : automaton.Reduced) :
    automaton.prepare = .ok automaton := by
  rw [prepare, optimize_of_reduced closed reduced, ite_self]

/-- Optimizing an automaton first makes no difference to the subset construction: the states of the result,
their numbers and their transitions are the same. -/
theorem determinize_optimize (closed : automaton.Closed) (distinct : automaton.sources.Nodup)
    (alphabet : Alphabet) (compact : Bool) :
    ∃ optimized direct indirect, automaton.optimize = .ok optimized ∧
      automaton.determinize alphabet compact = .ok direct ∧
      optimized.determinize alphabet compact = .ok indirect ∧ direct.automaton = indirect.automaton := by
  obtain ⟨optimized, succeeds, tidy, reduced⟩ := reduced_optimize closed distinct
  have made {given prepared : Automaton} (prepares : given.prepare = .ok prepared) :
      given.determinize alphabet compact = .ok (prepared.determinizeArrows alphabet compact) :=
    determinize_eq_ok_iff.mpr ⟨prepared, prepares, rfl⟩
  have indirect := made (prepare_of_reduced tidy reduced)
  by_cases free : automaton.isEpsilonFree
  · refine ⟨optimized, _, _, succeeds, made (if_pos free), indirect, ?_⟩
    obtain ⟨_, rfl⟩ := eq_of_optimize succeeds
    have dead := epsilonDead_of_isEpsilonFree closed free
    exact (dead.mirrors_optimized closed distinct).determinizeArrows_eq alphabet compact
  · -- It would have been optimized anyway.
    exact ⟨optimized, _, _, succeeds, made ((if_neg free).trans succeeds), indirect, rfl⟩

def cluttered : Automaton where
  states := #[.consuming .any [1, 1, 3], .consuming (.single 0x61) [1, 3, 0, 3], .consuming .any [0], .epsilon []]
  sources := [1, 0]
  accept := 3

theorem determinize_optimize_cluttered : cluttered.Closed ∧ cluttered.sources.Nodup ∧
    ∃ optimized direct indirect, cluttered.optimize = .ok optimized ∧
      cluttered.determinize .all true = .ok direct ∧
      optimized.determinize .all true = .ok indirect ∧ direct.automaton = indirect.automaton :=
  ⟨by decide, by decide, determinize_optimize (by decide) (by decide) .all true⟩

end Automaton

end ByteRegex
