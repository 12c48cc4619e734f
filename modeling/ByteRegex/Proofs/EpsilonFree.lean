import ByteRegex.Proofs.Determinism
import ByteRegex.Proofs.Invariants
import ByteRegex.Proofs.Reduction

/-! What is left without epsilon states. If every epsilon state leads on to a consuming state or to the
accepting one, then the optimizer removes all of them but the accepting state. The automata of patterns
are of this kind: whatever a block of states loops through, there is always a way out of it. -/

namespace ByteRegex

namespace Automaton

/-- Epsilon states lead to a consuming state or to the exit. -/
def Escapes (automaton : Automaton) (id exit : StateId) : Prop :=
  ∃ final, automaton.epsilonGraph.Leads id final ∧ (automaton.isConsuming final ∨ final = exit)

/-- Only the accepting state may be a dead end, and no epsilon states lead only to each other. -/
def Escaping (automaton : Automaton) : Prop :=
  ∀ id, automaton.isFork id → automaton.Escapes id automaton.accept

variable {automaton optimized : Automaton} {order : KeySet} {id after middle exit final : StateId}

namespace Escapes

theorem here (automaton : Automaton) (exit : StateId) : automaton.Escapes exit exit :=
  ⟨exit, .refl, .inr rfl⟩

theorem of_isConsuming (consuming : automaton.isConsuming id) : automaton.Escapes id exit :=
  ⟨id, .refl, .inl consuming⟩

theorem jump {back : Bool} {next : List StateId} (found : automaton.states[id]? = some ⟨.epsilon, back, next⟩)
    (edge : after ∈ next) (escapes : automaton.Escapes after exit) : automaton.Escapes id exit := by
  obtain ⟨final, leads, ends⟩ := escapes
  have edge := mem_epsilonGraph_next.mpr ⟨isEpsilon_of found, mem_next_of found edge⟩
  exact ⟨final, leads.step edge, ends⟩

theorem trans (first : automaton.Escapes id middle) (second : automaton.Escapes middle exit) :
    automaton.Escapes id exit := by
  obtain ⟨stop, leads, consuming | rfl⟩ := first
  · exact ⟨stop, leads, .inl consuming⟩
  · obtain ⟨final, onward, ends⟩ := second
    exact ⟨final, Relation.ReflTransGen.trans leads onward, ends⟩

theorem select (covers : automaton.Covers order) (inside : id ∈ order.toList)
    (escapes : automaton.Escapes id exit) :
    (automaton.select order).Escapes (order.place id) (order.place exit) := by
  obtain ⟨final, leads, ends⟩ := escapes
  induction leads using Relation.ReflTransGen.head_induction_on with
  | refl =>
    cases ends with
    | inl consuming => exact .of_isConsuming ((select_isConsuming covers inside).trans consuming)
    | inr same => exact same ▸ here _ _
  | head edge _ ih =>
    obtain ⟨epsilon, edge⟩ := mem_epsilonGraph_next.mp edge
    have reached := covers.next _ inside _ edge
    obtain ⟨_, found⟩ := isEpsilon_iff.mp ((select_isEpsilon covers inside).trans epsilon)
    refine jump found ?_ (ih reached)
    rw [select_next covers inside]
    exact List.mem_map_of_mem edge

end Escapes

theorem Escaping.select (escaping : automaton.Escaping) (covers : automaton.Covers order) :
    (automaton.select order).Escaping := by
  intro id fork
  obtain ⟨old, inside, rfl⟩ := exists_place covers (lt_of_isEpsilon (isFork_iff.mp fork).1)
  rw [select_isFork covers inside] at fork
  exact (escaping old fork).select covers inside

theorem Escapes.shortcuts_ne_nil (closed : automaton.Closed) (fork : automaton.isFork id)
    (escapes : automaton.Escapes id automaton.accept) : automaton.shortcutGraph.next id ≠ [] := by
  obtain ⟨epsilon, other⟩ := isFork_iff.mp fork
  obtain ⟨final, leads, ends⟩ := escapes
  have ending : automaton.isEnding final := by
    cases ends with
    | inl consuming => simp [isEnding, (isConsuming_iff.mp consuming).2]
    | inr accepts => exact accepts ▸ isEnding_accept closed
  cases Relation.ReflTransGen.cases_head leads with
  | inl same =>
    subst same
    cases ends with
    | inl consuming => exact absurd epsilon (isConsuming_iff.mp consuming).2
    | inr accepts => exact absurd accepts other
  | inr onward =>
    obtain ⟨after, edge, leads⟩ := onward
    have edge := (mem_epsilonGraph_next.mp edge).2
    exact List.ne_nil_of_mem (mem_shortcutGraph_next.mpr ⟨ending, after, edge, leads⟩)

theorem isEpsilonFree_of_escaping (closed : automaton.Closed) (escaping : automaton.Escaping)
    (succeeds : automaton.optimize = .ok optimized) : optimized.isEpsilonFree := by
  obtain ⟨_, rfl⟩ := eq_of_optimize succeeds
  have covers := covers_kept closed
  refine isEpsilonFree_iff.mpr fun id epsilon => ?_
  obtain ⟨old, inside, rfl⟩ := exists_place covers (lt_of_isEpsilon epsilon)
  rw [select_isEpsilon covers inside, shortened_isEpsilon] at epsilon
  have nothing := shortcuts_of_kept closed (KeySet.mem_ofList.mp inside) epsilon
  by_cases accepts : old = automaton.accept
  · rw [accepts]
    rfl
  · have fork := isFork_iff.mpr ⟨epsilon, accepts⟩
    exact absurd nothing ((escaping old fork).shortcuts_ne_nil closed fork)

end Automaton

namespace Pattern

open Automaton

variable {automaton : Automaton} {base follow id : Nat} {pattern : Pattern}

theorem le_entry (pattern : Pattern) (base : Nat) : base ≤ pattern.entry base := by
  induction pattern generalizing base with
  | concat first _ ih => exact ih base
  | oneOrMore body ih => exact Nat.le_trans (Nat.le_add_right base 2) (ih (base + 2))
  | _ => exact Nat.le_refl base

/-- Every state of a block leads to a consuming state of it or out of it. -/
theorem escapes_block (holds : automaton.Holds base (pattern.block base follow)) (above : base ≤ id)
    (below : id < base + pattern.size) : automaton.Escapes id follow := by
  induction pattern generalizing base follow id with
  | bytes set =>
    obtain ⟨found, _⟩ := holds_cons.mp holds
    obtain rfl : id = base := by
      simp only [size] at below
      omega
    exact .of_isConsuming (by simp [isConsuming, found, State.consuming, State.isEpsilon])
  | concat first second ihFirst ihSecond =>
    simp only [size] at below
    obtain ⟨front, rear⟩ := holds_append.mp holds
    rw [length_block] at rear
    by_cases early : id < base + first.size
    · refine (ihFirst front above early).trans (ihSecond rear (second.le_entry _) ?_)
      exact second.entry_lt (Nat.le_refl _)
    · exact ihSecond rear (by omega) (by omega)
  | either first second ihFirst ihSecond =>
    simp only [size] at below
    obtain ⟨fork, holds⟩ := holds_cons.mp holds
    obtain ⟨join, holds⟩ := holds_cons.mp holds
    obtain ⟨upper, lower⟩ := holds_append.mp holds
    rw [length_block] at lower
    have leaves : automaton.Escapes (base + 1) follow := .jump join List.mem_cons_self (.here _ _)
    by_cases start : id = base
    · subst start
      refine .jump fork List.mem_cons_self ((ihFirst upper (first.le_entry _) ?_).trans leaves)
      exact first.entry_lt (Nat.le_refl _)
    · by_cases last : id = base + 1
      · exact last ▸ leaves
      · by_cases early : id < base + 2 + first.size
        · exact (ihFirst upper (by omega) early).trans leaves
        · exact (ihSecond lower (by omega) (by omega)).trans leaves
  | optional body ih =>
    simp only [size] at below
    obtain ⟨fork, holds⟩ := holds_cons.mp holds
    obtain ⟨join, holds⟩ := holds_cons.mp holds
    have leaves : automaton.Escapes (base + 1) follow := .jump join List.mem_cons_self (.here _ _)
    by_cases start : id = base
    · subst start
      exact .jump fork (List.mem_pair.mpr (.inr rfl)) leaves
    · by_cases last : id = base + 1
      · exact last ▸ leaves
      · exact (ih holds (by omega) (by omega)).trans leaves
  | oneOrMore body ih =>
    simp only [size] at below
    obtain ⟨choice, holds⟩ := holds_cons.mp holds
    obtain ⟨back, holds⟩ := holds_cons.mp holds
    -- The choice leaves at once; another round leads to where it started.
    have leaves : automaton.Escapes base follow :=
      .jump choice (List.mem_pair.mpr (.inr rfl)) (.here _ _)
    by_cases start : id = base
    · exact start ▸ leaves
    · by_cases round : id = base + 1
      · subst round
        refine .jump back List.mem_cons_self ((ih holds (body.le_entry _) ?_).trans leaves)
        exact body.entry_lt (Nat.le_refl _)
      · exact (ih holds (by omega) (by omega)).trans leaves
  | zeroOrMore body ih =>
    simp only [size] at below
    obtain ⟨choice, holds⟩ := holds_cons.mp holds
    obtain ⟨back, holds⟩ := holds_cons.mp holds
    obtain ⟨out, holds⟩ := holds_cons.mp holds
    have exits : automaton.Escapes (base + 2) follow := .jump out List.mem_cons_self (.here _ _)
    have leaves : automaton.Escapes base follow := .jump choice (List.mem_pair.mpr (.inr rfl)) exits
    have returns : automaton.Escapes (base + 1) follow := .jump back List.mem_cons_self leaves
    by_cases start : id = base
    · exact start ▸ leaves
    · by_cases round : id = base + 1
      · exact round ▸ returns
      · by_cases last : id = base + 2
        · exact last ▸ exits
        · exact (ih holds (by omega) (by omega)).trans returns

theorem escaping_laidOut (pattern : Pattern) : pattern.laidOut.Escaping := by
  intro id fork
  obtain ⟨epsilon, other⟩ := isFork_iff.mp fork
  have inside := lt_of_isEpsilon epsilon
  rw [size_laidOut] at inside
  have escapes {id : StateId} (above : 2 ≤ id) (below : id < 2 + pattern.size) :
      pattern.laidOut.Escapes id pattern.laidOut.accept := escapes_block pattern.holds_laidOut above below
  match id with
  | 0 => exact .jump rfl List.mem_cons_self (escapes (pattern.le_entry 2) (pattern.entry_lt (Nat.le_refl _)))
  | 1 => exact absurd rfl other
  | id + 2 => exact escapes (Nat.le_add_left 2 id) inside

theorem escaping_toAutomaton (pattern : Pattern) : pattern.toAutomaton.Escaping := by
  rw [toAutomaton, ofArena_eq_select]
  exact pattern.escaping_laidOut.select (covers_walk pattern.closed_laidOut)

end Pattern

namespace Automaton

/-- If every epsilon state but the accepting one leads on, as in what the parser gives, the optimizer leaves
the accepting state as the only epsilon state. What it gives is reduced and has no more states than before. -/
theorem isEpsilonFree_optimize {automaton : Automaton} (closed : automaton.Closed)
    (distinct : automaton.sources.Nodup) (escaping : automaton.Escaping) :
    (∃ optimized, automaton.optimize = .ok optimized ∧ optimized.Closed ∧ optimized.isEpsilonFree ∧
      optimized.Reduced ∧ optimized.size ≤ automaton.size) ∧
    ∀ classes pattern parsed, parse classes pattern = .ok parsed →
      parsed.Closed ∧ parsed.sources.Nodup ∧ parsed.Escaping := by
  constructor
  · obtain ⟨optimized, succeeds, tidy, reduced⟩ := reduced_optimize closed distinct
    exact ⟨optimized, succeeds, tidy, isEpsilonFree_of_escaping closed escaping succeeds, reduced,
      size_optimize_le closed succeeds⟩
  · intro classes pattern parsed accepted
    have proper := proper_parse accepted
    obtain ⟨tree, _, rfl⟩ := exists_tree_of_parse accepted
    exact ⟨proper.closed, proper.distinct, tree.escaping_toAutomaton⟩

def coiled : Automaton where
  states := #[.epsilon [1, 2, 2], .loopback [0], .consuming .any [0, 4, 0], .consuming .any [3], .epsilon []]
  sources := [1, 0]
  accept := 4

theorem isEpsilonFree_optimize_coiled : coiled.Closed ∧ coiled.sources.Nodup ∧ coiled.Escaping ∧
    parse .standard "(a?)+|\\d*" = .ok loops.toAutomaton ∧
    (∃ optimized, coiled.optimize = .ok optimized ∧ optimized.Closed ∧ optimized.isEpsilonFree ∧
      optimized.Reduced ∧ optimized.size ≤ coiled.size) ∧
    loops.toAutomaton.Closed ∧ loops.toAutomaton.sources.Nodup ∧ loops.toAutomaton.Escaping := by
  have forward : coiled.Escapes 0 coiled.accept :=
    .jump rfl (List.mem_cons_of_mem 1 List.mem_cons_self) (.of_isConsuming rfl)
  have escaping : coiled.Escaping := by
    intro id fork
    match id with
    | 0 => exact forward
    | 1 => exact .jump rfl List.mem_cons_self forward
    | 2 | 3 | 4 => cases fork
    | id + 5 => exact absurd (lt_of_isEpsilon (isFork_iff.mp fork).1) (Nat.not_lt.mpr (Nat.le_add_left 5 id))
  obtain ⟨optimized, parsed⟩ := isEpsilonFree_optimize (by decide) (by decide) escaping
  exact ⟨by decide, by decide, escaping, parse_loops, optimized, parsed _ _ _ parse_loops⟩

end Automaton

end ByteRegex
