import ByteRegex.Proofs.Compilation
import ByteRegex.Proofs.Stages

/-! What holds of an automaton after every stage. The parser establishes it, and each stage, which lays
out its result anew, hands it on. -/

namespace ByteRegex

/-- An automaton of the library that lists each of its sources once. -/
structure Automaton.Proper (automaton : Automaton) : Prop extends automaton.Valid where
  distinct : automaton.sources.Nodup

open Automaton

variable {automaton : Automaton} {classes : ClassTable} {pattern : String}

theorem Pattern.proper_toAutomaton (pattern : Pattern) : pattern.toAutomaton.Proper := by
  have listed : pattern.toAutomaton.sources ≠ [] := by
    rw [toAutomaton, ofArena_eq_select]
    exact select_sources_ne_nil (List.cons_ne_nil 0 [])
  exact ⟨valid_of_closed pattern.closed_toAutomaton listed, pattern.nodup_toAutomaton_sources⟩

theorem exists_tree_of_parse (accepted : parse classes pattern = .ok automaton) :
    ∃ tree, Pattern.parse classes pattern.toUTF8.data = .ok tree ∧ tree.toAutomaton = automaton := by
  rw [parse] at accepted
  cases parsed : Pattern.parse classes pattern.toUTF8.data with
  | error error =>
    rw [parsed] at accepted
    cases accepted
  | ok tree =>
    rw [parsed] at accepted
    cases accepted
    exact ⟨tree, rfl, rfl⟩

theorem proper_parse (accepted : parse classes pattern = .ok automaton) : automaton.Proper := by
  obtain ⟨tree, _, rfl⟩ := exists_tree_of_parse accepted
  exact tree.proper_toAutomaton

theorem Automaton.Proper.optimize (proper : automaton.Proper) :
    ∃ optimized, automaton.optimize = .ok optimized ∧ optimized.Proper := by
  obtain ⟨optimized, succeeds, closed, distinct, _⟩ := optimize_spec proper.closed proper.distinct
  have listed := sources_optimize_ne_nil succeeds proper.sources_ne_nil
  exact ⟨optimized, succeeds, valid_of_closed closed listed, distinct⟩

theorem Automaton.Proper.determinize (proper : automaton.Proper) (alphabet : Alphabet) (compact : Bool) :
    ∃ result, automaton.determinize alphabet compact = .ok result ∧ result.automaton.Proper := by
  obtain ⟨result, succeeds, closed, _⟩ := determinize_spec proper.closed proper.distinct alphabet compact
  obtain ⟨distinct, listed⟩ := sources_determinize succeeds proper.sources_ne_nil
  exact ⟨result, succeeds, valid_of_closed closed listed, distinct⟩

namespace Stage

theorem proper_apply (proper : automaton.Proper) (stage : Stage) :
    ∃ result, stage.apply automaton = .ok result ∧ result.Proper := by
  cases stage with
  | optimize => exact proper.optimize
  | determinize alphabet compact =>
    obtain ⟨result, succeeds, proper⟩ := proper.determinize alphabet compact
    refine ⟨result.automaton, ?_, proper⟩
    rw [apply, succeeds]
    rfl

theorem proper_applyAll (proper : automaton.Proper) (stages : List Stage) :
    ∃ result, applyAll automaton stages = .ok result ∧ result.Proper := by
  induction stages generalizing automaton with
  | nil => exact ⟨automaton, rfl, proper⟩
  | cons stage stages ih =>
    obtain ⟨next, succeeds, proper⟩ := proper_apply proper stage
    obtain ⟨result, finishes, proper⟩ := ih proper
    refine ⟨result, ?_, proper⟩
    rw [applyAll, List.foldlM_cons, succeeds]
    exact finishes

end Stage

/-- The parser gives a proper automaton, either stage makes a proper automaton of any proper one, and so
whatever stages follow a parse, they all succeed and the last result is proper. -/
theorem proper_of_parse (accepted : parse classes pattern = .ok automaton) :
    automaton.Proper ∧
    (∀ before : Automaton, before.Proper →
      (∃ optimized, before.optimize = .ok optimized ∧ optimized.Proper) ∧
      ∀ alphabet compact, ∃ result, before.determinize alphabet compact = .ok result ∧
        result.automaton.Proper) ∧
    ∀ stages, ∃ result, Stage.applyAll automaton stages = .ok result ∧ result.Proper := by
  have proper := proper_parse accepted
  refine ⟨proper, ?_, Stage.proper_applyAll proper⟩
  exact fun _ proper => ⟨proper.optimize, proper.determinize⟩

theorem proper_of_parse_loops :
    parse .standard "(a?)+|\\d*" = .ok loops.toAutomaton ∧ tangled.Proper ∧ loops.toAutomaton.Proper ∧
    ((∃ optimized, tangled.optimize = .ok optimized ∧ optimized.Proper) ∧
      ∀ alphabet compact, ∃ result, tangled.determinize alphabet compact = .ok result ∧
        result.automaton.Proper) ∧
    ∀ stages, ∃ result, Stage.applyAll loops.toAutomaton stages = .ok result ∧ result.Proper := by
  have knot : tangled.Proper := ⟨valid_of_closed (by decide) (by decide), by decide⟩
  obtain ⟨proper, stages, all⟩ := proper_of_parse parse_loops
  exact ⟨parse_loops, knot, proper, stages tangled knot, all⟩

end ByteRegex
