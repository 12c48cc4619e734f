import ByteRegex.Proofs.Determinization
import ByteRegex.Proofs.Serialization
import ByteRegex.Proofs.Threads
import ByteRegex.Proofs.Validation

/-! Automata that were read from flat arrays, and what can be done with them. Every stage takes any of
them, however it was put together, unless it lists a source twice that is optimized out. -/

namespace ByteRegex

variable {automaton : Automaton}

/-- Everything that the subset construction looks up by its number is there. -/
structure Arrows.InRange (automaton : Automaton) : Prop where
  start : ∀ index < automaton.sources.length,
    (∅ : ArrowSet automaton).insert? index = .ok (.singleton index)
  target : ∀ arrow < automaton.arrows.width,
    ∃ id < automaton.size, automaton.arrows.targets[arrow]? = some id
  outgoing : ∀ id < automaton.size, ∃ set, automaton.arrows.outgoing[id]? = some set

theorem Arrows.inRange (closed : automaton.Closed) : Arrows.InRange automaton := by
  refine ⟨?_, ?_, ?_⟩
  · intro index inside
    have below : index < automaton.arrows.width := by
      rw [Automaton.arrows, ofAutomaton, List.length_append]
      exact Nat.lt_add_right _ inside
    rw [IndexSet.insert?, if_pos below]
    rfl
  · intro arrow inside
    have found : automaton.arrows.targets[arrow]? = some _ := Array.getElem?_eq_getElem inside
    refine ⟨_, ?_, found⟩
    rw [← Array.getElem?_toList, targets_eq] at found
    rcases List.mem_append.mp (List.mem_of_getElem? found) with source | target
    · exact closed.source_lt _ source
    · obtain ⟨state, member, edge⟩ := List.mem_flatMap.mp target
      exact (Automaton.closed_iff.mp closed).1 state (Array.mem_toList_iff.mp member) _ edge
  · intro id inside
    rw [getElem?_outgoing, Array.getElem?_eq_getElem inside]
    exact ⟨_, rfl⟩

namespace Automaton

theorem valid_of_closed (closed : automaton.Closed) (listed : automaton.sources ≠ []) : automaton.Valid := by
  obtain ⟨bounded, source_lt, epsilon, sink⟩ := closed_iff.mp closed
  obtain ⟨back, found⟩ := isEpsilon_iff.mp epsilon
  exact ⟨bounded, listed, source_lt, back, sink ▸ found⟩

/-- Whatever is looked up by its number exists, for each of the stages and for the scanner. -/
structure Usable (automaton : Automaton) : Prop where
  valid : automaton.Valid
  /-- No transition of the optimizer leads to a state that is optimized out. -/
  remaining : automaton.shortened.Covers (.ofList automaton.kept)
  arrows : Arrows.InRange automaton
  met : ∀ word, ∀ id ∈ ((Scanner.ofAutomaton automaton).after word).visited.toList, id < automaton.size

theorem Valid.usable (valid : automaton.Valid) : automaton.Usable := by
  refine ⟨valid, covers_kept valid.closed, Arrows.inRange valid.closed, ?_⟩
  intro word id met
  have closed : (Scanner.ofAutomaton automaton).automaton.Closed := valid.closed
  exact closed.reaches_lt (((Scanner.after_at closed word).visited id).mp met)

end Automaton

inductive Stage
  | optimize
  | determinize (alphabet : Alphabet) (compact : Bool)

namespace Stage

def apply (automaton : Automaton) : Stage → Except Fault Automaton
  | optimize => automaton.optimize
  | determinize alphabet compact => return (← automaton.determinize alphabet compact).automaton

def applyAll (automaton : Automaton) (stages : List Stage) : Except Fault Automaton :=
  stages.foldlM apply automaton

def Admits (word : List UInt8) : Stage → Prop
  | optimize => True
  | determinize alphabet _ => ∀ byte ∈ word, alphabet.contains byte

theorem apply_of_settled (valid : automaton.Valid) (settled : automaton.Settled) (stage : Stage) :
    ∃ result, stage.apply automaton = .ok result ∧ result.Valid ∧ result.Settled ∧
      ∀ word, result.Accepts word ↔ automaton.Accepts word ∧ stage.Admits word := by
  cases stage with
  | optimize =>
    obtain ⟨result, succeeds, closed, distinct, _, same⟩ := Automaton.optimize_of_settled valid.closed settled
    have listed := Automaton.sources_optimize_ne_nil succeeds valid.sources_ne_nil
    refine ⟨result, succeeds, Automaton.valid_of_closed closed listed, Automaton.settled_of_nodup distinct, ?_⟩
    intro word
    rw [same, Admits, and_true]
  | determinize alphabet compact =>
    obtain ⟨result, succeeds, closed, same⟩ :=
      Automaton.determinize_of_settled valid.closed settled alphabet compact
    obtain ⟨distinct, listed⟩ := Automaton.sources_determinize succeeds valid.sources_ne_nil
    refine ⟨result.automaton, ?_, Automaton.valid_of_closed closed listed,
      Automaton.settled_of_nodup distinct, same⟩
    rw [apply, succeeds]
    rfl

theorem apply_of_unsettled (closed : automaton.Closed) (unsettled : ¬ automaton.Settled) (stage : Stage) :
    stage.apply automaton = .error .danglingSource := by
  cases stage with
  | optimize => exact (Automaton.optimize_eq_error_iff closed).mpr ⟨rfl, unsettled⟩
  | determinize alphabet compact =>
    rw [apply, Automaton.determinize_of_unsettled closed unsettled]
    rfl

theorem applyAll_of_settled (valid : automaton.Valid) (settled : automaton.Settled) (stages : List Stage) :
    ∃ result, applyAll automaton stages = .ok result ∧ result.Valid ∧
      ∀ word, result.Accepts word ↔ automaton.Accepts word ∧ ∀ stage ∈ stages, stage.Admits word := by
  induction stages generalizing automaton with
  | nil => exact ⟨automaton, rfl, valid, by simp⟩
  | cons stage stages ih =>
    obtain ⟨next, succeeds, valid, settled, kept⟩ := apply_of_settled valid settled stage
    obtain ⟨result, finishes, valid, same⟩ := ih valid settled
    refine ⟨result, ?_, valid, ?_⟩
    · rw [applyAll, List.foldlM_cons, succeeds]
      exact finishes
    · intro word
      rw [same, kept, List.forall_mem_cons, and_assoc]

theorem applyAll_of_unsettled (closed : automaton.Closed) (unsettled : ¬ automaton.Settled)
    {stages : List Stage} (nonempty : stages ≠ []) : applyAll automaton stages = .error .danglingSource := by
  obtain ⟨stage, others, rfl⟩ := List.exists_cons_of_ne_nil nonempty
  rw [applyAll, List.foldlM_cons, apply_of_unsettled closed unsettled]
  rfl

end Stage

namespace FlatAutomaton

/-- Any stages can be applied to an automaton that was read from flat arrays, in any order and with
scans in between, if each source that is optimized out is listed once. Otherwise every stage fails. -/
theorem applyAll_toAutomaton {flat : FlatAutomaton} (loaded : flat.toAutomaton = .ok automaton)
    (stages : List Stage) :
    (stages = [] ∨ automaton.Settled → ∃ result, Stage.applyAll automaton stages = .ok result ∧
      result.Usable ∧ ∀ word, ((Scanner.ofAutomaton result).isMatch word).1 ↔
        automaton.Accepts word ∧ ∀ stage ∈ stages, stage.Admits word) ∧
    (stages ≠ [] → ¬ automaton.Settled → Stage.applyAll automaton stages = .error .danglingSource) := by
  have valid := valid_of_toAutomaton loaded
  constructor
  · intro possible
    have finished : ∃ result, Stage.applyAll automaton stages = .ok result ∧ result.Valid ∧
        ∀ word, result.Accepts word ↔ automaton.Accepts word ∧ ∀ stage ∈ stages, stage.Admits word := by
      rcases possible with rfl | settled
      · exact ⟨automaton, rfl, valid, by simp⟩
      · exact Stage.applyAll_of_settled valid settled stages
    obtain ⟨result, finishes, valid, same⟩ := finished
    refine ⟨result, finishes, valid.usable, ?_⟩
    exact fun word => (Scanner.isMatch_iff valid.closed word).trans (same word)
  · exact fun nonempty unsettled => Stage.applyAll_of_unsettled valid.closed unsettled nonempty

/-- A consuming source that is listed again, epsilon states that lead to each other, a source that no
other state leads to, an accepting source, and states that share their successors. -/
def knotted : FlatAutomaton where
  states := #[⟨0, 2, 0, 0, 1⟩, ⟨0, 2, 0, 1, 0⟩, ⟨1, 2, 0, 0, 5⟩, ⟨3, 0, 1, 0, 1⟩, ⟨2, 2, 0, 1, 0⟩]
  next := #[1, 2, 0, 3]
  ranges := #[⟨0x61, 0x7a⟩]
  sources := [1, 0, 3, 1, 4]
  accept := 3

def knottedStages : List Stage :=
  [.optimize, .determinize (.ofBytes [0x61, 0x30]) true, .determinize (.ofBytes [0x61]) false]

theorem applyAll_toAutomaton_knotted :
    knotted.toAutomaton = .ok knotted.described ∧ knotted.described.Settled ∧
    ∃ result, Stage.applyAll knotted.described knottedStages = .ok result ∧ result.Usable ∧
      ∀ word, ((Scanner.ofAutomaton result).isMatch word).1 ↔
        knotted.described.Accepts word ∧ ∀ stage ∈ knottedStages, stage.Admits word := by
  have loaded : knotted.toAutomaton = .ok knotted.described := rfl
  have settled : knotted.described.Settled := by decide +kernel
  exact ⟨loaded, settled, (applyAll_toAutomaton loaded knottedStages).1 (.inr settled)⟩

/-- An epsilon source that is listed again. -/
def doubled : FlatAutomaton where
  states := #[⟨0, 1, 0, 0, 1⟩, ⟨1, 1, 0, 1, 0⟩, ⟨2, 0, 1, 0, 1⟩]
  next := #[1, 2]
  ranges := #[⟨0x61, 0x61⟩]
  sources := [0, 0]
  accept := 2

theorem applyAll_doubled : doubled.toAutomaton = .ok doubled.described ∧
    Stage.applyAll doubled.described [.optimize] = .error .danglingSource ∧
    Stage.applyAll doubled.described [.determinize (.ofBytes [0x61]) true] = .error .danglingSource := by
  have loaded : doubled.toAutomaton = .ok doubled.described := rfl
  have closed := (valid_of_toAutomaton loaded).closed
  have unsettled : ¬ doubled.described.Settled := by decide +kernel
  exact ⟨loaded, Stage.applyAll_of_unsettled closed unsettled (List.cons_ne_nil _ _),
    Stage.applyAll_of_unsettled closed unsettled (List.cons_ne_nil _ _)⟩

end FlatAutomaton

end ByteRegex
