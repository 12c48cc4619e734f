import ByteRegex.Proofs.Closures
import ByteRegex.Scanner

/-! The scanner decides acceptance. Between two bytes it has met exactly the states that the input
so far can lead to; when no thread is left, no longer input leads anywhere. -/

namespace ByteRegex

namespace Automaton

variable {automaton : Automaton} {id : StateId} {byte : UInt8} {word : List UInt8}

theorem reaches_nil_iff : automaton.Reaches [] id ↔
    ∃ source ∈ automaton.sources, automaton.epsilonGraph.Leads source id := by
  simp only [Reaches, path_nil_iff]

/-- Before a byte is read, the input leads to a state that consumes it. -/
theorem path_after_iff {start : StateId} {rest : List UInt8} :
    automaton.Path start (word ++ byte :: rest) id ↔
      ∃ middle, automaton.Path start word middle ∧ automaton.reads middle byte ∧
        ∃ after ∈ automaton.next middle, automaton.Path after rest id := by
  rw [path_append_iff]
  constructor
  · intro ⟨between, before, path⟩
    obtain ⟨middle, leads, continues⟩ := path_cons_iff.mp path
    refine ⟨middle, ?_, continues⟩
    simpa using before.append (path_nil_iff.mpr leads)
  · intro ⟨middle, before, continues⟩
    exact ⟨middle, before, path_cons_iff.mpr ⟨middle, .refl, continues⟩⟩

theorem reaches_concat_iff : automaton.Reaches (word ++ [byte]) id ↔
    ∃ middle, automaton.Reaches word middle ∧ automaton.reads middle byte ∧
      ∃ after ∈ automaton.next middle, automaton.epsilonGraph.Leads after id := by
  simp only [Reaches, path_after_iff, path_nil_iff]
  constructor
  · intro ⟨source, listed, middle, path, ends⟩
    exact ⟨middle, ⟨source, listed, path⟩, ends⟩
  · intro ⟨middle, ⟨source, listed, path⟩, ends⟩
    exact ⟨source, listed, middle, path, ends⟩

end Automaton

namespace Scanner

variable {automaton : Automaton} {scanner : Scanner} {word : List UInt8} {byte : UInt8}

/-- What a scanner knows of an automaton after an input. -/
structure At (automaton : Automaton) (scanner : Scanner) (word : List UInt8) : Prop where
  closed : automaton.Closed
  same : scanner.automaton = automaton
  visited : ∀ id, id ∈ scanner.visited.toList ↔ automaton.Reaches word id
  threads : scanner.threads.toList = scanner.visited.toList.filter (!automaton.isEpsilon ·)
  accepting : scanner.accepting = scanner.visited.contains automaton.accept

theorem At.mem_threads (here : At automaton scanner word) {id : StateId} :
    id ∈ scanner.threads.toList ↔ automaton.Reaches word id ∧ ¬ automaton.isEpsilon id := by
  rw [here.threads, List.mem_filter, here.visited]
  simp

theorem At.accepting_iff (here : At automaton scanner word) :
    scanner.accepting ↔ automaton.Accepts word := by
  rw [here.accepting, KeySet.contains_iff, here.visited]
  rfl

theorem start_at (scanner : Scanner) (closed : scanner.automaton.Closed) :
    At scanner.automaton scanner.start [] := by
  obtain ⟨sorted, met⟩ := Automaton.foldl_close_cleared closed scanner.automaton.sources scanner.visited
    scanner.threads scanner.idle
  refine ⟨closed, rfl, ?_, sorted.threads, sorted.accepting⟩
  exact fun id => (met id).trans Automaton.reaches_nil_iff.symm

theorem mem_successors {after : StateId} : after ∈ scanner.successors byte ↔
    ∃ id ∈ scanner.threads.toList, scanner.automaton.reads id byte ∧ after ∈ scanner.automaton.next id := by
  rw [successors, List.mem_flatMap]
  constructor
  · intro found
    obtain ⟨id, thread, edge⟩ := found
    split at edge
    next state found =>
      split at edge
      next consumes =>
        exact ⟨id, thread, by simpa [Automaton.reads, found] using consumes, Automaton.mem_next_of found edge⟩
      next => cases edge
    next => cases edge
  · intro follows
    obtain ⟨id, thread, consumes, edge⟩ := follows
    obtain ⟨state, found, consumes⟩ := (Option.any_eq_true _ _).mp consumes
    refine ⟨id, thread, ?_⟩
    simpa only [found, if_pos consumes, Automaton.next_of found] using edge

theorem At.step (here : At automaton scanner word) (byte : UInt8) :
    At automaton (scanner.step byte) (word ++ [byte]) := by
  obtain rfl := here.same
  obtain ⟨sorted, met⟩ := Automaton.foldl_close_cleared here.closed (scanner.successors byte)
    scanner.visited scanner.nextThreads scanner.idle
  refine ⟨here.closed, rfl, ?_, sorted.threads, sorted.accepting⟩
  intro id
  rw [Automaton.reaches_concat_iff]
  refine (met id).trans ?_
  constructor
  · intro ⟨after, pending, leads⟩
    obtain ⟨middle, thread, consumes, edge⟩ := mem_successors.mp pending
    exact ⟨middle, (here.mem_threads.mp thread).1, consumes, after, edge, leads⟩
  · intro ⟨middle, reached, consumes, after, edge, leads⟩
    have thread := here.mem_threads.mpr ⟨reached, Automaton.not_isEpsilon_of_reads consumes⟩
    exact ⟨after, mem_successors.mpr ⟨middle, thread, consumes, edge⟩, leads⟩

theorem At.lost (here : At automaton scanner word) (dead : scanner.threads.isEmpty) (byte : UInt8)
    (rest : List UInt8) : ¬ automaton.Accepts (word ++ byte :: rest) := by
  intro ⟨source, listed, path⟩
  obtain ⟨middle, before, consumes, _⟩ := Automaton.path_after_iff.mp path
  have thread := here.mem_threads.mpr ⟨⟨source, listed, before⟩, Automaton.not_isEpsilon_of_reads consumes⟩
  simp [KeySet.isEmpty_iff.mp dead] at thread

/-- The rest of the input is consumed to its end or cannot be accepted. -/
theorem At.run (here : At automaton scanner word) (input : List UInt8) :
    ((scanner.run input).2.isEmpty && (scanner.run input).1.accepting) ↔
      automaton.Accepts (word ++ input) := by
  induction input generalizing scanner word with
  | nil => simpa [Scanner.run] using here.accepting_iff
  | cons byte rest ih =>
    rw [Scanner.run]
    split
    next dead =>
      have lost := here.lost dead byte rest
      simpa using lost
    next =>
      rw [ih (here.step byte), List.append_assoc, List.singleton_append]

theorem isMatch_iff {scanner : Scanner} (closed : scanner.automaton.Closed) (input : List UInt8) :
    (scanner.isMatch input).1 ↔ scanner.automaton.Accepts input :=
  (scanner.start_at closed).run input

end Scanner

end ByteRegex
