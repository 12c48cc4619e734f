import ByteRegex.Proofs.Recording
import ByteRegex.Proofs.Search

/-! Reuse of a scanner. What a scan leaves in the sets of the scanner is cleared before it is looked at,
on whichever way the scan ended, so the next scan of a word or of a reader goes as it would with a new
scanner. -/

namespace ByteRegex

/-- The searches differ at most in what the bitmaps of their sets cover. -/
structure Closure.Alike (first second : Closure) : Prop where
  visited : first.visited.toList = second.visited.toList
  stack : first.stack = second.stack
  threads : first.threads.toList = second.threads.toList
  accepting : first.accepting = second.accepting

namespace Automaton

variable {first second : Closure}

theorem visit_alike (automaton : Automaton) (id : StateId) (alike : first.Alike second) :
    (automaton.visit id first).Alike (automaton.visit id second) := by
  obtain ⟨visited, stack, threads, accepting⟩ := first
  obtain ⟨visited', stack', threads', accepting'⟩ := second
  obtain ⟨met, rfl, live, rfl⟩ : visited.toList = visited'.toList ∧ stack = stack' ∧
    threads.toList = threads'.toList ∧ accepting = accepting' := ⟨alike.1, alike.2, alike.3, alike.4⟩
  have grown := KeySet.toList_insert_congr met id
  rw [visit_eq, visit_eq, KeySet.contains_congr met]
  split
  · exact alike
  split
  · exact ⟨grown, rfl, KeySet.toList_insert_congr live id, rfl⟩
  split
  · exact ⟨grown, rfl, live, rfl⟩
  · exact ⟨grown, rfl, live, rfl⟩

theorem settle_alike (automaton : Automaton) (alike : first.Alike second) :
    (automaton.settle first).Alike (automaton.settle second) := by
  fun_induction automaton.settle first generalizing second with
  | case1 visited threads accepting =>
    obtain ⟨visited', stack', threads', accepting'⟩ := second
    obtain rfl : [] = stack' := alike.stack
    rwa [settle]
  | case2 visited id stack threads accepting ih =>
    obtain ⟨visited', stack', threads', accepting'⟩ := second
    obtain rfl : id :: stack = stack' := alike.stack
    rw [settle]
    exact ih (automaton.visit_alike id ⟨alike.visited, rfl, alike.threads, alike.accepting⟩)

theorem foldl_close_alike (automaton : Automaton) (starts : List StateId) (alike : first.Alike second) :
    (starts.foldl automaton.close first).Alike (starts.foldl automaton.close second) := by
  induction starts generalizing first second with
  | nil => exact alike
  | cons start rest ih =>
    apply ih
    apply automaton.settle_alike
    exact ⟨alike.visited, congrArg (start :: ·) alike.stack, alike.threads, alike.accepting⟩

end Automaton

namespace Scanner

variable {ρ : Type} [Reader ρ] {first second : Scanner}

/-- The scanners go on in the same way. Neither the states met before nor the set that the next threads
are collected in has a part in it. -/
structure Alike (first second : Scanner) : Prop where
  automaton : first.automaton = second.automaton
  threads : first.threads.toList = second.threads.toList
  accepting : first.accepting = second.accepting

theorem cleared_alike (first second : Scanner) (threads threads' : KeySet) :
    (Closure.mk first.visited.clear first.stack threads.clear false).Alike
      (Closure.mk second.visited.clear second.stack threads'.clear false) :=
  ⟨rfl, first.idle.trans second.idle.symm, rfl, rfl⟩

theorem start_alike (same : first.automaton = second.automaton) : Alike first.start second.start := by
  have closes := second.automaton.foldl_close_alike second.automaton.sources
    (cleared_alike first second first.threads second.threads)
  refine ⟨same, ?_, ?_⟩ <;> simp only [start, same]
  · exact closes.threads
  · exact closes.accepting

theorem Alike.step (alike : Alike first second) (byte : UInt8) : Alike (first.step byte) (second.step byte) := by
  have follow : first.successors byte = second.successors byte := by
    rw [successors, successors, alike.threads, alike.automaton]
  have closes := second.automaton.foldl_close_alike (second.successors byte)
    (cleared_alike first second first.nextThreads second.nextThreads)
  refine ⟨alike.automaton, ?_, ?_⟩ <;> simp only [Scanner.step, follow, alike.automaton]
  · exact closes.threads
  · exact closes.accepting

theorem Alike.run (alike : Alike first second) (input : List UInt8) :
    (first.run input).2 = (second.run input).2 ∧ Alike (first.run input).1 (second.run input).1 := by
  induction input generalizing first second with
  | nil => exact ⟨rfl, alike⟩
  | cons byte rest ih =>
    -- Both go on or stop together, although the sets may have different bitmaps.
    have alive : first.threads.isEmpty = second.threads.isEmpty := by
      rw [Bool.eq_iff_iff, KeySet.isEmpty_iff, KeySet.isEmpty_iff, alike.threads]
    rw [Scanner.run, Scanner.run, alive]
    split
    · exact ⟨rfl, alike⟩
    · exact ih (alike.step byte)

theorem Alike.consume (alike : Alike first second) (reader : ρ) :
    (first.consume reader).result = (second.consume reader).result ∧
    (first.consume reader).unwound = (second.consume reader).unwound ∧
    (first.consume reader).reader = (second.consume reader).reader := by
  fun_induction Scanner.consume first reader generalizing second with
  | case1 first reader error after failed =>
    rw [consume_of_failure failed]
    exact ⟨rfl, rfl, rfl⟩
  | case2 first reader after ended =>
    rw [consume_of_end ended, alike.accepting]
    exact ⟨rfl, rfl, rfl⟩
  | case3 first reader byte chunk after read middle ran ih =>
    obtain ⟨rest, goes⟩ := alike.run (byte :: chunk)
    rw [ran] at rest goes
    rw [consume_of_chunk read (List.cons_ne_nil _ _) rest.symm]
    exact ih goes
  | case4 first reader byte chunk after read middle unexamined some ran =>
    obtain ⟨rest, goes⟩ := alike.run (byte :: chunk)
    rw [ran] at rest
    rw [consume_of_unexamined read (by rw [← rest]; exact some), ← rest]
    exact ⟨rfl, rfl, rfl⟩

theorem automaton_run (scanner : Scanner) (input : List UInt8) :
    (scanner.run input).1.automaton = scanner.automaton := by
  induction input generalizing scanner with
  | nil => rfl
  | cons byte rest ih =>
    rw [run]
    split
    · rfl
    · exact ih (scanner.step byte)

theorem automaton_consume (scanner : Scanner) (reader : ρ) :
    (scanner.consume reader).scanner.automaton = scanner.automaton := by
  fun_induction consume scanner reader with
  | case1 => rfl
  | case2 => rfl
  | case3 scanner reader byte chunk after read middle ran ih =>
    have same := scanner.automaton_run (byte :: chunk)
    rw [ran] at same
    exact ih.trans same
  | case4 scanner reader byte chunk after read middle unexamined some ran =>
    have same := scanner.automaton_run (byte :: chunk)
    rw [ran] at same
    exact same

end Scanner

/-- Something to scan: a word, or the input of a reader of any kind. -/
inductive Task : Type 1
  | word (input : List UInt8)
  | input {ρ : Type} [Reader ρ] (reader : ρ)

inductive Answer
  | word (matched : Bool)
  | input (result : Except ScanError Bool) (calls : List Call)

namespace Scanner

def answer (scanner : Scanner) : Task → Answer × Scanner
  | .word input =>
    let (matched, scanner) := scanner.isMatch input
    (.word matched, scanner)
  | @Task.input _ _ reader =>
    let scan := scanner.matchReader (Recorder.ofReader reader)
    (.input scan.result scan.reader.calls, scan.scanner)

def answers (scanner : Scanner) : List Task → List Answer
  | [] => []
  | task :: rest =>
    let (answer, scanner) := scanner.answer task
    answer :: scanner.answers rest

theorem automaton_answer (scanner : Scanner) (task : Task) :
    (scanner.answer task).2.automaton = scanner.automaton := by
  cases task with
  | word input => exact scanner.start.automaton_run input
  | @input ρ _ reader => exact scanner.start.automaton_consume (Recorder.ofReader reader)

theorem answer_eq {first second : Scanner} (same : first.automaton = second.automaton) (task : Task) :
    (first.answer task).1 = (second.answer task).1 := by
  have alike := start_alike same
  cases task with
  | word input =>
    obtain ⟨rest, goes⟩ := alike.run input
    simp only [answer, isMatch, rest, goes.accepting]
  | @input ρ _ reader =>
    obtain ⟨result, _, left⟩ := alike.consume (Recorder.ofReader reader)
    simp only [answer, matchReader, result, left]

/-- However a scanner was used before, it answers like a new one. -/
theorem answers_ofAutomaton (automaton : Automaton) (tasks : List Task) :
    (ofAutomaton automaton).answers tasks = tasks.map fun task => ((ofAutomaton automaton).answer task).1 := by
  have from_scanner (scanner : Scanner) (same : scanner.automaton = automaton) :
      scanner.answers tasks = tasks.map fun task => ((ofAutomaton automaton).answer task).1 := by
    induction tasks generalizing scanner with
    | nil => rfl
    | cons task rest ih =>
      rw [answers, List.map_cons]
      exact congrArg₂ _ (answer_eq same task) (ih _ ((scanner.automaton_answer task).trans same))
  exact from_scanner _ rfl

end Scanner

end ByteRegex
