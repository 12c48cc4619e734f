import ByteRegex.Proofs.Recording
import ByteRegex.Proofs.Threads
import ByteRegex.Reader.Script
import Mathlib.Data.List.Infix

/-! Matching input that comes in chunks. Where the chunks begin and end is not seen in the result, nor
in how much input the scan takes: it takes everything, or the shortest prefix that leaves it without
threads. -/

namespace ByteRegex

/-- The reader yields these chunks and then its ending, which is the end of the input or a failure. As
long as no more is read, the last chunk can be pushed back, or any part of its end. -/
inductive Delivers {ρ : Type} [Reader ρ] (ending : Except ReadError Unit) : ρ → List (List UInt8) → Prop
  | finish {reader after} : Reader.read reader = (ending.map fun _ => [], after) →
      Delivers ending reader []
  | chunk {reader after chunk rest} : chunk ≠ [] → Reader.read reader = (.ok chunk, after) →
      (∀ count ≤ chunk.length, (Reader.unwind count after).1 = .ok ()) →
      Delivers ending after rest → Delivers ending reader (chunk :: rest)

namespace Call

def reads (chunks : List (List UInt8)) : List Call := chunks.map fun chunk => .read (.ok chunk)

theorem delivered_reads (chunks : List (List UInt8)) : delivered (reads chunks) = chunks.flatten := by
  have from_bytes (bytes : List UInt8) : (reads chunks).foldl deliver bytes = bytes ++ chunks.flatten := by
    induction chunks generalizing bytes with
    | nil => simp [reads]
    | cons chunk rest ih =>
      rw [reads, List.map_cons, List.foldl_cons]
      exact (ih (bytes ++ chunk)).trans (by rw [List.flatten_cons, List.append_assoc])
  exact from_bytes []

end Call

namespace Scanner

variable {ρ : Type} [Reader ρ] {scanner : Scanner} {ending : Except ReadError Unit}

/-- The last threads die when these bytes have been consumed, and not before. -/
structure Dies (scanner : Scanner) (dead : List UInt8) : Prop where
  last : (scanner.after dead).threads.isEmpty
  live : ∀ early, early <+: dead → early ≠ dead → ¬ (scanner.after early).threads.isEmpty

theorem Dies.run {dead : List UInt8} (dies : scanner.Dies dead) (rest : List UInt8) :
    scanner.start.run (dead ++ rest) = (scanner.after dead, rest) :=
  (run_append_of_live rest dies.live).trans (run_of_dead dies.last rest)

/-- Threads are left until the last byte is consumed. -/
def Survives (scanner : Scanner) (input : List UInt8) : Prop :=
  ∀ dead rest, input = dead ++ rest → rest ≠ [] → ¬ scanner.Dies dead

theorem Survives.run {input : List UInt8} (survives : scanner.Survives input) :
    scanner.start.run input = (scanner.after input, []) := by
  obtain ⟨taken, rest, split, last, live⟩ := exists_first_dead scanner.start input
  by_cases whole : rest = []
  · subst whole
    rw [split, run_append_of_live [] live, List.append_nil]
    rfl
  · exact absurd ⟨last whole, live⟩ (survives taken rest split whole)

theorem run_append_of_examined {first : List UInt8} (examined : (scanner.run first).2 = [])
    (second : List UInt8) : scanner.run (first ++ second) = (scanner.run first).1.run second := by
  induction first generalizing scanner with
  | nil => rfl
  | cons byte first ih =>
    rw [run] at examined ⊢
    rw [List.cons_append, run]
    split at examined
    · cases examined
    next live =>
      rw [if_neg live, if_neg live]
      exact ih examined

theorem run_append_of_unexamined {first : List UInt8} (unexamined : (scanner.run first).2 ≠ [])
    (second : List UInt8) :
    scanner.run (first ++ second) = ((scanner.run first).1, (scanner.run first).2 ++ second) := by
  induction first generalizing scanner with
  | nil => exact absurd rfl unexamined
  | cons byte first ih =>
    rw [run] at unexamined ⊢
    rw [List.cons_append, run]
    split at unexamined
    next dead => rw [if_pos dead, if_pos dead, List.cons_append]
    next live =>
      rw [if_neg live, if_neg live]
      exact ih unexamined

theorem examined_of_append {first second : List UInt8} (examined : (scanner.run (first ++ second)).2 = []) :
    (scanner.run first).2 = [] := by
  apply Classical.byContradiction
  intro unexamined
  rw [run_append_of_unexamined unexamined, List.append_eq_nil_iff] at examined
  exact unexamined examined.1

theorem consume_of_delivers {recorder : Recorder ρ} {chunks : List (List UInt8)}
    (delivers : Delivers ending recorder.reader chunks) (examined : (scanner.run chunks.flatten).2 = []) :
    (scanner.consume recorder).unwound = none ∧
    (scanner.consume recorder).reader.calls =
      recorder.calls ++ Call.reads chunks ++ [.read (ending.map fun _ => [])] ∧
    (scanner.consume recorder).result =
      (ending.map fun _ => (scanner.run chunks.flatten).1.accepting).mapError .reader := by
  generalize begins : recorder.reader = reader at delivers
  induction delivers generalizing scanner recorder with
  | finish read =>
    have read := recorder.read_of (begins ▸ read)
    cases ending with
    | error error =>
      rw [consume_of_failure read]
      exact ⟨rfl, by simp [Call.reads], rfl⟩
    | ok =>
      rw [consume_of_end read]
      exact ⟨rfl, by simp [Call.reads], rfl⟩
  | @chunk reader after chunk rest nonempty read _ _ ih =>
    have read := recorder.read_of (begins ▸ read)
    rw [List.flatten_cons] at examined ⊢
    have whole := examined_of_append examined
    rw [run_append_of_examined whole] at examined ⊢
    obtain ⟨unwound, calls, result⟩ :=
      ih examined (show (recorder.note (.read (.ok chunk)) after).reader = after from rfl)
    rw [consume_of_chunk read nonempty whole]
    exact ⟨unwound, by simpa [Call.reads] using calls, result⟩

/-- The chunk in which the last thread dies is the last to be read, and its end is pushed back. -/
theorem consume_of_death {recorder : Recorder ρ} {chunks : List (List UInt8)}
    (delivers : Delivers ending recorder.reader chunks) (unexamined : (scanner.run chunks.flatten).2 ≠ []) :
    ∃ before last later count, chunks = before ++ last :: later ∧ 0 < count ∧ count ≤ last.length ∧
      (scanner.run chunks.flatten).2.length = count + later.flatten.length ∧
      (scanner.consume recorder).unwound = some count ∧
      (scanner.consume recorder).reader.calls =
        recorder.calls ++ Call.reads (before ++ [last]) ++ [.unwind count (.ok ())] ∧
      (scanner.consume recorder).result = .ok false := by
  generalize begins : recorder.reader = reader at delivers
  induction delivers generalizing scanner recorder with
  | finish => exact absurd rfl unexamined
  | @chunk reader after chunk rest nonempty read pushed _ ih =>
    have read := recorder.read_of (begins ▸ read)
    rw [List.flatten_cons] at unexamined ⊢
    -- A chunk that is examined to its end is behind the scan; the first one that is not ends it.
    by_cases whole : (scanner.run chunk).2 = []
    · rw [run_append_of_examined whole] at unexamined ⊢
      obtain ⟨before, last, later, count, split, positive, bounded, size, unwound, calls, result⟩ :=
        ih unexamined (show (recorder.note (.read (.ok chunk)) after).reader = after from rfl)
      rw [consume_of_chunk read nonempty whole]
      refine ⟨chunk :: before, last, later, count, by rw [split, List.cons_append], positive, bounded, size,
        unwound, ?_, result⟩
      simpa [Call.reads] using calls
    · have bounded := length_run_le scanner chunk
      have unwound : Reader.unwind (scanner.run chunk).2.length after =
          (.ok (), (Reader.unwind (scanner.run chunk).2.length after).2) :=
        Prod.ext (pushed _ bounded) rfl
      have unwound := (recorder.note (.read (.ok chunk)) after).unwind_of unwound
      rw [run_append_of_unexamined whole, consume_of_unexamined read whole, giveUp, unwound]
      exact ⟨[], chunk, rest, _, rfl, List.length_pos_iff.mpr whole, bounded, List.length_append, rfl,
        by simp [Call.reads], rfl⟩

variable {reader : ρ} {chunks : List (List UInt8)} {dead rest : List UInt8}

theorem matchReader_of_death (delivers : Delivers ending reader chunks) (split : chunks.flatten = dead ++ rest)
    (remains : rest ≠ []) (dies : scanner.Dies dead) :
    (scanner.matchReader reader).result = .ok false ∧ Call.delivered (scanner.calls reader) = dead ∧
    ∃ before last later count, chunks = before ++ last :: later ∧ 0 < count ∧ count ≤ last.length ∧
      dead.length + count = (before ++ [last]).flatten.length ∧
      (scanner.matchReader reader).unwound = some count ∧
      scanner.calls reader = Call.reads (before ++ [last]) ++ [.unwind count (.ok ())] := by
  have ran : scanner.start.run chunks.flatten = (scanner.after dead, rest) := by rw [split, dies.run]
  obtain ⟨before, last, later, count, parts, positive, bounded, size, unwound, calls, result⟩ :=
    consume_of_death (show Delivers ending (Recorder.ofReader reader).reader chunks from delivers)
      (by rw [ran]; exact remains)
  have whole : chunks.flatten = (before ++ [last]).flatten ++ later.flatten := by simp [parts]
  have taken : dead.length + count = (before ++ [last]).flatten.length := by
    have size : rest.length = count + later.flatten.length := by rwa [ran] at size
    have lengths := congrArg List.length (split.symm.trans whole)
    simp only [List.length_append] at lengths ⊢
    omega
  rw [matchReader_eq]
  refine ⟨result, ?_, before, last, later, count, parts, positive, bounded, taken, unwound, calls⟩
  have made : scanner.calls reader = Call.reads (before ++ [last]) ++ [.unwind count (.ok ())] := calls
  rw [made, Call.delivered_concat, Call.delivered_reads, Call.deliver, ← taken, Nat.add_sub_cancel]
  have ahead : dead <+: (before ++ [last]).flatten :=
    List.prefix_of_prefix_length_le ⟨rest, split.symm⟩ ⟨later.flatten, whole.symm⟩ (by omega)
  exact (List.prefix_iff_eq_take.mp ahead).symm

theorem matchReader_of_survival (delivers : Delivers ending reader chunks)
    (survives : scanner.Survives chunks.flatten) :
    (scanner.matchReader reader).result =
      (ending.map fun _ => (scanner.isMatch chunks.flatten).1).mapError .reader ∧
    Call.delivered (scanner.calls reader) = chunks.flatten ∧
    (scanner.matchReader reader).unwound = none ∧
    scanner.calls reader = Call.reads chunks ++ [.read (ending.map fun _ => [])] := by
  have ran := survives.run
  obtain ⟨unwound, calls, result⟩ :=
    consume_of_delivers (show Delivers ending (Recorder.ofReader reader).reader chunks from delivers)
      (by rw [ran])
  have made : scanner.calls reader = Call.reads chunks ++ [.read (ending.map fun _ => [])] := calls
  have matched : (scanner.isMatch chunks.flatten).1 = (scanner.start.run chunks.flatten).1.accepting := by
    rw [isMatch, ran]
    rfl
  rw [matchReader_eq, matched]
  refine ⟨result, ?_, unwound, made⟩
  rw [made, Call.delivered_concat, Call.delivered_reads]
  cases ending <;> simp [Call.deliver, Except.map]

/-- Matching a reader is matching its whole input, except that a scan without threads gives up: then the
calls are the reads up to the first chunk with a byte too many, and one that pushes back what lies behind
the last byte consumed. Neither the result nor the input that is taken depends on the chunks. -/
theorem matchReader_of_delivers (scanner : Scanner) (delivers : Delivers ending reader chunks) :
    (∀ dead rest, chunks.flatten = dead ++ rest → rest ≠ [] → scanner.Dies dead →
      (scanner.matchReader reader).result = .ok false ∧ Call.delivered (scanner.calls reader) = dead ∧
      ∃ before last later count, chunks = before ++ last :: later ∧ 0 < count ∧ count ≤ last.length ∧
        dead.length + count = (before ++ [last]).flatten.length ∧
        (scanner.matchReader reader).unwound = some count ∧
        scanner.calls reader = Call.reads (before ++ [last]) ++ [.unwind count (.ok ())]) ∧
    (scanner.Survives chunks.flatten →
      (scanner.matchReader reader).result =
        (ending.map fun _ => (scanner.isMatch chunks.flatten).1).mapError .reader ∧
      Call.delivered (scanner.calls reader) = chunks.flatten ∧
      (scanner.matchReader reader).unwound = none ∧
      scanner.calls reader = Call.reads chunks ++ [.read (ending.map fun _ => [])]) ∧
    ∀ {σ : Type} [Reader σ] {other : σ} {parts : List (List UInt8)}, Delivers ending other parts →
      parts.flatten = chunks.flatten →
      (scanner.matchReader other).result = (scanner.matchReader reader).result ∧
      Call.delivered (scanner.calls other) = Call.delivered (scanner.calls reader) := by
  refine ⟨fun dead rest => matchReader_of_death delivers, matchReader_of_survival delivers, ?_⟩
  intro σ _ other parts others same
  by_cases survives : scanner.Survives chunks.flatten
  · obtain ⟨result, taken, _⟩ := matchReader_of_survival delivers survives
    obtain ⟨result', taken', _⟩ := matchReader_of_survival others (same ▸ survives)
    rw [result, result', taken, taken', same]
    exact ⟨rfl, rfl⟩
  · simp only [Survives, Classical.not_forall, Classical.not_not] at survives
    obtain ⟨dead, rest, split, remains, dies⟩ := survives
    obtain ⟨result, taken, _⟩ := matchReader_of_death delivers split remains dies
    obtain ⟨result', taken', _⟩ := matchReader_of_death others (same.trans split) remains dies
    rw [result, result', taken, taken']
    exact ⟨rfl, rfl⟩

def pieces : CountingReader where
  script := [.data [0x61, 0x61], .data [0x61, 0x62], .data [0x61]]

theorem matchReader_of_delivers_pieces :
    Delivers (.ok ()) pieces [[0x61, 0x61], [0x61, 0x62], [0x61]] ∧
    (ofAutomaton .repeating).Dies [0x61, 0x61, 0x61, 0x62] ∧
    ((ofAutomaton .repeating).matchReader pieces).result = .ok false ∧
    Call.delivered ((ofAutomaton .repeating).calls pieces) = [0x61, 0x61, 0x61, 0x62] := by
  have delivers : Delivers (.ok ()) pieces [[0x61, 0x61], [0x61, 0x62], [0x61]] := by
    repeat refine .chunk (by decide) rfl (fun _ _ => rfl) ?_
    exact .finish rfl
  have dies : (ofAutomaton .repeating).Dies [0x61, 0x61, 0x61, 0x62] := by
    have early : ∀ early ∈ [0x61, 0x61, 0x61, 0x62].inits, early ≠ [0x61, 0x61, 0x61, 0x62] →
        ¬ ((ofAutomaton .repeating).after early).threads.isEmpty := by decide +kernel
    exact ⟨by decide +kernel, fun taken ahead => early taken ((List.mem_inits _ _).mpr ahead)⟩
  obtain ⟨result, taken, _⟩ :=
    (matchReader_of_delivers (ofAutomaton .repeating) delivers).1 _ [0x61] rfl (by decide) dies
  exact ⟨delivers, dies, result, taken⟩

end Scanner

end ByteRegex
