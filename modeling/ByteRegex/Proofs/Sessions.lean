import ByteRegex.Proofs.Reuse
import ByteRegex.Proofs.Streaming
import ByteRegex.Reader.Slice

/-! Scans one after the other on input in memory. Each takes up the input where the one before it left
off, and neither its verdict nor the place where it stops has to do with the size of the chunks. -/

namespace ByteRegex

namespace SliceReader

def unread (reader : SliceReader) : List UInt8 := reader.data.drop reader.position

def movedTo (reader : SliceReader) (position : Nat) : SliceReader := { reader with position }

variable {reader after : SliceReader} {chunk : List UInt8}

theorem read_eq (reader : SliceReader) : Reader.read reader = (.ok (reader.unread.take reader.chunkSize),
    reader.movedTo (reader.position + (reader.unread.take reader.chunkSize).length)) := rfl

theorem unread_of_read (read : Reader.read reader = (.ok chunk, after)) :
    after = reader.movedTo (reader.position + chunk.length) ∧ reader.unread = chunk ++ after.unread := by
  rw [read_eq, Prod.mk.injEq, Except.ok.injEq] at read
  obtain ⟨taken, rfl⟩ := read
  rw [taken]
  refine ⟨rfl, ?_⟩
  have split : reader.unread = chunk ++ reader.unread.drop reader.chunkSize := by
    rw [← taken, List.take_append_drop]
  have behind : (reader.movedTo (reader.position + chunk.length)).unread = reader.unread.drop chunk.length :=
    List.drop_drop.symm
  rw [behind, split, List.drop_left]

theorem unread_of_end (ended : Reader.read reader = (.ok [], after)) : after = reader ∧ reader.unread = [] := by
  obtain ⟨rfl, _⟩ := unread_of_read ended
  rw [read_eq, Prod.mk.injEq, Except.ok.injEq, List.take_eq_nil_iff] at ended
  exact ⟨rfl, ended.1.resolve_left (Nat.ne_of_gt reader.chunkSize_pos)⟩

theorem length_unread (inside : reader.position ≤ reader.data.length) :
    reader.position + reader.unread.length = reader.data.length := by
  rw [unread, List.length_drop]
  omega

/-- The scan goes through the unread input as if it lay before it as a whole, and comes back to the first
byte that it does not consume. -/
theorem consume_eq (scanner : Scanner) (inside : reader.position ≤ reader.data.length) :
    (scanner.consume reader).result =
      .ok ((scanner.run reader.unread).2.isEmpty && (scanner.run reader.unread).1.accepting) ∧
    (scanner.consume reader).reader =
      reader.movedTo (reader.data.length - (scanner.run reader.unread).2.length) := by
  fun_induction Scanner.consume scanner reader with
  | case1 scanner reader error after failed => cases failed
  | case2 scanner reader after ended =>
    obtain ⟨rfl, nothing⟩ := unread_of_end ended
    have all := length_unread inside
    rw [nothing] at all ⊢
    refine ⟨rfl, ?_⟩
    exact congrArg after.movedTo all
  | case3 scanner reader byte chunk after read middle ran ih =>
    -- Every byte of the chunk is consumed, so the rest is scanned by what the chunk has left.
    obtain ⟨rfl, split⟩ := unread_of_read read
    have examined : (scanner.run (byte :: chunk)).2 = [] := by rw [ran]
    have all := length_unread inside
    rw [split, List.length_append] at all
    rw [split, Scanner.run_append_of_examined examined, ran]
    exact ih (Nat.le_of_add_right_le (Nat.le_of_eq (by simpa [movedTo, Nat.add_assoc] using all)))
  | case4 scanner reader byte chunk after read middle unexamined some ran =>
    -- The scan gives up within the chunk and pushes back what it has not looked at.
    obtain ⟨rfl, split⟩ := unread_of_read read
    have unfinished : (scanner.run (byte :: chunk)).2 ≠ [] := by
      rw [ran]
      exact some
    have bounded : unexamined.length ≤ (byte :: chunk).length := by
      have fewer := scanner.length_run_le (byte :: chunk)
      rwa [ran] at fewer
    have all := length_unread inside
    rw [split, List.length_append] at all
    have pushed : Reader.unwind unexamined.length (reader.movedTo (reader.position + (byte :: chunk).length)) =
        (.ok (), reader.movedTo (reader.position + (byte :: chunk).length - unexamined.length)) :=
      if_neg (Nat.not_lt.mpr (Nat.le_add_left_of_le bounded))
    rw [split, Scanner.run_append_of_unexamined unfinished, ran, Scanner.giveUp, pushed]
    constructor
    · have remains := List.append_ne_nil_of_left_ne_nil some
        (reader.movedTo (reader.position + (byte :: chunk).length)).unread
      simp only [List.isEmpty_eq_false_iff.mpr remains, Bool.false_and]
    · refine congrArg reader.movedTo ?_
      simp only [List.length_append]
      omega

end SliceReader

structure SliceScan where
  automaton : Automaton
  start : Nat
  result : Except ScanError Bool
  stop : Nat

namespace SliceScan

open Scanner

/-- The scan answers for the data from its start on. It stops behind the shortest part of them that leaves
no threads, if that is not all of them, and at the end otherwise. -/
structure Exact (data : List UInt8) (scan : SliceScan) : Prop where
  result : scan.result = .ok ((ofAutomaton scan.automaton).isMatch (data.drop scan.start)).1
  dies : ∀ dead rest, data.drop scan.start = dead ++ rest → rest ≠ [] →
    (ofAutomaton scan.automaton).Dies dead → scan.stop = scan.start + dead.length
  survives : (ofAutomaton scan.automaton).Survives (data.drop scan.start) → scan.stop = data.length

end SliceScan

namespace SliceReader

variable {reader : SliceReader} {scanner : Scanner} {automaton : Automaton}

/-- A session: scans by these scanners, one after the other. A scanner may be in whatever state earlier
scans have left it. -/
def scans : List Scanner → SliceReader → List SliceScan
  | [], _ => []
  | scanner :: rest, reader =>
    let scan := scanner.matchReader reader
    ⟨scanner.automaton, reader.position, scan.result, scan.reader.position⟩ :: scans rest scan.reader

/-- How many bytes a scan of the data by a new scanner leaves unread. -/
def remainder (automaton : Automaton) (input : List UInt8) : Nat :=
  ((Scanner.ofAutomaton automaton).start.run input).2.length

theorem matchReader_eq (scanner : Scanner) (inside : reader.position ≤ reader.data.length) :
    (scanner.matchReader reader).result =
      .ok ((Scanner.ofAutomaton scanner.automaton).isMatch reader.unread).1 ∧
    (scanner.matchReader reader).reader =
      reader.movedTo (reader.data.length - remainder scanner.automaton reader.unread) := by
  have alike : Scanner.Alike scanner.start (Scanner.ofAutomaton scanner.automaton).start :=
    Scanner.start_alike rfl
  obtain ⟨rest, goes⟩ := alike.run reader.unread
  obtain ⟨result, left⟩ := consume_eq scanner.start inside
  rw [rest, goes.accepting] at result
  rw [rest] at left
  exact ⟨result, left⟩

theorem exact_matchReader (scanner : Scanner) (inside : reader.position ≤ reader.data.length) :
    SliceScan.Exact reader.data ⟨scanner.automaton, reader.position, (scanner.matchReader reader).result,
      (scanner.matchReader reader).reader.position⟩ := by
  obtain ⟨result, left⟩ := matchReader_eq scanner inside
  have all := length_unread inside
  rw [left]
  refine ⟨result, ?_, ?_⟩
  · intro dead rest split _ dies
    change reader.unread = dead ++ rest at split
    have consumed : remainder scanner.automaton reader.unread = rest.length := by
      rw [remainder, split, dies.run]
    rw [split, List.length_append] at all
    change reader.data.length - remainder scanner.automaton reader.unread = reader.position + dead.length
    omega
  · intro survives
    change Scanner.Survives _ reader.unread at survives
    have consumed : remainder scanner.automaton reader.unread = 0 := by
      rw [remainder, survives.run]
      rfl
    rw [consumed]
    rfl

theorem inside_matchReader (scanner : Scanner) (inside : reader.position ≤ reader.data.length) :
    (scanner.matchReader reader).reader.data = reader.data ∧
    (scanner.matchReader reader).reader.position ≤ reader.data.length := by
  rw [(matchReader_eq scanner inside).2]
  exact ⟨rfl, Nat.sub_le _ _⟩

theorem scans_of_inside (scanners : List Scanner) (inside : reader.position ≤ reader.data.length) :
    ∀ scan ∈ scans scanners reader, scan.Exact reader.data := by
  induction scanners generalizing reader with
  | nil => simp [scans]
  | cons scanner rest ih =>
    obtain ⟨data, within⟩ := inside_matchReader scanner inside
    rw [scans, List.forall_mem_cons]
    refine ⟨exact_matchReader scanner inside, ?_⟩
    rw [← data] at within ⊢
    exact ih within

theorem scans_congr {first second : SliceReader} {scanners others : List Scanner}
    (same : scanners.map Scanner.automaton = others.map Scanner.automaton) (data : first.data = second.data)
    (position : first.position = second.position) (inside : first.position ≤ first.data.length) :
    scans scanners first = scans others second := by
  induction scanners generalizing first second others with
  | nil =>
    obtain rfl := List.map_eq_nil_iff.mp same.symm
    rfl
  | cons scanner rest ih =>
    cases others with
    | nil => cases same
    | cons other others =>
      obtain ⟨head, tail⟩ := List.cons.inj same
      have unread : first.unread = second.unread := by rw [SliceReader.unread, SliceReader.unread, data, position]
      obtain ⟨result, left⟩ := matchReader_eq scanner inside
      obtain ⟨result', left'⟩ := matchReader_eq other (data ▸ position ▸ inside)
      rw [scans, scans, result, result', left, left', head, unread, data, position]
      refine congrArg _ (ih tail data rfl ?_)
      rw [← data]
      exact Nat.sub_le _ _

/-- Whatever the size of the chunks, the scans of a session find the same and stop at the same places. -/
theorem scans_exact {data : List UInt8} {small large : Nat} (small_pos : 0 < small) (large_pos : 0 < large)
    {scanners others : List Scanner} (same : scanners.map Scanner.automaton = others.map Scanner.automaton) :
    scans scanners { data, chunkSize := small, chunkSize_pos := small_pos } =
      scans others { data, chunkSize := large, chunkSize_pos := large_pos } ∧
    ∀ scan ∈ scans scanners { data, chunkSize := small, chunkSize_pos := small_pos }, scan.Exact data :=
  ⟨scans_congr same rfl rfl (Nat.zero_le _), scans_of_inside scanners (Nat.zero_le _)⟩

def interrupted : Scanner := ((Scanner.ofAutomaton .repeating).isMatch [0x61, 0x62, 0x61]).2

theorem scans_exact_interrupted :
    let scanners := [Scanner.ofAutomaton .repeating, .ofAutomaton .repeating, .ofAutomaton .repeating]
    let data : List UInt8 := [0x61, 0x62, 0x61, 0x61]
    scanners.map Scanner.automaton = [interrupted, interrupted, interrupted].map Scanner.automaton ∧
    scans scanners { data, chunkSize := 3, chunkSize_pos := by decide } =
      scans [interrupted, interrupted, interrupted]
        { data, chunkSize := UInt64.size - 1, chunkSize_pos := by decide } ∧
    ∀ scan ∈ scans scanners { data, chunkSize := 3, chunkSize_pos := by decide }, scan.Exact data := by
  intro scanners data
  have same : scanners.map Scanner.automaton = [interrupted, interrupted, interrupted].map Scanner.automaton := by
    simp only [List.map_cons, interrupted, Scanner.isMatch, Scanner.automaton_run]
    rfl
  exact ⟨same, scans_exact (by decide) (by decide) same⟩

end SliceReader

end ByteRegex
