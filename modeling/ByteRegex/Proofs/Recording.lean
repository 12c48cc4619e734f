import ByteRegex.Reader.Scan

/-! Readers that are watched. A recorder hands every call on to its reader and notes the answer with
the reader that it leaves. A scan cannot tell a recorder from the reader behind it, so the record is a
record of what the scan does to any reader. -/

namespace ByteRegex

inductive Call
  | read (answer : Except ReadError (List UInt8))
  | unwind (count : Nat) (answer : Except ReadError Unit)

namespace Call

def error? : Call → Option ReadError
  | .read (.error error) => some error
  | .unwind _ (.error error) => some error
  | _ => none

theorem error?_read {answer : Except ReadError (List UInt8)} {error : ReadError} :
    (read answer).error? = some error ↔ answer = .error error := by
  cases answer <;> simp [error?]

theorem error?_unwind {count : Nat} {answer : Except ReadError Unit} {error : ReadError} :
    (unwind count answer).error? = some error ↔ answer = .error error := by
  cases answer <;> simp [error?]

/-- Bytes that are pushed back are taken from the end of what was delivered. -/
def deliver (delivered : List UInt8) : Call → List UInt8
  | .read (.ok chunk) => delivered ++ chunk
  | .unwind count (.ok _) => delivered.take (delivered.length - count)
  | _ => delivered

/-- The bytes that a reader has delivered and not taken back. -/
def delivered (calls : List Call) : List UInt8 := calls.foldl deliver []

theorem delivered_concat (calls : List Call) (call : Call) :
    delivered (calls ++ [call]) = deliver (delivered calls) call := by
  simp [delivered]

theorem deliver_of_failed {call : Call} (failed : call.error?.isSome) (bytes : List UInt8) :
    deliver bytes call = bytes := by
  rcases call with (_ | _) | ⟨_, _ | _⟩
  all_goals first | rfl | cases failed

end Call

structure Exchange (ρ : Type) where
  call : Call
  after : ρ

structure Recorder (ρ : Type) where
  reader : ρ
  /-- What was asked so far, oldest first. -/
  record : List (Exchange ρ)

namespace Recorder

variable {ρ : Type}

def ofReader (reader : ρ) : Recorder ρ := ⟨reader, []⟩

def calls (recorder : Recorder ρ) : List Call := recorder.record.map Exchange.call

def note (recorder : Recorder ρ) (call : Call) (after : ρ) : Recorder ρ :=
  ⟨after, recorder.record ++ [⟨call, after⟩]⟩

@[simp] theorem calls_note (recorder : Recorder ρ) (call : Call) (after : ρ) :
    (recorder.note call after).calls = recorder.calls ++ [call] := by
  simp [calls, note]

variable [Reader ρ]

instance : Reader (Recorder ρ) where
  read recorder :=
    let (answer, after) := Reader.read recorder.reader
    (answer, recorder.note (.read answer) after)
  unwind count recorder :=
    let (answer, after) := Reader.unwind count recorder.reader
    (answer, recorder.note (.unwind count answer) after)
  remaining recorder := Reader.remaining recorder.reader
  remaining_read recorder {byte chunk after} read := by
    obtain ⟨answer, rfl⟩ := Prod.mk.inj read
    exact Reader.remaining_read recorder.reader (Prod.ext answer rfl)

variable {after : ρ}

theorem read_of (recorder : Recorder ρ) {answer : Except ReadError (List UInt8)}
    (read : Reader.read recorder.reader = (answer, after)) :
    Reader.read recorder = (answer, recorder.note (.read answer) after) := by
  obtain ⟨rfl, rfl⟩ : _ = answer ∧ _ = after := Prod.ext_iff.mp read
  rfl

theorem unwind_of (recorder : Recorder ρ) {count : Nat} {answer : Except ReadError Unit}
    (unwound : Reader.unwind count recorder.reader = (answer, after)) :
    Reader.unwind count recorder = (answer, recorder.note (.unwind count answer) after) := by
  obtain ⟨rfl, rfl⟩ : _ = answer ∧ _ = after := Prod.ext_iff.mp unwound
  rfl

end Recorder

namespace Scan

variable {ρ : Type} [Reader ρ]

def unrecorded (scan : Scan (Recorder ρ)) : Scan ρ :=
  ⟨scan.scanner, scan.reader.reader, scan.unwound, scan.result⟩

end Scan

namespace Scanner

variable {ρ : Type} [Reader ρ]

theorem consume_unrecorded (scanner : Scanner) (recorder : Recorder ρ) :
    (scanner.consume recorder).unrecorded = scanner.consume recorder.reader := by
  -- The answer is that of the reader behind the recorder, so both scans take the same way.
  fun_induction consume scanner recorder with
  | case1 scanner recorder error after failed =>
    obtain ⟨answer, rfl⟩ := Prod.mk.inj failed
    rw [consume_of_failure (Prod.ext answer rfl)]
    rfl
  | case2 scanner recorder after ended =>
    obtain ⟨answer, rfl⟩ := Prod.mk.inj ended
    rw [consume_of_end (Prod.ext answer rfl)]
    rfl
  | case3 scanner recorder byte chunk after read middle ran ih =>
    obtain ⟨answer, rfl⟩ := Prod.mk.inj read
    rw [ih, consume_of_chunk (Prod.ext answer rfl) (List.cons_ne_nil _ _) (by rw [ran]), ran]
    rfl
  | case4 scanner recorder byte chunk after read middle unexamined some ran =>
    obtain ⟨answer, rfl⟩ := Prod.mk.inj read
    rw [consume_of_unexamined (Prod.ext answer rfl) (by rw [ran]; exact some), ran]
    rfl

theorem matchReader_unrecorded (scanner : Scanner) (recorder : Recorder ρ) :
    (scanner.matchReader recorder).unrecorded = scanner.matchReader recorder.reader :=
  consume_unrecorded scanner.start recorder

theorem matchReader_eq (scanner : Scanner) (reader : ρ) :
    scanner.matchReader reader = (scanner.matchReader (Recorder.ofReader reader)).unrecorded :=
  (matchReader_unrecorded scanner (Recorder.ofReader reader)).symm

def calls (scanner : Scanner) (reader : ρ) : List Call :=
  (scanner.matchReader (Recorder.ofReader reader)).reader.calls

theorem consume_keeps (kept : ρ → Prop) (read : ∀ reader, kept reader → kept (Reader.read reader).2)
    (unwind : ∀ reader count, kept reader → kept (Reader.unwind count reader).2)
    (scanner : Scanner) {reader : ρ} (begins : kept reader) : kept (scanner.consume reader).reader := by
  fun_induction consume scanner reader with
  | case1 scanner reader error after failed =>
    have ends := read reader begins
    rwa [failed] at ends
  | case2 scanner reader after ended =>
    have ends := read reader begins
    rwa [ended] at ends
  | case3 scanner reader byte chunk after delivered middle ran ih =>
    have goes := read reader begins
    rw [delivered] at goes
    exact ih goes
  | case4 scanner reader byte chunk after delivered middle unexamined some ran =>
    have goes := read reader begins
    rw [delivered] at goes
    exact unwind after unexamined.length goes

end Scanner

/-- The exchanges lead from one reader to the other, each with the answer that the reader gives. -/
inductive Conversation {ρ : Type} [Reader ρ] (start : ρ) : List (Exchange ρ) → ρ → Prop
  | start : Conversation start [] start
  | read {past reader} : Conversation start past reader →
      Conversation start (past ++ [⟨.read (Reader.read reader).1, (Reader.read reader).2⟩])
        (Reader.read reader).2
  | unwind {past reader} (count : Nat) : Conversation start past reader →
      Conversation start (past ++ [⟨.unwind count (Reader.unwind count reader).1,
        (Reader.unwind count reader).2⟩]) (Reader.unwind count reader).2

def lastReader {ρ : Type} (start : ρ) (past : List (Exchange ρ)) : ρ :=
  (past.getLast?.map Exchange.after).getD start

namespace Conversation

variable {ρ : Type} [Reader ρ] {start last : ρ} {record past : List (Exchange ρ)} {now : Exchange ρ}

theorem lastReader_eq (held : Conversation start record last) : lastReader start record = last := by
  cases held <;> simp [lastReader]

/-- At every moment, what was said so far is a conversation. -/
theorem of_prefix (held : Conversation start record last) (ahead : past <+: record) :
    Conversation start past (lastReader start past) := by
  have whole {record last} (held : Conversation start record last) :
      Conversation start record (lastReader start record) := held.lastReader_eq.symm ▸ held
  induction held with
  | start => exact List.prefix_nil.mp ahead ▸ .start
  | read before ih =>
    rcases List.prefix_concat_iff.mp ahead with rfl | earlier
    · exact whole before.read
    · exact ih earlier
  | unwind count before ih =>
    rcases List.prefix_concat_iff.mp ahead with rfl | earlier
    · exact whole (before.unwind count)
    · exact ih earlier

/-- The last answer came from the reader that the exchanges before it had left. -/
theorem exists_last (held : Conversation start (past ++ [now]) last) : ∃ before,
    Conversation start past before ∧
    (now = ⟨.read (Reader.read before).1, (Reader.read before).2⟩ ∨
      ∃ count, now = ⟨.unwind count (Reader.unwind count before).1, (Reader.unwind count before).2⟩) := by
  generalize same : past ++ [now] = record at held
  cases held with
  | start => simp at same
  | @read past' reader before =>
    obtain ⟨rfl, single⟩ := List.append_inj' same rfl
    exact ⟨reader, before, .inl (List.singleton_inj.mp single)⟩
  | @unwind past' reader count before =>
    obtain ⟨rfl, single⟩ := List.append_inj' same rfl
    exact ⟨reader, before, .inr ⟨count, List.singleton_inj.mp single⟩⟩

end Conversation

end ByteRegex
