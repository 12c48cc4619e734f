import ByteRegex.Proofs.Recording
import ByteRegex.Proofs.Threads
import ByteRegex.Reader.Buffered

/-! Sessions with a buffered reader. However reads, push-backs and scans follow each other, what was
delivered, what is buffered and what the source still holds make up the input at every moment. -/

namespace ByteRegex

structure Window where
  /-- The bytes delivered out of the current buffer. -/
  delivered : Nat := 0
  /-- The bytes pushed back and not delivered again. -/
  returned : Nat := 0

namespace Window

/-- A read that finds nothing pushed back begins the next buffer. -/
def enter (window : Window) : Call → Window
  | .read (.ok chunk) =>
    { delivered := if window.returned = 0 then chunk.length else window.delivered + chunk.length }
  | .unwind count (.ok _) => ⟨window.delivered - count, window.returned + count⟩
  | _ => window

def ofCalls (calls : List Call) : Window := calls.foldl enter {}

theorem ofCalls_concat (calls : List Call) (call : Call) :
    ofCalls (calls ++ [call]) = (ofCalls calls).enter call := by
  simp [ofCalls]

theorem enter_of_failed {call : Call} (failed : call.error?.isSome) (window : Window) :
    window.enter call = window := by
  rcases call with (_ | _) | ⟨_, _ | _⟩
  all_goals first | rfl | cases failed

end Window

namespace BufferedReader

variable {stream : List UInt8} {calls : List Call} {reader : BufferedReader}

/-- A read delivers what was pushed back, or else asks the source. -/
inductive Reads (reader : BufferedReader) : Except ReadError (List UInt8) × BufferedReader → Prop
  | rest : reader.position < reader.buffer.length →
    Reads reader (.ok reader.buffered,
      { reader with position := reader.buffer.length, position_le := Nat.le_refl _ })
  | chunk {chunk source} : reader.position = reader.buffer.length →
    reader.source.fill reader.capacity = (.ok chunk, source) →
    Reads reader (.ok chunk,
      { reader with source, buffer := chunk, position := chunk.length, position_le := Nat.le_refl _ })
  | failure {error source} : reader.position = reader.buffer.length →
    reader.source.fill reader.capacity = (.error error, source) →
    Reads reader (.error error, { reader with source })

theorem reads (reader : BufferedReader) : Reads reader (Reader.read reader) := by
  change Reads reader reader.read
  fun_cases read reader with
  | case1 used chunk source filled => exact .chunk used filled
  | case2 used error source failed => exact .failure used failed
  | case3 unused => exact .rest (Nat.lt_of_le_of_ne reader.position_le unused)

theorem unwind_of_le {count : Nat} (inside : count ≤ reader.position) :
    Reader.unwind count reader = (.ok (), { reader with
      position := reader.position - count
      position_le := Nat.le_trans (Nat.sub_le _ _) reader.position_le }) :=
  if_neg (Nat.not_lt.mpr inside)

theorem unwind_of_lt {count : Nat} (outside : reader.position < count) :
    Reader.unwind count reader = (.error .unwindPastChunk, reader) :=
  if_pos outside

theorem unwind_answer (reader : BufferedReader) (count : Nat) : (Reader.unwind count reader).1 =
    if count ≤ reader.position then .ok () else .error .unwindPastChunk := by
  split
  next inside => rw [unwind_of_le inside]
  next outside => rw [unwind_of_lt (Nat.lt_of_not_le outside)]

/-- The reader has delivered its part of the buffer last, and holds what comes next. -/
structure Linked (stream : List UInt8) (calls : List Call) (reader : BufferedReader) : Prop where
  stream : ∃ earlier, Call.delivered calls = earlier ++ reader.buffer.take reader.position ∧
    earlier ++ reader.buffer ++ reader.source.bytes = stream
  delivered : (Window.ofCalls calls).delivered = reader.position
  returned : (Window.ofCalls calls).returned = reader.buffer.length - reader.position

theorem Linked.failed (linked : Linked stream calls reader) {call : Call} (failed : call.error?.isSome)
    {source : Script} (same : reader.source.bytes = source.bytes) :
    Linked stream (calls ++ [call]) { reader with source } := by
  obtain ⟨⟨earlier, taken, whole⟩, delivered, returned⟩ := linked
  refine ⟨⟨earlier, ?_, same ▸ whole⟩, ?_, ?_⟩
  · rwa [Call.delivered_concat, Call.deliver_of_failed failed]
  · rwa [Window.ofCalls_concat, Window.enter_of_failed failed]
  · rwa [Window.ofCalls_concat, Window.enter_of_failed failed]

theorem Linked.read (linked : Linked stream calls reader) :
    Linked stream (calls ++ [.read (Reader.read reader).1]) (Reader.read reader).2 := by
  have taken := reader.reads
  generalize Reader.read reader = outcome at taken
  cases taken with
  | rest pushed =>
    obtain ⟨⟨earlier, taken, whole⟩, delivered, returned⟩ := linked
    have returned_ne : (Window.ofCalls calls).returned ≠ 0 := by omega
    refine ⟨⟨earlier, ?_, whole⟩, ?_, ?_⟩
    · simp only [Call.delivered_concat, Call.deliver, taken, buffered, List.append_assoc,
        List.take_append_drop, List.take_length]
    · simp only [Window.ofCalls_concat, Window.enter, if_neg returned_ne, delivered, buffered, List.length_drop]
      omega
    · simp only [Window.ofCalls_concat, Window.enter, Nat.sub_self]
  | @chunk chunk source used filled =>
    -- The buffer is used up, so all of it belongs to what came earlier.
    obtain ⟨⟨earlier, taken, whole⟩, delivered, returned⟩ := linked
    have returned_eq : (Window.ofCalls calls).returned = 0 := by omega
    refine ⟨⟨earlier ++ reader.buffer, ?_, ?_⟩, ?_, ?_⟩
    · simp only [Call.delivered_concat, Call.deliver, taken, used, List.take_length]
    · rw [← whole, Script.bytes_fill filled, List.append_assoc]
    · simp only [Window.ofCalls_concat, Window.enter, if_pos returned_eq]
    · simp only [Window.ofCalls_concat, Window.enter, Nat.sub_self]
  | failure used failed => exact linked.failed rfl (Script.fill_of_error failed).1

theorem Linked.unwind (linked : Linked stream calls reader) (count : Nat) :
    Linked stream (calls ++ [.unwind count (Reader.unwind count reader).1]) (Reader.unwind count reader).2 := by
  rcases Nat.lt_or_ge reader.position count with outside | inside
  · rw [unwind_of_lt outside]
    exact linked.failed rfl rfl
  · obtain ⟨⟨earlier, taken, whole⟩, delivered, returned⟩ := linked
    have fits := reader.position_le
    rw [unwind_of_le inside]
    refine ⟨⟨earlier, ?_, whole⟩, ?_, ?_⟩
    · have size : (earlier ++ reader.buffer.take reader.position).length - count =
          earlier.length + (reader.position - count) := by
        rw [List.length_append, List.length_take_of_le fits]
        omega
      simp only [Call.delivered_concat, Call.deliver, taken]
      rw [size, List.take_length_add_append, List.take_take, Nat.min_eq_left (Nat.sub_le _ _)]
    · simp only [Window.ofCalls_concat, Window.enter, delivered]
    · simp only [Window.ofCalls_concat, Window.enter, returned]
      omega

structure Sound (stream : List UInt8) (calls : List Call) (reader : BufferedReader) : Prop where
  stream : Call.delivered calls ++ reader.buffered ++ reader.source.bytes = stream
  current : reader.buffer.take reader.position <:+ Call.delivered calls
  window : (Window.ofCalls calls).delivered = (reader.buffer.take reader.position).length
  unwinds : ∀ count, (Reader.unwind count reader).1 = .ok () ↔ count ≤ (Window.ofCalls calls).delivered

theorem Linked.sound (linked : Linked stream calls reader) : Sound stream calls reader := by
  obtain ⟨⟨earlier, taken, whole⟩, delivered, _⟩ := linked
  refine ⟨?_, ⟨earlier, taken.symm⟩, ?_, ?_⟩
  · rw [taken, buffered, List.append_assoc earlier, List.take_append_drop, whole]
  · rw [delivered, List.length_take_of_le reader.position_le]
  · intro count
    rw [delivered, unwind_answer]
    split <;> simp_all

/-- Nothing that the user of a reader can tell is different. -/
structure Unmoved (before after : BufferedReader) : Prop where
  position : after.position = before.position
  buffered : after.buffered = before.buffered
  unwinds : ∀ count, (Reader.unwind count after).1 = (Reader.unwind count before).1

theorem unmoved_of_read {error : ReadError} (failed : (Reader.read reader).1 = .error error) :
    Unmoved reader (Reader.read reader).2 ∧ ∀ text, error ≠ .interrupted text := by
  have taken := reader.reads
  generalize Reader.read reader = outcome at taken failed
  cases taken with
  | rest | chunk => cases failed
  | failure used fails =>
    cases failed
    refine ⟨⟨rfl, rfl, ?_⟩, (Script.fill_of_error fails).2⟩
    intro count
    rw [unwind_answer, unwind_answer]

theorem unmoved_of_unwind {count : Nat} {error : ReadError}
    (failed : (Reader.unwind count reader).1 = .error error) :
    Unmoved reader (Reader.unwind count reader).2 ∧ ∀ text, error ≠ .interrupted text := by
  rcases Nat.lt_or_ge reader.position count with outside | inside
  · rw [unwind_of_lt outside] at failed ⊢
    cases failed
    exact ⟨⟨rfl, rfl, fun _ => rfl⟩, nofun⟩
  · rw [unwind_of_le inside] at failed
    cases failed

theorem length_le_position {chunk : List UInt8} {after : BufferedReader}
    (read : Reader.read reader = (.ok chunk, after)) : chunk.length ≤ after.position := by
  have taken := read ▸ reader.reads
  cases taken with
  | rest => simp [buffered]
  | chunk => exact Nat.le_refl _

/-- A scan does not fail because of what it pushes back, nor because the source wants to be asked again. -/
theorem consume_result (scanner : Scanner) (reader : BufferedReader) :
    (∀ count, (scanner.consume reader).unwound = some count → (scanner.consume reader).result = .ok false) ∧
    ∀ text, (scanner.consume reader).result ≠ .error (.reader (.interrupted text)) := by
  fun_induction Scanner.consume scanner reader with
  | case1 scanner reader error after failed =>
    refine ⟨fun _ unwound => absurd unwound (Option.some_ne_none _).symm, ?_⟩
    intro text same
    simp only [Except.error.injEq, ScanError.reader.injEq] at same
    exact (unmoved_of_read (congrArg Prod.fst failed)).2 text same
  | case2 =>
    refine ⟨fun _ unwound => absurd unwound (Option.some_ne_none _).symm, ?_⟩
    intro text same
    cases same
  | case3 scanner reader byte chunk after read middle ran ih => exact ih
  | case4 scanner reader byte chunk after read middle unexamined some ran =>
    have bounded : unexamined.length ≤ (byte :: chunk).length := by
      have bound := scanner.length_run_le (byte :: chunk)
      rwa [ran] at bound
    rw [Scanner.giveUp, unwind_of_le (Nat.le_trans bounded (length_le_position read))]
    refine ⟨fun _ _ => rfl, ?_⟩
    intro text same
    cases same

end BufferedReader

/-- What the user of a reader can ask for. A scan asks for several things in turn. -/
inductive Request
  | read
  | unwind (count : Nat)
  | scan (scanner : Scanner)

section

variable {ρ : Type} [Reader ρ]

def Request.perform (request : Request) (reader : ρ) : ρ :=
  match request with
  | .read => (Reader.read reader).2
  | .unwind count => (Reader.unwind count reader).2
  | .scan scanner => (scanner.matchReader reader).reader

def session (start : ρ) (requests : List Request) : Recorder ρ :=
  requests.foldl (fun recorder request => request.perform recorder) (Recorder.ofReader start)

theorem Request.reader_perform (request : Request) (recorder : Recorder ρ) :
    (request.perform recorder).reader = request.perform recorder.reader := by
  cases request with
  | read => rfl
  | unwind count => rfl
  | scan scanner => exact congrArg Scan.reader (scanner.matchReader_unrecorded recorder)

theorem reader_session (start : ρ) (requests : List Request) :
    (session start requests).reader = requests.foldl (fun reader request => request.perform reader) start := by
  have from_recorder (recorder : Recorder ρ) :
      (requests.foldl (fun recorder request => request.perform recorder) recorder).reader =
        requests.foldl (fun reader request => request.perform reader) recorder.reader := by
    induction requests generalizing recorder with
    | nil => rfl
    | cons request rest ih =>
      rw [List.foldl_cons, List.foldl_cons, ih, request.reader_perform]
  exact from_recorder (Recorder.ofReader start)

theorem Conversation.perform {start : ρ} {recorder : Recorder ρ}
    (held : Conversation start recorder.record recorder.reader) (request : Request) :
    Conversation start (request.perform recorder).record (request.perform recorder).reader := by
  cases request with
  | read => exact held.read
  | unwind count => exact held.unwind count
  | scan scanner =>
    exact Scanner.consume_keeps (fun recorder : Recorder ρ => Conversation start recorder.record recorder.reader)
      (fun _ held => held.read) (fun _ count held => held.unwind count) scanner.start held

theorem conversation_session (start : ρ) (requests : List Request) :
    Conversation start (session start requests).record (session start requests).reader := by
  have from_recorder {recorder : Recorder ρ} (held : Conversation start recorder.record recorder.reader) :
      Conversation start
        (requests.foldl (fun recorder request => request.perform recorder) recorder).record
        (requests.foldl (fun recorder request => request.perform recorder) recorder).reader := by
    induction requests generalizing recorder with
    | nil => exact held
    | cons request rest ih => exact ih (held.perform request)
  exact from_recorder .start

end

namespace BufferedReader

variable {script : Script} {start : BufferedReader}

theorem linked_of_conversation {record : List (Exchange BufferedReader)} {last : BufferedReader}
    {stream : List UInt8} (begins : Linked stream [] start) (held : Conversation start record last) :
    Linked stream (record.map Exchange.call) last := by
  induction held with
  | start => exact begins
  | read _ ih => simpa using ih.read
  | unwind count _ ih => simpa using ih.unwind count

/-- What a session with a reader keeps at every moment, those in the middle of a scan included. -/
structure Faithful (script : Script) (start : BufferedReader) (requests : List Request) : Prop where
  recorded : lastReader start (session start requests).record =
    requests.foldl (fun reader request => request.perform reader) start
  sound : ∀ past, past <+: (session start requests).record →
    Sound script.bytes (past.map Exchange.call) (lastReader start past)
  failed : ∀ past now, past ++ [now] <+: (session start requests).record →
    ∀ error, now.call.error? = some error →
      Unmoved (lastReader start past) now.after ∧ ∀ text, error ≠ .interrupted text
  scans : ∀ scanner : Scanner,
    (∀ count, (scanner.matchReader (session start requests).reader).unwound = some count →
      (scanner.matchReader (session start requests).reader).result = .ok false) ∧
    ∀ text, (scanner.matchReader (session start requests).reader).result ≠ .error (.reader (.interrupted text))

theorem faithful_of_linked (begins : Linked script.bytes [] start) (requests : List Request) :
    Faithful script start requests := by
  have held := conversation_session start requests
  refine ⟨?_, ?_, ?_, fun scanner => consume_result scanner.start _⟩
  · rw [held.lastReader_eq, reader_session]
  · intro past ahead
    exact (linked_of_conversation begins (held.of_prefix ahead)).sound
  · intro past now ahead error failed
    obtain ⟨before, earlier, rfl | ⟨count, rfl⟩⟩ := (held.of_prefix ahead).exists_last
    · rw [earlier.lastReader_eq]
      exact unmoved_of_read (Call.error?_read.mp failed)
    · rw [earlier.lastReader_eq]
      exact unmoved_of_unwind (Call.error?_unwind.mp failed)

/-- A session with a buffered reader loses no byte, and neither repeats nor moves one. -/
theorem session_faithful (script : Script) {capacity : Nat} (positive : 0 < capacity) (requests : List Request) :
    ∃ start, ofScript? script capacity = .ok start ∧ Faithful script start requests :=
  ⟨_, dif_pos positive, faithful_of_linked ⟨⟨[], rfl, rfl⟩, rfl, rfl⟩ requests⟩

def stuttering : Script :=
  [.failure (.interrupted "again"), .data [0x61, 0x61, 0x62], .data [], .failure (.other "lost"), .data [0x61]]

theorem session_faithful_stuttering : 0 < 2 ∧ ∃ start, ofScript? stuttering 2 = .ok start ∧
    Faithful stuttering start
      [.read, .unwind 1, .unwind 3, .scan (.ofAutomaton .repeating), .read, .scan (.ofAutomaton .repeating)] :=
  ⟨by decide, session_faithful stuttering (by decide) _⟩

end BufferedReader

end ByteRegex
