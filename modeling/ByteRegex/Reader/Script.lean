import ByteRegex.Reader.Basic

/-! Scripted sources: everything that a source of bytes can do, written down in advance. After
the script the input is at its end. -/

namespace ByteRegex

inductive SourceEvent
  | data (bytes : List UInt8)
  | failure (error : ReadError)
  deriving DecidableEq, Repr

abbrev Script := List SourceEvent

namespace Script

def bytes : Script → List UInt8
  | [] => []
  | .data bytes :: rest => bytes ++ Script.bytes rest
  | .failure _ :: rest => Script.bytes rest

/-- Ask for at most `capacity` bytes. What does not fit is there the next time, and a source
that was interrupted is asked again. -/
def fill (capacity : Nat) : Script → Except ReadError (List UInt8) × Script
  | [] => (.ok [], [])
  | .data bytes :: rest =>
    (.ok (bytes.take capacity),
      if bytes.length ≤ capacity then rest else .data (bytes.drop capacity) :: rest)
  | .failure (.interrupted _) :: rest => fill capacity rest
  | .failure error :: rest => (.error error, rest)

/-- Everything up to the end of the input, which an empty read stands for as well. -/
def readToEnd : Script → Except ReadError (List UInt8)
  | [] => .ok []
  | .data [] :: _ => .ok []
  | .data bytes :: rest => (readToEnd rest).map (bytes ++ ·)
  | .failure (.interrupted _) :: rest => readToEnd rest
  | .failure error :: _ => .error error

theorem bytes_fill {capacity : Nat} {before after : Script} {chunk : List UInt8}
    (filled : before.fill capacity = (.ok chunk, after)) :
    before.bytes = chunk ++ after.bytes := by
  induction before using fill.induct with
  | case1 => simp_all [fill, bytes]
  | case2 delivered rest =>
    simp only [fill, Prod.mk.injEq, Except.ok.injEq] at filled
    obtain ⟨rfl, rfl⟩ := filled
    split
    next fits => simp [bytes, List.take_of_length_le fits]
    next => simp [bytes, ← List.append_assoc]
  | case3 text rest ih => exact ih filled
  | case4 => simp_all [fill]

/-- A source that fails has lost no bytes, and an interruption is not a failure. -/
theorem fill_of_error {capacity : Nat} {before after : Script} {error : ReadError}
    (failed : before.fill capacity = (.error error, after)) :
    before.bytes = after.bytes ∧ ∀ text, error ≠ .interrupted text := by
  induction before using fill.induct with
  | case1 => simp [fill] at failed
  | case2 => simp [fill] at failed
  | case3 text rest ih => exact ih failed
  | case4 rest error' other =>
    simp only [fill, Prod.mk.injEq, Except.error.injEq] at failed
    obtain ⟨rfl, rfl⟩ := failed
    exact ⟨rfl, fun text same => other text same⟩

end Script

/-- A reader that hands out the data of each event whole. Bytes that are pushed back are only
counted, or refused for a given reason. -/
structure CountingReader where
  script : Script
  refusal : Option ReadError := none
  unwound : Nat := 0
  deriving DecidableEq, Repr

namespace CountingReader

def read (reader : CountingReader) : Except ReadError (List UInt8) × CountingReader :=
  match reader.script with
  | [] => (.ok [], reader)
  | .data bytes :: rest => (.ok bytes, { reader with script := rest })
  | .failure error :: rest => (.error error, { reader with script := rest })

def unwind (count : Nat) (reader : CountingReader) : Except ReadError Unit × CountingReader :=
  match reader.refusal with
  | some error => (.error error, reader)
  | none => (.ok (), { reader with unwound := reader.unwound + count })

instance : Reader CountingReader where
  read := read
  unwind := unwind
  remaining reader := reader.script.bytes.length
  remaining_read before {byte chunk after} delivered := by
    unfold read at delivered
    split at delivered
    all_goals simp only [Prod.mk.injEq, Except.ok.injEq, reduceCtorEq, false_and] at delivered
    next found =>
      obtain ⟨rfl, rfl⟩ := delivered
      simp only [found, Script.bytes, List.cons_append, List.length_cons, List.length_append]
      omega

end CountingReader

end ByteRegex
