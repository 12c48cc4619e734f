import ByteRegex.Fault
import ByteRegex.Reader.Script

/-! A buffer in front of a source. The source is asked only when the buffer is used up, and
what is left of the last chunk can be pushed back into the buffer. -/

namespace ByteRegex

structure BufferedReader where
  source : Script
  capacity : Nat
  /-- What the source gave last. -/
  buffer : List UInt8 := []
  /-- How much of the buffer is delivered. -/
  position : Nat := 0
  capacity_pos : 0 < capacity
  position_le : position ≤ buffer.length := by simp

namespace BufferedReader

def standardCapacity : Nat := 8 * 1024

def ofScript? (source : Script) (capacity : Nat) : Except Fault BufferedReader :=
  if positive : 0 < capacity then .ok { source, capacity, capacity_pos := positive }
  else .error .emptyBuffer

/-- Bytes that the source gave and that are not delivered, such as the ones pushed back. -/
def buffered (reader : BufferedReader) : List UInt8 := reader.buffer.drop reader.position

/-- Deliver the rest of the buffer, or fill it first if there is none. A failure of the source
leaves the buffer as it is. -/
def read (reader : BufferedReader) : Except ReadError (List UInt8) × BufferedReader :=
  if reader.position = reader.buffer.length then
    match reader.source.fill reader.capacity with
    | (.ok chunk, source) =>
      (.ok chunk, { reader with
        source, buffer := chunk, position := chunk.length, position_le := Nat.le_refl _ })
    | (.error error, source) => (.error error, { reader with source })
  else
    (.ok reader.buffered, { reader with
      position := reader.buffer.length, position_le := Nat.le_refl _ })

def unwind (count : Nat) (reader : BufferedReader) : Except ReadError Unit × BufferedReader :=
  if reader.position < count then (.error .unwindPastChunk, reader)
  else (.ok (), { reader with
    position := reader.position - count
    position_le := Nat.le_trans (Nat.sub_le _ _) reader.position_le })

instance : Reader BufferedReader where
  read := read
  unwind := unwind
  remaining reader := reader.source.bytes.length + reader.buffered.length
  remaining_read before {byte chunk after} delivered := by
    unfold read at delivered
    split at delivered
    next used =>
      split at delivered
      next filled =>
        have stream := congrArg List.length (Script.bytes_fill filled)
        simp only [Prod.mk.injEq, Except.ok.injEq] at delivered
        obtain ⟨rfl, rfl⟩ := delivered
        simp_all only [List.cons_append, List.length_cons, List.length_append, buffered,
          List.drop_succ_cons, List.drop_length, List.length_nil, Nat.add_zero]
        omega
      next => simp at delivered
    next =>
      simp only [Prod.mk.injEq, Except.ok.injEq] at delivered
      obtain ⟨same, rfl⟩ := delivered
      have size := congrArg List.length same
      simp only [buffered, List.length_drop, List.length_cons] at size ⊢
      omega

end BufferedReader

end ByteRegex
