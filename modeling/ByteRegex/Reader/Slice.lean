import ByteRegex.Fault
import ByteRegex.Reader.Basic

/-! Input in memory, delivered in chunks of one size. Everything read so far can be pushed
back. -/

namespace ByteRegex

structure SliceReader where
  data : List UInt8
  chunkSize : Nat
  /-- Bytes read so far, without the ones pushed back. -/
  position : Nat := 0
  chunkSize_pos : 0 < chunkSize

namespace SliceReader

def ofData? (data : List UInt8) (chunkSize : Nat) : Except Fault SliceReader :=
  if positive : 0 < chunkSize then .ok { data, chunkSize, chunkSize_pos := positive }
  else .error .emptyChunks

def read (reader : SliceReader) : Except ReadError (List UInt8) × SliceReader :=
  let chunk := (reader.data.drop reader.position).take reader.chunkSize
  (.ok chunk, { reader with position := reader.position + chunk.length })

def unwind (count : Nat) (reader : SliceReader) : Except ReadError Unit × SliceReader :=
  if reader.position < count then (.error .unwindPastStart, reader)
  else (.ok (), { reader with position := reader.position - count })

instance : Reader SliceReader where
  read := read
  unwind := unwind
  remaining reader := reader.data.length - reader.position
  remaining_read before {byte chunk after} delivered := by
    simp only [read, Prod.mk.injEq, Except.ok.injEq] at delivered
    obtain ⟨equal, rfl⟩ := delivered
    have size := congrArg List.length equal
    simp only [List.length_take, List.length_drop, List.length_cons] at size ⊢
    omega

end SliceReader

end ByteRegex
