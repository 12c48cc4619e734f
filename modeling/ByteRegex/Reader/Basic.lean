/-! Sources of input that come in chunks. What was read last can be pushed back, so that a scan
leaves behind exactly the input that it did not examine. -/

namespace ByteRegex

inductive ReadError
  /-- More bytes were pushed back than were read since the start. -/
  | unwindPastStart
  /-- More bytes were pushed back than the last chunk holds. -/
  | unwindPastChunk
  /-- The source gave up for the moment and wants to be asked again. -/
  | interrupted (text : String)
  | other (text : String)
  deriving DecidableEq, Repr

def ReadError.message : ReadError → String
  | unwindPastStart => "can not unwind past the start of input"
  | unwindPastChunk => "can not unwind more bytes than the ones in the last chunk"
  | interrupted text => text
  | other text => text

/-- Something that delivers chunks. It holds finitely many bytes: every chunk that is not empty
leaves fewer of them. -/
class Reader (ρ : Type) where
  /-- The next chunk. An empty one means that there is no more input. -/
  read : ρ → Except ReadError (List UInt8) × ρ
  /-- Push back the last bytes read; the next chunk begins with them. -/
  unwind : Nat → ρ → Except ReadError Unit × ρ
  remaining : ρ → Nat
  remaining_read : ∀ (before : ρ) {byte chunk after},
    read before = (.ok (byte :: chunk), after) → remaining after < remaining before

end ByteRegex
