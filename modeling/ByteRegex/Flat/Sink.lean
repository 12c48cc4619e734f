import ByteRegex.Flat.Encoding

/-! Writing a serialized automaton to a sink that may be full. Writes are collected in a buffer,
which goes to the sink when the next write does not fit and once more at the end; where a
failure happens decides what it is reported as. -/

namespace ByteRegex

structure Sink where
  /-- How many bytes the sink takes in all. -/
  limit : Nat
  refusal : String
  written : Array UInt8 := #[]
  deriving Repr

def Sink.write (sink : Sink) (bytes : Array UInt8) : Except String Sink :=
  if sink.written.size + bytes.size ≤ sink.limit then
    .ok { sink with written := sink.written ++ bytes }
  else .error sink.refusal

structure BufferedSink where
  sink : Sink
  pending : Array UInt8 := #[]
  deriving Repr

namespace BufferedSink

def capacity : Nat := 8192

def flush (buffered : BufferedSink) : Except String BufferedSink :=
  return { sink := ← buffered.sink.write buffered.pending }

/-- Collect the bytes. The buffer is emptied before if they do not fit into the rest of it. -/
def write (buffered : BufferedSink) (bytes : List UInt8) : Except String BufferedSink := do
  let emptied ←
    if capacity < buffered.pending.size + bytes.length then buffered.flush else pure buffered
  return { emptied with pending := emptied.pending ++ bytes }

end BufferedSink

namespace FlatAutomaton

/-- Serialize into a sink. A sink that refuses in the middle spoils the encoding, and one that
refuses the last of the buffer is reported for itself. -/
def serializeInto (flat : FlatAutomaton) (sink : Sink) : Except SerializationError Sink := do
  let opened ← (BufferedSink.write { sink } signature).mapError .io
  let filled ← (flat.parts.foldlM BufferedSink.write opened).mapError
    fun text => .invalidEncoding (.refused text)
  let flushed ← filled.flush.mapError .io
  return flushed.sink

end FlatAutomaton

end ByteRegex
