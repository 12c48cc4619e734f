/-! Broken preconditions. A caller that respects the documented domain of an operation
never sees one of these. -/

namespace ByteRegex

inductive Fault
  /-- A state number needs more than 32 bits. -/
  | tooManyStates
  /-- An index set was asked to hold an index that is not below its width. -/
  | indexOutOfRange
  /-- A reader over memory was asked to deliver empty chunks. -/
  | emptyChunks
  /-- A buffered reader was given no buffer. -/
  | emptyBuffer
  /-- The number of a source that disappeared with the epsilon states is still in use. -/
  | danglingSource
  deriving DecidableEq, Repr

namespace Fault

def message : Fault → String
  | tooManyStates => "too many automaton states"
  | indexOutOfRange => "index out of range"
  | emptyChunks => "chunk size must be greater than zero"
  | emptyBuffer => "capacity must be greater than zero"
  | danglingSource => "transition to a state optimized out"

end Fault

end ByteRegex
