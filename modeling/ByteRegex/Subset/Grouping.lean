import ByteRegex.CharClass

/-! Transitions on single bytes, grouped by where they lead. Neighbouring bytes with one target
share a range. -/

namespace ByteRegex

/-- Add a byte behind a list of ranges. The last range is extended if the byte is the next one. -/
def ByteRange.extend (byte : UInt8) : List ByteRange → List ByteRange
  | [] => [.single byte]
  | [last] =>
    -- The sum does not wrap, so nothing extends a range that ends with the greatest byte.
    if last.last.toNat + 1 = byte.toNat then [{ last with last := byte }]
    else [last, .single byte]
  | range :: next :: more => range :: extend byte (next :: more)

variable {target : Type} [DecidableEq target]

/-- Put a transition into the group of its target, which is opened behind the others if there is
none. -/
def addStep (step : UInt8 × target) :
    List (target × List ByteRange) → List (target × List ByteRange)
  | [] => [(step.2, [.single step.1])]
  | (wanted, ranges) :: more =>
    if wanted = step.2 then (wanted, ByteRange.extend step.1 ranges) :: more
    else (wanted, ranges) :: addStep step more

/-- Every target with the ranges of the bytes that lead to it, in the order in which the targets
first appear. -/
def groupByTarget (steps : List (UInt8 × target)) : List (target × List ByteRange) :=
  steps.foldl (fun groups step => addStep step groups) []

end ByteRegex
