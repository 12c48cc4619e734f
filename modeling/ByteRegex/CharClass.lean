import ByteRegex.Hex

/-! Sets of bytes as patterns write them: a list of inclusive ranges that may overlap and
need no order, and a flag that complements the whole list. -/

namespace ByteRegex

structure ByteRange where
  first : UInt8
  last : UInt8
  deriving DecidableEq, Repr

namespace ByteRange

def single (byte : UInt8) : ByteRange := ⟨byte, byte⟩

/-- A range whose bounds are reversed contains nothing. -/
def contains (range : ByteRange) (byte : UInt8) : Bool :=
  range.first ≤ byte && byte ≤ range.last

def render (range : ByteRange) : String :=
  "[0x" ++ Hex.padded 2 range.first.toNat ++ "-0x" ++ Hex.padded 2 range.last.toNat ++ "]"

end ByteRange

structure CharClass where
  ranges : List ByteRange := []
  inverted : Bool := false
  deriving DecidableEq, Repr

namespace CharClass

/-- Every byte: the complement of the empty list. -/
def any : CharClass := { inverted := true }

def single (byte : UInt8) : CharClass := { ranges := [.single byte] }

def ofBytes (bytes : List UInt8) : CharClass := { ranges := bytes.map .single }

def invert (set : CharClass) : CharClass := { set with inverted := !set.inverted }

def contains (set : CharClass) (byte : UInt8) : Bool :=
  set.ranges.any (·.contains byte) != set.inverted

/-- The ranges separated by blanks, after a caret if they are complemented. -/
def render (set : CharClass) : String :=
  (if set.inverted then "^" else "") ++ " ".intercalate (set.ranges.map ByteRange.render)

end CharClass

end ByteRegex
