import ByteRegex.CharClass

/-! Named byte classes, which a pattern refers to by a backslash and the name. A name hides the
escape sequence that is written the same way. -/

namespace ByteRegex

structure ClassTable where
  /-- Later definitions stand in front of the ones that they replace. -/
  entries : List (UInt8 × CharClass) := []
  deriving Repr

namespace ClassTable

def insert (table : ClassTable) (name : UInt8) (set : CharClass) : ClassTable :=
  { entries := (name, set) :: table.entries }

def get? (table : ClassTable) (name : UInt8) : Option CharClass := table.entries.lookup name

def digits : CharClass := { ranges := [⟨'0'.toUInt8, '9'.toUInt8⟩] }

def wordBytes : CharClass where
  ranges := [⟨'A'.toUInt8, 'Z'.toUInt8⟩, ⟨'a'.toUInt8, 'z'.toUInt8⟩,
    ⟨'0'.toUInt8, '9'.toUInt8⟩, .single '_'.toUInt8]

/-- Space, line feed, carriage return, tab, vertical tab and form feed. -/
def spaces : CharClass := .ofBytes [0x20, 0x0a, 0x0d, 0x09, 0x0b, 0x0c]

/-- Digits, word bytes and spaces; a capital letter names the complement. -/
def standard : ClassTable :=
  ({ } : ClassTable)
    |>.insert 'd'.toUInt8 digits
    |>.insert 'D'.toUInt8 digits.invert
    |>.insert 'w'.toUInt8 wordBytes
    |>.insert 'W'.toUInt8 wordBytes.invert
    |>.insert 's'.toUInt8 spaces
    |>.insert 'S'.toUInt8 spaces.invert

end ClassTable

end ByteRegex
