import ByteRegex.Hex

/-! Bytes that a backslash and one more character stand for, and the way an arbitrary byte is
shown inside a message. -/

namespace ByteRegex.Escape

/-- Characters that a backslash deprives of their special meaning. -/
def verbatim : List Char := [']', '[', '\\', '(', ')', '^', '.', '?', '+', '*', '|', '-']

/-- Letters that stand for a control byte. -/
def controls : List (Char × UInt8) :=
  [('n', 0x0a), ('0', 0x00), ('r', 0x0d), ('t', 0x09), ('a', 0x07), ('b', 0x08), ('v', 0x0b)]

def startsHex (byte : UInt8) : Bool := byte == 'x'.toUInt8 || byte == 'X'.toUInt8

def value? (byte : UInt8) : Option UInt8 :=
  if verbatim.any (·.toUInt8 == byte) then some byte
  else (controls.find? (·.1.toUInt8 == byte)).map (·.2)

def hexValue? (byte : UInt8) : Option UInt8 :=
  if '0'.toUInt8 ≤ byte && byte ≤ '9'.toUInt8 then some (byte - '0'.toUInt8)
  else if 'a'.toUInt8 ≤ byte && byte ≤ 'f'.toUInt8 then some (byte - 'a'.toUInt8 + 10)
  else if 'A'.toUInt8 ≤ byte && byte ≤ 'F'.toUInt8 then some (byte - 'A'.toUInt8 + 10)
  else none

def isPrintable (byte : UInt8) : Bool := 0x20 ≤ byte && byte ≤ 0x7e

/-- A byte in ASCII: quotes and backslashes after a backslash, the usual letters for tab and
line ends, and two hexadecimal digits for whatever else does not print. -/
def render (byte : UInt8) : String :=
  if byte == 0x09 then "\\t"
  else if byte == 0x0d then "\\r"
  else if byte == 0x0a then "\\n"
  else if byte == '\''.toUInt8 then "\\'"
  else if byte == '"'.toUInt8 then "\\\""
  else if byte == '\\'.toUInt8 then "\\\\"
  else if isPrintable byte then String.singleton (Char.ofUInt8 byte)
  else "\\x" ++ Hex.padded 2 byte.toNat

end ByteRegex.Escape
