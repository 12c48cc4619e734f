/-! Hexadecimal text of numbers, in lower case. Every identifier and byte that the
library prints goes through here. -/

namespace ByteRegex.Hex

/-- Digits of a number without leading zeros, zero being a single digit. -/
def digits (value : Nat) : List Char := Nat.toDigits 16 value

/-- Digits filled up with leading zeros to at least `width` characters. -/
def padded (width value : Nat) : String :=
  String.ofList ((digits value).leftpad width '0')

end ByteRegex.Hex
