/-! Decoding of bytes. A decoder takes what it needs from the front of the data and hands on
the rest. -/

namespace ByteRegex

inductive EncodingError
  | endOfData
  /-- Bytes are left over after the last field. -/
  | trailingBytes
  | tooLarge (value : Nat)
  /-- A lead byte announces a number of 128 bits. -/
  | wideNumber
  /-- A lead byte that announces nothing. -/
  | reservedLead
  /-- The sink refused the data. -/
  | refused (text : String)
  deriving DecidableEq, Repr

def EncodingError.message : EncodingError → String
  | endOfData => "io error: unexpected end of file"
  | trailingBytes => "Slice had bytes remaining after deserialization"
  | tooLarge value =>
    "Invalid u32 " ++ toString value ++ ": you may have a version disagreement?"
  | wideNumber =>
    "Invalid value (u128 range): you may have a version or configuration disagreement?"
  | reservedLead =>
    "\nByte 255 is treated as an extension point; it should not be encoding anything.\n" ++
      "Do you have a mismatched bincode version or configuration?\n"
  | refused text => "io error: " ++ text

abbrev Decoder := StateT (List UInt8) (Except EncodingError)

namespace Decoder

def byte : Decoder UInt8 := fun
  | [] => .error .endOfData
  | byte :: rest => .ok (byte, rest)

/-- A number in a fixed count of bytes, the lowest byte first. -/
def littleEndian : (count : Nat) → Decoder Nat
  | 0 => return 0
  | count + 1 => do
    let low ← byte
    let high ← littleEndian count
    return low.toNat + 256 * high

/-- A given count of items. The count is not trusted: nothing is set aside for it, and the data
may end before it is reached. -/
def many {α : Type} (item : Decoder α) : (count : Nat) → Array α → Decoder (Array α)
  | 0, items => return items
  | count + 1, items => fun data =>
    match item data with
    | .ok (value, rest) => many item count (items.push value) rest
    | .error error => .error error

/-- The value of a decoder that uses up the data. -/
def complete {α : Type} (decoder : Decoder α) (data : List UInt8) : Except EncodingError α :=
  match decoder data with
  | .ok (value, []) => .ok value
  | .ok (_, _ :: _) => .error .trailingBytes
  | .error error => .error error

end Decoder

end ByteRegex
