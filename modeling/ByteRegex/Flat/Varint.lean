import ByteRegex.Flat.Decoder

/-! Numbers of variable length. Below 251 a number is its own byte; from there on a lead byte
announces two, four or eight bytes, the lowest first. The shortest form is written and every
form is read. -/

namespace ByteRegex.Varint

/-- The low bytes of a number, the lowest first. -/
def littleEndian : (count : Nat) → (value : Nat) → List UInt8
  | 0, _ => []
  | count + 1, value => UInt8.ofNat value :: littleEndian count (value / 256)

/-- The shortest form, in the parts in which it is written. -/
def parts (value : Nat) : List (List UInt8) :=
  if value < 251 then [[UInt8.ofNat value]]
  else if value < UInt16.size then [[0xfb], littleEndian 2 value]
  else if value < UInt32.size then [[0xfc], littleEndian 4 value]
  else [[0xfd], littleEndian 8 value]

def encode (value : Nat) : List UInt8 := (parts value).flatten

def decode : Decoder Nat := do
  let lead ← Decoder.byte
  if lead < 0xfb then return lead.toNat
  else if lead = 0xfb then Decoder.littleEndian 2
  else if lead = 0xfc then Decoder.littleEndian 4
  else if lead = 0xfd then Decoder.littleEndian 8
  else if lead = 0xfe then throw .wideNumber
  else throw .reservedLead

def decode32 : Decoder UInt32 := do
  let value ← decode
  if value < UInt32.size then return .ofNat value else throw (.tooLarge value)

end ByteRegex.Varint
