import ByteRegex.Flat.Validation
import ByteRegex.Flat.Varint
import ByteRegex.Reader.Script

/-! The serialized form of flat automata: a signature, then the fields in order. A list is
preceded by its length; flags and range bounds are raw bytes, all other numbers have variable
length. -/

namespace ByteRegex

inductive SerializationError
  /-- The signature is missing. -/
  | invalidFormat
  | invalidEncoding (error : EncodingError)
  | invalidAutomaton (defect : FlatDefect)
  | io (text : String)
  deriving DecidableEq, Repr

def SerializationError.message : SerializationError → String
  | invalidFormat => "not a serialized automaton"
  | invalidEncoding _ => "invalid serialized automaton"
  | invalidAutomaton defect => "invalid automaton: " ++ defect.message
  | io text => text

namespace FlatAutomaton

def signature : List UInt8 := "REGEX-FA".toList.map Char.toUInt8

def stateParts (state : FlatState) : List (List UInt8) :=
  Varint.parts state.nextStart.toNat ++ Varint.parts state.nextLength.toNat ++
    Varint.parts state.rangesStart.toNat ++ Varint.parts state.rangesLength.toNat ++
    [[state.flags]]

def rangeParts (range : ByteRange) : List (List UInt8) := [[range.first], [range.last]]

def listParts {α : Type} (item : α → List (List UInt8)) (items : List α) : List (List UInt8) :=
  Varint.parts items.length ++ items.flatMap item

/-- The fields, in the parts in which they are written. -/
def parts (flat : FlatAutomaton) : List (List UInt8) :=
  listParts stateParts flat.states.toList ++
    listParts (Varint.parts ·.toNat) flat.next.toList ++
    listParts rangeParts flat.ranges.toList ++
    listParts (Varint.parts ·.toNat) flat.sources ++
    Varint.parts flat.accept.toNat

def serialize (flat : FlatAutomaton) : List UInt8 := signature ++ flat.parts.flatten

def decodeState : Decoder FlatState := do
  let nextStart ← Varint.decode32
  let nextLength ← Varint.decode32
  let rangesStart ← Varint.decode32
  let rangesLength ← Varint.decode32
  let flags ← Decoder.byte
  return { nextStart, nextLength, rangesStart, rangesLength, flags }

def decodeRange : Decoder ByteRange := do
  let first ← Decoder.byte
  let last ← Decoder.byte
  return { first, last }

def decodeList {α : Type} (item : Decoder α) : Decoder (Array α) := do
  let count ← Varint.decode
  Decoder.many item count #[]

def decode : Decoder FlatAutomaton := do
  let states ← decodeList decodeState
  let next ← decodeList Varint.decode32
  let ranges ← decodeList decodeRange
  let sources ← decodeList Varint.decode32
  let accept ← Varint.decode32
  return { states, next, ranges, sources := sources.toList, accept }

/-- Read a serialized automaton. It has to begin with the signature, to end with its last field
and to describe an automaton. -/
def deserialize (bytes : List UInt8) : Except SerializationError FlatAutomaton :=
  if bytes.take signature.length ≠ signature then .error .invalidFormat
  else match Decoder.complete decode (bytes.drop signature.length) with
    | .error error => .error (.invalidEncoding error)
    | .ok flat =>
      match flat.defect? with
      | some defect => .error (.invalidAutomaton defect)
      | none => .ok flat

/-- Read a serialized automaton from a source, which is read to its end. -/
def deserializeFrom (source : Script) : Except SerializationError FlatAutomaton :=
  match source.readToEnd with
  | .ok bytes => deserialize bytes
  | .error error => .error (.io error.message)

end FlatAutomaton

end ByteRegex
