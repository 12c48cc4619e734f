/-! The bytes that a deterministic automaton is built for. An input with any other byte is
never accepted by it. -/

namespace ByteRegex

structure Alphabet where
  bits : BitVec 256
  deriving DecidableEq, Repr

namespace Alphabet

def all : Alphabet := ⟨BitVec.allOnes 256⟩

def ofBytes (bytes : List UInt8) : Alphabet :=
  ⟨bytes.foldl (fun bits byte => bits ||| BitVec.twoPow 256 byte.toNat) 0⟩

def contains (alphabet : Alphabet) (byte : UInt8) : Bool := alphabet.bits.getLsbD byte.toNat

def toList (alphabet : Alphabet) : List UInt8 :=
  ((List.range 256).map UInt8.ofNat).filter alphabet.contains

def size (alphabet : Alphabet) : Nat := alphabet.toList.length

def isEmpty (alphabet : Alphabet) : Bool := alphabet.toList.isEmpty

end Alphabet

end ByteRegex
