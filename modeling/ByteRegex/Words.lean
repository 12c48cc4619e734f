/-! The words that tests compare automata on: all those over a list of letters, by length and then by the
places of their letters in the list. -/

namespace ByteRegex.Words

def ofLength {letter : Type} (letters : List letter) : Nat → List (List letter)
  | 0 => [[]]
  | length + 1 => letters.flatMap fun first => (ofLength letters length).map (first :: ·)

def upTo {letter : Type} (letters : List letter) (length : Nat) : List (List letter) :=
  (List.range (length + 1)).flatMap (ofLength letters)

end ByteRegex.Words
