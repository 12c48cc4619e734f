import ByteRegex.Automaton.Basic

/-! Automata as a few flat arrays. The states share one array of successors and one array of
ranges, and each names its part of them by a start and a length in 32 bits. -/

namespace ByteRegex

structure FlatState where
  nextStart : UInt32
  nextLength : UInt32
  rangesStart : UInt32
  rangesLength : UInt32
  flags : UInt8
  deriving DecidableEq, Repr

namespace FlatState

def epsilonFlag : UInt8 := 1
def invertedFlag : UInt8 := 2
def backFlag : UInt8 := 4

def hasFlag (state : FlatState) (flag : UInt8) : Bool := state.flags &&& flag != 0

def isEpsilon (state : FlatState) : Bool := state.hasFlag epsilonFlag
def isInverted (state : FlatState) : Bool := state.hasFlag invertedFlag
def isBack (state : FlatState) : Bool := state.hasFlag backFlag

end FlatState

structure FlatAutomaton where
  states : Array FlatState
  next : Array UInt32
  ranges : Array ByteRange
  sources : List UInt32
  accept : UInt32
  deriving DecidableEq, Repr

namespace State

/-- The ranges that a state takes with it: those of its class, or none. -/
def ranges (state : State) : List ByteRange := (state.condition.map CharClass.ranges).getD []

/-- What a flat state says about a state besides its successors and ranges. -/
def flags (state : State) : UInt8 :=
  (if state.back then FlatState.backFlag else 0) |||
    match state.kind with
    | .epsilon => FlatState.epsilonFlag
    | .consuming set => if set.inverted then FlatState.invertedFlag else 0

end State

namespace FlatAutomaton

/-- The parts of the shared arrays that belong to a state, given how much of them the states
before it take. Totals are cut down to 32 bits, and a length is the difference of two totals. -/
def place (state : State) (nextTotal rangesTotal : Nat) : FlatState where
  nextStart := .ofNat nextTotal
  nextLength := .ofNat (nextTotal + state.next.length) - .ofNat nextTotal
  rangesStart := .ofNat rangesTotal
  rangesLength := .ofNat (rangesTotal + state.ranges.length) - .ofNat rangesTotal
  flags := state.flags

def placeAll (states : Array State) : Array FlatState :=
  (states.foldl
    (fun (placed, nextTotal, rangesTotal) state =>
      (placed.push (place state nextTotal rangesTotal),
        nextTotal + state.next.length, rangesTotal + state.ranges.length))
    (#[], 0, 0)).1

def ofAutomaton (automaton : Automaton) : FlatAutomaton where
  states := placeAll automaton.states
  next := automaton.states.flatMap fun state => (state.next.map UInt32.ofNat).toArray
  ranges := automaton.states.flatMap fun state => state.ranges.toArray
  sources := automaton.sources.map .ofNat
  accept := .ofNat automaton.accept

def nextOf (flat : FlatAutomaton) (state : FlatState) : List UInt32 :=
  (flat.next.extract state.nextStart.toNat
    (state.nextStart.toNat + state.nextLength.toNat)).toList

def rangesOf (flat : FlatAutomaton) (state : FlatState) : List ByteRange :=
  (flat.ranges.extract state.rangesStart.toNat
    (state.rangesStart.toNat + state.rangesLength.toNat)).toList

end FlatAutomaton

end ByteRegex
