import ByteRegex.Flat.Basic

/-! The way back from flat arrays to an automaton. Flat automata come from files, so nothing in
them is taken on trust: every number is checked before it is used as an index. -/

namespace ByteRegex

inductive FlatDefect
  | noSources
  /-- A source or the accepting state is not a state. -/
  | missingState (id : UInt32)
  | nextOutOfBounds (state : Nat)
  | rangesOutOfBounds (state : Nat)
  | missingSuccessor (state : Nat) (id : UInt32)
  | reversedRange (state : Nat)
  | acceptNotSink (id : UInt32)
  deriving DecidableEq, Repr

def FlatDefect.message : FlatDefect → String
  | noSources => "no sources"
  | missingState id => "state " ++ toString id ++ " doesn't exist"
  | nextOutOfBounds state => "successors of state " ++ toString state ++ " out of bounds"
  | rangesOutOfBounds state => "ranges of state " ++ toString state ++ " out of bounds"
  | missingSuccessor state id =>
    "state " ++ toString state ++ " has a transition to non-existing state " ++ toString id
  | reversedRange state => "state " ++ toString state ++ " has an invalid range"
  | acceptNotSink id => "accepting state " ++ toString id ++ " is not an epsilon sink"

namespace FlatAutomaton

def isMissing (flat : FlatAutomaton) (id : UInt32) : Bool := flat.states.size ≤ id.toNat

def stateDefect? (flat : FlatAutomaton) (index : Nat) (state : FlatState) : Option FlatDefect :=
  if flat.next.size < state.nextStart.toNat + state.nextLength.toNat then
    some (.nextOutOfBounds index)
  else if flat.ranges.size < state.rangesStart.toNat + state.rangesLength.toNat then
    some (.rangesOutOfBounds index)
  else match (flat.nextOf state).find? flat.isMissing with
    | some id => some (.missingSuccessor index id)
    | none =>
      if (flat.rangesOf state).any fun range => range.last < range.first then
        some (.reversedRange index)
      else none

def acceptDefect? (flat : FlatAutomaton) : Option FlatDefect :=
  if flat.states[flat.accept.toNat]?.any fun state => state.isEpsilon && state.nextLength == 0 then
    none
  else some (.acceptNotSink flat.accept)

/-- The first defect: of the sources, of the accepting number, of the states in order, and of
the accepting state. -/
def defect? (flat : FlatAutomaton) : Option FlatDefect :=
  if flat.sources.isEmpty then some .noSources
  else
    ((flat.sources ++ [flat.accept]).find? flat.isMissing).map .missingState
      <|> flat.states.toList.zipIdx.findSome? (fun (state, index) => flat.stateDefect? index state)
      <|> flat.acceptDefect?

/-- The state that a flat state describes. Ranges of an epsilon state are ignored. -/
def stateOf (flat : FlatAutomaton) (state : FlatState) : State where
  kind :=
    if state.isEpsilon then .epsilon
    else .consuming { ranges := flat.rangesOf state, inverted := state.isInverted }
  back := state.isBack
  next := (flat.nextOf state).map UInt32.toNat

def toAutomaton (flat : FlatAutomaton) : Except FlatDefect Automaton :=
  match flat.defect? with
  | some defect => .error defect
  | none => .ok {
      states := flat.states.map flat.stateOf
      sources := flat.sources.map UInt32.toNat
      accept := flat.accept.toNat }

end FlatAutomaton

end ByteRegex
