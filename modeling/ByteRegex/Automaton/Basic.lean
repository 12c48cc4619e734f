import ByteRegex.CharClass
import ByteRegex.Fault
import ByteRegex.Graph

/-! Automata over bytes. A state either consumes one byte of a class or is an epsilon state,
which only forks. States are numbered from zero and name their successors by number, so a
loop is a cycle of numbers; a number without a state behind it is a dead end.

All automata are meant to have fewer than 2^32 states, as state numbers have 32 bits. Only `StateId.ofNat?`
checks it: no stage that builds an automaton fails for the number of its states. -/

namespace ByteRegex

abbrev StateId := Nat

namespace StateId

/-- State numbers have 32 bits. -/
def bound : Nat := UInt32.size

def ofNat? (value : Nat) : Except Fault StateId :=
  if value < bound then .ok value else .error .tooManyStates

/-- Five hexadecimal digits, or more where they do not suffice. -/
def render (id : StateId) : String := Hex.padded 5 id

end StateId

inductive StateKind
  | epsilon
  | consuming (set : CharClass)
  deriving DecidableEq, Repr

structure State where
  kind : StateKind
  /-- Set on the epsilon states that close a loop. Matching does not depend on it. -/
  back : Bool := false
  next : List StateId
  deriving DecidableEq, Repr

namespace State

def epsilon (next : List StateId) : State := { kind := .epsilon, next }

def loopback (next : List StateId) : State := { kind := .epsilon, back := true, next }

def consuming (set : CharClass) (next : List StateId) : State := { kind := .consuming set, next }

def isEpsilon (state : State) : Bool := state.kind matches .epsilon

def isSink (state : State) : Bool := state.next.isEmpty

def condition (state : State) : Option CharClass :=
  match state.kind with
  | .epsilon => none
  | .consuming set => some set

def consumes (state : State) (byte : UInt8) : Bool :=
  state.condition.any (·.contains byte)

end State

structure Automaton where
  states : Array State
  sources : List StateId
  accept : StateId
  deriving DecidableEq, Repr

namespace Automaton

def size (automaton : Automaton) : Nat := automaton.states.size

def next (automaton : Automaton) (id : StateId) : List StateId :=
  (automaton.states[id]?.map State.next).getD []

def isEpsilon (automaton : Automaton) (id : StateId) : Bool :=
  automaton.states[id]?.any State.isEpsilon

def isSink (automaton : Automaton) (id : StateId) : Bool :=
  automaton.states[id]?.any State.isSink

/-- The accepting state is the only epsilon state. -/
def isEpsilonFree (automaton : Automaton) : Bool :=
  (List.range automaton.size).all fun id => id == automaton.accept || !automaton.isEpsilon id

def loopbacks (automaton : Automaton) : List StateId :=
  (List.range automaton.size).filter fun id => automaton.states[id]?.any State.back

/-- What every automaton of the library keeps: only numbers of existing states, some source,
and an accepting state that neither consumes nor leads anywhere. -/
structure Valid (automaton : Automaton) : Prop where
  next_lt : ∀ state ∈ automaton.states, ∀ id ∈ state.next, id < automaton.size
  sources_ne_nil : automaton.sources ≠ []
  source_lt : ∀ id ∈ automaton.sources, id < automaton.size
  accept_sink : ∃ back, automaton.states[automaton.accept]? = some ⟨.epsilon, back, []⟩

end Automaton

end ByteRegex
