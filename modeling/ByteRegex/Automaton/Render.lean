import ByteRegex.Automaton.Basic

/-! The listing of an automaton: one line per state with its number, its role, its class and
its successors. -/

namespace ByteRegex

namespace Automaton

/-- The word for a state's role. An accepting epsilon state is named for that alone. -/
def renderRole (automaton : Automaton) (id : StateId) (state : State) : String :=
  match state.kind with
  | .consuming set => " CLASS " ++ set.render
  | .epsilon =>
    if id == automaton.accept then " ACCEPT" else if state.back then " BACK" else " EPSILON"

def renderNext (next : List StateId) : String :=
  if next.isEmpty then "" else " ->" ++ String.join (next.map (" " ++ ·.render))

def renderState (automaton : Automaton) (id : StateId) (state : State) : String :=
  id.render ++ ":" ++ (if automaton.sources.contains id then " SOURCE" else "") ++
    automaton.renderRole id state ++ renderNext state.next ++ "\n"

/-- All states in ascending order, below an empty line. -/
def render (automaton : Automaton) : String :=
  "\n" ++ String.join
    (automaton.states.toList.zipIdx.map fun (state, id) => automaton.renderState id state)

end Automaton

end ByteRegex
