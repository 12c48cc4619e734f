import ByteRegex.Automaton.Shortcuts

/-! Removal of epsilon states. Every chain of epsilon states becomes one transition to its
ending, and epsilon sources give way to the states behind them. The states that are left keep
their relative order. -/

namespace ByteRegex

namespace Automaton

/-- An epsilon source with something behind it is replaced by what is behind it. -/
def isReplaced (automaton : Automaton) (graph : Graph) (id : StateId) : Bool :=
  automaton.sources.contains id && automaton.isEpsilon id && !(graph.next id).isEmpty

/-- The sources with what is behind them in place of those that are replaced. A source that is
listed again is gone by then, so its number is left as it is. -/
def replaceSources (replaced : StateId → Bool) (next : StateId → List StateId) :
    List StateId → List StateId
  | [] => []
  | id :: rest =>
    (if replaced id then next id else [id]) ++
      replaceSources (fun other => replaced other && other != id) next rest

/-- The new number of each state that is kept, indexed by the old one. -/
def newNumbers (size : Nat) (kept : List StateId) : Array (Option StateId) :=
  kept.zipIdx.foldl (fun numbers (id, place) => numbers.setIfInBounds id (some place))
    (.replicate size none)

def remap (numbers : Array (Option StateId)) (id : StateId) : Except Fault StateId :=
  match numbers.getD id none with
  | some number => .ok number
  | none => .error .danglingSource

def remapState (numbers : Array (Option StateId)) (state : State) : Except Fault State :=
  return { state with next := ← state.next.mapM (remap numbers) }

/-- The automaton without its epsilon states, apart from the accepting state and from dead
ends. Transitions and sources have their old numbers until all that is kept is known. -/
def optimize (automaton : Automaton) : Except Fault Automaton := do
  let graph := automaton.shortcutGraph
  let replaced := automaton.isReplaced graph
  let reached := graph.explore (.withCapacity automaton.size) automaton.sources
  let kept := (List.range automaton.size).filter fun id =>
    (reached.contains id || id == automaton.accept) && !replaced id
  -- A source collects its shortcuts once per listing.
  let next id := (List.replicate (max 1 (automaton.sources.count id)) (graph.next id)).flatten
  let states := kept.filterMap fun id =>
    automaton.states[id]?.map fun state => { state with next := next id }
  let numbers := newNumbers automaton.size kept
  let states ← states.mapM (remapState numbers)
  let sources ← (replaceSources replaced next automaton.sources).mapM (remap numbers)
  let accept ← remap numbers automaton.accept
  return { states := states.toArray, sources := sources.eraseDups, accept }

end Automaton

end ByteRegex
