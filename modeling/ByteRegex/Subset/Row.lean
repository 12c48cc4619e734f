import ByteRegex.Automaton.Renumber
import ByteRegex.Subset.Grouping

/-! Deterministic automata as tables. A row says which row each class of bytes leads to; in the
automaton it becomes an epsilon state that forks into one consuming state per class. -/

namespace ByteRegex

structure Row where
  edges : List (CharClass × Nat)
  accepting : Bool
  deriving DecidableEq, Repr

namespace Row

/-- One class per byte, or one class for all bytes with the same target. -/
def ofSteps (compact : Bool) (accepting : Bool) (steps : List (UInt8 × Nat)) : Row where
  edges :=
    if compact then
      (groupByTarget steps).map fun (target, ranges) => ({ ranges }, target)
    else
      steps.map fun (byte, target) => (.single byte, target)
  accepting

/-- The fork of a row whose consuming states start at `first`. -/
def fork (row : Row) (accept first : StateId) : State :=
  .epsilon (List.range' first row.edges.length ++ if row.accepting then [accept] else [])

def leaves (row : Row) : List State :=
  row.edges.map fun (set, target) => .consuming set [target]

/-- The forks of all rows, the accepting state, and the consuming states of all rows. -/
def arena (rows : List Row) : Array State :=
  let accept := rows.length
  let (forks, _) := rows.foldl
    (fun (forks, first) row => (forks.push (row.fork accept first), first + row.edges.length))
    (#[], accept + 1)
  (forks.push (.epsilon [])) ++ (rows.flatMap leaves).toArray

def toAutomaton (rows : List Row) (sources : List Nat) : Automaton :=
  .ofArena (arena rows) sources rows.length

end Row

end ByteRegex
