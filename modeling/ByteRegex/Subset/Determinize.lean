import ByteRegex.Automaton.Optimize
import ByteRegex.Subset.Arrows
import ByteRegex.Subset.Row
import ByteRegex.Subset.Subsets

/-! Deterministic automata by the subset construction. Reading a byte from a set of arrows
leads to one other set, and the sets that can come up are the rows of the table. -/

namespace ByteRegex

structure Determinization where
  /-- The automaton whose arrows are followed: the given one, or what is left of it without
  its epsilon states. -/
  prepared : Automaton
  /-- One row per set of arrows that some input leads to. -/
  rows : List Row
  automaton : Automaton
  deriving Repr

namespace Automaton

/-- Every source gets a row of its own, and only the bytes of the alphabet are followed. -/
def determinizeArrows (prepared : Automaton) (alphabet : Alphabet) (compact : Bool) :
    Determinization :=
  let arrows := Arrows.ofAutomaton prepared
  let starts := arrows.starts prepared
  let (found, steps) := Subsets.followUp (arrows.steps prepared alphabet)
    (starts.foldl Subsets.insert .empty) #[]
  let number set := (found.find? set).getD 0
  let rows := (found.order.toList.zip steps.toList).map fun (set, steps) =>
    .ofSteps compact (arrows.accepting prepared set)
      (steps.map fun (byte, after) => (byte, number after))
  { prepared, rows, automaton := Row.toAutomaton rows (starts.map number) }

/-- A deterministic automaton that accepts the accepted words over the alphabet. Epsilon states
other than the accepting one are removed first. -/
def determinize (automaton : Automaton) (alphabet : Alphabet) (compact : Bool) :
    Except Fault Determinization := do
  let prepared ← if automaton.isEpsilonFree then pure automaton else automaton.optimize
  return prepared.determinizeArrows alphabet compact

end Automaton

end ByteRegex
