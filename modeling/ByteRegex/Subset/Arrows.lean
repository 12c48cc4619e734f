import ByteRegex.Automaton.Basic
import ByteRegex.Subset.Alphabet
import ByteRegex.Subset.IndexSet

/-! The arrows of an epsilon free automaton. There is one for each listed source and one for
each transition; what an input leads to is the set of the arrows that can come last. -/

namespace ByteRegex

structure Arrows where
  width : Nat
  targets : Array StateId
  outgoing : Array (IndexSet width)

namespace Arrows

/-- The transitions of each state, numbered from `first` on. -/
def leaving {width : Nat} (first : Nat) (states : Array State) : Array (IndexSet width) :=
  (states.foldl
    (fun (sets, first) state =>
      (sets.push (.interval first state.next.length), first + state.next.length))
    (#[], first)).1

/-- Sources come first, then the transitions of each state in order. -/
def ofAutomaton (automaton : Automaton) : Arrows :=
  let targets := automaton.sources ++ automaton.states.toList.flatMap State.next
  { width := targets.length
    targets := targets.toArray
    outgoing := leaving automaton.sources.length automaton.states }

/-- The states that the arrows of a set point to, each once. -/
def heads (arrows : Arrows) (set : IndexSet arrows.width) : List StateId :=
  (KeySet.ofList (set.toList.map (arrows.targets.getD · 0))).toList

/-- The arrows that leave those of the given states which consume the byte. -/
def after (arrows : Arrows) (automaton : Automaton) (heads : List StateId) (byte : UInt8) :
    IndexSet arrows.width :=
  heads.foldl
    (fun set id =>
      if automaton.states[id]?.any (·.consumes byte) then
        set ∪ arrows.outgoing.getD id ∅
      else set)
    ∅

/-- The non-empty sets that follow a set, in ascending order of the byte that leads there. -/
def steps (arrows : Arrows) (automaton : Automaton) (alphabet : Alphabet)
    (set : IndexSet arrows.width) : List (UInt8 × IndexSet arrows.width) :=
  let heads := arrows.heads set
  (alphabet.toList.map fun byte => (byte, arrows.after automaton heads byte)).filter
    (!·.2.isEmpty)

def accepting (arrows : Arrows) (automaton : Automaton) (set : IndexSet arrows.width) : Bool :=
  (arrows.heads set).contains automaton.accept

/-- The sets with which a run can begin: the arrow of one source each. -/
def starts (arrows : Arrows) (automaton : Automaton) : List (IndexSet arrows.width) :=
  (List.range automaton.sources.length).map .singleton

end Arrows

end ByteRegex
