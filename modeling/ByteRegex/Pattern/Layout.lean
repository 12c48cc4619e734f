import ByteRegex.Automaton.Renumber
import ByteRegex.Pattern.Basic

/-! The automaton of a pattern. Every subtree becomes a block of consecutive states that
starts at a given number and whenever it has matched goes on to a given state outside of it. -/

namespace ByteRegex.Pattern

def size : Pattern → Nat
  | bytes _ => 1
  | concat first second => first.size + second.size
  | either first second => first.size + second.size + 2
  | optional body => body.size + 2
  | oneOrMore body => body.size + 2
  | zeroOrMore body => body.size + 3

/-- The state that begins a match of the block placed at `base`. -/
def entry : Pattern → (base : Nat) → StateId
  | concat first _, base => first.entry base
  | oneOrMore body, base => body.entry (base + 2)
  | bytes _, base | either _ _, base | optional _, base | zeroOrMore _, base => base

/-- The states of a pattern placed at `base` and followed by the state `follow`. Repetitions
run their body into the state that decides whether to go round again, and only the way back
passes through a state with the back flag. -/
def block : Pattern → (base : Nat) → (follow : StateId) → List State
  | bytes set, _, follow => [.consuming set [follow]]
  | concat first second, base, follow =>
    first.block base (second.entry (base + first.size)) ++
      second.block (base + first.size) follow
  | either first second, base, follow =>
    .epsilon [first.entry (base + 2), second.entry (base + 2 + first.size)] ::
    .epsilon [follow] ::
    (first.block (base + 2) (base + 1) ++ second.block (base + 2 + first.size) (base + 1))
  | optional body, base, follow =>
    .epsilon [body.entry (base + 2), base + 1] ::
    .epsilon [follow] ::
    body.block (base + 2) (base + 1)
  | oneOrMore body, base, follow =>
    .epsilon [base + 1, follow] ::
    .loopback [body.entry (base + 2)] ::
    body.block (base + 2) base
  | zeroOrMore body, base, follow =>
    .epsilon [body.entry (base + 3), base + 2] ::
    .loopback [base] ::
    .epsilon [follow] ::
    body.block (base + 3) (base + 1)

theorem length_block (pattern : Pattern) (base : Nat) (follow : StateId) :
    (pattern.block base follow).length = pattern.size := by
  induction pattern generalizing base follow with
  | bytes set => rfl
  | concat first second ihFirst ihSecond => rw [block, List.length_append, ihFirst, ihSecond, size]
  | either first second ihFirst ihSecond =>
    simp only [block, List.length_cons, List.length_append, ihFirst, ihSecond, size]
  | optional body ih | oneOrMore body ih | zeroOrMore body ih =>
    simp only [block, List.length_cons, ih, size]

/-- A source in front of the block and an accepting state behind it, renumbered from the
source. -/
def toAutomaton (pattern : Pattern) : Automaton :=
  .ofArena (.epsilon [pattern.entry 2] :: .epsilon [] :: pattern.block 2 1).toArray [0] 1

end ByteRegex.Pattern
