import ByteRegex.Automaton.Basic

/-! Runs of an automaton. A path leaves an epsilon state freely and a consuming state by
reading one byte of its class; the accepted words are those read between a source and the
accepting state. -/

namespace ByteRegex

namespace Automaton

inductive Path (automaton : Automaton) : StateId → List UInt8 → StateId → Prop
  | here (id) : Path automaton id [] id
  | fork {id after final word next back} :
    automaton.states[id]? = some ⟨.epsilon, back, next⟩ → after ∈ next →
    Path automaton after word final → Path automaton id word final
  | read {id after final word next back set byte} :
    automaton.states[id]? = some ⟨.consuming set, back, next⟩ → set.contains byte →
    after ∈ next → Path automaton after word final → Path automaton id (byte :: word) final

def Accepts (automaton : Automaton) (word : List UInt8) : Prop :=
  ∃ source ∈ automaton.sources, automaton.Path source word automaton.accept

def Reaches (automaton : Automaton) (word : List UInt8) (id : StateId) : Prop :=
  ∃ source ∈ automaton.sources, automaton.Path source word id

variable {automaton : Automaton}

theorem Path.append {start middle final : StateId} {first second : List UInt8}
    (before : automaton.Path start first middle) (after : automaton.Path middle second final) :
    automaton.Path start (first ++ second) final := by
  induction before with
  | here => exact after
  | fork state edge _ ih => exact .fork state edge (ih after)
  | read state inside edge _ ih => exact .read state inside edge (ih after)

end Automaton

end ByteRegex
