import ByteRegex.Automaton.Run
import ByteRegex.Automaton.Shortcuts
import ByteRegex.Proofs.Search

/-! The shape of a run. It follows epsilon states, consumes a byte, and goes on from a successor of
the state that consumed; this is how a scanner, the optimizer and the subset construction see it. -/

namespace ByteRegex.Automaton

def reads (automaton : Automaton) (id : StateId) (byte : UInt8) : Bool :=
  automaton.states[id]?.any (·.consumes byte)

/-- All numbers name states, and the accepting state neither consumes nor leads anywhere. There
need not be a source, and a source may be listed again. -/
structure Closed (automaton : Automaton) : Prop where
  next_lt : ∀ id, ∀ after ∈ automaton.next id, after < automaton.size
  source_lt : ∀ id ∈ automaton.sources, id < automaton.size
  accept_epsilon : automaton.isEpsilon automaton.accept
  accept_next : automaton.next automaton.accept = []

variable {automaton : Automaton} {id after final : StateId} {byte : UInt8} {word : List UInt8}

theorem next_of {state : State} (found : automaton.states[id]? = some state) :
    automaton.next id = state.next := by
  simp [next, found]

theorem mem_next_of {state : State} (found : automaton.states[id]? = some state)
    (edge : after ∈ state.next) : after ∈ automaton.next id := by
  rwa [next_of found]

theorem lt_of_next (edge : after ∈ automaton.next id) : id < automaton.size := by
  by_cases inside : id < automaton.size
  · exact inside
  · simp [next, Array.getElem?_eq_none (Nat.le_of_not_lt inside)] at edge

theorem isEpsilon_iff : automaton.isEpsilon id ↔
    ∃ back, automaton.states[id]? = some ⟨.epsilon, back, automaton.next id⟩ := by
  cases found : automaton.states[id]? with
  | none => simp [isEpsilon, found]
  | some state =>
    obtain ⟨kind, back, next⟩ := state
    cases kind <;> simp [isEpsilon, State.isEpsilon, found, next_of found]

theorem reads_iff : automaton.reads id byte ↔ ∃ set back,
    automaton.states[id]? = some ⟨.consuming set, back, automaton.next id⟩ ∧ set.contains byte := by
  cases found : automaton.states[id]? with
  | none => simp [reads, found]
  | some state =>
    obtain ⟨kind, back, next⟩ := state
    cases kind <;> simp [reads, State.consumes, State.condition, found, next_of found]

theorem isEpsilon_of {back : Bool} {next : List StateId}
    (found : automaton.states[id]? = some ⟨.epsilon, back, next⟩) : automaton.isEpsilon id := by
  simp [isEpsilon, found, State.isEpsilon]

theorem reads_of {set : CharClass} {back : Bool} {next : List StateId}
    (found : automaton.states[id]? = some ⟨.consuming set, back, next⟩) (inside : set.contains byte) :
    automaton.reads id byte := by
  simp [reads, found, State.consumes, State.condition, inside]

theorem lt_of_isEpsilon (epsilon : automaton.isEpsilon id) : id < automaton.size := by
  obtain ⟨_, found⟩ := isEpsilon_iff.mp epsilon
  exact (Array.getElem?_eq_some_iff.mp found).1

theorem not_isEpsilon_of_reads (consumes : automaton.reads id byte) : ¬ automaton.isEpsilon id := by
  intro epsilon
  obtain ⟨_, _, consuming, _⟩ := reads_iff.mp consumes
  obtain ⟨_, forking⟩ := isEpsilon_iff.mp epsilon
  simp [consuming] at forking

theorem Closed.accept_lt (closed : automaton.Closed) : automaton.accept < automaton.size :=
  lt_of_isEpsilon closed.accept_epsilon

theorem next_lt_iff : (∀ id, ∀ after ∈ automaton.next id, after < automaton.size) ↔
    ∀ state ∈ automaton.states, ∀ after ∈ state.next, after < automaton.size := by
  constructor
  · intro bounded state member after edge
    obtain ⟨id, found⟩ := Array.mem_iff_getElem?.mp member
    exact bounded id after (mem_next_of found edge)
  · intro bounded id after edge
    have inside := lt_of_next edge
    rw [next_of (Array.getElem?_eq_getElem inside)] at edge
    exact bounded _ (Array.getElem_mem inside) after edge

theorem closed_iff : automaton.Closed ↔
    (∀ state ∈ automaton.states, ∀ after ∈ state.next, after < automaton.size) ∧
    (∀ id ∈ automaton.sources, id < automaton.size) ∧
    automaton.isEpsilon automaton.accept ∧ automaton.next automaton.accept = [] := by
  rw [← next_lt_iff]
  exact ⟨fun closed => ⟨closed.next_lt, closed.source_lt, closed.accept_epsilon, closed.accept_next⟩,
    fun ⟨bounded, source, epsilon, sink⟩ => ⟨bounded, source, epsilon, sink⟩⟩

instance : Decidable automaton.Closed := decidable_of_iff _ closed_iff.symm

theorem Valid.closed (valid : automaton.Valid) : automaton.Closed := by
  obtain ⟨_, sink⟩ := valid.accept_sink
  exact closed_iff.mpr ⟨valid.next_lt, valid.source_lt, isEpsilon_of sink, next_of sink⟩

theorem mem_epsilonGraph_next : after ∈ automaton.epsilonGraph.next id ↔
    automaton.isEpsilon id ∧ after ∈ automaton.next id := by
  simp only [epsilonGraph]
  split
  next epsilon => simp [epsilon]
  next consuming => simp [consuming]

theorem Path.jump (epsilon : automaton.isEpsilon id) (edge : after ∈ automaton.next id)
    (rest : automaton.Path after word final) : automaton.Path id word final := by
  obtain ⟨_, found⟩ := isEpsilon_iff.mp epsilon
  exact .fork found edge rest

theorem Path.consume (consumes : automaton.reads id byte) (edge : after ∈ automaton.next id)
    (rest : automaton.Path after word final) : automaton.Path id (byte :: word) final := by
  obtain ⟨_, _, found, inside⟩ := reads_iff.mp consumes
  exact .read found inside edge rest

theorem path_iff : automaton.Path id word final ↔
    word = [] ∧ id = final ∨
    (automaton.isEpsilon id ∧ ∃ after ∈ automaton.next id, automaton.Path after word final) ∨
    ∃ byte rest, word = byte :: rest ∧ automaton.reads id byte ∧
      ∃ after ∈ automaton.next id, automaton.Path after rest final := by
  constructor
  · intro path
    cases path with
    | here => exact .inl ⟨rfl, rfl⟩
    | fork found edge rest =>
      exact .inr (.inl ⟨isEpsilon_of found, _, mem_next_of found edge, rest⟩)
    | read found inside edge rest =>
      exact .inr (.inr ⟨_, _, rfl, reads_of found inside, _, mem_next_of found edge, rest⟩)
  · rintro (⟨rfl, rfl⟩ | ⟨epsilon, after, edge, rest⟩ | ⟨byte, rest, rfl, consumes, after, edge, path⟩)
    · exact .here id
    · exact rest.jump epsilon edge
    · exact path.consume consumes edge

/-- An epsilon state that leads nowhere is left by no run. -/
theorem Path.of_sink (path : automaton.Path id word final) (epsilon : automaton.isEpsilon id)
    (sink : automaton.next id = []) : word = [] ∧ id = final := by
  rcases path_iff.mp path with here | ⟨_, after, edge, _⟩ | ⟨_, _, _, consumes, _⟩
  · exact here
  · simp [sink] at edge
  · exact absurd epsilon (not_isEpsilon_of_reads consumes)

theorem Path.of_leads (leads : automaton.epsilonGraph.Leads id after)
    (rest : automaton.Path after word final) : automaton.Path id word final := by
  induction leads using Relation.ReflTransGen.head_induction_on with
  | refl => exact rest
  | head edge _ ih =>
    obtain ⟨epsilon, next⟩ := mem_epsilonGraph_next.mp edge
    exact ih.jump epsilon next

/-- Reading nothing is following epsilon states. -/
theorem path_nil_iff : automaton.Path id [] final ↔ automaton.epsilonGraph.Leads id final := by
  refine ⟨?_, fun leads => .of_leads leads (.here final)⟩
  generalize empty : ([] : List UInt8) = read
  intro path
  induction path with
  | here => exact .refl
  | fork found edge _ ih =>
    exact (ih empty).step (mem_epsilonGraph_next.mpr ⟨isEpsilon_of found, mem_next_of found edge⟩)
  | read => cases empty

/-- Reading a byte is following epsilon states to a state that consumes it. -/
theorem path_cons_iff : automaton.Path id (byte :: word) final ↔
    ∃ middle, automaton.epsilonGraph.Leads id middle ∧ automaton.reads middle byte ∧
      ∃ after ∈ automaton.next middle, automaton.Path after word final := by
  constructor
  · generalize whole : byte :: word = read
    intro path
    induction path with
    | here => cases whole
    | fork found edge _ ih =>
      obtain ⟨middle, leads, rest⟩ := ih whole
      exact ⟨middle, leads.step (mem_epsilonGraph_next.mpr
        ⟨isEpsilon_of found, mem_next_of found edge⟩), rest⟩
    | read found inside edge rest =>
      obtain ⟨rfl, rfl⟩ := List.cons.inj whole
      exact ⟨_, .refl, reads_of found inside, _, mem_next_of found edge, rest⟩
  · rintro ⟨middle, leads, consumes, after, edge, rest⟩
    exact .of_leads leads (rest.consume consumes edge)

/-- A run over two words joined comes by some state between them. -/
theorem path_append_iff {first second : List UInt8} : automaton.Path id (first ++ second) final ↔
    ∃ middle, automaton.Path id first middle ∧ automaton.Path middle second final := by
  refine ⟨?_, fun ⟨_, before, after⟩ => before.append after⟩
  intro path
  induction first generalizing id with
  | nil => exact ⟨id, .here id, path⟩
  | cons byte rest ih =>
    obtain ⟨middle, leads, consumes, after, edge, path⟩ := path_cons_iff.mp path
    obtain ⟨between, before, path⟩ := ih path
    exact ⟨between, path_cons_iff.mpr ⟨middle, leads, consumes, after, edge, before⟩, path⟩

end ByteRegex.Automaton
