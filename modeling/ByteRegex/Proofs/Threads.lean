import ByteRegex.Proofs.Scanning

/-! The threads between two bytes. The scanner keeps one thread for each consuming state that the
input so far can lead to, and its flag says whether that input leads to the accepting state. It stops
at the first prefix that leaves it without threads. -/

namespace ByteRegex

namespace Automaton

def isConsuming (automaton : Automaton) (id : StateId) : Bool :=
  automaton.states[id]?.any (!·.isEpsilon)

variable {automaton : Automaton} {start id : StateId} {word : List UInt8}

theorem isConsuming_iff : automaton.isConsuming id ↔ id < automaton.size ∧ ¬ automaton.isEpsilon id := by
  cases found : automaton.states[id]? with
  | none =>
    have outside : ¬ id < automaton.size := Nat.not_lt.mpr (Array.getElem?_eq_none_iff.mp found)
    simp [isConsuming, found, outside]
  | some state =>
    have inside : id < automaton.size := (Array.getElem?_eq_some_iff.mp found).1
    simp [isConsuming, isEpsilon, found, inside]

theorem Closed.path_lt (closed : automaton.Closed) (path : automaton.Path start word id)
    (inside : start < automaton.size) : id < automaton.size := by
  induction path with
  | here => exact inside
  | fork found edge _ ih => exact ih (closed.next_lt _ _ (mem_next_of found edge))
  | read found _ edge _ ih => exact ih (closed.next_lt _ _ (mem_next_of found edge))

theorem Closed.reaches_lt (closed : automaton.Closed) (reached : automaton.Reaches word id) :
    id < automaton.size := by
  obtain ⟨source, listed, path⟩ := reached
  exact closed.path_lt path (closed.source_lt source listed)

end Automaton

namespace Scanner

variable {automaton : Automaton} {scanner : Scanner} {word : List UInt8}

def after (scanner : Scanner) (word : List UInt8) : Scanner := word.foldl step scanner.start

/-- The threads are the consuming states that the word leads to, each once. -/
structure Tracks (automaton : Automaton) (scanner : Scanner) (word : List UInt8) : Prop where
  distinct : scanner.threads.toList.Nodup
  threads : ∀ id, id ∈ scanner.threads.toList ↔ automaton.isConsuming id ∧ automaton.Reaches word id
  accepting : scanner.accepting ↔ automaton.Reaches word automaton.accept

theorem At.tracks (here : At automaton scanner word) : Tracks automaton scanner word := by
  refine ⟨scanner.threads.nodup_toList, ?_, here.accepting_iff⟩
  intro id
  rw [here.mem_threads, Automaton.isConsuming_iff]
  constructor
  · intro ⟨reached, consuming⟩
    exact ⟨⟨here.closed.reaches_lt reached, consuming⟩, reached⟩
  · intro ⟨⟨_, consuming⟩, reached⟩
    exact ⟨reached, consuming⟩

theorem At.foldl (here : At automaton scanner word) (taken : List UInt8) :
    At automaton (taken.foldl Scanner.step scanner) (word ++ taken) := by
  induction taken generalizing scanner word with
  | nil => simpa using here
  | cons byte taken ih => simpa using ih (here.step byte)

theorem after_at (closed : scanner.automaton.Closed) (word : List UInt8) :
    At scanner.automaton (scanner.after word) word :=
  (scanner.start_at closed).foldl word

theorem run_append_of_live {taken : List UInt8} (rest : List UInt8)
    (live : ∀ early, early <+: taken → early ≠ taken → ¬ (early.foldl step scanner).threads.isEmpty) :
    scanner.run (taken ++ rest) = (taken.foldl step scanner).run rest := by
  induction taken generalizing scanner with
  | nil => rfl
  | cons byte taken ih =>
    have begins : ¬ scanner.threads.isEmpty := live [] List.nil_prefix (List.cons_ne_nil _ _).symm
    rw [List.cons_append, run, if_neg begins, List.foldl_cons]
    apply ih
    intro early ahead shorter
    exact live (byte :: early) ((List.prefix_cons_inj byte).mpr ahead) (by simpa using shorter)

theorem run_of_dead (dead : scanner.threads.isEmpty) (rest : List UInt8) : scanner.run rest = (scanner, rest) := by
  cases rest with
  | nil => rfl
  | cons byte rest => rw [run, if_pos dead]

theorem length_run_le (scanner : Scanner) (input : List UInt8) : (scanner.run input).2.length ≤ input.length := by
  induction input generalizing scanner with
  | nil => simp [run]
  | cons byte rest ih =>
    rw [run]
    split
    · exact Nat.le_refl _
    · exact Nat.le_succ_of_le (ih _)

/-- Some prefix is the first that leaves no threads, unless only the whole input can. -/
theorem exists_first_dead (scanner : Scanner) (input : List UInt8) : ∃ taken rest, input = taken ++ rest ∧
    (rest ≠ [] → (taken.foldl step scanner).threads.isEmpty) ∧
    ∀ early, early <+: taken → early ≠ taken → ¬ (early.foldl step scanner).threads.isEmpty := by
  induction input generalizing scanner with
  | nil => exact ⟨[], [], rfl, nofun, by simp⟩
  | cons byte input ih =>
    by_cases dead : scanner.threads.isEmpty
    · exact ⟨[], byte :: input, rfl, fun _ => dead, by simp⟩
    · obtain ⟨taken, rest, split, ends, live⟩ := ih (scanner.step byte)
      refine ⟨byte :: taken, rest, by rw [split, List.cons_append], ends, ?_⟩
      intro early ahead shorter
      cases early with
      | nil => exact dead
      | cons first early =>
        obtain ⟨rfl, below⟩ := List.cons_prefix_cons.mp ahead
        exact live early below (by simpa using shorter)

/-- The scanner matches the words that a path from a source to the accepting state reads. It processes
the word up to the first prefix without threads, and knows after each prefix where it leads. -/
theorem isMatch_tracks (closed : scanner.automaton.Closed) (word : List UInt8) :
    ((scanner.isMatch word).1 ↔ ∃ source ∈ scanner.automaton.sources,
      scanner.automaton.Path source word scanner.automaton.accept) ∧
    ∃ processed rest, word = processed ++ rest ∧
      scanner.start.run word = (scanner.after processed, rest) ∧
      (rest ≠ [] → (scanner.after processed).threads.isEmpty) ∧
      ∀ before, before <+: processed →
        (before ≠ processed → ¬ (scanner.after before).threads.isEmpty) ∧
        Tracks scanner.automaton (scanner.after before) before := by
  refine ⟨isMatch_iff closed word, ?_⟩
  obtain ⟨processed, rest, split, dead, live⟩ := exists_first_dead scanner.start word
  refine ⟨processed, rest, split, ?_, dead,
    fun before ahead => ⟨live before ahead, (after_at closed before).tracks⟩⟩
  rw [split, run_append_of_live rest live]
  by_cases whole : rest = []
  · rw [whole]
    rfl
  · exact run_of_dead (dead whole) rest

end Scanner

/-- Two epsilon states that lead to each other, a consuming source, and transitions that are listed again. -/
def Automaton.repeating : Automaton where
  states := #[.epsilon [1, 1, 2], .loopback [0], .consuming (.single 0x61) [0, 3, 3], .epsilon []]
  sources := [0, 2]
  accept := 3

namespace Scanner

theorem isMatch_tracks_repeating : (ofAutomaton .repeating).automaton.Closed ∧
    (((ofAutomaton .repeating).isMatch [0x61, 0x62, 0x61]).1 ↔ ∃ source ∈ Automaton.repeating.sources,
      Automaton.repeating.Path source [0x61, 0x62, 0x61] Automaton.repeating.accept) ∧
    ∃ processed rest, [0x61, 0x62, 0x61] = processed ++ rest ∧
      (ofAutomaton .repeating).start.run [0x61, 0x62, 0x61] = ((ofAutomaton .repeating).after processed, rest) ∧
      (rest ≠ [] → ((ofAutomaton .repeating).after processed).threads.isEmpty) ∧
      ∀ before, before <+: processed →
        (before ≠ processed → ¬ ((ofAutomaton .repeating).after before).threads.isEmpty) ∧
        Tracks .repeating ((ofAutomaton .repeating).after before) before :=
  ⟨by decide, isMatch_tracks (by decide) [0x61, 0x62, 0x61]⟩

end Scanner

end ByteRegex
