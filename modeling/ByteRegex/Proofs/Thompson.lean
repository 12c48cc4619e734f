import ByteRegex.Pattern.Layout
import ByteRegex.Proofs.Selection
import Mathlib.Data.List.Basic

/-! The language of a laid out pattern. A block is entered at one state and left for one state, and
what is read on the way is a match; a loop goes round once for every match of its body. -/

namespace ByteRegex

namespace Automaton

/-- A run with its number of moves, by which going round a loop makes what is left shorter. -/
inductive Walk (automaton : Automaton) : Nat → StateId → List UInt8 → StateId → Prop
  | here (id) : Walk automaton 0 id [] id
  | fork {moves id after final word} : automaton.isEpsilon id → after ∈ automaton.next id →
    Walk automaton moves after word final → Walk automaton (moves + 1) id word final
  | read {moves id after final word byte} : automaton.reads id byte → after ∈ automaton.next id →
    Walk automaton moves after word final → Walk automaton (moves + 1) id (byte :: word) final

/-- The states are found one after the other from `base` on. -/
def Holds (automaton : Automaton) (base : StateId) (states : List State) : Prop :=
  ∀ index state, states[index]? = some state → automaton.states[base + index]? = some state

variable {automaton : Automaton} {base id final moves : Nat} {word : List UInt8}

theorem exists_walk_iff : (∃ moves, automaton.Walk moves id word final) ↔ automaton.Path id word final := by
  constructor
  · intro ⟨moves, walk⟩
    induction walk with
    | here => exact .here _
    | fork epsilon edge _ ih => exact ih.jump epsilon edge
    | read consumes edge _ ih => exact ih.consume consumes edge
  · intro path
    induction path with
    | here => exact ⟨0, .here _⟩
    | fork found edge _ ih =>
      obtain ⟨moves, walk⟩ := ih
      exact ⟨moves + 1, .fork (isEpsilon_of found) (mem_next_of found edge) walk⟩
    | read found inside edge _ ih =>
      obtain ⟨moves, walk⟩ := ih
      exact ⟨moves + 1, .read (reads_of found inside) (mem_next_of found edge) walk⟩

theorem Walk.of_epsilon {back : Bool} {next : List StateId} (walk : automaton.Walk moves id word final)
    (found : automaton.states[id]? = some ⟨.epsilon, back, next⟩) (elsewhere : id ≠ final) :
    ∃ fewer < moves, ∃ after ∈ next, automaton.Walk fewer after word final := by
  cases walk with
  | here => exact absurd rfl elsewhere
  | fork _ edge rest =>
    rw [next_of found] at edge
    exact ⟨_, Nat.lt_succ_self _, _, edge, rest⟩
  | read consumes => exact absurd (isEpsilon_of found) (not_isEpsilon_of_reads consumes)

theorem Walk.of_single {back : Bool} {after : StateId} (walk : automaton.Walk moves id word final)
    (found : automaton.states[id]? = some ⟨.epsilon, back, [after]⟩) (elsewhere : id ≠ final) :
    ∃ fewer < moves, automaton.Walk fewer after word final := by
  obtain ⟨fewer, less, next, edge, rest⟩ := walk.of_epsilon found elsewhere
  rw [List.mem_singleton.mp edge] at rest
  exact ⟨fewer, less, rest⟩

theorem Walk.of_consuming {set : CharClass} {back : Bool} {after : StateId}
    (walk : automaton.Walk moves id word final)
    (found : automaton.states[id]? = some ⟨.consuming set, back, [after]⟩) (elsewhere : id ≠ final) :
    ∃ fewer < moves, ∃ byte rest, word = byte :: rest ∧ set.contains byte ∧
      automaton.Walk fewer after rest final := by
  cases walk with
  | here => exact absurd rfl elsewhere
  | fork epsilon => simp [isEpsilon, State.isEpsilon, found] at epsilon
  | read consumes edge rest =>
    rw [next_of found] at edge
    rw [List.mem_singleton.mp edge] at rest
    refine ⟨_, Nat.lt_succ_self _, _, _, rfl, ?_, rest⟩
    simpa [reads, State.consumes, State.condition, found] using consumes

theorem holds_cons {first : State} {rest : List State} : automaton.Holds base (first :: rest) ↔
    automaton.states[base]? = some first ∧ automaton.Holds (base + 1) rest := by
  constructor
  · intro holds
    refine ⟨holds 0 first rfl, ?_⟩
    intro index state found
    rw [Nat.add_assoc, Nat.add_comm 1]
    exact holds (index + 1) state found
  · intro ⟨found, holds⟩ index state inside
    cases index with
    | zero => exact found.trans inside
    | succ index =>
      rw [Nat.succ_eq_one_add, ← Nat.add_assoc]
      exact holds index state inside

theorem holds_append {first second : List State} : automaton.Holds base (first ++ second) ↔
    automaton.Holds base first ∧ automaton.Holds (base + first.length) second := by
  induction first generalizing base with
  | nil => simp [Holds]
  | cons state rest ih =>
    rw [List.cons_append, holds_cons, ih, holds_cons, and_assoc, List.length_cons, Nat.add_assoc,
      Nat.add_comm 1]

end Automaton

namespace Pattern

open Automaton

theorem entry_lt (pattern : Pattern) {base high : Nat} (below : base + pattern.size ≤ high) :
    pattern.entry base < high := by
  induction pattern generalizing base with
  | concat first second ih =>
    simp only [size] at below
    exact ih (by omega)
  | oneOrMore body ih =>
    simp only [size] at below
    exact ih (by omega)
  | _ => exact Nat.lt_of_lt_of_le (Nat.lt_add_of_pos_right (by simp [size])) below

theorem block_next_lt {pattern : Pattern} {base follow after high : Nat} {state : State}
    (inside : state ∈ pattern.block base follow) (edge : after ∈ state.next)
    (below : base + pattern.size ≤ high) (leaves : follow < high) : after < high := by
  induction pattern generalizing base follow with
  | bytes set =>
    rw [block, List.mem_singleton] at inside
    subst inside
    rwa [List.mem_singleton.mp edge]
  | concat first second ihFirst ihSecond =>
    simp only [size] at below
    rcases List.mem_append.mp inside with inside | inside
    · exact ihFirst inside (by omega) (second.entry_lt (by omega))
    · exact ihSecond inside (by omega) leaves
  | either first second ihFirst ihSecond =>
    simp only [size] at below
    simp only [block, List.mem_cons, List.mem_append] at inside
    -- The fork, the join, and the two alternatives, of which both end in the join.
    rcases inside with rfl | rfl | inside | inside
    · rcases List.mem_pair.mp edge with rfl | rfl
      · exact first.entry_lt (by omega)
      · exact second.entry_lt (by omega)
    · rwa [List.mem_singleton.mp edge]
    · exact ihFirst inside (by omega) (by omega)
    · exact ihSecond inside (by omega) (by omega)
  | optional body ih =>
    simp only [size] at below
    simp only [block, List.mem_cons] at inside
    rcases inside with rfl | rfl | inside
    · rcases List.mem_pair.mp edge with rfl | rfl
      · exact body.entry_lt (by omega)
      · omega
    · rwa [List.mem_singleton.mp edge]
    · exact ih inside (by omega) (by omega)
  | oneOrMore body ih =>
    simp only [size] at below
    simp only [block, List.mem_cons] at inside
    rcases inside with rfl | rfl | inside
    · rcases List.mem_pair.mp edge with rfl | rfl
      · omega
      · exact leaves
    · rw [List.mem_singleton.mp edge]
      exact body.entry_lt (by omega)
    · exact ih inside (by omega) (by omega)
  | zeroOrMore body ih =>
    simp only [size] at below
    simp only [block, List.mem_cons] at inside
    rcases inside with rfl | rfl | rfl | inside
    · rcases List.mem_pair.mp edge with rfl | rfl
      · exact body.entry_lt (by omega)
      · omega
    · rw [List.mem_singleton.mp edge]
      exact Nat.lt_of_lt_of_le (Nat.lt_add_of_pos_right (Nat.succ_pos _)) below
    · rwa [List.mem_singleton.mp edge]
    · exact ih inside (by omega) (by omega)

variable {automaton : Automaton} {first second body pattern : Pattern} {base follow final : Nat}
  {word : List UInt8}

/-- A run that enters a block of the pattern and ends outside of it at `final` reads a match first, and
has fewer moves left when it goes on from the state that follows the block. -/
def Passes (automaton : Automaton) (final : Nat) (pattern : Pattern) : Prop :=
  ∀ {base follow moves : Nat} {word : List UInt8}, automaton.Holds base (pattern.block base follow) →
    (final < base ∨ base + pattern.size ≤ final) → automaton.Walk moves (pattern.entry base) word final →
    ∃ fewer < moves, ∃ before rest, word = before ++ rest ∧ pattern.Matches before ∧
      automaton.Walk fewer follow rest final

theorem passes_bytes (set : CharClass) : Passes automaton final (.bytes set) := by
  intro base follow moves word holds outside walk
  obtain ⟨found, _⟩ := holds_cons.mp holds
  have elsewhere : base ≠ final := by
    simp only [size] at outside
    omega
  obtain ⟨fewer, less, byte, rest, rfl, inside, walk⟩ := walk.of_consuming found elsewhere
  exact ⟨fewer, less, [byte], rest, rfl, .bytes inside, walk⟩

theorem passes_concat (front : Passes automaton final first) (rear : Passes automaton final second) :
    Passes automaton final (.concat first second) := by
  intro base follow moves word holds outside walk
  simp only [size] at outside
  obtain ⟨upper, lower⟩ := holds_append.mp holds
  rw [length_block] at lower
  obtain ⟨middle, less, before, rest, rfl, matched, walk⟩ := front upper (by omega) walk
  obtain ⟨fewer, fewest, after, rest, rfl, follows, walk⟩ := rear lower (by omega) walk
  refine ⟨fewer, Nat.lt_trans fewest less, before ++ after, rest, ?_, .concat matched follows, walk⟩
  rw [List.append_assoc]

theorem passes_either (left : Passes automaton final first) (right : Passes automaton final second) :
    Passes automaton final (.either first second) := by
  intro base follow moves word holds outside walk
  simp only [size] at outside
  obtain ⟨fork, holds⟩ := holds_cons.mp holds
  obtain ⟨join, holds⟩ := holds_cons.mp holds
  obtain ⟨upper, lower⟩ := holds_append.mp holds
  rw [length_block] at lower
  obtain ⟨inner, enters, after, edge, walk⟩ := walk.of_epsilon fork (by simp only [entry]; omega)
  rcases List.mem_pair.mp edge with rfl | rfl
  · obtain ⟨outer, less, before, rest, rfl, matched, walk⟩ := left upper (by omega) walk
    obtain ⟨fewer, leaves, walk⟩ := walk.of_single join (by omega)
    exact ⟨fewer, by omega, before, rest, rfl, .left matched, walk⟩
  · obtain ⟨outer, less, before, rest, rfl, matched, walk⟩ := right lower (by omega) walk
    obtain ⟨fewer, leaves, walk⟩ := walk.of_single join (by omega)
    exact ⟨fewer, by omega, before, rest, rfl, .right matched, walk⟩

theorem passes_optional (inner : Passes automaton final body) : Passes automaton final (.optional body) := by
  intro base follow moves word holds outside walk
  simp only [size] at outside
  obtain ⟨fork, holds⟩ := holds_cons.mp holds
  obtain ⟨join, holds⟩ := holds_cons.mp holds
  obtain ⟨entered, enters, after, edge, walk⟩ := walk.of_epsilon fork (by simp only [entry]; omega)
  rcases List.mem_pair.mp edge with rfl | rfl
  · obtain ⟨outer, less, before, rest, rfl, matched, walk⟩ := inner holds (by omega) walk
    obtain ⟨fewer, leaves, walk⟩ := walk.of_single join (by omega)
    exact ⟨fewer, by omega, before, rest, rfl, .present matched, walk⟩
  · obtain ⟨fewer, leaves, walk⟩ := walk.of_single join (by omega)
    exact ⟨fewer, by omega, [], word, rfl, .absent, walk⟩

theorem passes_oneOrMore (inner : Passes automaton final body) : Passes automaton final (.oneOrMore body) := by
  intro base follow moves word holds outside walk
  simp only [size] at outside
  obtain ⟨choice, holds⟩ := holds_cons.mp holds
  obtain ⟨back, holds⟩ := holds_cons.mp holds
  -- By the moves that are left: each round uses some up.
  induction moves using Nat.strongRecOn generalizing word with
  | ind moves round =>
    obtain ⟨outer, less, before, rest, rfl, matched, walk⟩ := inner holds (by omega) walk
    obtain ⟨chosen, chooses, after, edge, walk⟩ := walk.of_epsilon choice (by omega)
    rcases List.mem_pair.mp edge with rfl | rfl
    · obtain ⟨again, returns, walk⟩ := walk.of_single back (by omega)
      obtain ⟨fewer, fewest, others, rest, rfl, loops, walk⟩ := round again (by omega) walk
      refine ⟨fewer, by omega, before ++ others, rest, ?_, .again matched loops, walk⟩
      rw [List.append_assoc]
    · exact ⟨chosen, by omega, before, rest, rfl, .once matched, walk⟩

theorem passes_zeroOrMore (inner : Passes automaton final body) : Passes automaton final (.zeroOrMore body) := by
  intro base follow moves word holds outside walk
  simp only [size] at outside
  obtain ⟨choice, holds⟩ := holds_cons.mp holds
  obtain ⟨back, holds⟩ := holds_cons.mp holds
  obtain ⟨exit, holds⟩ := holds_cons.mp holds
  induction moves using Nat.strongRecOn generalizing word with
  | ind moves round =>
    obtain ⟨chosen, chooses, after, edge, walk⟩ := walk.of_epsilon choice (by simp only [entry]; omega)
    rcases List.mem_pair.mp edge with rfl | rfl
    · obtain ⟨outer, less, before, rest, rfl, matched, walk⟩ := inner holds (by omega) walk
      obtain ⟨again, returns, walk⟩ := walk.of_single back (by omega)
      obtain ⟨fewer, fewest, others, rest, rfl, loops, walk⟩ := round again (by omega) walk
      refine ⟨fewer, by omega, before ++ others, rest, ?_, .repeat matched loops, walk⟩
      rw [List.append_assoc]
    · obtain ⟨fewer, leaves, walk⟩ := walk.of_single exit (by omega)
      exact ⟨fewer, by omega, [], word, rfl, .stop, walk⟩

theorem passes (automaton : Automaton) (final : Nat) (pattern : Pattern) : Passes automaton final pattern := by
  induction pattern with
  | bytes set => exact passes_bytes set
  | concat first second front rear => exact passes_concat front rear
  | either first second left right => exact passes_either left right
  | optional body inner => exact passes_optional inner
  | oneOrMore body inner => exact passes_oneOrMore inner
  | zeroOrMore body inner => exact passes_zeroOrMore inner

/-- What a pattern matches can be read on the way through its block. -/
theorem path_block (matched : pattern.Matches word)
    (holds : automaton.Holds base (pattern.block base follow)) :
    automaton.Path (pattern.entry base) word follow := by
  induction matched generalizing base follow with
  | bytes inside =>
    obtain ⟨found, _⟩ := holds_cons.mp holds
    exact .read found inside List.mem_cons_self (.here follow)
  | concat _ _ ihFirst ihSecond =>
    obtain ⟨front, rear⟩ := holds_append.mp holds
    rw [length_block] at rear
    exact (ihFirst front).append (ihSecond rear)
  | left _ ih =>
    obtain ⟨fork, holds⟩ := holds_cons.mp holds
    obtain ⟨join, holds⟩ := holds_cons.mp holds
    have through := (ih (holds_append.mp holds).1).append (.fork join List.mem_cons_self (.here follow))
    rw [List.append_nil] at through
    exact .fork fork (List.mem_pair.mpr (.inl rfl)) through
  | right _ ih =>
    obtain ⟨fork, holds⟩ := holds_cons.mp holds
    obtain ⟨join, holds⟩ := holds_cons.mp holds
    have lower := (holds_append.mp holds).2
    rw [length_block] at lower
    have through := (ih lower).append (.fork join List.mem_cons_self (.here follow))
    rw [List.append_nil] at through
    exact .fork fork (List.mem_pair.mpr (.inr rfl)) through
  | absent =>
    obtain ⟨fork, holds⟩ := holds_cons.mp holds
    obtain ⟨join, _⟩ := holds_cons.mp holds
    exact .fork fork (List.mem_pair.mpr (.inr rfl)) (.fork join List.mem_cons_self (.here follow))
  | present _ ih =>
    obtain ⟨fork, holds⟩ := holds_cons.mp holds
    obtain ⟨join, holds⟩ := holds_cons.mp holds
    have through := (ih holds).append (.fork join List.mem_cons_self (.here follow))
    rw [List.append_nil] at through
    exact .fork fork (List.mem_pair.mpr (.inl rfl)) through
  | once _ ih =>
    obtain ⟨choice, rest⟩ := holds_cons.mp holds
    obtain ⟨_, rest⟩ := holds_cons.mp rest
    have through := (ih rest).append (.fork choice (List.mem_pair.mpr (.inr rfl)) (.here follow))
    rwa [List.append_nil] at through
  | again _ _ ihBody ihLoop =>
    obtain ⟨choice, rest⟩ := holds_cons.mp holds
    obtain ⟨back, rest⟩ := holds_cons.mp rest
    refine (ihBody rest).append (.fork choice (List.mem_pair.mpr (.inl rfl)) ?_)
    exact .fork back List.mem_cons_self (ihLoop holds)
  | stop =>
    obtain ⟨choice, rest⟩ := holds_cons.mp holds
    obtain ⟨_, rest⟩ := holds_cons.mp rest
    obtain ⟨exit, _⟩ := holds_cons.mp rest
    exact .fork choice (List.mem_pair.mpr (.inr rfl)) (.fork exit List.mem_cons_self (.here follow))
  | «repeat» _ _ ihBody ihLoop =>
    obtain ⟨choice, rest⟩ := holds_cons.mp holds
    obtain ⟨back, rest⟩ := holds_cons.mp rest
    obtain ⟨_, rest⟩ := holds_cons.mp rest
    refine .fork choice (List.mem_pair.mpr (.inl rfl)) ((ihBody rest).append ?_)
    exact .fork back List.mem_cons_self (ihLoop holds)

def laidOut (pattern : Pattern) : Automaton where
  states := (.epsilon [pattern.entry 2] :: .epsilon [] :: pattern.block 2 1).toArray
  sources := [0]
  accept := 1

theorem size_laidOut (pattern : Pattern) : pattern.laidOut.size = 2 + pattern.size := by
  simp only [laidOut, Automaton.size, List.size_toArray, List.length_cons, length_block]
  omega

theorem holds_laidOut (pattern : Pattern) : pattern.laidOut.Holds 2 (pattern.block 2 1) := by
  intro index state found
  rw [laidOut, List.getElem?_toArray, Nat.add_comm]
  exact found

theorem closed_laidOut (pattern : Pattern) : pattern.laidOut.Closed := by
  refine closed_iff.mpr ⟨?_, ?_, rfl, rfl⟩
  · intro state inside after edge
    rw [size_laidOut]
    simp only [laidOut, List.mem_toArray, List.mem_cons] at inside
    rcases inside with rfl | rfl | inside
    · rw [List.mem_singleton.mp edge]
      exact pattern.entry_lt (Nat.le_refl _)
    · cases edge
    · exact block_next_lt inside edge (Nat.le_refl _) (Nat.lt_of_lt_of_le Nat.one_lt_two (Nat.le_add_right 2 _))
  · intro id source
    rw [List.mem_singleton.mp source, size_laidOut]
    exact Nat.lt_of_lt_of_le Nat.two_pos (Nat.le_add_right 2 _)

theorem accepts_laidOut : pattern.laidOut.Accepts word ↔ pattern.Matches word := by
  constructor
  · intro ⟨source, listed, path⟩
    rw [List.mem_singleton.mp listed] at path
    obtain ⟨moves, walk⟩ := exists_walk_iff.mpr path
    obtain ⟨inner, _, walk⟩ := walk.of_single rfl Nat.zero_ne_one
    obtain ⟨fewer, _, first, second, rfl, matched, walk⟩ :=
      passes _ _ pattern pattern.holds_laidOut (.inl Nat.one_lt_two) walk
    obtain ⟨rfl, _⟩ := (exists_walk_iff.mp ⟨fewer, walk⟩).of_sink rfl rfl
    rwa [List.append_nil]
  · intro matched
    refine ⟨0, List.mem_cons_self, ?_⟩
    exact .fork rfl List.mem_cons_self (path_block matched pattern.holds_laidOut)

/-- The automaton of a pattern accepts what the pattern matches. -/
theorem accepts_toAutomaton : pattern.toAutomaton.Accepts word ↔ pattern.Matches word :=
  (accepts_ofArena pattern.closed_laidOut).trans accepts_laidOut

theorem closed_toAutomaton (pattern : Pattern) : pattern.toAutomaton.Closed :=
  closed_ofArena pattern.closed_laidOut

theorem nodup_toAutomaton_sources (pattern : Pattern) : pattern.toAutomaton.sources.Nodup :=
  nodup_ofArena_sources _ _ _

end Pattern

end ByteRegex
