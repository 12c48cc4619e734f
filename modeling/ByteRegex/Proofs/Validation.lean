import ByteRegex.Flat.Validation
import ByteRegex.Proofs.Runs

/-! What the checks on a flat automaton establish. They find no defect exactly in the flat automata
that describe an automaton, with every part that they name inside the shared arrays. -/

namespace ByteRegex.FlatAutomaton

variable {flat : FlatAutomaton} {state : FlatState} {automaton : Automaton}

/-- A flat state names a part of each shared array, with nothing in them that an automaton may not
have. -/
structure Fits (flat : FlatAutomaton) (state : FlatState) : Prop where
  next_le : state.nextStart.toNat + state.nextLength.toNat ≤ flat.next.size
  ranges_le : state.rangesStart.toNat + state.rangesLength.toNat ≤ flat.ranges.size
  next_lt : ∀ id ∈ flat.nextOf state, id.toNat < flat.states.size
  ordered : ∀ range ∈ flat.rangesOf state, range.first ≤ range.last

structure WellFormed (flat : FlatAutomaton) : Prop where
  sources_ne_nil : flat.sources ≠ []
  source_lt : ∀ id ∈ flat.sources, id.toNat < flat.states.size
  fits : ∀ state ∈ flat.states, flat.Fits state
  accept_sink : ∃ state, flat.states[flat.accept.toNat]? = some state ∧ state.isEpsilon ∧
    state.nextLength = 0

/-- The automaton that a flat one stands for, whether or not it is well-formed. -/
def described (flat : FlatAutomaton) : Automaton where
  states := flat.states.map flat.stateOf
  sources := flat.sources.map UInt32.toNat
  accept := flat.accept.toNat

theorem isMissing_eq_false_iff {id : UInt32} : flat.isMissing id = false ↔ id.toNat < flat.states.size := by
  rw [isMissing, decide_eq_false_iff_not, Nat.not_le]

theorem find?_isMissing_iff {ids : List UInt32} :
    ids.find? flat.isMissing = none ↔ ∀ id ∈ ids, id.toNat < flat.states.size := by
  simp only [List.find?_eq_none, Bool.not_eq_true, isMissing_eq_false_iff]

theorem stateDefect?_eq_none_iff {index : Nat} : flat.stateDefect? index state = none ↔ flat.Fits state := by
  rw [stateDefect?]
  split
  next outside =>
    exact iff_of_false (Option.some_ne_none _) fun fits => absurd fits.next_le (Nat.not_le.mpr outside)
  next next_le =>
  split
  next outside =>
    exact iff_of_false (Option.some_ne_none _) fun fits => absurd fits.ranges_le (Nat.not_le.mpr outside)
  next ranges_le =>
  split
  next id found =>
    refine iff_of_false (Option.some_ne_none _) fun fits => ?_
    rw [find?_isMissing_iff.mpr fits.next_lt] at found
    cases found
  next found =>
  have ordered : ((flat.rangesOf state).any fun range => range.last < range.first) = false ↔
      ∀ range ∈ flat.rangesOf state, range.first ≤ range.last := by
    simp [List.any_eq_false]
  split
  next reversed =>
    refine iff_of_false (Option.some_ne_none _) fun fits => ?_
    rw [ordered.mpr fits.ordered] at reversed
    cases reversed
  next straight =>
    refine iff_of_true rfl ?_
    exact ⟨Nat.le_of_not_lt next_le, Nat.le_of_not_lt ranges_le, find?_isMissing_iff.mp found,
      ordered.mp (Bool.eq_false_iff.mpr straight)⟩

theorem acceptDefect?_eq_none_iff : flat.acceptDefect? = none ↔
    ∃ state, flat.states[flat.accept.toNat]? = some state ∧ state.isEpsilon ∧ state.nextLength = 0 := by
  rw [acceptDefect?]
  split
  next sink => simpa [Option.any_eq_true] using sink
  next missing => simpa [Option.any_eq_true] using missing

theorem defect?_eq_none_iff : flat.defect? = none ↔ flat.WellFormed := by
  have states : (∀ pair ∈ flat.states.toList.zipIdx, flat.Fits pair.1) ↔
      ∀ state ∈ flat.states, flat.Fits state := by
    simp only [← Array.mem_toList_iff]
    constructor
    · intro fits state member
      obtain ⟨index, inside, rfl⟩ := List.mem_iff_getElem.mp member
      exact fits _ (List.mk_mem_zipIdx_iff_getElem?.mpr (List.getElem?_eq_getElem inside))
    · exact fun fits pair member => fits pair.1 (List.fst_mem_of_mem_zipIdx member)
  rw [defect?]
  split
  next empty =>
    refine iff_of_false (Option.some_ne_none _) fun wellFormed => ?_
    exact wellFormed.sources_ne_nil (List.isEmpty_iff.mp empty)
  next nonempty =>
    simp only [Option.orElse_eq_orElse, Option.orElse_eq_or, Option.or_eq_none_iff, Option.map_eq_none_iff,
      find?_isMissing_iff, List.findSome?_eq_none_iff, stateDefect?_eq_none_iff, states,
      acceptDefect?_eq_none_iff, List.forall_mem_append, List.forall_mem_singleton]
    constructor
    · rintro ⟨⟨source_lt, _⟩, fits, accept_sink⟩
      exact ⟨List.isEmpty_eq_false_iff.mp (Bool.eq_false_iff.mpr nonempty), source_lt, fits, accept_sink⟩
    · intro wellFormed
      obtain ⟨state, found, _⟩ := wellFormed.accept_sink
      exact ⟨⟨wellFormed.source_lt, (Array.getElem?_eq_some_iff.mp found).1⟩, wellFormed.fits,
        wellFormed.accept_sink⟩

theorem toAutomaton_eq_ok_iff : flat.toAutomaton = .ok automaton ↔
    flat.WellFormed ∧ flat.described = automaton := by
  rw [← defect?_eq_none_iff, toAutomaton]
  split
  next found => simp [found]
  next found => simp [found, described]

theorem valid_of_toAutomaton (loaded : flat.toAutomaton = .ok automaton) : automaton.Valid := by
  obtain ⟨wellFormed, rfl⟩ := toAutomaton_eq_ok_iff.mp loaded
  have size : flat.described.size = flat.states.size := Array.size_map ..
  refine ⟨?_, ?_, ?_, ?_⟩
  · intro state member id next
    obtain ⟨original, listed, rfl⟩ := Array.mem_map.mp member
    obtain ⟨id, named, rfl⟩ := List.mem_map.mp next
    rw [size]
    exact (wellFormed.fits original listed).next_lt id named
  · exact fun empty => wellFormed.sources_ne_nil (List.map_eq_nil_iff.mp empty)
  · intro id listed
    obtain ⟨id, named, rfl⟩ := List.mem_map.mp listed
    rw [size]
    exact wellFormed.source_lt id named
  · obtain ⟨state, found, epsilon, empty⟩ := wellFormed.accept_sink
    have nothing : flat.nextOf state = [] := by simp [nextOf, empty]
    refine ⟨state.isBack, ?_⟩
    simp [described, found, stateOf, epsilon, nothing]

end ByteRegex.FlatAutomaton
