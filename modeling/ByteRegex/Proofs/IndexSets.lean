import ByteRegex.Subset.IndexSet
import Mathlib.Data.List.Pairwise

/-! Index sets as words of 64 bits. An index has one bit in one word, and the bits past the width stay zero, so
sets of one width that hold the same indices have the same words, however they came about. Equality and hash,
which look at the words alone, tell sets apart by their indices. -/

namespace ByteRegex.IndexSet

variable {width other : Nat}

/-- Insert indices into an empty set, one after the other. -/
def collect (width : Nat) (indices : List Nat) : Except Fault (IndexSet width) :=
  indices.foldlM insert? ∅

def store (words : List UInt64) (index : Nat) : List UInt64 :=
  words.modify (index / 64) (· ||| .ofBitVec (.twoPow 64 (index % 64)))

theorem getElem?_words (set : IndexSet width) (place : Nat) : set.words[place]? =
    if place < (width + 63) / 64 then some (.ofBitVec (set.bits.extractLsb' (64 * place) 64)) else none := by
  rw [words, List.getElem?_map]
  split
  next inside => rw [List.getElem?_range inside, Option.map_some]
  next outside => rw [List.getElem?_eq_none (by simpa using outside), Option.map_none]

theorem getLsbD_word (set : IndexSet width) (place : Nat) {bit : Nat} (below : bit < 64) :
    (set.bits.extractLsb' (64 * place) 64).getLsbD bit = set.contains (64 * place + bit) := by
  simp [below, contains]

theorem words_empty (width : Nat) : (∅ : IndexSet width).words = List.replicate ((width + 63) / 64) 0 := by
  apply List.ext_getElem?
  intro place
  have zero : (∅ : IndexSet width).bits.extractLsb' (64 * place) 64 = 0#64 := by
    apply BitVec.eq_of_getLsbD_eq
    intro bit below
    rw [getLsbD_word _ place below, BitVec.getLsbD_zero]
    exact contains_empty _
  rw [getElem?_words, List.getElem?_replicate, zero]
  rfl

theorem words_insert (set : IndexSet width) {index : Nat} (inside : index < width) :
    (set.insert index).words = store set.words index := by
  apply List.ext_getElem?
  intro place
  rw [store, List.getElem?_modify, getElem?_words, getElem?_words]
  by_cases stored : place < (width + 63) / 64
  · rw [if_pos stored, if_pos stored, Option.map_eq_map, Option.map_some]
    congr 1
    apply UInt64.toBitVec_inj.mp
    apply BitVec.eq_of_getLsbD_eq
    intro bit below
    rw [getLsbD_word _ place below, contains_insert]
    split
    next same =>
      have placed : index = 64 * place + bit ↔ index % 64 = bit := by omega
      rw [UInt64.toBitVec_or, BitVec.getLsbD_or, getLsbD_word _ place below, BitVec.getLsbD_twoPow]
      simp [inside, placed, Nat.mod_lt]
    next differ =>
      have missed : index ≠ 64 * place + bit := by omega
      rw [getLsbD_word _ place below]
      simp [missed]
  · rw [if_neg stored, if_neg stored]
    rfl

theorem contains_eq_words (set : IndexSet width) (index : Nat) : set.contains index =
    set.words[index / 64]?.any fun word => word.toBitVec.getLsbD (index % 64) := by
  have whole : 64 * (index / 64) + index % 64 = index := Nat.div_add_mod index 64
  have below : index % 64 < 64 := Nat.mod_lt index (by decide)
  rw [getElem?_words]
  split
  next => rw [Option.any_some, getLsbD_word set _ below, whole]
  next outside =>
    have past : ¬ set.contains index := fun inside => by
      have := contains_lt inside
      omega
    simpa using past

theorem words_inj {first second : IndexSet width} (same : first.words = second.words) : first = second := by
  apply ext
  intro index
  rw [contains_eq_words, contains_eq_words, same]

/-- Equality of the words and of the widths is equality of the sets. -/
theorem sameAs_iff {first : IndexSet width} {second : IndexSet other} :
    first.sameAs second ↔ width = other ∧ ∀ index, first.contains index ↔ second.contains index := by
  rw [sameAs, Bool.and_eq_true, beq_iff_eq, beq_iff_eq]
  refine and_congr_right ?_
  rintro rfl
  constructor
  · intro same index
    rw [words_inj same]
  · intro same
    rw [ext same]

theorem hash_eq {first : IndexSet width} {second : IndexSet other} (same : first.sameAs second) :
    first.hash = second.hash := by
  rw [sameAs, Bool.and_eq_true, beq_iff_eq, beq_iff_eq] at same
  rw [hash, hash, same.2]

theorem insert?_of_lt (set : IndexSet width) {index : Nat} (inside : index < width) :
    set.insert? index = .ok (set.insert index) := if_pos inside

theorem insert?_of_le (set : IndexSet width) {index : Nat} (outside : width ≤ index) :
    set.insert? index = .error .indexOutOfRange := if_neg (Nat.not_lt.mpr outside)

/-- A set that came about by inserting these indices. -/
structure Reflects (set : IndexSet width) (indices : List Nat) : Prop where
  words : set.words = indices.foldl store (List.replicate ((width + 63) / 64) 0)
  isEmpty_iff : set.isEmpty ↔ indices = []
  ascending : set.toList.Pairwise (· < ·)
  mem_iff : ∀ index, index ∈ set.toList ↔ index ∈ indices
  refuses : ∀ index, width ≤ index → set.insert? index = .error .indexOutOfRange

theorem foldlM_insert? {indices : List Nat} (inside : ∀ index ∈ indices, index < width) (set : IndexSet width) :
    ∃ result, indices.foldlM insert? set = .ok result ∧ result.words = indices.foldl store set.words ∧
      ∀ index, result.contains index ↔ set.contains index ∨ index ∈ indices := by
  induction indices generalizing set with
  | nil => exact ⟨set, rfl, rfl, by simp⟩
  | cons first rest ih =>
    have below := inside first List.mem_cons_self
    obtain ⟨result, run, words, contains⟩ :=
      ih (fun index listed => inside index (List.mem_cons_of_mem first listed)) (set.insert first)
    refine ⟨result, ?_, ?_, ?_⟩
    · rw [List.foldlM_cons, insert?_of_lt set below]
      exact run
    · rw [words, words_insert set below, List.foldl_cons]
    · intro index
      rw [contains, contains_insert, List.mem_cons]
      simp only [Bool.or_eq_true, Bool.and_eq_true, decide_eq_true_eq, below, true_and, or_assoc, @eq_comm _ first]

theorem exists_collect {indices : List Nat} (inside : ∀ index ∈ indices, index < width) :
    ∃ set, collect width indices = .ok set ∧ set.Reflects indices := by
  obtain ⟨set, run, words, contains⟩ := foldlM_insert? inside ∅
  have contains (index : Nat) : set.contains index ↔ index ∈ indices := by
    rw [contains]
    exact or_iff_right (Bool.eq_false_iff.mp (contains_empty index))
  refine ⟨set, run, ?_, ?_, List.pairwise_lt_range.filter _, ?_, fun index => insert?_of_le set⟩
  · rw [words, words_empty]
  · rw [isEmpty_iff, List.eq_nil_iff_forall_not_mem]
    exact forall_congr' fun index => not_congr (contains index)
  · intro index
    rw [mem_toList, contains]

/-- Sets that came about by insertions are equal just if they have one width and the same indices were inserted,
in whatever order and however often, and then they have one hash. -/
theorem collect_identity {first second : List Nat} (inside : ∀ index ∈ first, index < width)
    (within : ∀ index ∈ second, index < other) :
    ∃ set against, collect width first = .ok set ∧ collect other second = .ok against ∧ set.Reflects first ∧
      (set.sameAs against ↔ width = other ∧ ∀ index, index ∈ first ↔ index ∈ second) ∧
      (set.sameAs against → set.hash = against.hash) := by
  obtain ⟨set, run, reflects⟩ := exists_collect inside
  obtain ⟨against, rerun, shows⟩ := exists_collect within
  refine ⟨set, against, run, rerun, reflects, ?_, hash_eq⟩
  simp only [sameAs_iff, ← mem_toList, reflects.mem_iff, shows.mem_iff]

theorem collect_identity_repeated : (∀ index ∈ [3, 129, 64, 3], index < 130) ∧ (∀ index ∈ [64, 3, 129], index < 130) ∧
    ∃ set against, collect 130 [3, 129, 64, 3] = .ok set ∧ collect 130 [64, 3, 129] = .ok against ∧
      set.Reflects [3, 129, 64, 3] ∧ set.sameAs against ∧ set.hash = against.hash := by
  have inside : ∀ index ∈ [3, 129, 64, 3], index < 130 := by decide
  have within : ∀ index ∈ [64, 3, 129], index < 130 := by decide
  obtain ⟨set, against, run, rerun, reflects, same, hashes⟩ := collect_identity inside within
  have equal : set.sameAs against := same.mpr ⟨rfl, fun index => by simp; omega⟩
  exact ⟨inside, within, set, against, run, rerun, reflects, equal, hashes equal⟩

end ByteRegex.IndexSet
