import ByteRegex.Fault

/-! Sets of indices below a fixed width, one bit each. The bits alone decide equality, so a
set found twice is recognised whatever the order of its insertions. -/

namespace ByteRegex

structure IndexSet (width : Nat) where
  bits : BitVec width
  deriving DecidableEq, Repr

namespace IndexSet

variable {width : Nat}

def empty : IndexSet width := ⟨0⟩

instance : EmptyCollection (IndexSet width) := ⟨empty⟩

def contains (set : IndexSet width) (index : Nat) : Bool := set.bits.getLsbD index

def isEmpty (set : IndexSet width) : Bool := set.bits == 0

/-- Add an index. One that is not below the width has no bit to set. -/
def insert (set : IndexSet width) (index : Nat) : IndexSet width :=
  ⟨set.bits ||| BitVec.twoPow width index⟩

def insert? (set : IndexSet width) (index : Nat) : Except Fault (IndexSet width) :=
  if index < width then .ok (set.insert index) else .error .indexOutOfRange

def singleton (index : Nat) : IndexSet width := empty.insert index

/-- The `count` indices from `first` on, as far as they are below the width. -/
def interval (first count : Nat) : IndexSet width :=
  ⟨BitVec.ofNat width ((1 <<< count - 1) <<< first)⟩

def union (first second : IndexSet width) : IndexSet width := ⟨first.bits ||| second.bits⟩

instance : Union (IndexSet width) := ⟨union⟩

def toList (set : IndexSet width) : List Nat := (List.range width).filter set.contains

/-- The bits in words of 64, the lowest first. Bits past the width are zero. -/
def words (set : IndexSet width) : List UInt64 :=
  (List.range ((width + 63) / 64)).map fun word =>
    UInt64.ofBitVec (set.bits.extractLsb' (64 * word) 64)

def hash (set : IndexSet width) : UInt64 := set.words.foldl (· ^^^ ·) 0

/-- Equality of sets whose widths may differ. -/
def sameAs {other : Nat} (first : IndexSet width) (second : IndexSet other) : Bool :=
  width == other && first.words == second.words

theorem contains_empty (index : Nat) : (empty : IndexSet width).contains index = false := by
  simp [contains, empty]

theorem contains_insert (set : IndexSet width) (index other : Nat) :
    (set.insert index).contains other =
      (set.contains other || (decide (index < width) && decide (index = other))) := by
  simp [contains, insert, BitVec.getLsbD_twoPow]

theorem contains_union (first second : IndexSet width) (index : Nat) :
    (first ∪ second).contains index = (first.contains index || second.contains index) := by
  show (first.union second).contains index = _
  simp [contains, union]

theorem contains_lt {set : IndexSet width} {index : Nat} (inside : set.contains index) :
    index < width := BitVec.lt_of_getLsbD inside

theorem mem_toList {set : IndexSet width} {index : Nat} :
    index ∈ set.toList ↔ set.contains index := by
  simp only [toList, List.mem_filter, List.mem_range, and_iff_right_iff_imp]
  exact contains_lt

theorem isEmpty_iff {set : IndexSet width} : set.isEmpty ↔ ∀ index, ¬ set.contains index := by
  rw [isEmpty, beq_iff_eq]
  constructor
  · intro empty index
    simp [contains, empty]
  · intro absent
    apply BitVec.eq_of_getLsbD_eq
    intro index _
    simpa [contains] using absent index

theorem ext {first second : IndexSet width} (same : ∀ index, first.contains index ↔ second.contains index) :
    first = second := by
  cases first
  cases second
  congr 1
  exact BitVec.eq_of_getLsbD_eq fun index _ => Bool.eq_iff_iff.mpr (same index)

end IndexSet

end ByteRegex
