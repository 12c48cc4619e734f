/-! Sets of small numbers that remember the order of insertion. Membership is one look at a
bitmap, which grows when a key needs it; clearing takes time proportional to the number of
keys, so one set can serve many short searches. -/

namespace ByteRegex

structure KeySet where
  items : Array Nat
  /-- One mark per key below its size. -/
  marks : Array Bool
  nodup : items.toList.Nodup
  marked_iff : ∀ key, marks[key]? = some true ↔ key ∈ items

namespace KeySet

/-- An empty set whose bitmap already covers the keys below `capacity`. -/
def withCapacity (capacity : Nat) : KeySet where
  items := #[]
  marks := .replicate capacity false
  nodup := by simp
  marked_iff key := by simp [Array.getElem?_replicate]

def empty : KeySet := withCapacity 0

instance : EmptyCollection KeySet := ⟨empty⟩
instance : Inhabited KeySet := ⟨empty⟩

def contains (set : KeySet) (key : Nat) : Bool := set.marks.getD key false

def isEmpty (set : KeySet) : Bool := set.items.isEmpty

def toList (set : KeySet) : List Nat := set.items.toList

theorem getElem?_marks {set : KeySet} {key : Nat} : set.marks[key]? = some true ↔ key ∈ set.toList := by
  rw [set.marked_iff, toList, Array.mem_toList_iff]

theorem contains_iff {set : KeySet} {key : Nat} : set.contains key ↔ key ∈ set.toList := by
  rw [← getElem?_marks, contains, Array.getD_eq_getD_getElem?]
  cases set.marks[key]? <;> simp

theorem isEmpty_iff {set : KeySet} : set.isEmpty ↔ set.toList = [] := by
  simp [isEmpty, toList]

theorem nodup_toList (set : KeySet) : set.toList.Nodup := set.nodup

/-- A bitmap that covers `key`, with its mark set. -/
def mark (marks : Array Bool) (key : Nat) : Array Bool :=
  (marks ++ Array.replicate (key + 1 - marks.size) false).setIfInBounds key true

theorem getElem?_mark (marks : Array Bool) (key other : Nat) :
    (mark marks key)[other]? = some true ↔ marks[other]? = some true ∨ other = key := by
  simp only [mark, Array.getElem?_setIfInBounds, Array.getElem?_append, Array.getElem?_replicate,
    Array.size_append, Array.size_replicate]
  grind

/-- Add a key at the end, unless it is already there, and tell whether it is new. -/
def add (set : KeySet) (key : Nat) : Bool × KeySet :=
  if present : set.contains key then (false, set)
  else (true, {
    items := set.items.push key
    marks := mark set.marks key
    nodup := by
      have absent : key ∉ set.items.toList := fun h => present (contains_iff.mpr h)
      have := set.nodup
      grind
    marked_iff := by
      intro other
      rw [getElem?_mark, Array.mem_push, set.marked_iff] })

def insert (set : KeySet) (key : Nat) : KeySet := (set.add key).2

theorem insert_of_contains {set : KeySet} {key : Nat} (present : set.contains key) :
    set.insert key = set := by
  rw [insert, add, dif_pos present]

theorem add_eq (set : KeySet) (key : Nat) : set.add key = (!set.contains key, set.insert key) := by
  unfold insert add
  split
  next present => rw [present]; rfl
  next absent => rw [Bool.eq_false_iff.mpr absent]; rfl

theorem toList_insert (set : KeySet) (key : Nat) :
    (set.insert key).toList = if key ∈ set.toList then set.toList else set.toList ++ [key] := by
  unfold insert add
  split
  next present => rw [if_pos (contains_iff.mp present)]
  next absent => rw [if_neg (absent ∘ contains_iff.mpr)]; simp [toList]

theorem mem_toList_insert {set : KeySet} {key other : Nat} :
    other ∈ (set.insert key).toList ↔ other ∈ set.toList ∨ other = key := by
  rw [toList_insert]
  split <;> grind

theorem contains_insert {set : KeySet} {key other : Nat} :
    (set.insert key).contains other = (set.contains other || other == key) := by
  rw [Bool.eq_iff_iff, contains_iff, mem_toList_insert]
  simp [contains_iff]

/-- Sets with the same keys in the same order cannot be told apart, whatever their bitmaps cover. -/
theorem contains_congr {first second : KeySet} (same : first.toList = second.toList) (key : Nat) :
    first.contains key = second.contains key := by
  rw [Bool.eq_iff_iff, contains_iff, contains_iff, same]

theorem toList_insert_congr {first second : KeySet} (same : first.toList = second.toList) (key : Nat) :
    (first.insert key).toList = (second.insert key).toList := by
  rw [toList_insert, toList_insert, same]

def insertAll (set : KeySet) (keys : List Nat) : KeySet := keys.foldl insert set

def ofList (keys : List Nat) : KeySet := insertAll ∅ keys

def unmark (marks : Array Bool) (keys : Array Nat) : Array Bool :=
  keys.foldl (fun marks key => marks.setIfInBounds key false) marks

theorem getElem?_unmark (marks : Array Bool) (keys : Array Nat) (key : Nat) :
    (unmark marks keys)[key]? = some true ↔ marks[key]? = some true ∧ key ∉ keys := by
  rw [unmark, ← Array.foldl_toList, ← Array.mem_toList_iff]
  generalize keys.toList = keys
  induction keys generalizing marks with
  | nil => simp
  | cons first rest ih =>
    rw [List.foldl_cons, ih, Array.getElem?_setIfInBounds]
    grind

/-- Remove every key. Only the marks of the keys are touched, the bitmap keeps its size. -/
def clear (set : KeySet) : KeySet where
  items := #[]
  marks := unmark set.marks set.items
  nodup := by simp
  marked_iff key := by
    rw [getElem?_unmark, set.marked_iff]
    simp

theorem toList_clear (set : KeySet) : set.clear.toList = [] := rfl

/-- The place of each key in the order of insertion, indexed by the key. -/
def positions (set : KeySet) : Array Nat :=
  set.toList.zipIdx.foldl (fun places (key, place) => places.setIfInBounds key place)
    (.replicate set.marks.size 0)

end KeySet

end ByteRegex
