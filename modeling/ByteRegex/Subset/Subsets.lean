import Std.Data.TreeMap
import ByteRegex.Subset.IndexSet

/-! The index sets found so far, numbered in the order of discovery. There are finitely many
sets of one width, so following them up comes to an end. -/

namespace ByteRegex

structure Subsets (width : Nat) where
  order : Array (IndexSet width)
  /-- The number of each set, looked up by its bits. -/
  numbers : Std.TreeMap Nat Nat
  nodup : order.toList.Nodup
  number_iff : ∀ (set : IndexSet width) (number : Nat),
    numbers[set.bits.toNat]? = some number ↔ order[number]? = some set

namespace Subsets

variable {width : Nat}

def empty : Subsets width where
  order := #[]
  numbers := ∅
  nodup := by simp
  number_iff := by simp

def find? (found : Subsets width) (set : IndexSet width) : Option Nat :=
  found.numbers[set.bits.toNat]?

/-- Give a set the next number, unless it has one. -/
def insert (found : Subsets width) (set : IndexSet width) : Subsets width :=
  if known : (found.find? set).isSome then found
  else {
    order := found.order.push set
    numbers := found.numbers.insert set.bits.toNat found.order.size
    nodup := by
      have absent : set ∉ found.order.toList := by
        intro inside
        obtain ⟨number, lt, equal⟩ := List.mem_iff_getElem.mp inside
        have : found.order[number]? = some set := by
          simpa [Array.getElem?_eq_some_iff] using ⟨lt, equal⟩
        exact known (by simp [find?, (found.number_iff set number).mpr this])
      have := found.nodup
      grind
    number_iff := by
      intro other number
      have absent : ∀ number : Nat, found.order[number]? ≠ some set := fun number equal =>
        known (by rw [find?, (found.number_iff set number).mpr equal]; rfl)
      have same : set.bits.toNat = other.bits.toNat ↔ set = other := by
        rw [← BitVec.toNat_eq]
        constructor
        · intro equal; cases set; cases other; simp_all
        · intro equal; rw [equal]
      rw [Std.TreeMap.getElem?_insert, Array.getElem?_push]
      simp only [Nat.compare_eq_eq, same]
      have := found.number_iff other number
      grind }

private theorem length_le_of_nodup {bound : Nat} {items : List Nat} (nodup : items.Nodup)
    (below : ∀ item ∈ items, item < bound) : items.length ≤ bound := by
  induction bound generalizing items with
  | zero => cases items with
    | nil => simp
    | cons item _ => exact absurd (below item (by simp)) (by omega)
  | succ bound ih =>
    have rest := @ih (items.erase bound) (nodup.erase bound) (by
      intro item inside
      have := below item (List.mem_of_mem_erase inside)
      have : item ≠ bound := fun equal => by
        rw [equal] at inside
        exact absurd inside (List.Nodup.not_mem_erase nodup)
      omega)
    have : (items.erase bound).length = _ := List.length_erase
    split at this <;> omega

theorem size_order_le (found : Subsets width) : found.order.size ≤ 1 <<< width := by
  have distinct : (found.order.toList.map fun set => set.bits.toNat).Nodup := by
    refine List.Pairwise.map _ ?_ found.nodup
    intro first second differ equal
    cases first; cases second
    exact differ (congrArg IndexSet.mk (BitVec.eq_of_toNat_eq equal))
  rw [Nat.one_shiftLeft]
  simpa using @length_le_of_nodup (2 ^ width) _ distinct (by
    simp only [List.mem_map]
    rintro _ ⟨set, _, rfl⟩
    exact set.bits.isLt)

/-- Follow up the sets in the order of discovery. The steps of the sets dealt with are kept, and
the sets that they lead to are numbered before the next one is taken. -/
def followUp {label : Type} (steps : IndexSet width → List (label × IndexSet width))
    (found : Subsets width) (rows : Array (List (label × IndexSet width))) :
    Subsets width × Array (List (label × IndexSet width)) :=
  if pending : rows.size < found.order.size then
    let row := steps found.order[rows.size]
    followUp steps (row.foldl (fun found step => found.insert step.2) found) (rows.push row)
  else (found, rows)
termination_by 1 <<< width - rows.size
decreasing_by
  have := found.size_order_le
  simp
  omega

end Subsets

end ByteRegex
