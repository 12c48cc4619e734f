import ByteRegex.KeySet

/-! Sets of keys over any run of insertions and clearings. The keys in their order and the bitmap are kept in
step: an insertion beyond the bitmap makes it grow without a look at it, and a clearing touches the marks of the
keys only. What the set answers depends on the insertions since the last clearing and on nothing else. -/

namespace ByteRegex.KeySet

inductive Edit
  | insert (key : Nat)
  | clear

def edit (set : KeySet) : Edit → Option Bool × KeySet
  | .insert key => (some (set.add key).1, (set.add key).2)
  | .clear => (none, set.clear)

def edits (set : KeySet) : List Edit → List (Option Bool) × KeySet
  | [] => ([], set)
  | first :: rest =>
    let (answer, set) := set.edit first
    let (answers, set) := set.edits rest
    (answer :: answers, set)

def Edit.extend (keys : List Nat) : Edit → List Nat
  | .insert key => keys ++ [key]
  | .clear => []

/-- The keys that were inserted since the last clearing, each as often as it was inserted. -/
def recent (edits : List Edit) : List Nat := edits.foldl Edit.extend []

def Edit.answer (keys : List Nat) : Edit → Option Bool
  | .insert key => some (decide (key ∉ keys))
  | .clear => none

/-- The set holds these keys, each in the place of its first insertion. -/
structure Holds (set : KeySet) (keys : List Nat) : Prop where
  nodup : set.toList.Nodup
  marked_iff : ∀ key : Nat, set.marks[key]? = some true ↔ key ∈ set.toList
  order : set.toList = keys.eraseDups
  isEmpty_iff : set.isEmpty ↔ keys = []

variable {set first second : KeySet} {keys : List Nat}

theorem holds_of_order (order : set.toList = keys.eraseDups) : set.Holds keys := by
  refine ⟨set.nodup_toList, fun _ => getElem?_marks, order, ?_⟩
  rw [isEmpty_iff, order]
  cases keys <;> simp [List.eraseDups_cons]

theorem Holds.edit (holds : set.Holds keys) (edit : Edit) :
    (set.edit edit).1 = edit.answer keys ∧ (set.edit edit).2.Holds (edit.extend keys) := by
  cases edit with
  | clear => exact ⟨rfl, holds_of_order (toList_clear set)⟩
  | insert key =>
    have listed : key ∈ set.toList ↔ key ∈ keys := by rw [holds.order, List.mem_eraseDups]
    refine ⟨congrArg some ?_, holds_of_order ?_⟩
    · rw [add_eq, Bool.eq_iff_iff, decide_eq_true_iff, ← listed, ← contains_iff]
      simp
    · -- A key that is new comes last, and one that is known has its first place already.
      change (set.insert key).toList = (keys ++ [key]).eraseDups
      rw [toList_insert, List.eraseDups_append, holds.order]
      by_cases inside : key ∈ keys
      · simp [List.removeAll, inside]
      · simp [List.removeAll, inside, List.eraseDups_cons]

theorem Holds.edits (holds : set.Holds keys) (edits : List Edit) :
    (set.edits edits).2.Holds (edits.foldl Edit.extend keys) := by
  induction edits generalizing set keys with
  | nil => exact holds
  | cons edit rest ih => exact ih (holds.edit edit).2

theorem Holds.getElem?_edits (holds : set.Holds keys) (before : List Edit) (edit : Edit) (after : List Edit) :
    (set.edits (before ++ edit :: after)).1[before.length]? =
      some (edit.answer (before.foldl Edit.extend keys)) := by
  induction before generalizing set keys with
  | nil => exact congrArg some (holds.edit edit).1
  | cons first rest ih => exact ih (holds.edit first).2

theorem edits_congr (same : first.toList = second.toList) (edits : List Edit) :
    (first.edits edits).1 = (second.edits edits).1 ∧
      (first.edits edits).2.toList = (second.edits edits).2.toList := by
  induction edits generalizing first second with
  | nil => exact ⟨rfl, same⟩
  | cons edit rest ih =>
    have alike : (first.edit edit).1 = (second.edit edit).1 ∧
        (first.edit edit).2.toList = (second.edit edit).2.toList := by
      cases edit with
      | insert key =>
        simp only [KeySet.edit, add_eq]
        exact ⟨congrArg (some !·) (contains_congr same key), toList_insert_congr same key⟩
      | clear => exact ⟨rfl, rfl⟩
    obtain ⟨answers, left⟩ := ih alike.2
    exact ⟨List.cons_eq_cons.mpr ⟨alike.1, answers⟩, left⟩

/-- After any run the set holds the keys inserted since the last clearing in the order of their first insertion.
The next edit, with whatever after it, answers whether its key is one of them. How far the bitmap reached at
first makes no difference to any of this. -/
theorem edits_faithful (capacity : Nat) (edits : List Edit) :
    ((withCapacity capacity).edits edits).2.Holds (recent edits) ∧
    (∀ edit after, ((withCapacity capacity).edits (edits ++ edit :: after)).1[edits.length]? =
      some (edit.answer (recent edits))) ∧
    ∀ other, ((withCapacity other).edits edits).1 = ((withCapacity capacity).edits edits).1 ∧
      ((withCapacity other).edits edits).2.toList = ((withCapacity capacity).edits edits).2.toList := by
  have holds : (withCapacity capacity).Holds [] := holds_of_order rfl
  refine ⟨holds.edits edits, holds.getElem?_edits edits, fun other => ?_⟩
  have same : (withCapacity other).toList = (withCapacity capacity).toList := rfl
  exact edits_congr same edits

end ByteRegex.KeySet
