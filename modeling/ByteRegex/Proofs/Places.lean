import ByteRegex.KeySet

/-! Places in a set of keys. A key is found again at its place, so the place tells it from every
other key of the set. -/

namespace ByteRegex.KeySet

/-- The number of keys that were inserted before this one. -/
def place (set : KeySet) (key : Nat) : Nat := set.positions.getD key 0

section fill

variable {α : Type} (value : Nat → α) {keys : List Nat} {first : Nat} {entries : Array α}

/-- A table with an entry for each key, made from its place. -/
def fill (keys : List Nat) (first : Nat) (entries : Array α) : Array α :=
  (keys.zipIdx first).foldl (fun entries (key, place) => entries.setIfInBounds key (value place)) entries

private theorem fill_cons (key : Nat) (rest : List Nat) (first : Nat) (entries : Array α) :
    fill value (key :: rest) first entries = fill value rest (first + 1) (entries.setIfInBounds key (value first)) :=
  rfl

theorem fill_of_not_mem {key : Nat} (absent : key ∉ keys) : (fill value keys first entries)[key]? = entries[key]? := by
  induction keys generalizing first entries with
  | nil => rfl
  | cons other rest ih =>
    obtain ⟨differ, absent⟩ := not_or.mp (absent ∘ List.mem_cons.mpr)
    rw [fill_cons, ih absent, Array.getElem?_setIfInBounds, if_neg (Ne.symm differ)]

theorem fill_of_getElem? (nodup : keys.Nodup) {index key : Nat} (found : keys[index]? = some key)
    (inside : key < entries.size) : (fill value keys first entries)[key]? = some (value (first + index)) := by
  induction keys generalizing first entries index with
  | nil => simp at found
  | cons other rest ih =>
    obtain ⟨absent, nodup⟩ := List.nodup_cons.mp nodup
    rw [fill_cons]
    cases index with
    | zero =>
      obtain rfl : other = key := by simpa using found
      rw [fill_of_not_mem value absent, Array.getElem?_setIfInBounds, if_pos rfl, if_pos inside, Nat.add_zero]
    | succ index =>
      rw [ih nodup (by simpa using found) (by simpa using inside), Nat.add_assoc, Nat.add_comm 1]

end fill

theorem lt_marks {set : KeySet} {key : Nat} (inside : key ∈ set.toList) : key < set.marks.size := by
  have marked : set.marks[key]? = some true := getElem?_marks.mpr inside
  exact (Array.getElem?_eq_some_iff.mp marked).1

theorem place_eq {set : KeySet} {index key : Nat} (found : set.toList[index]? = some key) :
    set.place key = index := by
  have inside := lt_marks (List.mem_of_getElem? found)
  have filled : (fill id set.toList 0 (.replicate set.marks.size 0))[key]? = some (0 + index) :=
    fill_of_getElem? id set.nodup_toList found (by simpa using inside)
  rw [place, Array.getD_eq_getD_getElem?]
  change (fill id set.toList 0 (.replicate set.marks.size 0))[key]?.getD 0 = index
  rw [filled, Nat.zero_add, Option.getD_some]

theorem getElem?_place {set : KeySet} {key : Nat} (inside : key ∈ set.toList) :
    set.toList[set.place key]? = some key := by
  obtain ⟨index, found⟩ := List.mem_iff_getElem?.mp inside
  rwa [place_eq found]

theorem place_lt {set : KeySet} {key : Nat} (inside : key ∈ set.toList) :
    set.place key < set.toList.length :=
  (List.getElem?_eq_some_iff.mp (getElem?_place inside)).1

theorem place_inj {set : KeySet} {first second : Nat} (left : first ∈ set.toList)
    (right : second ∈ set.toList) (same : set.place first = set.place second) : first = second := by
  have found := getElem?_place left
  rw [same, getElem?_place right] at found
  exact (Option.some.inj found).symm

theorem mem_insertAll {keys : List Nat} {set : KeySet} {key : Nat} :
    key ∈ (set.insertAll keys).toList ↔ key ∈ set.toList ∨ key ∈ keys := by
  induction keys generalizing set with
  | nil => simp [insertAll]
  | cons first rest ih =>
    rw [insertAll, List.foldl_cons, ← insertAll, ih, mem_toList_insert, List.mem_cons]
    exact or_assoc

theorem mem_ofList {keys : List Nat} {key : Nat} : key ∈ (ofList keys).toList ↔ key ∈ keys := by
  rw [ofList, mem_insertAll]
  exact or_iff_right List.not_mem_nil

/-- Keys that are new and differ from each other are appended as they are. -/
theorem toList_insertAll {keys : List Nat} {set : KeySet} (nodup : (set.toList ++ keys).Nodup) :
    (set.insertAll keys).toList = set.toList ++ keys := by
  induction keys generalizing set with
  | nil => exact (List.append_nil _).symm
  | cons first rest ih =>
    have absent : first ∉ set.toList := fun inside =>
      (List.nodup_append.mp nodup).2.2 first inside first List.mem_cons_self rfl
    have appended : (set.insert first).toList = set.toList ++ [first] := by
      rw [toList_insert, if_neg absent]
    rw [insertAll, List.foldl_cons, ← insertAll, ih, appended]
    · simp
    · simpa [appended] using nodup

theorem toList_ofList {keys : List Nat} (nodup : keys.Nodup) : (ofList keys).toList = keys := by
  rw [ofList, toList_insertAll (by exact nodup)]
  rfl

end ByteRegex.KeySet
