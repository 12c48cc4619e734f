/-! Lists laid end to end. The slice of an item starts at the total width of the items in front of
it, which is also what a loop that carries a running start has reached at that item. -/

namespace ByteRegex.Slices

variable {α β γ : Type}

/-- Where the slice of the item at `index` starts. -/
def start (width : α → Nat) : (items : List α) → (index : Nat) → Nat
  | [], _ | _ :: _, 0 => 0
  | first :: rest, index + 1 => width first + start width rest index

theorem start_zero (width : α → Nat) (items : List α) : start width items 0 = 0 := by
  cases items <;> rfl

theorem start_succ (width : α → Nat) (first : α) (rest : List α) (index : Nat) :
    start width (first :: rest) (index + 1) = width first + start width rest index := rfl

theorem start_next {width : α → Nat} {items : List α} {index : Nat} {item : α}
    (found : items[index]? = some item) :
    start width items (index + 1) = start width items index + width item := by
  induction items generalizing index with
  | nil => simp at found
  | cons first rest ih =>
    cases index with
    | zero =>
      obtain rfl : first = item := by simpa using found
      rw [start_succ, start_zero, start_zero, Nat.add_comm]
    | succ index => rw [start_succ, start_succ, ih (by simpa using found), Nat.add_assoc]

theorem start_add_le {width : α → Nat} {items : List α} {index later : Nat} {item : α}
    (found : items[index]? = some item) (before : index < later) :
    start width items index + width item ≤ start width items later := by
  induction items generalizing index later with
  | nil => simp at found
  | cons first rest ih =>
    obtain ⟨later, rfl⟩ := Nat.exists_eq_succ_of_ne_zero (Nat.ne_of_gt (Nat.zero_lt_of_lt before))
    cases index with
    | zero =>
      obtain rfl : first = item := by simpa using found
      rw [start_zero, start_succ, Nat.zero_add]
      exact Nat.le_add_right _ _
    | succ index =>
      have behind := ih (by simpa using found) (Nat.lt_of_succ_lt_succ before)
      rw [start_succ, start_succ, Nat.add_assoc]
      exact Nat.add_le_add_left behind _

/-- What lies in front of the slice of an item, the slice itself, and what lies behind it. -/
theorem exists_flatMap {f : α → List β} {items : List α} {index : Nat} {item : α}
    (found : items[index]? = some item) :
    ∃ front back, items.flatMap f = front ++ f item ++ back ∧
      front.length = start (fun item => (f item).length) items index := by
  induction items generalizing index with
  | nil => simp at found
  | cons first rest ih =>
    cases index with
    | zero =>
      obtain rfl : first = item := by simpa using found
      exact ⟨[], rest.flatMap f, by simp, (start_zero ..).symm⟩
    | succ index =>
      obtain ⟨front, back, whole, length⟩ := ih (by simpa using found)
      exact ⟨f first ++ front, back, by simp [whole], by rw [List.length_append, length, start_succ]⟩

theorem getElem?_flatMap {f : α → List β} {items : List α} {index place : Nat} {item : α}
    (found : items[index]? = some item) (inside : place < (f item).length) :
    (items.flatMap f)[start (fun item => (f item).length) items index + place]? = (f item)[place]? := by
  obtain ⟨front, back, whole, length⟩ := exists_flatMap (f := f) found
  rw [whole, ← length, List.append_assoc, List.getElem?_append_right (Nat.le_add_right ..),
    Nat.add_sub_cancel_left, List.getElem?_append_left inside]

theorem exists_slice {f : α → List β} {items : List α} {position : Nat} {value : β}
    (found : (items.flatMap f)[position]? = some value) :
    ∃ index item place, items[index]? = some item ∧ (f item)[place]? = some value ∧
      position = start (fun item => (f item).length) items index + place := by
  induction items generalizing position with
  | nil => simp at found
  | cons first rest ih =>
    rw [List.flatMap_cons] at found
    -- The place is in the slice of the first item, or in the whole of the others.
    by_cases inside : position < (f first).length
    · rw [List.getElem?_append_left inside] at found
      exact ⟨0, first, position, rfl, found, by rw [start_zero, Nat.zero_add]⟩
    · rw [List.getElem?_append_right (by omega)] at found
      obtain ⟨index, item, place, listed, value, same⟩ := ih found
      refine ⟨index + 1, item, place, by simpa using listed, value, ?_⟩
      rw [start_succ]
      omega

theorem length_flatMap_le {f g : α → List β} {items : List α}
    (shorter : ∀ item ∈ items, (f item).length ≤ (g item).length) :
    (items.flatMap f).length ≤ (items.flatMap g).length := by
  induction items with
  | nil => exact Nat.le_refl _
  | cons first rest ih =>
    obtain ⟨here, later⟩ := List.forall_mem_cons.mp shorter
    rw [List.flatMap_cons, List.flatMap_cons, List.length_append, List.length_append]
    exact Nat.add_le_add here (ih later)

theorem extract_flatMap {f : α → List β} {items : Array α} {index first : Nat} {item : α}
    (found : items[index]? = some item)
    (begins : start (fun item => (f item).length) items.toList index = first) :
    first + (f item).length ≤ (items.flatMap fun item => (f item).toArray).size ∧
    ((items.flatMap fun item => (f item).toArray).extract first (first + (f item).length)).toList = f item := by
  obtain ⟨front, back, whole, length⟩ := exists_flatMap (f := f) (Array.getElem?_toList.trans found)
  have listed : (items.flatMap fun item => (f item).toArray).toList = front ++ f item ++ back := by
    rw [Array.toList_flatMap, ← whole]
  rw [← Array.length_toList, Array.toList_extract, listed, ← begins, ← length, List.extract_eq_take_drop]
  constructor
  · simp
  · rw [List.append_assoc, List.drop_left, Nat.add_sub_cancel_left, List.take_left]

/-- A loop that carries something along gives each item what it has reached there. -/
theorem toList_carrying {σ : Type} (make : α → σ → γ) (pass : σ → α → σ) (items : List α)
    (reached : Nat → σ)
    (passes : ∀ index item, items[index]? = some item → pass (reached index) item = reached (index + 1)) :
    (items.foldl (fun (made, carried) item => (made.push (make item carried), pass carried item))
      ((#[] : Array γ), reached 0)).1.toList =
      items.mapIdx fun index item => make item (reached index) := by
  -- The induction is for whatever was made before.
  have collected (items : List α) (made : Array γ) (reached : Nat → σ)
      (passes : ∀ index item, items[index]? = some item → pass (reached index) item = reached (index + 1)) :
      (items.foldl (fun (made, carried) item => (made.push (make item carried), pass carried item))
        (made, reached 0)).1.toList =
        made.toList ++ items.mapIdx fun index item => make item (reached index) := by
    induction items generalizing made reached with
    | nil => simp
    | cons first rest ih =>
      simp only [List.foldl_cons, passes 0 first rfl]
      rw [ih _ (fun index => reached (index + 1)) fun index item => passes (index + 1) item,
        Array.toList_push, List.mapIdx_cons, List.append_assoc, List.singleton_append]
  exact collected items #[] reached passes

theorem toList_running (make : α → Nat → γ) (width : α → Nat) (items : List α) (first : Nat) :
    (items.foldl (fun (made, first) item => (made.push (make item first), first + width item))
      ((#[] : Array γ), first)).1.toList =
      items.mapIdx fun index item => make item (first + start width items index) := by
  have carried := toList_carrying make (fun first item => first + width item) items
    (fun index => first + start width items index)
    (fun index item found => by rw [start_next found, Nat.add_assoc])
  rwa [start_zero, Nat.add_zero] at carried

end ByteRegex.Slices
