import ByteRegex.Subset.Subsets

/-! Following up sets to the end. A set never loses its number, and once every set has a row of
steps, all the sets that the steps lead to have numbers. -/

namespace ByteRegex.Subsets

variable {width : Nat} {label : Type} {found later : Subsets width} {set : IndexSet width} {number : Nat}

/-- The sets that have a number keep it. -/
def Extends (found later : Subsets width) : Prop :=
  ∀ (number : Nat) set, found.order[number]? = some set → later.order[number]? = some set

theorem Extends.refl (found : Subsets width) : Extends found found := fun _ _ listed => listed

theorem Extends.trans {first second third : Subsets width} (left : Extends first second)
    (right : Extends second third) : Extends first third :=
  fun number set listed => right number set (left number set listed)

theorem Extends.mem (grows : Extends found later) (member : set ∈ found.order) : set ∈ later.order := by
  obtain ⟨number, listed⟩ := Array.mem_iff_getElem?.mp member
  exact Array.mem_of_getElem? (grows number set listed)

theorem Extends.size_le (grows : Extends found later) : found.order.size ≤ later.order.size := by
  apply Nat.le_of_not_lt
  intro shorter
  have listed := grows _ _ (Array.getElem?_eq_getElem shorter)
  exact Nat.lt_irrefl _ (Array.getElem?_eq_some_iff.mp listed).1

theorem find?_eq_some : found.find? set = some number ↔ found.order[number]? = some set :=
  found.number_iff set number

theorem isSome_find? : (found.find? set).isSome ↔ set ∈ found.order := by
  rw [Option.isSome_iff_exists, Array.mem_iff_getElem?]
  simp only [find?_eq_some]

theorem order_insert (found : Subsets width) (set : IndexSet width) : (found.insert set).order =
    if (found.find? set).isSome then found.order else found.order.push set := by
  rw [insert]
  split <;> rfl

theorem insert_extends (found : Subsets width) (set : IndexSet width) :
    Extends found (found.insert set) := by
  intro number other listed
  have inside := (Array.getElem?_eq_some_iff.mp listed).1
  rw [order_insert]
  split
  · exact listed
  · rwa [Array.getElem?_push_lt inside, ← Array.getElem?_eq_getElem inside]

theorem mem_insert {other : IndexSet width} :
    other ∈ (found.insert set).order ↔ other ∈ found.order ∨ other = set := by
  rw [order_insert]
  split
  next known =>
    refine ⟨.inl, fun either => either.elim id ?_⟩
    rintro rfl
    exact isSome_find?.mp known
  next => exact Array.mem_push

theorem insertAll_extends {item : Type} (pick : item → IndexSet width) (items : List item)
    (found : Subsets width) :
    Extends found (items.foldl (fun found item => found.insert (pick item)) found) ∧
      ∀ item ∈ items, pick item ∈ (items.foldl (fun found item => found.insert (pick item)) found).order := by
  induction items generalizing found with
  | nil => exact ⟨.refl found, by simp⟩
  | cons first rest ih =>
    obtain ⟨grows, numbered⟩ := ih (found.insert (pick first))
    refine ⟨(insert_extends found (pick first)).trans grows, ?_⟩
    intro item member
    rcases List.mem_cons.mp member with rfl | member
    · exact grows.mem (mem_insert.mpr (.inr rfl))
    · exact numbered item member

theorem mem_insertAll {item : Type} (pick : item → IndexSet width) {items : List item} :
    set ∈ (items.foldl (fun found item => found.insert (pick item)) found).order ↔
      set ∈ found.order ∨ ∃ item ∈ items, pick item = set := by
  induction items generalizing found with
  | nil => simp
  | cons first rest ih =>
    rw [List.foldl_cons, ih, mem_insert]
    simp [or_assoc, eq_comm]

variable {steps : IndexSet width → List (label × IndexSet width)}
  {rows : Array (List (label × IndexSet width))}

/-- Every row belongs to the set with its number, and all its steps lead to sets with numbers. -/
structure Followed (steps : IndexSet width → List (label × IndexSet width)) (found : Subsets width)
    (rows : Array (List (label × IndexSet width))) : Prop where
  size_le : rows.size ≤ found.order.size
  row : ∀ (number : Nat) set, number < rows.size → found.order[number]? = some set →
    rows[number]? = some (steps set)
  known : ∀ (number : Nat) set, number < rows.size → found.order[number]? = some set →
    ∀ step ∈ steps set, step.2 ∈ found.order

theorem followed_nothing (steps : IndexSet width → List (label × IndexSet width)) (found : Subsets width) :
    Followed steps found #[] :=
  ⟨Nat.zero_le _, fun _ _ inside => absurd inside (Nat.not_lt_zero _),
    fun _ _ inside => absurd inside (Nat.not_lt_zero _)⟩

theorem Followed.next (followed : Followed steps found rows) (pending : rows.size < found.order.size) :
    Followed steps ((steps found.order[rows.size]).foldl (fun found step => found.insert step.2) found)
      (rows.push (steps found.order[rows.size])) := by
  obtain ⟨grows, numbered⟩ := insertAll_extends Prod.snd (steps found.order[rows.size]) found
  -- Sets that had a number still have it, so older rows are about the same sets.
  have old {number : Nat} {set : IndexSet width} (inside : number < found.order.size)
      (listed : ((steps found.order[rows.size]).foldl (fun found step => found.insert step.2)
        found).order[number]? = some set) : found.order[number]? = some set := by
    rw [grows _ _ (Array.getElem?_eq_getElem inside)] at listed
    rw [Array.getElem?_eq_getElem inside, listed]
  refine ⟨?_, ?_, ?_⟩
  · rw [Array.size_push]
    exact Nat.le_trans pending grows.size_le
  · intro number set inside listed
    rw [Array.size_push] at inside
    have before := old (by omega) listed
    rw [Array.getElem?_push]
    split
    next same =>
      subst same
      obtain ⟨_, rfl⟩ := Array.getElem?_eq_some_iff.mp before
      rfl
    next differ => exact followed.row number set (by omega) before
  · intro number set inside listed step member
    rw [Array.size_push] at inside
    have before := old (by omega) listed
    by_cases same : number = rows.size
    · subst same
      obtain ⟨_, rfl⟩ := Array.getElem?_eq_some_iff.mp before
      exact numbered step member
    · exact grows.mem (followed.known number set (by omega) before step member)

/-- In the end every set has its row. -/
theorem followUp_spec (followed : Followed steps found rows) :
    Extends found (followUp steps found rows).1 ∧
      Followed steps (followUp steps found rows).1 (followUp steps found rows).2 ∧
      (followUp steps found rows).2.size = (followUp steps found rows).1.order.size := by
  fun_induction followUp steps found rows with
  | case1 found rows pending row ih =>
    obtain ⟨grows, followed, complete⟩ := ih (followed.next pending)
    exact ⟨(insertAll_extends Prod.snd row found).1.trans grows, followed, complete⟩
  | case2 found rows finished =>
    exact ⟨.refl found, followed, Nat.le_antisymm followed.size_le (Nat.le_of_not_lt finished)⟩

/-- What holds of the sets to begin with, and is kept by every step, holds of all sets in the end. -/
theorem followUp_each {property : IndexSet width → Prop}
    (kept : ∀ set, property set → ∀ step ∈ steps set, property step.2)
    (begins : ∀ set ∈ found.order, property set) :
    ∀ set ∈ (followUp steps found rows).1.order, property set := by
  fun_induction followUp steps found rows with
  | case1 found rows pending row ih =>
    apply ih
    intro set member
    cases (mem_insertAll Prod.snd).mp member with
    | inl known => exact begins set known
    | inr new =>
      obtain ⟨step, listed, rfl⟩ := new
      exact kept _ (begins _ (Array.getElem_mem pending)) step listed
  | case2 => exact begins

end ByteRegex.Subsets
