import ByteRegex.Proofs.Selection
import ByteRegex.Subset.Grouping
import Mathlib.Data.List.Chain

/-! Transitions grouped by their target. The groups are filled side by side, and a group may be extended long
after others were opened. Still each has the ranges that its bytes would have alone: they ascend, with gaps
between them, and contain those bytes and no others. -/

namespace ByteRegex

namespace ByteRange

/-- The ranges of a list of bytes. A byte that continues the one before it extends its range. -/
def runs : List UInt8 → List ByteRange
  | [] => []
  | byte :: rest =>
    match runs rest with
    | [] => [.single byte]
    | range :: more =>
      if byte.toNat + 1 = range.first.toNat then { range with first := byte } :: more
      else .single byte :: range :: more

/-- Ranges in ascending order with gaps between them. -/
def Separate (ranges : List ByteRange) : Prop :=
  (∀ range ∈ ranges, range.first ≤ range.last) ∧
    ranges.Pairwise fun first second => first.last.toNat + 1 < second.first.toNat

theorem le_runs (bytes : List UInt8) : ∀ range ∈ runs bytes, range.first ≤ range.last := by
  induction bytes with
  | nil => simp [runs]
  | cons byte rest ih =>
    rw [runs]
    split
    next => simp [single]
    next range more found =>
      rw [found] at ih
      obtain ⟨ordered, rest⟩ := List.forall_mem_cons.mp ih
      split
      next follows =>
        refine List.forall_mem_cons.mpr ⟨?_, rest⟩
        rw [UInt8.le_iff_toNat_le] at ordered ⊢
        change byte.toNat ≤ range.last.toNat
        omega
      next => exact List.forall_mem_cons.mpr ⟨by simp [single], ih⟩

theorem contains_single (first byte : UInt8) : (single first).contains byte ↔ byte = first := by
  simp only [single, contains, Bool.and_eq_true, decide_eq_true_eq, UInt8.le_iff_toNat_le,
    ← UInt8.toNat_inj]
  omega

theorem any_runs (bytes : List UInt8) (byte : UInt8) :
    (runs bytes).any (·.contains byte) ↔ byte ∈ bytes := by
  induction bytes with
  | nil => simp [runs]
  | cons first rest ih =>
    rw [runs, List.mem_cons, ← ih]
    split
    next found => simp [found, contains_single]
    next range more found =>
      have ordered := le_runs rest range (by simp [found])
      split
      next follows =>
        have wider : ({ range with first := first } : ByteRange).contains byte ↔
            byte = first ∨ range.contains byte := by
          simp only [contains, Bool.and_eq_true, decide_eq_true_eq, UInt8.le_iff_toNat_le,
            ← UInt8.toNat_inj] at ordered ⊢
          omega
        simp [found, wider, or_assoc]
      next => simp [found, contains_single]

theorem first_mem_of_mem_runs {bytes : List UInt8} : ∀ range ∈ runs bytes, range.first ∈ bytes := by
  induction bytes with
  | nil => simp [runs]
  | cons byte rest ih =>
    rw [runs]
    split
    next => simp [single]
    next range more found =>
      rw [found] at ih
      split
      next =>
        refine List.forall_mem_cons.mpr ⟨List.mem_cons_self, fun other listed => ?_⟩
        exact List.mem_cons_of_mem _ (ih other (List.mem_cons_of_mem _ listed))
      next =>
        exact List.forall_mem_cons.mpr
          ⟨List.mem_cons_self, fun other listed => List.mem_cons_of_mem _ (ih other listed)⟩

theorem separate_runs {bytes : List UInt8} (ascending : bytes.Pairwise (· < ·)) : Separate (runs bytes) := by
  refine ⟨le_runs bytes, ?_⟩
  induction bytes with
  | nil => exact .nil
  | cons byte rest ih =>
    obtain ⟨below, ascending⟩ := List.pairwise_cons.mp ascending
    have spread := ih ascending
    have later := le_runs rest
    have beyond : ∀ range ∈ runs rest, byte.toNat < range.first.toNat := fun range listed =>
      UInt8.lt_iff_toNat_lt.mp (below _ (first_mem_of_mem_runs range listed))
    rw [runs]
    split
    next => exact List.pairwise_singleton _ _
    next range more found =>
      rw [found] at spread beyond later
      obtain ⟨gaps, spread⟩ := List.pairwise_cons.mp spread
      split
      next follows => exact List.pairwise_cons.mpr ⟨gaps, spread⟩
      next gap =>
        -- The byte begins a range of its own, since the next range does not start behind it at once.
        refine List.pairwise_cons.mpr ⟨?_, List.pairwise_cons.mpr ⟨gaps, spread⟩⟩
        have first := beyond range List.mem_cons_self
        have ordered := UInt8.le_iff_toNat_le.mp (later range List.mem_cons_self)
        refine List.forall_mem_cons.mpr ⟨?_, fun second listed => ?_⟩
        · change byte.toNat + 1 < _
          omega
        · have gap := gaps second listed
          change byte.toNat + 1 < _
          omega

example : runs [0x61, 0x62, 0x64, 0xff] = [⟨0x61, 0x62⟩, ⟨0x64, 0x64⟩, ⟨0xff, 0xff⟩] := by decide

/-- Adding bytes one after the other gives the ranges of them all. -/
theorem extend_runs (byte : UInt8) (bytes : List UInt8) : extend byte (runs bytes) = runs (bytes ++ [byte]) := by
  induction bytes with
  | nil => rfl
  | cons first rest ih =>
    rw [List.cons_append, runs, runs, ← ih]
    -- A range that is both first and last may be extended at either end.
    match runs rest with
    | [] => grind [extend, single]
    | [range] => grind [extend]
    | range :: next :: more => grind [extend]

theorem Separate.isChain {ranges : List ByteRange} (separate : Separate ranges) :
    ranges.IsChain fun first second =>
      ∃ byte, first.last < byte ∧ byte < second.first ∧ ∀ range ∈ ranges, ¬ range.contains byte := by
  rw [List.isChain_iff_forall_rel_of_append_cons_cons]
  rintro first second front rear rfl
  obtain ⟨ordered, apart⟩ := separate
  simp only [UInt8.le_iff_toNat_le] at ordered
  obtain ⟨_, apart, earlier⟩ := List.pairwise_append.mp apart
  obtain ⟨behind, apart⟩ := List.pairwise_cons.mp apart
  obtain ⟨later, _⟩ := List.pairwise_cons.mp apart
  have gap := behind second List.mem_cons_self
  -- The byte behind the first of the two ranges is in neither, nor in any other.
  have next : (first.last + 1).toNat = first.last.toNat + 1 := by
    have := second.first.toNat_lt
    rw [UInt8.toNat_add, UInt8.toNat_one]
    omega
  refine ⟨first.last + 1, ?_, ?_, fun range listed inside => ?_⟩
  · rw [UInt8.lt_iff_toNat_lt]
    omega
  · rw [UInt8.lt_iff_toNat_lt]
    omega
  · rw [contains, Bool.and_eq_true, decide_eq_true_iff, decide_eq_true_iff, UInt8.le_iff_toNat_le,
      UInt8.le_iff_toNat_le, next] at inside
    simp only [List.mem_append, List.mem_cons] at listed
    rcases listed with before | rfl | rfl | after
    · have := earlier range before first List.mem_cons_self
      have := ordered first (by simp)
      omega
    · omega
    · omega
    · have := later range after
      have := ordered second (by simp)
      omega

end ByteRange

section groups

variable {target : Type} [DecidableEq target] {steps : List (UInt8 × target)} {byte : UInt8} {wanted : target}

def bytesTo (steps : List (UInt8 × target)) (wanted : target) : List UInt8 :=
  (steps.filter (·.2 == wanted)).map (·.1)

theorem mem_bytesTo : byte ∈ bytesTo steps wanted ↔ (byte, wanted) ∈ steps := by
  simp [bytesTo]

theorem ascending_bytesTo (ascending : (steps.map (·.1)).Pairwise (· < ·)) :
    (bytesTo steps wanted).Pairwise (· < ·) :=
  ascending.sublist (.map _ List.filter_sublist)

theorem bytesTo_concat (steps : List (UInt8 × target)) (step : UInt8 × target) (wanted : target) :
    bytesTo (steps ++ [step]) wanted =
      bytesTo steps wanted ++ if wanted = step.2 then [step.1] else [] := by
  rw [bytesTo, List.filter_append, List.map_append, ← bytesTo]
  by_cases same : wanted = step.2
  · simp [same]
  · simp [same, Ne.symm same]

def groupsOf (steps : List (UInt8 × target)) : List (target × List ByteRange) :=
  (steps.map (·.2)).eraseDups.map fun wanted => (wanted, ByteRange.runs (bytesTo steps wanted))

variable {step : UInt8 × target} {targets : List target} (rangesOf : target → List ByteRange)

theorem addStep_of_not_mem (fresh : step.2 ∉ targets) :
    addStep step (targets.map fun wanted => (wanted, rangesOf wanted)) =
      (targets.map fun wanted => (wanted, rangesOf wanted)) ++ [(step.2, [.single step.1])] := by
  induction targets with
  | nil => rfl
  | cons first rest ih =>
    obtain ⟨differ, fresh⟩ := not_or.mp (mt List.mem_cons.mpr fresh)
    rw [List.map_cons, addStep, if_neg (Ne.symm differ), ih fresh, List.cons_append]

theorem addStep_of_mem (distinct : targets.Nodup) (known : step.2 ∈ targets) :
    addStep step (targets.map fun wanted => (wanted, rangesOf wanted)) =
      targets.map fun wanted =>
        (wanted, if wanted = step.2 then ByteRange.extend step.1 (rangesOf wanted) else rangesOf wanted) := by
  induction targets with
  | nil => cases known
  | cons first rest ih =>
    obtain ⟨unlisted, distinct⟩ := List.nodup_cons.mp distinct
    rw [List.map_cons, List.map_cons, addStep]
    split
    next same =>
      have others : ∀ wanted ∈ rest, wanted ≠ step.2 := fun wanted listed equal =>
        unlisted (same.trans equal.symm ▸ listed)
      refine congrArg _ (List.map_congr_left fun wanted listed => ?_)
      rw [if_neg (others wanted listed)]
    next differ =>
      rw [ih distinct ((List.mem_cons.mp known).resolve_left (Ne.symm differ))]

theorem eraseDups_concat (items : List target) (last : target) : (items ++ [last]).eraseDups =
    if last ∈ items then items.eraseDups else items.eraseDups ++ [last] := by
  rw [List.eraseDups_append]
  split
  next listed => simp [List.removeAll, listed]
  next fresh => simp [List.removeAll, fresh, List.eraseDups_cons]

/-- One more transition turns the groups of the transitions before into those of all of them, whichever groups
are open. -/
theorem addStep_groupsOf (steps : List (UInt8 × target)) (step : UInt8 × target) :
    addStep step (groupsOf steps) = groupsOf (steps ++ [step]) := by
  rw [groupsOf, groupsOf, List.map_append, List.map_singleton, eraseDups_concat]
  split
  next known =>
    rw [addStep_of_mem _ (Automaton.nodup_eraseDups _) (List.mem_eraseDups.mpr known)]
    refine List.map_congr_left fun wanted _ => congrArg _ ?_
    rw [bytesTo_concat]
    split
    next => exact ByteRange.extend_runs _ _
    next => rw [List.append_nil]
  next fresh =>
    rw [addStep_of_not_mem _ (mt List.mem_eraseDups.mp fresh), List.map_append, List.map_singleton]
    congr 1
    · refine List.map_congr_left fun wanted listed => ?_
      have differ : wanted ≠ step.2 := fun same => fresh (same ▸ List.mem_eraseDups.mp listed)
      rw [bytesTo_concat, if_neg differ, List.append_nil]
    · have none : bytesTo steps step.2 = [] := List.eq_nil_iff_forall_not_mem.mpr fun byte listed =>
        fresh (List.mem_map_of_mem (f := (·.2)) (mem_bytesTo.mp listed))
      rw [bytesTo_concat, if_pos rfl, none]
      rfl

theorem foldl_addStep (before steps : List (UInt8 × target)) :
    steps.foldl (fun groups step => addStep step groups) (groupsOf before) = groupsOf (before ++ steps) := by
  induction steps generalizing before with
  | nil => rw [List.foldl_nil, List.append_nil]
  | cons step rest ih => rw [List.foldl_cons, addStep_groupsOf, ih, List.append_assoc, List.singleton_append]

theorem groupByTarget_eq (steps : List (UInt8 × target)) : groupByTarget steps = groupsOf steps :=
  foldl_addStep [] steps

theorem mem_groupByTarget {ranges : List ByteRange} : (wanted, ranges) ∈ groupByTarget steps ↔
    wanted ∈ steps.map (·.2) ∧ ranges = ByteRange.runs (bytesTo steps wanted) := by
  rw [groupByTarget_eq, groupsOf, List.mem_map]
  constructor
  · rintro ⟨wanted, listed, same⟩
    cases same
    exact ⟨List.mem_eraseDups.mp listed, rfl⟩
  · rintro ⟨listed, rfl⟩
    exact ⟨wanted, List.mem_eraseDups.mpr listed, rfl⟩

theorem targets_groupByTarget (steps : List (UInt8 × target)) :
    (groupByTarget steps).map (·.1) = (steps.map (·.2)).eraseDups := by
  rw [groupByTarget_eq, groupsOf, List.map_map]
  exact List.map_id _

theorem separate_groupByTarget (ascending : (steps.map (·.1)).Pairwise (· < ·)) :
    ∀ group ∈ groupByTarget steps, ByteRange.Separate group.2 := by
  rintro ⟨wanted, ranges⟩ member
  obtain ⟨_, rfl⟩ := mem_groupByTarget.mp member
  exact ByteRange.separate_runs (ascending_bytesTo ascending)

structure Groups (steps : List (UInt8 × target)) (groups : List (target × List ByteRange)) : Prop where
  nodup : (groups.map (·.1)).Nodup
  order : groups.map (·.1) = (steps.map (·.2)).eraseDups
  mem_iff : ∀ byte wanted, (∃ group ∈ groups, group.1 = wanted ∧ ∃ range ∈ group.2, range.contains byte) ↔
    (byte, wanted) ∈ steps
  ordered : ∀ group ∈ groups, ∀ range ∈ group.2, range.first ≤ range.last
  /-- With the order of their ends, this also keeps the ranges of a group disjoint. -/
  ascending : ∀ group ∈ groups, group.2.Pairwise fun first second => first.last < second.first
  maximal : ∀ group ∈ groups, group.2.IsChain fun first second =>
    ∃ byte, first.last < byte ∧ byte < second.first ∧ ∀ range ∈ group.2, ¬ range.contains byte

/-- Transitions in ascending order of their bytes are grouped without a loss, and with as few ranges as
possible. -/
theorem groupByTarget_faithful (ascending : (steps.map (·.1)).Pairwise (· < ·)) :
    Groups steps (groupByTarget steps) := by
  have separate := separate_groupByTarget ascending
  refine ⟨?_, targets_groupByTarget steps, ?_, fun group member => (separate group member).1, ?_,
    fun group member => (separate group member).isChain⟩
  · rw [targets_groupByTarget]
    exact Automaton.nodup_eraseDups _
  · intro byte wanted
    rw [← mem_bytesTo, ← ByteRange.any_runs, List.any_eq_true]
    constructor
    · rintro ⟨⟨wanted, ranges⟩, member, rfl, covered⟩
      obtain ⟨_, rfl⟩ := mem_groupByTarget.mp member
      exact covered
    · intro covered
      have step := mem_bytesTo.mp ((ByteRange.any_runs _ _).mp (List.any_eq_true.mpr covered))
      exact ⟨(wanted, _), mem_groupByTarget.mpr ⟨List.mem_map_of_mem (f := (·.2)) step, rfl⟩, rfl, covered⟩
  · intro group member
    refine (separate group member).2.imp fun gap => ?_
    rw [UInt8.lt_iff_toNat_lt]
    exact Nat.lt_of_succ_lt gap

def interleaved : List (UInt8 × Nat) :=
  [(0x00, 4), (0x01, 1), (0x02, 4), (0x03, 4), (0x04, 1), (0x05, 1), (0x07, 4), (0xfe, 1), (0xff, 1)]

theorem groupByTarget_faithful_interleaved : (interleaved.map (·.1)).Pairwise (· < ·) ∧
    Groups interleaved (groupByTarget interleaved) ∧
    groupByTarget interleaved =
      [(4, [⟨0x00, 0x00⟩, ⟨0x02, 0x03⟩, ⟨0x07, 0x07⟩]), (1, [⟨0x01, 0x01⟩, ⟨0x04, 0x05⟩, ⟨0xfe, 0xff⟩])] :=
  ⟨by decide, groupByTarget_faithful (by decide), by decide⟩

end groups

end ByteRegex
