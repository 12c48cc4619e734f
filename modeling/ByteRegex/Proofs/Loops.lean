import ByteRegex.Proofs.Trimness
import Mathlib.Data.List.Chain
import Mathlib.Order.RelClasses

/-! The loops in the automaton of a pattern. Every `+` and every `*` closes one loop, through a state of its
own that has the back flag; without these states no way through the automaton comes back to where it was. -/

namespace ByteRegex

namespace Automaton

/-- The states of a way that goes on from the last of them to the first. -/
def Cycle (automaton : Automaton) (cycle : List StateId) : Prop :=
  ∃ first ∈ cycle.head?, List.IsChain (fun before after => after ∈ automaton.next before) (cycle ++ [first])

/-- A transition that closes no loop. -/
def Onward (automaton : Automaton) (after before : StateId) : Prop :=
  after ∈ automaton.next before ∧ before ∉ automaton.loopbacks

/-- An epsilon state with one way in and one way out, which a cycle passes. -/
structure ClosesLoop (automaton : Automaton) (id : StateId) : Prop where
  shape : ∃ after, automaton.states[id]? = some (.loopback [after])
  entered : ∃! before, id ∈ automaton.next before
  passed : ∃ cycle, automaton.Cycle cycle ∧ id ∈ cycle

variable {automaton : Automaton} {order : KeySet} {id after final : StateId} {state : State}

theorem mem_loopbacks : id ∈ automaton.loopbacks ↔ ∃ state, automaton.states[id]? = some state ∧ state.back := by
  rw [loopbacks, List.mem_filter, List.mem_range, Option.any_eq_true]
  refine ⟨fun ⟨_, found⟩ => found, fun ⟨state, found, back⟩ => ⟨?_, state, found, back⟩⟩
  exact (Array.getElem?_eq_some_iff.mp found).1

theorem acc_of (found : automaton.states[id]? = some state)
    (each : ∀ after ∈ state.next, Acc automaton.Onward after) : Acc automaton.Onward id :=
  .intro id fun after edge => each after (next_of found ▸ edge.1)

theorem acc_of_back (found : automaton.states[id]? = some state) (back : state.back) :
    Acc automaton.Onward id :=
  .intro id fun _ edge => absurd (mem_loopbacks.mpr ⟨state, found, back⟩) edge.2

private theorem transGen_of_isChain {first : StateId} {rest : List StateId}
    (chain : List.IsChain (fun before after => after ∈ automaton.next before) (first :: (rest ++ [final])))
    (onward : ∀ id ∈ first :: rest, id ∉ automaton.loopbacks) :
    Relation.TransGen automaton.Onward final first := by
  induction rest generalizing first with
  | nil =>
    obtain ⟨edge, _⟩ := List.isChain_cons_cons.mp chain
    exact .single ⟨edge, onward first List.mem_cons_self⟩
  | cons second rest ih =>
    obtain ⟨edge, chain⟩ := List.isChain_cons_cons.mp chain
    have later := ih chain fun id listed => onward id (List.mem_cons_of_mem first listed)
    exact later.tail ⟨edge, onward first List.mem_cons_self⟩

/-- Where every way that closes no loop comes to an end, a cycle closes one. -/
theorem exists_loopback_of_cycle (ends : WellFounded automaton.Onward) {cycle : List StateId}
    (cyclic : automaton.Cycle cycle) : ∃ id ∈ cycle, id ∈ automaton.loopbacks := by
  by_contra none
  obtain ⟨first, begins, chain⟩ := cyclic
  obtain ⟨rest, rfl⟩ := List.head?_eq_some_iff.mp begins
  have returns := transGen_of_isChain chain fun id listed back => none ⟨id, listed, back⟩
  exact ends.transGen.asymmetric _ _ returns returns

theorem exists_cycle (edge : after ∈ automaton.next id)
    (leads : (transitions automaton.states).Leads after id) : ∃ cycle, automaton.Cycle cycle ∧ id ∈ cycle := by
  obtain ⟨rest, chain, ends⟩ := List.exists_isChain_cons_of_relationReflTransGen leads
  have whole := List.dropLast_concat_getLast (List.cons_ne_nil after rest)
  rw [ends] at whole
  refine ⟨id :: (after :: rest).dropLast, ⟨id, rfl, ?_⟩, List.mem_cons_self⟩
  rw [List.cons_append, whole]
  exact .cons_cons edge chain

theorem select_mem_loopbacks (covers : automaton.Covers order) (inside : id ∈ order.toList) :
    order.place id ∈ (automaton.select order).loopbacks ↔ id ∈ automaton.loopbacks := by
  rw [mem_loopbacks, mem_loopbacks, select_states covers inside]
  cases automaton.states[id]? <;> simp

theorem acc_select (covers : automaton.Covers order) (inside : id ∈ order.toList)
    (ends : Acc automaton.Onward id) : Acc (automaton.select order).Onward (order.place id) := by
  induction ends with
  | intro id _ ih =>
    constructor
    intro final ⟨edge, onward⟩
    rw [select_next covers inside] at edge
    obtain ⟨after, follows, rfl⟩ := List.mem_map.mp edge
    rw [select_mem_loopbacks covers inside] at onward
    exact ih after ⟨follows, onward⟩ (covers.next id inside after follows)

theorem perm_loopbacks_select (covers : automaton.Covers order)
    (whole : ∀ id < automaton.size, id ∈ order.toList) :
    (automaton.select order).loopbacks.Perm (automaton.loopbacks.map order.place) := by
  have kept {id : StateId} (back : id ∈ automaton.loopbacks) : id ∈ order.toList :=
    whole id (List.mem_range.mp (List.mem_filter.mp back).1)
  have distinct : (automaton.loopbacks.map order.place).Nodup :=
    (List.nodup_range.filter _).map_on fun first left second right =>
      KeySet.place_inj (kept left) (kept right)
  refine (List.perm_ext_iff_of_nodup (List.nodup_range.filter _) distinct).mpr fun id => ?_
  constructor
  · intro back
    obtain ⟨old, inside, rfl⟩ := exists_place covers (List.mem_range.mp (List.mem_filter.mp back).1)
    exact List.mem_map_of_mem ((select_mem_loopbacks covers inside).mp back)
  · intro listed
    obtain ⟨old, back, rfl⟩ := List.mem_map.mp listed
    exact (select_mem_loopbacks covers (kept back)).mpr back

theorem wellFounded_select (covers : automaton.Covers order) (ends : WellFounded automaton.Onward) :
    WellFounded (automaton.select order).Onward := by
  constructor
  intro id
  by_cases inside : id < (automaton.select order).size
  · obtain ⟨old, kept, rfl⟩ := exists_place covers inside
    exact acc_select covers kept (ends.apply old)
  · exact .intro id fun _ edge => absurd (lt_of_next edge.1) inside

theorem Cycle.select (covers : automaton.Covers order) (whole : ∀ id < automaton.size, id ∈ order.toList)
    {cycle : List StateId} (cyclic : automaton.Cycle cycle) :
    (automaton.select order).Cycle (cycle.map order.place) := by
  obtain ⟨first, begins, chain⟩ := cyclic
  refine ⟨order.place first, ?_, ?_⟩
  · rw [List.head?_map]
    exact Option.mem_map_of_mem _ begins
  · rw [← List.map_singleton (f := order.place), ← List.map_append]
    refine List.isChain_map_of_isChain order.place (fun before after edge => ?_) chain
    rw [select_next covers (whole before (lt_of_next edge))]
    exact List.mem_map_of_mem edge

theorem existsUnique_select (covers : automaton.Covers order) (whole : ∀ id < automaton.size, id ∈ order.toList)
    (inside : id ∈ order.toList) (once : ∃! before, id ∈ automaton.next before) :
    ∃! before, order.place id ∈ (automaton.select order).next before := by
  obtain ⟨before, edge, unique⟩ := once
  have kept := whole before (lt_of_next edge)
  refine ⟨order.place before, ?_, fun other also => ?_⟩
  · change order.place id ∈ (automaton.select order).next (order.place before)
    rw [select_next covers kept]
    exact List.mem_map_of_mem edge
  · obtain ⟨old, listed, rfl⟩ := exists_place covers (lt_of_next also)
    rw [select_next covers listed] at also
    obtain ⟨after, edge', same⟩ := List.mem_map.mp also
    obtain rfl := KeySet.place_inj (covers.next old listed after edge') inside same
    exact congrArg order.place (unique old edge')

theorem ClosesLoop.select (covers : automaton.Covers order) (whole : ∀ id < automaton.size, id ∈ order.toList)
    (inside : id ∈ order.toList) (closes : automaton.ClosesLoop id) :
    (automaton.select order).ClosesLoop (order.place id) := by
  obtain ⟨⟨after, found⟩, entered, cycle, cyclic, listed⟩ := closes
  refine ⟨⟨order.place after, ?_⟩, existsUnique_select covers whole inside entered, ?_⟩
  · rw [select_states covers inside, found]
    rfl
  · exact ⟨cycle.map order.place, cyclic.select covers whole, List.mem_map_of_mem listed⟩

private theorem count_pos {states : List State} {index : Nat} (found : states[index]? = some state)
    (edge : id ∈ state.next) : 0 < (states.flatMap State.next).count id :=
  List.count_pos_iff.mpr (List.mem_flatMap.mpr ⟨state, List.mem_of_getElem? found, edge⟩)

private theorem index_unique {states : List State} (once : (states.flatMap State.next).count id = 1)
    {first second : Nat} {left right : State} (found : states[first]? = some left)
    (other : states[second]? = some right) (edge : id ∈ left.next) (also : id ∈ right.next) : first = second := by
  induction states generalizing first second with
  | nil => cases found
  | cons state rest ih =>
    rw [List.flatMap_cons, List.count_append] at once
    cases first with
    | zero =>
      cases second with
      | zero => rfl
      | succ second =>
        obtain rfl := Option.some.inj found
        have here := List.count_pos_iff.mpr edge
        have there : 0 < (rest.flatMap State.next).count id := count_pos other also
        omega
    | succ first =>
      have there : 0 < (rest.flatMap State.next).count id := count_pos found edge
      cases second with
      | zero =>
        obtain rfl := Option.some.inj other
        have here := List.count_pos_iff.mpr also
        omega
      | succ second => exact congrArg Nat.succ (ih (by omega) found other)

/-- A state that all transitions name once in all has a single predecessor. -/
theorem existsUnique_of_count (once : (automaton.states.toList.flatMap State.next).count id = 1) :
    ∃! before, id ∈ automaton.next before := by
  have state_of {before : StateId} (edge : id ∈ automaton.next before) :
      ∃ state, automaton.states.toList[before]? = some state ∧ id ∈ state.next := by
    have found := Array.getElem?_eq_getElem (lt_of_next edge)
    exact ⟨_, by rw [Array.getElem?_toList, found], next_of found ▸ edge⟩
  obtain ⟨state, listed, edge⟩ := List.mem_flatMap.mp (List.count_pos_iff.mp (once ▸ Nat.one_pos))
  obtain ⟨before, found⟩ := List.mem_iff_getElem?.mp listed
  refine ⟨before, mem_next_of (by rwa [Array.getElem?_toList] at found) edge, fun other also => ?_⟩
  obtain ⟨state', found', edge'⟩ := state_of also
  exact index_unique once found' found edge' edge

end Automaton

namespace Pattern

open Automaton

def loopbacks : Pattern → (base : Nat) → List StateId
  | bytes _, _ => []
  | concat first second, base => first.loopbacks base ++ second.loopbacks (base + first.size)
  | either first second, base => first.loopbacks (base + 2) ++ second.loopbacks (base + 2 + first.size)
  | optional body, base => body.loopbacks (base + 2)
  | oneOrMore body, base => (base + 1) :: body.loopbacks (base + 2)
  | zeroOrMore body, base => (base + 1) :: body.loopbacks (base + 3)

variable {automaton : Automaton} {first second body pattern : Pattern} {base follow id : Nat}

theorem length_loopbacks (pattern : Pattern) (base : Nat) : (pattern.loopbacks base).length =
    pattern.operators.count .oneOrMore + pattern.operators.count .zeroOrMore := by
  induction pattern generalizing base with
  | bytes set => rfl
  | concat first second ihFirst ihSecond | either first second ihFirst ihSecond =>
    simp [loopbacks, operators, ihFirst, ihSecond]
    omega
  | optional body ih | zeroOrMore body ih => simp [loopbacks, operators, ih, Nat.add_assoc]
  | oneOrMore body ih =>
    simp [loopbacks, operators, ih]
    omega

theorem loopbacks_bounds (back : id ∈ pattern.loopbacks base) : base ≤ id ∧ id < base + pattern.size := by
  induction pattern generalizing base with
  | bytes set => cases back
  | concat first second ihFirst ihSecond | either first second ihFirst ihSecond =>
    simp only [size]
    rcases List.mem_append.mp back with back | back
    · have bounds := ihFirst back
      omega
    · have bounds := ihSecond back
      omega
  | optional body ih =>
    have bounds := ih back
    simp only [size]
    omega
  | oneOrMore body ih | zeroOrMore body ih =>
    simp only [size]
    rcases List.mem_cons.mp back with rfl | back
    · omega
    · have bounds := ih back
      omega

theorem ne_entry_of_mem_loopbacks (back : id ∈ pattern.loopbacks base) : id ≠ pattern.entry base := by
  induction pattern generalizing base with
  | bytes set => cases back
  | concat first second ihFirst ihSecond =>
    rcases List.mem_append.mp back with back | back
    · exact ihFirst back
    · have entered : first.entry base < base + first.size := first.entry_lt (Nat.le_refl _)
      exact Nat.ne_of_gt (Nat.lt_of_lt_of_le entered (loopbacks_bounds back).1)
  | oneOrMore body ih =>
    rcases List.mem_cons.mp back with rfl | back
    · have entered := body.le_entry (base + 2)
      simp only [entry]
      omega
    · exact ih back
  | either first second =>
    rcases List.mem_append.mp back with back | back
    all_goals
      have bounds := loopbacks_bounds back
      simp only [entry]
      omega
  | optional body =>
    have back : id ∈ body.loopbacks (base + 2) := back
    have bounds := loopbacks_bounds back
    simp only [entry]
    omega
  | zeroOrMore body =>
    rcases List.mem_cons.mp back with rfl | back
    · simp [entry]
    · have bounds := loopbacks_bounds back
      simp only [entry]
      omega

theorem filter_range' (holds : automaton.Holds base (pattern.block base follow)) :
    (List.range' base pattern.size).filter (fun id => automaton.states[id]?.any State.back) =
      pattern.loopbacks base := by
  induction pattern generalizing base follow with
  | bytes set =>
    obtain ⟨found, _⟩ := holds_cons.mp holds
    simp [size, loopbacks, found, State.consuming]
  | concat first second ihFirst ihSecond =>
    obtain ⟨front, rear⟩ := holds_append.mp holds
    rw [length_block] at rear
    rw [size, ← List.range'_append_1, List.filter_append, ihFirst front, ihSecond rear, loopbacks]
  | either first second ihFirst ihSecond =>
    obtain ⟨fork, holds⟩ := holds_cons.mp holds
    obtain ⟨join, holds⟩ := holds_cons.mp holds
    obtain ⟨upper, lower⟩ := holds_append.mp holds
    rw [length_block] at lower
    rw [size, List.range'_succ, List.range'_succ, List.filter_cons_of_neg (by simp [fork, State.epsilon]),
      List.filter_cons_of_neg (by simp [join, State.epsilon]), ← List.range'_append_1, List.filter_append,
      ihFirst upper, ihSecond lower, loopbacks]
  | optional body ih =>
    obtain ⟨fork, holds⟩ := holds_cons.mp holds
    obtain ⟨join, holds⟩ := holds_cons.mp holds
    rw [size, List.range'_succ, List.range'_succ, List.filter_cons_of_neg (by simp [fork, State.epsilon]),
      List.filter_cons_of_neg (by simp [join, State.epsilon]), ih holds, loopbacks]
  | oneOrMore body ih =>
    obtain ⟨choice, holds⟩ := holds_cons.mp holds
    obtain ⟨back, holds⟩ := holds_cons.mp holds
    rw [size, List.range'_succ, List.range'_succ, List.filter_cons_of_neg (by simp [choice, State.epsilon]),
      List.filter_cons_of_pos (by simp [back, State.loopback]), ih holds, loopbacks]
  | zeroOrMore body ih =>
    obtain ⟨choice, holds⟩ := holds_cons.mp holds
    obtain ⟨back, holds⟩ := holds_cons.mp holds
    obtain ⟨out, holds⟩ := holds_cons.mp holds
    rw [size, List.range'_succ, List.range'_succ, List.range'_succ,
      List.filter_cons_of_neg (by simp [choice, State.epsilon]),
      List.filter_cons_of_pos (by simp [back, State.loopback]),
      List.filter_cons_of_neg (by simp [out, State.epsilon]), ih holds, loopbacks]

/-- A loopback leads to where its loop begins, and from there the way through the loop comes back to it. -/
theorem loopback_block (holds : automaton.Holds base (pattern.block base follow))
    (back : id ∈ pattern.loopbacks base) : ∃ after, automaton.states[id]? = some (.loopback [after]) ∧
      (transitions automaton.states).Leads after id := by
  induction pattern generalizing base follow with
  | bytes set => cases back
  | concat first second ihFirst ihSecond =>
    obtain ⟨front, rear⟩ := holds_append.mp holds
    rw [length_block] at rear
    rcases List.mem_append.mp back with back | back
    · exact ihFirst front back
    · exact ihSecond rear back
  | either first second ihFirst ihSecond =>
    obtain ⟨_, holds⟩ := holds_cons.mp holds
    obtain ⟨_, holds⟩ := holds_cons.mp holds
    obtain ⟨upper, lower⟩ := holds_append.mp holds
    rw [length_block] at lower
    rcases List.mem_append.mp back with back | back
    · exact ihFirst upper back
    · exact ihSecond lower back
  | optional body ih =>
    obtain ⟨_, holds⟩ := holds_cons.mp holds
    obtain ⟨_, holds⟩ := holds_cons.mp holds
    exact ih holds back
  | oneOrMore body ih =>
    obtain ⟨choice, holds⟩ := holds_cons.mp holds
    obtain ⟨closing, holds⟩ := holds_cons.mp holds
    rcases List.mem_cons.mp back with rfl | back
    · have through := (leads_block holds (body.le_entry _) (body.entry_lt (Nat.le_refl _))).2
      exact ⟨_, closing, through.trans (leads_of choice List.mem_cons_self)⟩
    · exact ih holds back
  | zeroOrMore body ih =>
    obtain ⟨choice, holds⟩ := holds_cons.mp holds
    obtain ⟨closing, holds⟩ := holds_cons.mp holds
    obtain ⟨_, holds⟩ := holds_cons.mp holds
    rcases List.mem_cons.mp back with rfl | back
    · have through := (leads_block holds (body.le_entry _) (body.entry_lt (Nat.le_refl _))).2
      exact ⟨_, closing, (leads_of choice List.mem_cons_self).trans through⟩
    · exact ih holds back

/-- What the transitions of a block lead to, once for each transition. -/
def targets (pattern : Pattern) (base follow : Nat) : List StateId :=
  (pattern.block base follow).flatMap State.next

theorem targets_concat : (concat first second).targets base follow =
    first.targets base (second.entry (base + first.size)) ++ second.targets (base + first.size) follow :=
  List.flatMap_append

theorem targets_either : (either first second).targets base follow =
    first.entry (base + 2) :: second.entry (base + 2 + first.size) :: follow ::
      (first.targets (base + 2) (base + 1) ++ second.targets (base + 2 + first.size) (base + 1)) := by
  have parts : (first.block (base + 2) (base + 1) ++ second.block (base + 2 + first.size) (base + 1)).flatMap
      State.next = first.targets (base + 2) (base + 1) ++ second.targets (base + 2 + first.size) (base + 1) :=
    List.flatMap_append
  rw [← parts]
  rfl

theorem targets_optional : (optional body).targets base follow =
    body.entry (base + 2) :: (base + 1) :: follow :: body.targets (base + 2) (base + 1) := rfl

theorem targets_oneOrMore : (oneOrMore body).targets base follow =
    (base + 1) :: follow :: body.entry (base + 2) :: body.targets (base + 2) base := rfl

theorem targets_zeroOrMore : (zeroOrMore body).targets base follow =
    body.entry (base + 3) :: (base + 2) :: base :: follow :: body.targets (base + 3) (base + 1) := rfl

theorem entry_bounds (pattern : Pattern) (base : Nat) :
    base ≤ pattern.entry base ∧ base + pattern.size > pattern.entry base :=
  ⟨pattern.le_entry base, pattern.entry_lt (Nat.le_refl _)⟩

theorem targets_bounds (edge : id ∈ pattern.targets base follow) :
    id = follow ∨ base ≤ id ∧ id < base + pattern.size := by
  induction pattern generalizing base follow with
  | bytes set => exact .inl (List.mem_singleton.mp edge)
  | concat first second ihFirst ihSecond =>
    have entered := second.entry_bounds (base + first.size)
    rw [targets_concat, List.mem_append] at edge
    simp only [size]
    rcases edge with edge | edge
    · have bounds := ihFirst edge
      omega
    · have bounds := ihSecond edge
      omega
  | either first second ihFirst ihSecond =>
    have left := first.entry_bounds (base + 2)
    have right := second.entry_bounds (base + 2 + first.size)
    simp only [targets_either, List.mem_cons, List.mem_append] at edge
    simp only [size]
    rcases edge with start | start | leaves | edge | edge
    · omega
    · omega
    · exact .inl leaves
    · have bounds := ihFirst edge
      omega
    · have bounds := ihSecond edge
      omega
  | optional body ih | oneOrMore body ih =>
    have entered := body.entry_bounds (base + 2)
    simp only [targets_optional, targets_oneOrMore, List.mem_cons] at edge
    simp only [size]
    rcases edge with edge | edge | edge | edge
    any_goals omega
    have bounds := ih edge
    omega
  | zeroOrMore body ih =>
    have entered := body.entry_bounds (base + 3)
    simp only [targets_zeroOrMore, List.mem_cons] at edge
    simp only [size]
    rcases edge with edge | edge | edge | edge | edge
    any_goals omega
    have bounds := ih edge
    omega

theorem count_targets_eq_zero (elsewhere : id ≠ follow) (outside : id < base ∨ base + pattern.size ≤ id) :
    (pattern.targets base follow).count id = 0 := by
  refine List.count_eq_zero.mpr fun edge => ?_
  rcases targets_bounds edge with leaves | inside
  · exact elsewhere leaves
  · omega

/-- One transition of a block leaves it. -/
theorem count_follow (outside : follow < base ∨ base + pattern.size ≤ follow) :
    (pattern.targets base follow).count follow = 1 := by
  induction pattern generalizing base with
  | bytes set => exact List.count_singleton_self
  | concat first second ihFirst ihSecond =>
    simp only [size] at outside
    have entered := second.entry_bounds (base + first.size)
    have stays : (first.targets base (second.entry (base + first.size))).count follow = 0 :=
      count_targets_eq_zero (by omega) (by omega)
    rw [targets_concat, List.count_append, stays, ihSecond (by omega)]
  | either first second =>
    simp only [size] at outside
    have left := first.entry_bounds (base + 2)
    have right := second.entry_bounds (base + 2 + first.size)
    have upper : (first.targets (base + 2) (base + 1)).count follow = 0 :=
      count_targets_eq_zero (by omega) (by omega)
    have lower : (second.targets (base + 2 + first.size) (base + 1)).count follow = 0 :=
      count_targets_eq_zero (by omega) (by omega)
    rw [targets_either, List.count_cons_of_ne (by omega), List.count_cons_of_ne (by omega), List.count_cons_self,
      List.count_append, upper, lower]
  | optional body =>
    simp only [size] at outside
    have entered := body.entry_bounds (base + 2)
    have stays : (body.targets (base + 2) (base + 1)).count follow = 0 :=
      count_targets_eq_zero (by omega) (by omega)
    rw [targets_optional, List.count_cons_of_ne (by omega), List.count_cons_of_ne (by omega), List.count_cons_self,
      stays]
  | oneOrMore body =>
    simp only [size] at outside
    have entered := body.entry_bounds (base + 2)
    have stays : (body.targets (base + 2) base).count follow = 0 := count_targets_eq_zero (by omega) (by omega)
    rw [targets_oneOrMore, List.count_cons_of_ne (by omega), List.count_cons_self, List.count_cons_of_ne (by omega),
      stays]
  | zeroOrMore body =>
    simp only [size] at outside
    have entered := body.entry_bounds (base + 3)
    have stays : (body.targets (base + 3) (base + 1)).count follow = 0 :=
      count_targets_eq_zero (by omega) (by omega)
    rw [targets_zeroOrMore, List.count_cons_of_ne (by omega), List.count_cons_of_ne (by omega),
      List.count_cons_of_ne (by omega), List.count_cons_self, stays]

/-- One transition leads to a loopback, namely from the end of what the loop goes round. -/
theorem count_loopback (back : id ∈ pattern.loopbacks base)
    (outside : follow < base ∨ base + pattern.size ≤ follow) : (pattern.targets base follow).count id = 1 := by
  induction pattern generalizing base follow with
  | bytes set => cases back
  | concat first second ihFirst ihSecond =>
    simp only [size] at outside
    have entered := second.entry_bounds (base + first.size)
    rw [targets_concat, List.count_append]
    rcases List.mem_append.mp back with back | back
    · have bounds := loopbacks_bounds back
      rw [ihFirst back (by omega), count_targets_eq_zero (by omega) (by omega)]
    · have bounds := loopbacks_bounds back
      have later : (first.targets base (second.entry (base + first.size))).count id = 0 :=
        count_targets_eq_zero (ne_entry_of_mem_loopbacks back) (by omega)
      rw [later, ihSecond back (by omega)]
  | either first second ihFirst ihSecond =>
    simp only [size] at outside
    have left := first.entry_bounds (base + 2)
    have right := second.entry_bounds (base + 2 + first.size)
    rcases List.mem_append.mp back with back | back
    · have bounds := loopbacks_bounds back
      have apart := ne_entry_of_mem_loopbacks back
      have other : (second.targets (base + 2 + first.size) (base + 1)).count id = 0 :=
        count_targets_eq_zero (by omega) (by omega)
      rw [targets_either, List.count_cons_of_ne apart.symm, List.count_cons_of_ne (by omega),
        List.count_cons_of_ne (by omega), List.count_append, ihFirst back (by omega), other]
    · have bounds := loopbacks_bounds back
      have apart := ne_entry_of_mem_loopbacks back
      have other : (first.targets (base + 2) (base + 1)).count id = 0 :=
        count_targets_eq_zero (by omega) (by omega)
      rw [targets_either, List.count_cons_of_ne (by omega), List.count_cons_of_ne apart.symm,
        List.count_cons_of_ne (by omega), List.count_append, other, ihSecond back (by omega)]
  | optional body ih =>
    simp only [size] at outside
    have back : id ∈ body.loopbacks (base + 2) := back
    have bounds := loopbacks_bounds back
    have apart := ne_entry_of_mem_loopbacks back
    rw [targets_optional, List.count_cons_of_ne apart.symm, List.count_cons_of_ne (by omega),
      List.count_cons_of_ne (by omega), ih back (by omega)]
  | oneOrMore body ih =>
    simp only [size] at outside
    have entered := body.entry_bounds (base + 2)
    rcases List.mem_cons.mp back with rfl | back
    · -- Only the choice leads to the state that closes the loop; the body leads to the choice.
      have inner : (body.targets (base + 2) base).count (base + 1) = 0 :=
        count_targets_eq_zero (by omega) (by omega)
      rw [targets_oneOrMore, List.count_cons_self, List.count_cons_of_ne (by omega),
        List.count_cons_of_ne (by omega), inner]
    · have bounds := loopbacks_bounds back
      have apart := ne_entry_of_mem_loopbacks back
      rw [targets_oneOrMore, List.count_cons_of_ne (by omega), List.count_cons_of_ne (by omega),
        List.count_cons_of_ne apart.symm, ih back (by omega)]
  | zeroOrMore body ih =>
    simp only [size] at outside
    have entered := body.entry_bounds (base + 3)
    rcases List.mem_cons.mp back with rfl | back
    · -- For the body, the state that closes the loop is the one that follows.
      rw [targets_zeroOrMore, List.count_cons_of_ne (by omega), List.count_cons_of_ne (by omega),
        List.count_cons_of_ne (by omega), List.count_cons_of_ne (by omega), count_follow (by omega)]
    · have bounds := loopbacks_bounds back
      have apart := ne_entry_of_mem_loopbacks back
      rw [targets_zeroOrMore, List.count_cons_of_ne apart.symm, List.count_cons_of_ne (by omega),
        List.count_cons_of_ne (by omega), List.count_cons_of_ne (by omega), ih back (by omega)]

/-- Where all ways on from the state behind a block come to an end, so do those that begin in the block:
its loops are left out. -/
theorem acc_block (holds : automaton.Holds base (pattern.block base follow)) (ends : Acc automaton.Onward follow)
    (above : base ≤ id) (below : id < base + pattern.size) : Acc automaton.Onward id := by
  induction pattern generalizing base follow id with
  | bytes set =>
    obtain ⟨found, _⟩ := holds_cons.mp holds
    obtain rfl : id = base := by
      simp only [size] at below
      omega
    exact acc_of found (by simpa [State.consuming])
  | concat first second ihFirst ihSecond =>
    simp only [size] at below
    obtain ⟨front, rear⟩ := holds_append.mp holds
    rw [length_block] at rear
    by_cases early : id < base + first.size
    · exact ihFirst front (ihSecond rear ends (second.le_entry _) (second.entry_lt (Nat.le_refl _))) above early
    · exact ihSecond rear ends (by omega) (by omega)
  | either first second ihFirst ihSecond =>
    simp only [size] at below
    obtain ⟨fork, holds⟩ := holds_cons.mp holds
    obtain ⟨join, holds⟩ := holds_cons.mp holds
    obtain ⟨upper, lower⟩ := holds_append.mp holds
    rw [length_block] at lower
    have last : Acc automaton.Onward (base + 1) := acc_of join (by simpa [State.epsilon])
    have left := ihFirst upper last (first.le_entry _) (first.entry_lt (Nat.le_refl _))
    have right := ihSecond lower last (second.le_entry _) (second.entry_lt (Nat.le_refl _))
    by_cases start : id = base
    · subst start
      exact acc_of fork (by simp [State.epsilon, left, right])
    · by_cases joins : id = base + 1
      · exact joins ▸ last
      · by_cases early : id < base + 2 + first.size
        · exact ihFirst upper last (by omega) early
        · exact ihSecond lower last (by omega) (by omega)
  | optional body ih =>
    simp only [size] at below
    obtain ⟨fork, holds⟩ := holds_cons.mp holds
    obtain ⟨join, holds⟩ := holds_cons.mp holds
    have last : Acc automaton.Onward (base + 1) := acc_of join (by simpa [State.epsilon])
    have inner := ih holds last (body.le_entry _) (body.entry_lt (Nat.le_refl _))
    by_cases start : id = base
    · subst start
      exact acc_of fork (by simp [State.epsilon, inner, last])
    · by_cases joins : id = base + 1
      · exact joins ▸ last
      · exact ih holds last (by omega) (by omega)
  | oneOrMore body ih =>
    simp only [size] at below
    obtain ⟨choice, holds⟩ := holds_cons.mp holds
    obtain ⟨closing, holds⟩ := holds_cons.mp holds
    -- No way goes on from here: the one transition closes the loop.
    have closes := acc_of_back closing rfl
    have last : Acc automaton.Onward base := acc_of choice (by simp [State.epsilon, closes, ends])
    by_cases start : id = base
    · exact start ▸ last
    · by_cases round : id = base + 1
      · exact round ▸ closes
      · exact ih holds last (by omega) (by omega)
  | zeroOrMore body ih =>
    simp only [size] at below
    obtain ⟨choice, holds⟩ := holds_cons.mp holds
    obtain ⟨closing, holds⟩ := holds_cons.mp holds
    obtain ⟨out, holds⟩ := holds_cons.mp holds
    have closes := acc_of_back closing rfl
    have leaves : Acc automaton.Onward (base + 2) := acc_of out (by simpa [State.epsilon])
    have inner := ih holds closes (body.le_entry _) (body.entry_lt (Nat.le_refl _))
    by_cases start : id = base
    · subst start
      exact acc_of choice (by simp [State.epsilon, inner, leaves])
    · by_cases round : id = base + 1
      · exact round ▸ closes
      · by_cases last : id = base + 2
        · exact last ▸ leaves
        · exact ih holds closes (by omega) (by omega)

theorem loopbacks_laidOut (pattern : Pattern) : pattern.laidOut.loopbacks = pattern.loopbacks 2 := by
  have split : List.range pattern.laidOut.size = 0 :: 1 :: List.range' 2 pattern.size := by
    rw [size_laidOut, Nat.add_comm, List.range_eq_range', List.range'_succ, List.range'_succ]
  have block := filter_range' pattern.holds_laidOut
  have source : pattern.laidOut.states[0]? = some (.epsilon [pattern.entry 2]) := rfl
  have accept : pattern.laidOut.states[1]? = some (.epsilon []) := rfl
  rw [Automaton.loopbacks, split, List.filter_cons_of_neg (by simp [source, State.epsilon]),
    List.filter_cons_of_neg (by simp [accept, State.epsilon]), block]

theorem wellFounded_laidOut (pattern : Pattern) : WellFounded pattern.laidOut.Onward := by
  have source : pattern.laidOut.states[0]? = some (.epsilon [pattern.entry 2]) := rfl
  have accept : pattern.laidOut.states[1]? = some (.epsilon []) := rfl
  have last : Acc pattern.laidOut.Onward 1 := acc_of accept (by simp [State.epsilon])
  have block {id : Nat} (above : 2 ≤ id) (below : id < 2 + pattern.size) : Acc pattern.laidOut.Onward id :=
    acc_block pattern.holds_laidOut last above below
  constructor
  intro id
  match id with
  | 0 =>
    have enters := block (pattern.le_entry 2) (pattern.entry_lt (Nat.le_refl _))
    exact acc_of source (by simpa [State.epsilon])
  | 1 => exact last
  | id + 2 =>
    by_cases inside : id + 2 < 2 + pattern.size
    · exact block (Nat.le_add_left 2 id) inside
    · refine .intro _ fun _ edge => absurd (lt_of_next edge.1) ?_
      rwa [size_laidOut]

theorem closesLoop_laidOut (back : id ∈ pattern.laidOut.loopbacks) : pattern.laidOut.ClosesLoop id := by
  rw [loopbacks_laidOut] at back
  obtain ⟨after, found, leads⟩ := loopback_block pattern.holds_laidOut back
  have apart := ne_entry_of_mem_loopbacks back
  have whole : pattern.laidOut.states.toList.flatMap State.next = pattern.entry 2 :: pattern.targets 2 1 := rfl
  have once : (pattern.laidOut.states.toList.flatMap State.next).count id = 1 := by
    rw [whole, List.count_cons_of_ne apart.symm, count_loopback back (.inl Nat.one_lt_two)]
  exact ⟨⟨after, found⟩, existsUnique_of_count once, exists_cycle (mem_next_of found List.mem_cons_self) leads⟩

theorem wellFounded_toAutomaton (pattern : Pattern) : WellFounded pattern.toAutomaton.Onward := by
  rw [toAutomaton, ofArena_eq_select]
  exact wellFounded_select (covers_walk pattern.closed_laidOut) pattern.wellFounded_laidOut

theorem length_loopbacks_toAutomaton (pattern : Pattern) : pattern.toAutomaton.loopbacks.length =
    pattern.operators.count .oneOrMore + pattern.operators.count .zeroOrMore := by
  rw [toAutomaton, ofArena_eq_select]
  have same := perm_loopbacks_select (covers_walk pattern.closed_laidOut) fun _ => pattern.trim_laidOut.mem_walk
  calc _ = _ := same.length_eq
    _ = pattern.laidOut.loopbacks.length := List.length_map _
    _ = _ := by rw [loopbacks_laidOut, length_loopbacks]

theorem closesLoop_toAutomaton (back : id ∈ pattern.toAutomaton.loopbacks) : pattern.toAutomaton.ClosesLoop id := by
  rw [toAutomaton, ofArena_eq_select] at back ⊢
  have covers := covers_walk pattern.closed_laidOut
  obtain ⟨old, kept, rfl⟩ := exists_place covers (List.mem_range.mp (List.mem_filter.mp back).1)
  have closes := closesLoop_laidOut ((select_mem_loopbacks covers kept).mp back)
  exact closes.select covers (fun _ => pattern.trim_laidOut.mem_walk) kept

end Pattern

open Automaton Pattern

/-- The back flag marks what closes the loops of a pattern: one state for each `+` and each `*`, which is on
a cycle and has one predecessor and one successor, and no cycle is without such a state. -/
theorem loopbacks_of_parse {table : ClassTable} {pattern : String} {tree : Pattern}
    (accepted : Pattern.parse table pattern.toUTF8.data = .ok tree) :
    ∃ automaton, parse table pattern = .ok automaton ∧
      automaton.loopbacks.length = tree.operators.count .oneOrMore + tree.operators.count .zeroOrMore ∧
      (∀ id ∈ automaton.loopbacks, automaton.ClosesLoop id) ∧
      ∀ cycle, automaton.Cycle cycle → ∃ id ∈ cycle, id ∈ automaton.loopbacks := by
  have parsed : parse table pattern = .ok tree.toAutomaton := by
    rw [parse, accepted]
    rfl
  refine ⟨tree.toAutomaton, parsed, tree.length_loopbacks_toAutomaton, fun _ => closesLoop_toAutomaton, ?_⟩
  exact fun _ => exists_loopback_of_cycle tree.wellFounded_toAutomaton

theorem loopbacks_of_parse_loops : Pattern.parse .standard "(a?)+|\\d*".toUTF8.data = .ok loops ∧
    ∃ automaton, parse .standard "(a?)+|\\d*" = .ok automaton ∧ automaton.loopbacks.length = 1 + 1 ∧
      (∀ id ∈ automaton.loopbacks, automaton.ClosesLoop id) ∧
      ∀ cycle, automaton.Cycle cycle → ∃ id ∈ cycle, id ∈ automaton.loopbacks := by
  have accepted : Pattern.parse .standard "(a?)+|\\d*".toUTF8.data = .ok loops := by decide +kernel
  exact ⟨accepted, loopbacks_of_parse accepted⟩

end ByteRegex
