import ByteRegex.Proofs.EpsilonFree

/-! Automata without superfluous states. In the automaton of a pattern every state lies on a way from the
source to the accepting state, and their number follows from what the pattern is made of. The optimizer
leaves one state for every character match, with its class, and the accepting state. -/

namespace ByteRegex

namespace Automaton

/-- Every state lies on a way from a source to the accepting state. -/
structure Trim (automaton : Automaton) : Prop where
  reached : ∀ id < automaton.size,
    ∃ source ∈ automaton.sources, (transitions automaton.states).Leads source id
  finishing : ∀ id < automaton.size, (transitions automaton.states).Leads id automaton.accept

def classes (automaton : Automaton) : List CharClass := automaton.states.toList.filterMap State.condition

variable {automaton optimized : Automaton} {order : KeySet} {id after final : StateId}

theorem leads_of {state : State} (found : automaton.states[id]? = some state) (edge : after ∈ state.next) :
    (transitions automaton.states).Leads id after :=
  .single (mem_next_of found edge)

theorem perm_order (covers : automaton.Covers order) (whole : ∀ id < automaton.size, id ∈ order.toList) :
    order.toList.Perm (List.range automaton.size) := by
  refine (List.perm_ext_iff_of_nodup order.nodup_toList List.nodup_range).mpr fun id => ?_
  rw [List.mem_range]
  exact ⟨covers.lt id, whole id⟩

theorem filterMap_states {β : Type} (automaton : Automaton) (f : State → Option β) :
    automaton.states.toList.filterMap f =
      (List.range automaton.size).filterMap fun id => automaton.states[id]?.bind f := by
  have listed : (List.range automaton.size).map (fun id => automaton.states[id]?) =
      automaton.states.toList.map some := by
    apply List.ext_getElem?
    intro index
    rw [List.getElem?_map, List.getElem?_map]
    by_cases inside : index < automaton.size
    · rw [List.getElem?_range inside, Array.getElem?_toList, Option.map_some, Array.getElem?_eq_getElem inside]
      rfl
    · have outside := Nat.le_of_not_lt inside
      rw [List.getElem?_eq_none (by simpa using outside), Array.getElem?_toList, Array.getElem?_eq_none outside]
      rfl
  calc automaton.states.toList.filterMap f
    _ = (automaton.states.toList.map some).filterMap fun found => found.bind f := by
      rw [List.filterMap_map]
      rfl
    _ = _ := by
      rw [← listed, List.filterMap_map]
      rfl

theorem filterMap_select {β : Type} {f : State → Option β}
    (blind : ∀ state next, f { state with next } = f state) :
    (automaton.select order).states.toList.filterMap f =
      order.toList.filterMap fun id => automaton.states[id]?.bind f := by
  rw [select, Array.toList_filterMap, List.filterMap_filterMap]
  refine List.filterMap_congr fun id _ => ?_
  cases automaton.states[id]? with
  | none => rfl
  | some state => exact blind state _

theorem perm_select {β : Type} {f : State → Option β} (covers : automaton.Covers order)
    (whole : ∀ id < automaton.size, id ∈ order.toList)
    (blind : ∀ state next, f { state with next } = f state) :
    ((automaton.select order).states.toList.filterMap f).Perm (automaton.states.toList.filterMap f) := by
  rw [filterMap_select blind, filterMap_states]
  exact (perm_order covers whole).filterMap _

namespace Trim

theorem mem_walk (trim : automaton.Trim) (inside : id < automaton.size) :
    id ∈ (((transitions automaton.states).explore (.withCapacity automaton.states.size) automaton.sources).insert
      automaton.accept).toList := by
  rw [KeySet.mem_toList_insert, (transitions automaton.states).mem_explore rfl]
  exact .inl (trim.reached id inside)

theorem select (trim : automaton.Trim) (covers : automaton.Covers order) : (automaton.select order).Trim := by
  constructor
  · intro id inside
    obtain ⟨old, kept, rfl⟩ := exists_place covers inside
    obtain ⟨source, listed, leads⟩ := trim.reached old (covers.lt old kept)
    exact ⟨order.place source, mem_select_sources.mpr ⟨source, listed, rfl⟩,
      (leads_select covers (covers.source source listed) leads).1⟩
  · intro id inside
    obtain ⟨old, kept, rfl⟩ := exists_place covers inside
    exact (leads_select covers kept (trim.finishing old (covers.lt old kept))).1

end Trim

/-- A chain of transitions can take the shortcuts to an ending. -/
theorem leads_shortcuts (ending : automaton.isEnding final)
    (leads : (transitions automaton.states).Leads id final) : automaton.shortcutGraph.Leads id final := by
  induction leads using Relation.ReflTransGen.head_induction_on with
  | refl => exact .refl
  | @head id after edge _ ih =>
    by_cases stops : automaton.isEnding after
    · exact Graph.Leads.step (mem_shortcutGraph_next.mpr ⟨stops, after, edge, .refl⟩) ih
    · have epsilon : automaton.isEpsilon after := by
        by_contra consuming
        exact stops (by simp [isEnding, consuming])
      rcases Relation.ReflTransGen.cases_head ih with rfl | ⟨stop, shortcut, leads⟩
      · exact absurd ending stops
      · obtain ⟨stopEnding, next, follows, onward⟩ := mem_shortcutGraph_next.mp shortcut
        have chain := onward.step (mem_epsilonGraph_next.mpr ⟨epsilon, follows⟩)
        exact Graph.Leads.step (mem_shortcutGraph_next.mpr ⟨stopEnding, after, edge, chain⟩) leads

/-- The optimizer leaves no superfluous states where there were none. -/
theorem Trim.optimize (trim : automaton.Trim) (closed : automaton.Closed)
    (succeeds : automaton.optimize = .ok optimized) : optimized.Trim := by
  obtain ⟨_, rfl⟩ := eq_of_optimize succeeds
  have covers := covers_kept closed
  constructor
  · intro id inside
    obtain ⟨old, kept, rfl⟩ := exists_place covers inside
    obtain ⟨_, met, remaining⟩ := mem_kept.mp (KeySet.mem_ofList.mp kept)
    -- The accepting state is kept in any case, but in a trim automaton it is also met.
    have met : ∃ source ∈ automaton.sources, automaton.shortcutGraph.Leads source old := by
      rcases met with met | rfl
      · exact met
      · obtain ⟨source, listed, leads⟩ := trim.reached _ closed.accept_lt
        exact ⟨source, listed, leads_shortcuts (isEnding_accept closed) leads⟩
    obtain ⟨source, listed, leads⟩ := met
    obtain ⟨start, begins, leads⟩ := exists_shortened_source listed leads remaining
    exact ⟨_, mem_select_sources.mpr ⟨start, begins, rfl⟩,
      (leads_select covers (covers.source start begins) leads).1⟩
  · intro id inside
    obtain ⟨old, kept, rfl⟩ := exists_place covers inside
    have below := (mem_kept.mp (KeySet.mem_ofList.mp kept)).1
    have leads := leads_shortcuts (isEnding_accept closed) (trim.finishing old below)
    exact (leads_select covers kept (leads.mono fun _ _ edge => mem_shortened_next.mpr edge)).1

theorem Trim.mem_kept (trim : automaton.Trim) (consuming : automaton.isConsuming id) : id ∈ automaton.kept := by
  obtain ⟨inside, consumes⟩ := isConsuming_iff.mp consuming
  have ending : automaton.isEnding id := by simp [isEnding, consumes]
  obtain ⟨source, listed, leads⟩ := trim.reached id inside
  exact Automaton.mem_kept.mpr ⟨inside, .inl ⟨source, listed, leads_shortcuts ending leads⟩,
    not_isReplaced_of_isEnding ending⟩

theorem isSome_condition (automaton : Automaton) (id : StateId) :
    (automaton.states[id]?.bind State.condition).isSome = automaton.isConsuming id := by
  rw [isConsuming]
  cases automaton.states[id]? with
  | none => rfl
  | some state =>
    obtain ⟨kind, back, next⟩ := state
    cases kind <;> rfl

theorem Trim.classes_optimize (trim : automaton.Trim) (succeeds : automaton.optimize = .ok optimized) :
    optimized.classes = automaton.classes := by
  obtain ⟨_, rfl⟩ := eq_of_optimize succeeds
  have order : (KeySet.ofList automaton.kept).toList = automaton.kept := KeySet.toList_ofList automaton.nodup_kept
  rw [classes, filterMap_select (fun _ _ => rfl), order, classes, filterMap_states, kept, List.filterMap_filter]
  refine List.filterMap_congr fun id listed => ?_
  rw [shortened_states, Option.bind_map]
  split
  next => rfl
  next left =>
    -- What is left out has no class.
    have absent : id ∉ automaton.kept := fun inside => left (List.mem_filter.mp inside).2
    have classless := mt trim.mem_kept absent
    rw [← isSome_condition, Option.not_isSome_iff_eq_none] at classless
    exact classless.symm

theorem size_of_isEpsilonFree (closed : automaton.Closed) (free : automaton.isEpsilonFree) :
    automaton.size = automaton.classes.length + 1 := by
  have consuming : automaton.classes.length =
      (List.range automaton.size).countP fun id => ¬ id == automaton.accept := by
    rw [classes, filterMap_states, List.length_filterMap_eq_countP]
    refine List.countP_congr fun id listed => ?_
    have accepts : automaton.isEpsilon id ↔ id = automaton.accept :=
      ⟨isEpsilonFree_iff.mp free id, fun same => same ▸ closed.accept_epsilon⟩
    rw [isSome_condition, isConsuming_iff, accepts]
    simpa using fun _ => List.mem_range.mp listed
  have accepting : (List.range automaton.size).countP (fun id => id == automaton.accept) = 1 :=
    List.count_eq_one_of_mem List.nodup_range (List.mem_range.mpr closed.accept_lt)
  calc automaton.size = (List.range automaton.size).length := List.length_range.symm
    _ = _ := List.length_eq_countP_add_countP (fun id => id == automaton.accept)
    _ = 1 + automaton.classes.length := by rw [accepting, consuming]
    _ = automaton.classes.length + 1 := Nat.add_comm 1 _

end Automaton

namespace Pattern

open Automaton

inductive Operator
  | optional
  | oneOrMore
  | zeroOrMore
  | either
  deriving DecidableEq

def classes : Pattern → List CharClass
  | bytes set => [set]
  | concat first second | either first second => first.classes ++ second.classes
  | optional body | oneOrMore body | zeroOrMore body => body.classes

def operators : Pattern → List Operator
  | bytes _ => []
  | concat first second => first.operators ++ second.operators
  | either first second => .either :: (first.operators ++ second.operators)
  | optional body => .optional :: body.operators
  | oneOrMore body => .oneOrMore :: body.operators
  | zeroOrMore body => .zeroOrMore :: body.operators

variable {automaton : Automaton} {pattern : Pattern} {base follow id : Nat}

theorem size_eq (pattern : Pattern) : pattern.size = pattern.classes.length +
    2 * pattern.operators.count .optional + 2 * pattern.operators.count .oneOrMore +
    3 * pattern.operators.count .zeroOrMore + 2 * pattern.operators.count .either := by
  induction pattern with
  | bytes set => rfl
  | concat first second ihFirst ihSecond =>
    simp only [size, classes, operators, List.length_append, List.count_append]
    omega
  | either first second ihFirst ihSecond =>
    simp only [size, classes, operators, List.length_append, List.count_append, List.count_cons]
    simp
    omega
  | optional body ih | oneOrMore body ih | zeroOrMore body ih =>
    simp only [size, classes, operators, List.count_cons]
    simp
    omega

theorem classes_block (pattern : Pattern) (base : Nat) (follow : StateId) :
    (pattern.block base follow).filterMap State.condition = pattern.classes := by
  induction pattern generalizing base follow with
  | bytes set => rfl
  | concat first second ihFirst ihSecond => rw [block, List.filterMap_append, ihFirst, ihSecond, classes]
  | either first second ihFirst ihSecond =>
    have parts : (first.block (base + 2) (base + 1) ++
        second.block (base + 2 + first.size) (base + 1)).filterMap State.condition =
        first.classes ++ second.classes := by rw [List.filterMap_append, ihFirst, ihSecond]
    exact parts
  | optional body ih | oneOrMore body ih | zeroOrMore body ih => exact ih _ _

/-- A block is entered at one state, which leads to all others, and all of them lead out of it. -/
theorem leads_block (holds : automaton.Holds base (pattern.block base follow)) (above : base ≤ id)
    (below : id < base + pattern.size) :
    (transitions automaton.states).Leads (pattern.entry base) id ∧
      (transitions automaton.states).Leads id follow := by
  induction pattern generalizing base follow id with
  | bytes set =>
    obtain ⟨found, _⟩ := holds_cons.mp holds
    obtain rfl : id = base := by
      simp only [size] at below
      omega
    exact ⟨.refl, leads_of found List.mem_cons_self⟩
  | concat first second ihFirst ihSecond =>
    simp only [size] at below
    obtain ⟨front, rear⟩ := holds_append.mp holds
    rw [length_block] at rear
    by_cases early : id < base + first.size
    · obtain ⟨enters, passes⟩ := ihFirst front above early
      exact ⟨enters, passes.trans (ihSecond rear (second.le_entry _) (second.entry_lt (Nat.le_refl _))).2⟩
    · obtain ⟨enters, passes⟩ := ihSecond rear (by omega) (by omega : id < base + first.size + second.size)
      exact ⟨(ihFirst front (first.le_entry _) (first.entry_lt (Nat.le_refl _))).2.trans enters, passes⟩
  | either first second ihFirst ihSecond =>
    simp only [size] at below
    obtain ⟨fork, holds⟩ := holds_cons.mp holds
    obtain ⟨join, holds⟩ := holds_cons.mp holds
    obtain ⟨upper, lower⟩ := holds_append.mp holds
    rw [length_block] at lower
    have left := leads_of fork List.mem_cons_self
    have right := leads_of fork (List.mem_pair.mpr (.inr rfl))
    -- From the fork to the join, one of the two ways is enough.
    have joins := left.trans (ihFirst upper (first.le_entry _) (first.entry_lt (Nat.le_refl _))).2
    have leaves := leads_of join List.mem_cons_self
    by_cases start : id = base
    · subst start
      exact ⟨.refl, joins.trans leaves⟩
    · by_cases last : id = base + 1
      · subst last
        exact ⟨joins, leaves⟩
      · by_cases early : id < base + 2 + first.size
        · obtain ⟨enters, passes⟩ := ihFirst upper (by omega) early
          exact ⟨left.trans enters, passes.trans leaves⟩
        · obtain ⟨enters, passes⟩ := ihSecond lower (by omega) (by omega : id < base + 2 + first.size + second.size)
          exact ⟨right.trans enters, passes.trans leaves⟩
  | optional body ih =>
    simp only [size] at below
    obtain ⟨fork, holds⟩ := holds_cons.mp holds
    obtain ⟨join, holds⟩ := holds_cons.mp holds
    have skips := leads_of fork (List.mem_pair.mpr (.inr rfl))
    have leaves := leads_of join List.mem_cons_self
    by_cases start : id = base
    · subst start
      exact ⟨.refl, skips.trans leaves⟩
    · by_cases last : id = base + 1
      · subst last
        exact ⟨skips, leaves⟩
      · obtain ⟨enters, passes⟩ := ih holds (by omega) (by omega : id < base + 2 + body.size)
        exact ⟨(leads_of fork List.mem_cons_self).trans enters, passes.trans leaves⟩
  | oneOrMore body ih =>
    simp only [size] at below
    obtain ⟨choice, holds⟩ := holds_cons.mp holds
    obtain ⟨back, holds⟩ := holds_cons.mp holds
    have through := (ih holds (body.le_entry _) (body.entry_lt (Nat.le_refl _))).2
    have repeats := leads_of choice List.mem_cons_self
    have leaves := leads_of choice (List.mem_pair.mpr (.inr rfl))
    by_cases start : id = base
    · subst start
      exact ⟨through, leaves⟩
    · by_cases round : id = base + 1
      · subst round
        -- The state that closes the loop is met at the end of a round, and leads through the body once more.
        exact ⟨through.trans repeats, (leads_of back List.mem_cons_self).trans (through.trans leaves)⟩
      · obtain ⟨enters, passes⟩ := ih holds (by omega) (by omega : id < base + 2 + body.size)
        exact ⟨enters, passes.trans leaves⟩
  | zeroOrMore body ih =>
    simp only [size] at below
    obtain ⟨choice, holds⟩ := holds_cons.mp holds
    obtain ⟨back, holds⟩ := holds_cons.mp holds
    obtain ⟨out, holds⟩ := holds_cons.mp holds
    have begins := leads_of choice List.mem_cons_self
    have through := (ih holds (body.le_entry _) (body.entry_lt (Nat.le_refl _))).2
    have exits := leads_of choice (List.mem_pair.mpr (.inr rfl))
    have leaves := exits.trans (leads_of out List.mem_cons_self)
    have returns := (leads_of back List.mem_cons_self).trans leaves
    by_cases start : id = base
    · subst start
      exact ⟨.refl, leaves⟩
    · by_cases round : id = base + 1
      · subst round
        exact ⟨begins.trans through, returns⟩
      · by_cases last : id = base + 2
        · subst last
          exact ⟨exits, leads_of out List.mem_cons_self⟩
        · obtain ⟨enters, passes⟩ := ih holds (by omega) (by omega : id < base + 3 + body.size)
          exact ⟨begins.trans enters, passes.trans returns⟩

theorem trim_laidOut (pattern : Pattern) : pattern.laidOut.Trim := by
  have source : pattern.laidOut.states[0]? = some (.epsilon [pattern.entry 2]) := rfl
  have enters := leads_of source List.mem_cons_self
  have block {id : Nat} (above : 2 ≤ id) (below : id < 2 + pattern.size) :=
    leads_block pattern.holds_laidOut above below
  have passes := (block (pattern.le_entry 2) (pattern.entry_lt (Nat.le_refl _))).2
  have each (id : Nat) (inside : id < pattern.laidOut.size) :
      (transitions pattern.laidOut.states).Leads 0 id ∧ (transitions pattern.laidOut.states).Leads id 1 := by
    rw [size_laidOut] at inside
    match id with
    | 0 => exact ⟨.refl, enters.trans passes⟩
    | 1 => exact ⟨enters.trans passes, .refl⟩
    | id + 2 =>
      obtain ⟨reached, leaves⟩ := block (Nat.le_add_left 2 id) inside
      exact ⟨enters.trans reached, leaves⟩
  exact ⟨fun id inside => ⟨0, List.mem_cons_self, (each id inside).1⟩, fun id inside => (each id inside).2⟩

theorem trim_toAutomaton (pattern : Pattern) : pattern.toAutomaton.Trim := by
  rw [toAutomaton, ofArena_eq_select]
  exact pattern.trim_laidOut.select (covers_walk pattern.closed_laidOut)

theorem perm_toAutomaton {β : Type} {f : State → Option β} (pattern : Pattern)
    (blind : ∀ state next, f { state with next } = f state) :
    (pattern.toAutomaton.states.toList.filterMap f).Perm (pattern.laidOut.states.toList.filterMap f) := by
  rw [toAutomaton, ofArena_eq_select]
  exact perm_select (covers_walk pattern.closed_laidOut) (fun _ => pattern.trim_laidOut.mem_walk) blind

theorem classes_toAutomaton (pattern : Pattern) : pattern.toAutomaton.classes.Perm pattern.classes := by
  have laid : pattern.laidOut.classes = pattern.classes := pattern.classes_block 2 1
  rw [← laid]
  exact pattern.perm_toAutomaton fun _ _ => rfl

theorem size_toAutomaton (pattern : Pattern) : pattern.toAutomaton.size = pattern.size + 2 := by
  have covers := covers_walk pattern.closed_laidOut
  have whole := perm_order covers fun _ => pattern.trim_laidOut.mem_walk
  rw [toAutomaton, ofArena_eq_select]
  calc _ = _ := size_select covers
    _ = _ := whole.length_eq
    _ = pattern.laidOut.size := List.length_range
    _ = pattern.size + 2 := pattern.size_laidOut.trans (Nat.add_comm 2 _)

end Pattern

open Automaton Pattern

/-- The numbers of states before and after the optimizer, by what occurs in the syntax tree of a pattern.
Neither automaton has a superfluous state, and after the optimizer the accepting state is the only one that
does not stand for a character match. -/
theorem size_of_parse {table : ClassTable} {pattern : String} {tree : Pattern}
    (accepted : Pattern.parse table pattern.toUTF8.data = .ok tree) :
    ∃ automaton optimized, parse table pattern = .ok automaton ∧ automaton.optimize = .ok optimized ∧
      automaton.size = tree.classes.length + 2 * tree.operators.count .optional +
        2 * tree.operators.count .oneOrMore + 3 * tree.operators.count .zeroOrMore +
        2 * tree.operators.count .either + 2 ∧
      optimized.size = tree.classes.length + 1 ∧ optimized.classes.Perm tree.classes ∧
      optimized.isEpsilonFree ∧ automaton.Trim ∧ optimized.Trim := by
  have closed := tree.closed_toAutomaton
  have distinct := tree.nodup_toAutomaton_sources
  have trim := tree.trim_toAutomaton
  obtain ⟨optimized, succeeds, tidy, _⟩ := optimize_spec closed distinct
  have free := isEpsilonFree_of_escaping closed tree.escaping_toAutomaton succeeds
  have classes : optimized.classes.Perm tree.classes :=
    trim.classes_optimize succeeds ▸ tree.classes_toAutomaton
  refine ⟨tree.toAutomaton, optimized, ?_, succeeds, ?_, ?_, classes, free, trim, ?_⟩
  · rw [parse, accepted]
    rfl
  · rw [tree.size_toAutomaton, tree.size_eq]
  · rw [size_of_isEpsilonFree tidy free, classes.length_eq]
  · exact trim.optimize closed succeeds

theorem size_of_parse_loops : Pattern.parse .standard "(a?)+|\\d*".toUTF8.data = .ok loops ∧
    ∃ automaton optimized, parse .standard "(a?)+|\\d*" = .ok automaton ∧ automaton.optimize = .ok optimized ∧
      automaton.size = 2 + 2 * 1 + 2 * 1 + 3 * 1 + 2 * 1 + 2 ∧ optimized.size = 2 + 1 ∧
      optimized.classes.Perm [.single 0x61, ClassTable.digits] ∧ optimized.isEpsilonFree ∧ automaton.Trim ∧
      optimized.Trim := by
  have accepted : Pattern.parse .standard "(a?)+|\\d*".toUTF8.data = .ok loops := by decide +kernel
  exact ⟨accepted, size_of_parse accepted⟩

end ByteRegex
