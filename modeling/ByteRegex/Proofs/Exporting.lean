import ByteRegex.Proofs.Flattening
import ByteRegex.Proofs.Invariants
import ByteRegex.Proofs.Serialization

/-! Compiled automata in flat form. They are read back as they were unless a class has a range with
reversed bounds; no pattern spells such a range out, so it can only come from the table of named classes,
and the subset construction leaves none. -/

namespace ByteRegex

def CharClass.Ordered (set : CharClass) : Prop := ∀ range ∈ set.ranges, range.first ≤ range.last

def ClassTable.Ordered (table : ClassTable) : Prop := ∀ name set, table.get? name = some set → set.Ordered

def Pattern.Ordered : Pattern → Prop
  | bytes set => set.Ordered
  | concat first second | either first second => first.Ordered ∧ second.Ordered
  | optional body | oneOrMore body | zeroOrMore body => body.Ordered

def State.Ordered (state : State) : Prop := ∀ set ∈ state.condition, set.Ordered

abbrev Automaton.Ordered (automaton : Automaton) : Prop := automaton.EachClass CharClass.Ordered

instance (set : CharClass) : Decidable set.Ordered := inferInstanceAs (Decidable (∀ _ ∈ _, _))

instance (state : State) : Decidable state.Ordered := inferInstanceAs (Decidable (∀ _ ∈ _, _))

/-- The first state whose class has a range with reversed bounds. -/
def Automaton.reversed? (automaton : Automaton) : Option StateId :=
  automaton.states.toList.findIdx? fun state => !decide state.Ordered

variable {automaton : Automaton} {table : ClassTable} {set : CharClass} {word : List UInt8}

namespace CharClass

theorem Ordered.single (byte : UInt8) : (CharClass.single byte).Ordered :=
  List.forall_mem_singleton.mpr (UInt8.le_refl byte)

theorem Ordered.runs (bytes : List UInt8) : Ordered { ranges := ByteRange.runs bytes } :=
  ByteRange.le_runs bytes

end CharClass

namespace State

theorem ordered_iff {state : State} :
    state.Ordered ↔ ∀ range ∈ state.ranges, range.first ≤ range.last := by
  rw [Ordered, ranges]
  cases state.condition with
  | none => simp
  | some set => simp [CharClass.Ordered]

theorem ordered_epsilon (next : List StateId) : (epsilon next).Ordered :=
  ordered_iff.mpr (List.forall_mem_nil _)

theorem ordered_loopback (next : List StateId) : (loopback next).Ordered :=
  ordered_iff.mpr (List.forall_mem_nil _)

end State

namespace Pattern

theorem Intervals.ordered {ranges : List ByteRange} (intervals : Intervals word ranges) :
    ∀ range ∈ ranges, range.first ≤ range.last := by
  induction intervals with
  | one interval => exact List.forall_mem_singleton.mpr interval.2
  | more _ interval ih => exact List.forall_mem_append.mpr ⟨ih, List.forall_mem_singleton.mpr interval.2⟩

/-- Ranges that are spelled out are checked, so a class without order has a name. -/
theorem ByteMatch.ordered (ordered : table.Ordered) (byteMatch : ByteMatch table word set) : set.Ordered := by
  cases byteMatch with
  | bracket intervals | inverted intervals => exact intervals.ordered
  | any => exact List.forall_mem_nil _
  | named found => exact ordered _ _ found
  | escape | plain => exact .single _

theorem Derives.ordered {level : Level} {tree : Pattern} (ordered : table.Ordered)
    (derives : Derives table level word tree) : tree.Ordered := by
  induction derives with
  | bytes byteMatch => exact byteMatch.ordered ordered
  | group _ ih | bare _ ih | optional _ ih | oneOrMore _ ih | zeroOrMore _ ih | alone _ ih | only _ ih => exact ih
  | concat _ _ ihFirst ihSecond | either _ _ ihFirst ihSecond => exact ⟨ihFirst, ihSecond⟩

theorem ordered_block {pattern : Pattern} {base follow : Nat} (ordered : pattern.Ordered) :
    ∀ state ∈ pattern.block base follow, state.Ordered := by
  have fork := State.ordered_epsilon
  have loop := State.ordered_loopback
  induction pattern generalizing base follow with
  | bytes set =>
    refine List.forall_mem_singleton.mpr ?_
    rintro _ ⟨⟩
    exact ordered
  | concat first second ihFirst ihSecond =>
    exact List.forall_mem_append.mpr ⟨ihFirst ordered.1, ihSecond ordered.2⟩
  | either first second ihFirst ihSecond =>
    simp only [block, List.forall_mem_cons, List.forall_mem_append]
    exact ⟨fork _, fork _, ihFirst ordered.1, ihSecond ordered.2⟩
  | optional body ih =>
    simp only [block, List.forall_mem_cons]
    exact ⟨fork _, fork _, ih ordered⟩
  | oneOrMore body ih =>
    simp only [block, List.forall_mem_cons]
    exact ⟨fork _, loop _, ih ordered⟩
  | zeroOrMore body ih =>
    simp only [block, List.forall_mem_cons]
    exact ⟨fork _, loop _, fork _, ih ordered⟩

end Pattern

namespace Automaton

theorem ordered_iff : automaton.Ordered ↔ automaton.reversed? = none := by
  simp only [reversed?, List.findIdx?_eq_none_iff, Array.mem_toList_iff, Bool.not_eq_false', decide_eq_true_eq]
  rfl

theorem Ordered.shortened (ordered : automaton.Ordered) : automaton.shortened.Ordered := by
  intro state member
  obtain ⟨id, inside, rfl⟩ := Array.mem_mapIdx.mp member
  exact ordered automaton.states[id] (Array.getElem_mem inside)

theorem Ordered.optimize {optimized : Automaton} (ordered : automaton.Ordered)
    (succeeds : automaton.optimize = .ok optimized) : optimized.Ordered := by
  obtain ⟨_, rfl⟩ := eq_of_optimize succeeds
  exact ordered.shortened.select

end Automaton

theorem Pattern.Ordered.toAutomaton {pattern : Pattern} (ordered : pattern.Ordered) :
    pattern.toAutomaton.Ordered := by
  rw [Pattern.toAutomaton, Automaton.ofArena_eq_select]
  apply Automaton.EachClass.select
  simp only [Automaton.EachClass, ← Array.mem_toList_iff, List.forall_mem_cons]
  exact ⟨State.ordered_epsilon _, State.ordered_epsilon _, ordered_block ordered⟩

namespace Row

theorem ordered_ofSteps {compact accepting : Bool} {steps : List (UInt8 × Nat)} :
    ∀ edge ∈ (ofSteps compact accepting steps).edges, edge.1.Ordered := by
  cases compact with
  | false => exact List.forall_mem_map.mpr fun _ _ => .single _
  | true =>
    refine List.forall_mem_map.mpr fun (_, _) member => ?_
    obtain ⟨_, rfl⟩ := mem_groupByTarget.mp member
    exact .runs _

end Row

namespace Automaton

theorem ordered_determinize {alphabet : Alphabet} {compact : Bool} {result : Determinization}
    (succeeds : automaton.determinize alphabet compact = .ok result) : result.automaton.Ordered := by
  obtain ⟨prepared, _, rfl⟩ := determinize_eq_ok_iff.mp succeeds
  rw [determinizeArrows_automaton]
  apply Row.eachClass_toAutomaton
  rw [determinizeArrows_rows]
  exact List.forall_mem_map.mpr fun _ _ => Row.ordered_ofSteps

end Automaton

def Settings.stages (settings : Settings) : List Stage :=
  (if settings.optimize || settings.alphabet.isSome then [.optimize] else []) ++
    (settings.alphabet.map (.determinize · settings.compactClasses)).toList

variable {settings : Settings} {pattern : String} {compilation : Compilation}

theorem compile_of_parse {tree : Pattern}
    (accepted : Pattern.parse settings.classes pattern.toUTF8.data = .ok tree) :
    ∃ compilation, compile settings pattern = .ok compilation ∧
      Stage.applyAll tree.toAutomaton settings.stages = .ok compilation.automaton := by
  have parsed : parse settings.classes pattern = .ok tree.toAutomaton := by
    rw [parse, accepted]
    rfl
  obtain ⟨optimized, reduces, proper⟩ := tree.proper_toAutomaton.optimize
  cases chosen : settings.alphabet with
  | none =>
    cases asked : settings.optimize with
    | false =>
      refine ⟨⟨pattern, tree.toAutomaton, none, none⟩, ?_, ?_⟩
      · rw [compile, parsed, chosen, asked]
        rfl
      · rw [Settings.stages, chosen, asked]
        rfl
    | true =>
      refine ⟨⟨pattern, tree.toAutomaton, some optimized, none⟩, ?_, ?_⟩
      · simp [compile, parsed, chosen, asked, reduces, Except.mapError, bind, Except.bind, pure, Except.pure,
          Functor.map, Except.map]
      · simp [Settings.stages, chosen, asked, Stage.applyAll, Stage.apply, reduces, Compilation.automaton,
          bind, Except.bind, pure, Except.pure]
  | some alphabet =>
    obtain ⟨result, succeeds, _⟩ := proper.determinize alphabet settings.compactClasses
    refine ⟨⟨pattern, tree.toAutomaton, some optimized, some result⟩, ?_, ?_⟩
    · simp [compile, parsed, chosen, reduces, succeeds, Except.mapError, bind, Except.bind, pure, Except.pure,
        Functor.map, Except.map]
    · simp [Settings.stages, chosen, Stage.applyAll, Stage.apply, reduces, succeeds, Compilation.automaton,
        bind, Except.bind, pure, Except.pure]

theorem exists_of_compile (compiles : compile settings pattern = .ok compilation) :
    ∃ tree, Pattern.parse settings.classes pattern.toUTF8.data = .ok tree ∧
      Stage.applyAll tree.toAutomaton settings.stages = .ok compilation.automaton := by
  cases accepted : Pattern.parse settings.classes pattern.toUTF8.data with
  | error error =>
    rw [compile, parse, accepted] at compiles
    cases compiles
  | ok tree =>
    obtain ⟨_, succeeds, finishes⟩ := compile_of_parse accepted
    rw [compiles] at succeeds
    cases succeeds
    exact ⟨tree, rfl, finishes⟩

namespace Stage

variable {stage : Stage} {stages : List Stage} {result : Automaton}

theorem applyAll_cons_eq_ok (finishes : applyAll automaton (stage :: stages) = .ok result) :
    ∃ next, stage.apply automaton = .ok next ∧ applyAll next stages = .ok result := by
  rw [applyAll, List.foldlM_cons] at finishes
  cases applied : stage.apply automaton with
  | error fault =>
    rw [applied] at finishes
    cases finishes
  | ok next =>
    rw [applied] at finishes
    exact ⟨next, rfl, finishes⟩

theorem ordered_determinized {alphabet : Alphabet} {compact : Bool}
    (succeeds : apply automaton (determinize alphabet compact) = .ok result) : result.Ordered := by
  rw [apply] at succeeds
  cases determinizes : automaton.determinize alphabet compact with
  | error fault =>
    rw [determinizes] at succeeds
    cases succeeds
  | ok determinization =>
    rw [determinizes] at succeeds
    cases succeeds
    exact Automaton.ordered_determinize determinizes

theorem ordered_apply (ordered : automaton.Ordered) (succeeds : stage.apply automaton = .ok result) :
    result.Ordered := by
  cases stage with
  | optimize => exact ordered.optimize succeeds
  | determinize => exact ordered_determinized succeeds

theorem ordered_applyAll (ordered : automaton.Ordered) (finishes : applyAll automaton stages = .ok result) :
    result.Ordered := by
  induction stages generalizing automaton with
  | nil =>
    cases finishes
    exact ordered
  | cons stage stages ih =>
    obtain ⟨next, succeeds, finishes⟩ := applyAll_cons_eq_ok finishes
    exact ih (ordered_apply ordered succeeds) finishes

end Stage

/-- Only the table of named classes brings ranges with reversed bounds into an automaton, and the subset
construction takes them out. -/
theorem ordered_of_compile (compiles : compile settings pattern = .ok compilation)
    (possible : settings.classes.Ordered ∨ settings.alphabet.isSome) : compilation.automaton.Ordered := by
  obtain ⟨tree, accepted, finishes⟩ := exists_of_compile compiles
  cases chosen : settings.alphabet with
  | none =>
    have table : settings.classes.Ordered := by simpa [chosen] using possible
    have ordered := (Pattern.derives_of_parse accepted).ordered table
    exact Stage.ordered_applyAll ordered.toAutomaton finishes
  | some alphabet =>
    have stages : settings.stages = [.optimize, .determinize alphabet settings.compactClasses] := by
      simp [Settings.stages, chosen]
    rw [stages] at finishes
    obtain ⟨_, _, finishes⟩ := Stage.applyAll_cons_eq_ok finishes
    obtain ⟨_, succeeds, finishes⟩ := Stage.applyAll_cons_eq_ok finishes
    cases finishes
    exact Stage.ordered_determinized succeeds

namespace FlatAutomaton

variable {index : Nat} {state : State}

theorem lengthsFit_ofAutomaton (proper : automaton.Proper) (room : automaton.Addressable) :
    (ofAutomaton automaton).LengthsFit := by
  have wide {length : Nat} (narrow : length < UInt32.size) : length < UInt64.size :=
    Nat.lt_trans narrow (by decide)
  refine ⟨?_, ?_, ?_, ?_⟩
  · rw [size_ofAutomaton]
    exact wide room.size_lt
  · rw [ofAutomaton, ← Array.length_toList, Array.toList_flatMap, ← List.map_flatMap, List.length_map]
    exact wide room.transitions_lt
  · rw [ofAutomaton, ← Array.length_toList, Array.toList_flatMap]
    exact wide room.ranges_lt
  · have listed : automaton.sources ⊆ List.range automaton.size := fun id source =>
      List.mem_range.mpr (proper.source_lt id source)
    have few := proper.distinct.length_le_of_subset listed
    rw [List.length_range] at few
    rw [ofAutomaton, List.length_map]
    exact wide (Nat.lt_of_le_of_lt few room.size_lt)

/-- Of all the checks, a flattened state can only fail the one on its ranges. -/
theorem stateDefect?_placed (valid : automaton.Valid) (room : automaton.Addressable)
    (found : automaton.states[index]? = some state) :
    (ofAutomaton automaton).stateDefect? index (placed automaton index state) =
      if state.Ordered then none else some (.reversedRange index) := by
  obtain ⟨next_le, _⟩ := nextOf_placed room found
  obtain ⟨ranges_le, ranges⟩ := rangesOf_placed room found
  rw [stateDefect?, if_neg (Nat.not_lt.mpr next_le), if_neg (Nat.not_lt.mpr ranges_le),
    find?_isMissing_iff.mpr (next_lt_placed valid room found), ranges]
  by_cases ordered : state.Ordered
  · rw [if_pos ordered, if_neg]
    simpa using State.ordered_iff.mp ordered
  · rw [if_neg ordered, if_pos]
    simpa using ordered ∘ State.ordered_iff.mpr

private theorem findSome?_congr {α β : Type} {items : List α} {f g : α → Option β}
    (same : ∀ item ∈ items, f item = g item) : items.findSome? f = items.findSome? g := by
  have mapped := congrArg (List.findSome? id) (List.map_congr_left same)
  rwa [List.findSome?_map, List.findSome?_map, Function.id_comp, Function.id_comp] at mapped

/-- The first defect of a flattened automaton is its first class with a reversed range. -/
theorem defect?_ofAutomaton (valid : automaton.Valid) (room : automaton.Addressable) :
    (ofAutomaton automaton).defect? = automaton.reversed?.map .reversedRange := by
  have sink := accept_sink_ofAutomaton valid room
  have present : ((ofAutomaton automaton).sources ++ [(ofAutomaton automaton).accept]).find?
      (ofAutomaton automaton).isMissing = none := by
    obtain ⟨_, found, _⟩ := sink
    rw [find?_isMissing_iff, List.forall_mem_append, List.forall_mem_singleton]
    exact ⟨source_lt_ofAutomaton valid room, (Array.getElem?_eq_some_iff.mp found).1⟩
  have numbered : (ofAutomaton automaton).states.toList.zipIdx =
      automaton.states.toList.zipIdx.map fun pair => (placed automaton pair.2 pair.1, pair.2) := by
    apply List.ext_getElem?
    intro index
    rw [List.getElem?_zipIdx, Array.getElem?_toList, getElem?_ofAutomaton, List.getElem?_map,
      List.getElem?_zipIdx, Array.getElem?_toList, Option.map_map, Option.map_map]
    simp [Function.comp_def]
  have states : ((ofAutomaton automaton).states.toList.zipIdx.findSome? fun pair =>
      (ofAutomaton automaton).stateDefect? pair.2 pair.1) = automaton.reversed?.map .reversedRange := by
    rw [numbered, List.findSome?_map, Automaton.reversed?, List.findIdx?_eq_findSome?_zipIdx,
      List.map_findSome?]
    refine findSome?_congr fun pair member => ?_
    have found := List.mem_zipIdx_iff_getElem?.mp member
    rw [Array.getElem?_toList] at found
    simp only [Function.comp_apply, stateDefect?_placed valid room found]
    by_cases ordered : pair.1.Ordered <;> simp [ordered]
  rw [defect?, if_neg (by simpa using sources_ofAutomaton_ne_nil valid), present, states,
    acceptDefect?_eq_none_iff.mpr sink]
  simp

/-- A flattened automaton is read back as it was, or not at all because of a reversed range. -/
theorem toAutomaton_of_valid (valid : automaton.Valid) (room : automaton.Addressable) :
    (ofAutomaton automaton).toAutomaton = match automaton.reversed? with
      | some index => .error (.reversedRange index)
      | none => .ok automaton := by
  rw [toAutomaton, defect?_ofAutomaton valid room]
  cases automaton.reversed? with
  | some index => rfl
  | none => exact congrArg Except.ok (described_ofAutomaton valid room)

theorem deserialize_of_proper (proper : automaton.Proper) (room : automaton.Addressable) :
    deserialize (ofAutomaton automaton).serialize = match automaton.reversed? with
      | some index => .error (.invalidAutomaton (.reversedRange index))
      | none => .ok (ofAutomaton automaton) := by
  have taken := (takes_decode (lengthsFit_ofAutomaton proper room)).complete
  have found := defect?_ofAutomaton proper.toValid room
  cases reversed : automaton.reversed? with
  | some index =>
    rw [reversed] at found
    exact deserialize_of_defect taken found
  | none =>
    rw [reversed] at found
    exact deserialize_of_sound taken found

/-- A compiled automaton can be loaded again, both from flat arrays and from serialized data, unless one
of its classes has a range with reversed bounds. Only a named class can bring such a range in, and never
into a deterministic automaton. -/
theorem toAutomaton_of_compile (compiles : compile settings pattern = .ok compilation)
    (room : compilation.automaton.Addressable) :
    ((ofAutomaton compilation.automaton).toAutomaton = match compilation.automaton.reversed? with
      | some index => .error (.reversedRange index)
      | none => .ok compilation.automaton) ∧
    (deserialize (ofAutomaton compilation.automaton).serialize = match compilation.automaton.reversed? with
      | some index => .error (.invalidAutomaton (.reversedRange index))
      | none => .ok (ofAutomaton compilation.automaton)) ∧
    (settings.classes.Ordered ∨ settings.alphabet.isSome → compilation.automaton.reversed? = none) := by
  have proper : compilation.automaton.Proper := by
    obtain ⟨tree, _, finishes⟩ := exists_of_compile compiles
    obtain ⟨result, succeeds, proper⟩ := Stage.proper_applyAll tree.proper_toAutomaton settings.stages
    rw [finishes] at succeeds
    cases succeeds
    exact proper
  refine ⟨toAutomaton_of_valid proper.toValid room, deserialize_of_proper proper room, ?_⟩
  exact fun possible => Automaton.ordered_iff.mp (ordered_of_compile compiles possible)

def reversedTable : ClassTable := ({} : ClassTable).insert 0x71 { ranges := [⟨0x7a, 0x61⟩] }

def reversedSettings : Settings :=
  { classes := reversedTable, alphabet := some (.ofBytes [0x61, 0x7a]), compactClasses := true }

theorem toAutomaton_of_compile_deterministic : ∃ compilation,
    compile reversedSettings "(\\q|a)+" = .ok compilation ∧ compilation.automaton.Addressable ∧
    (ofAutomaton compilation.automaton).toAutomaton = .ok compilation.automaton ∧
    deserialize (ofAutomaton compilation.automaton).serialize = .ok (ofAutomaton compilation.automaton) := by
  have accepted : Pattern.parse reversedSettings.classes "(\\q|a)+".toUTF8.data =
      .ok (.oneOrMore (.either (.bytes { ranges := [⟨0x7a, 0x61⟩] }) (.bytes (.single 0x61)))) := by
    decide +kernel
  obtain ⟨compilation, compiles, finishes⟩ := compile_of_parse accepted
  have same : compilation.automaton = {
      states := #[.epsilon [], .epsilon [2], .consuming (.single 0x61) [3], .epsilon [4, 5],
        .consuming (.single 0x61) [3], .epsilon []]
      sources := [0, 1]
      accept := 5 } := Except.ok.inj (finishes.symm.trans (by decide +kernel))
  have room : compilation.automaton.Addressable := by
    rw [same]
    exact ⟨by decide, by decide, by decide⟩
  obtain ⟨loads, deserializes, ordered⟩ := toAutomaton_of_compile compiles room
  rw [ordered (.inr rfl)] at loads deserializes
  exact ⟨compilation, compiles, room, loads, deserializes⟩

/-- Without the subset construction, such a class is compiled and exported but not loaded. -/
theorem toAutomaton_of_compile_refused : ∃ compilation,
    compile { classes := reversedTable } "\\q" = .ok compilation ∧ compilation.automaton.Addressable ∧
    (ofAutomaton compilation.automaton).toAutomaton = .error (.reversedRange 0) ∧
    deserialize (ofAutomaton compilation.automaton).serialize =
      .error (.invalidAutomaton (.reversedRange 0)) := by
  have accepted : Pattern.parse ({ classes := reversedTable } : Settings).classes "\\q".toUTF8.data =
      .ok (.bytes { ranges := [⟨0x7a, 0x61⟩] }) := by decide +kernel
  obtain ⟨compilation, compiles, finishes⟩ := compile_of_parse accepted
  have same : compilation.automaton = {
      states := #[.consuming { ranges := [⟨0x7a, 0x61⟩] } [1], .epsilon []]
      sources := [0]
      accept := 1 } := Except.ok.inj (finishes.symm.trans (by decide +kernel))
  refine ⟨compilation, compiles, ?_⟩
  rw [same]
  exact ⟨⟨by decide, by decide, by decide⟩, by decide, by decide +kernel⟩

end FlatAutomaton

end ByteRegex
