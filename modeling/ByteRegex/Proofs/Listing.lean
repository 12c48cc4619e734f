import ByteRegex.Automaton.Render
import ByteRegex.Proofs.Runs
import Mathlib.Data.List.Basic

/-! What a listing tells. Its lines are words between blanks, and no word contains a blank or a line break, so
it gives back the words that it was made from. They show everything that a run depends on. -/

namespace ByteRegex

/-- Parts of a text, each behind a mark. -/
def marked {α : Type} (mark : α) (parts : List (List α)) : List α := parts.flatMap (mark :: ·)

section Marked

variable {α : Type} {mark : α} {first second : List α} {parts others : List (List α)}

theorem intercalate_cons (first : List α) (parts : List (List α)) :
    [mark].intercalate (first :: parts) = first ++ marked mark parts := by
  induction parts generalizing first with
  | nil => simp [marked]
  | cons second rest ih =>
    rw [List.intercalate_cons_cons, ih]
    simp [marked]

theorem marked_concat_nil : marked mark (parts ++ [[]]) = mark :: parts.flatMap (· ++ [mark]) := by
  induction parts with
  | nil => rfl
  | cons part rest ih =>
    rw [List.cons_append, marked, List.flatMap_cons, ← marked, ih]
    simp

/-- The parts can be read back if none of them contains the mark. -/
theorem append_marked_inj [DecidableEq α] (free : ∀ part ∈ first :: parts, mark ∉ part)
    (clear : ∀ part ∈ second :: others, mark ∉ part)
    (same : first ++ marked mark parts = second ++ marked mark others) : first = second ∧ parts = others := by
  have split := congrArg (List.splitOn mark) same
  rw [← intercalate_cons, ← intercalate_cons, List.splitOn_intercalate _ free (List.cons_ne_nil _ _),
    List.splitOn_intercalate _ clear (List.cons_ne_nil _ _)] at split
  exact List.cons.inj split

end Marked

namespace Hex

def digitValue (digit : Char) : Nat :=
  if digit.isDigit then digit.toNat - '0'.toNat else digit.toNat - 'a'.toNat + 10

theorem digitValue_digitChar : ∀ digit < 16, digitValue digit.digitChar = digit := by decide

/-- The number that some digits stand for. -/
def value (digits : List Char) : Nat := digits.foldl (fun sum digit => 16 * sum + digitValue digit) 0

theorem value_concat {digit : Nat} (small : digit < 16) (digits : List Char) :
    value (digits ++ [digit.digitChar]) = 16 * value digits + digit := by
  rw [value, List.foldl_append, List.foldl_cons, List.foldl_nil, digitValue_digitChar digit small, value]

theorem digits_induction {motive : Nat → List Char → Prop}
    (single : ∀ digit < 16, motive digit [digit.digitChar])
    (concat : ∀ number digits, ∀ digit < 16, motive number digits →
      motive (16 * number + digit) (digits ++ [digit.digitChar]))
    (number : Nat) : motive number (digits number) := by
  induction number using Nat.strongRecOn with
  | ind number ih =>
    by_cases small : number < 16
    · rw [digits, Nat.toDigits_of_lt_base small]
      exact single number small
    · have large : 16 ≤ number := Nat.le_of_not_lt small
      have longer := concat (number / 16) _ (number % 16) (Nat.mod_lt _ (by decide))
        (ih _ (Nat.div_lt_self (by omega) (by decide)))
      rwa [Nat.div_add_mod, digits, ← Nat.toDigits_of_base_le (by decide) large] at longer

theorem value_digits (number : Nat) : value (digits number) = number := by
  induction number using digits_induction with
  | single digit small => rw [← List.nil_append [_], value_concat small, value, List.foldl_nil, Nat.zero_add]
  | concat number digits digit small ih => rw [value_concat small, ih]

theorem mem_digits {number : Nat} {char : Char} (member : char ∈ digits number) :
    ∃ digit < 16, char = digit.digitChar := by
  induction number using digits_induction with
  | single digit small => exact ⟨digit, small, List.mem_singleton.mp member⟩
  | concat number digits digit small ih =>
    obtain front | last := List.mem_append.mp member
    · exact ih front
    · exact ⟨digit, small, List.mem_singleton.mp last⟩

theorem toList_padded (width number : Nat) :
    (padded width number).toList = List.replicate (width - (digits number).length) '0' ++ digits number := by
  rw [padded, String.toList_ofList, List.leftpad]

theorem value_replicate_zero (count : Nat) : value (List.replicate count '0') = 0 := by
  have zero : 0 < 16 := by decide
  induction count with
  | zero => rfl
  | succ count ih =>
    rw [List.replicate_succ']
    exact (value_concat zero _).trans (by rw [ih])

/-- Leading zeros do not count, so every width tells numbers apart. -/
theorem padded_injective (width : Nat) : Function.Injective (padded width) := by
  have read (number : Nat) : value (padded width number).toList = number := by
    rw [toList_padded, value, List.foldl_append, ← value, value_replicate_zero, ← value, value_digits]
  intro first second same
  rw [← read first, same, read second]

theorem mem_padded {width number : Nat} {char : Char} (member : char ∈ (padded width number).toList) :
    ∃ digit < 16, char = digit.digitChar := by
  rw [toList_padded, List.mem_append] at member
  obtain zero | digit := member
  · exact ⟨0, by decide, List.eq_of_mem_replicate zero⟩
  · exact mem_digits digit

theorem not_mem_padded {mark : Char} (other : ∀ digit < 16, mark ≠ digit.digitChar) (width number : Nat) :
    mark ∉ (padded width number).toList := by
  intro member
  obtain ⟨digit, small, found⟩ := mem_padded member
  exact other digit small found

end Hex

theorem StateId.render_injective : Function.Injective StateId.render := Hex.padded_injective 5

namespace ByteRange

theorem toList_render (range : ByteRange) :
    range.render.toList = ("[0x".toList ++ (Hex.padded 2 range.first.toNat).toList) ++
      marked '-' ["0x".toList ++ (Hex.padded 2 range.last.toNat).toList ++ [']']] := by
  simp [render, marked, String.toList_append]

theorem render_injective : Function.Injective render := by
  have free (byte : UInt8) : '-' ∉ (Hex.padded 2 byte.toNat).toList := Hex.not_mem_padded (by decide) _ _
  have read {first second : UInt8} (same : (Hex.padded 2 first.toNat).toList = (Hex.padded 2 second.toNat).toList) :
      first = second :=
    UInt8.toNat_inj.mp (Hex.padded_injective 2 (String.toList_inj.mp same))
  intro first second same
  have texts := congrArg String.toList same
  rw [toList_render, toList_render] at texts
  obtain ⟨front, rear⟩ := append_marked_inj (by simp [free]) (by simp [free]) texts
  have lower := read (List.append_cancel_left front)
  have upper := read (List.append_cancel_left (List.append_cancel_right (List.singleton_inj.mp rear)))
  cases first
  cases second
  exact congrArg₂ mk lower upper

end ByteRange

/-- Nothing in the text ends a word or a line, or looks like the arrow. -/
structure IsPlain (text : String) : Prop where
  blank : ' ' ∉ text.toList
  line : '\n' ∉ text.toList
  arrow : '>' ∉ text.toList

instance (text : String) : Decidable (IsPlain text) :=
  decidable_of_iff (' ' ∉ text.toList ∧ '\n' ∉ text.toList ∧ '>' ∉ text.toList)
    ⟨fun ⟨blank, line, arrow⟩ => ⟨blank, line, arrow⟩, fun ⟨blank, line, arrow⟩ => ⟨blank, line, arrow⟩⟩

theorem IsPlain.append {first second : String} (front : IsPlain first) (rear : IsPlain second) :
    IsPlain (first ++ second) := by
  constructor <;> rw [String.toList_append, List.mem_append, not_or]
  · exact ⟨front.blank, rear.blank⟩
  · exact ⟨front.line, rear.line⟩
  · exact ⟨front.arrow, rear.arrow⟩

theorem isPlain_padded (width number : Nat) : IsPlain (Hex.padded width number) where
  blank := Hex.not_mem_padded (by decide) width number
  line := Hex.not_mem_padded (by decide) width number
  arrow := Hex.not_mem_padded (by decide) width number

theorem StateId.isPlain_render (id : StateId) : IsPlain id.render := isPlain_padded 5 id

theorem ByteRange.isPlain_render (range : ByteRange) : IsPlain range.render := by
  have opening : IsPlain "[0x" := by decide
  have middle : IsPlain "-0x" := by decide
  have closing : IsPlain "]" := by decide
  exact (((opening.append (isPlain_padded _ _)).append middle).append (isPlain_padded _ _)).append closing

namespace CharClass

def caret (inverted : Bool) : String := if inverted then "^" else ""

/-- The caret belongs to the first range, and stands alone if there is none. -/
def words (set : CharClass) : List String :=
  match set.ranges with
  | [] => [caret set.inverted]
  | first :: rest => (caret set.inverted ++ first.render) :: rest.map ByteRange.render

theorem toList_render (set : CharClass) :
    ' ' :: set.render.toList = marked ' ' (set.words.map String.toList) := by
  obtain ⟨ranges, inverted⟩ := set
  have blank : " ".toList = [' '] := rfl
  cases ranges with
  | nil => simp [render, words, marked, caret]
  | cons first rest =>
    rw [render, String.toList_append, String.toList_intercalate, blank, List.map_cons, List.map_cons,
      intercalate_cons]
    simp [words, marked, caret]

theorem isPlain_caret : ∀ inverted, IsPlain (caret inverted) := by decide

theorem isPlain_of_mem_words {set : CharClass} {word : String} (member : word ∈ set.words) : IsPlain word := by
  rw [words] at member
  split at member
  next =>
    rw [List.mem_singleton.mp member]
    exact isPlain_caret _
  next first rest _ =>
    obtain rfl | listed := List.mem_cons.mp member
    · exact (isPlain_caret _).append first.isPlain_render
    · obtain ⟨range, _, rfl⟩ := List.mem_map.mp listed
      exact range.isPlain_render

theorem caret_append_inj {first second : ByteRange} {inverted complemented : Bool}
    (same : caret inverted ++ first.render = caret complemented ++ second.render) :
    inverted = complemented ∧ first = second := by
  have texts := congrArg String.toList same
  cases inverted <;> cases complemented
  · exact ⟨rfl, ByteRange.render_injective (by simpa [caret] using same)⟩
  · simp [caret, ByteRange.render] at texts
  · simp [caret, ByteRange.render] at texts
  · exact ⟨rfl, ByteRange.render_injective (by simpa [caret] using same)⟩

theorem words_injective : Function.Injective words := by
  have caret_ne (inverted complemented : Bool) (range : ByteRange) :
      caret inverted ≠ caret complemented ++ range.render := by
    intro same
    have texts := congrArg String.toList same
    cases inverted <;> cases complemented <;> simp [caret, ByteRange.render] at texts
  rintro ⟨_ | ⟨first, rest⟩, inverted⟩ ⟨_ | ⟨second, others⟩, complemented⟩ same
  · cases inverted <;> cases complemented <;> first | rfl | simp [words, caret] at same
  · exact absurd (List.cons.inj same).1 (caret_ne _ _ _)
  · exact absurd (List.cons.inj same).1.symm (caret_ne _ _ _)
  · obtain ⟨head, tail⟩ := List.cons.inj same
    obtain ⟨rfl, rfl⟩ := caret_append_inj head
    rw [ByteRange.render_injective.list_map tail]

end CharClass

/-- How a line calls a state. -/
inductive Title
  | accepting
  | loopback
  | forking
  | consuming (set : CharClass)

namespace Title

def kind : Title → StateKind
  | consuming set => .consuming set
  | _ => .epsilon

def words : Title → List String
  | accepting => ["ACCEPT"]
  | loopback => ["BACK"]
  | forking => ["EPSILON"]
  | consuming set => "CLASS" :: set.words

theorem isPlain_of_mem_words {title : Title} {word : String} (member : word ∈ title.words) : IsPlain word := by
  cases title with
  | consuming set =>
    obtain rfl | listed := List.mem_cons.mp member
    · decide
    · exact CharClass.isPlain_of_mem_words listed
  | _ =>
    rw [List.mem_singleton.mp member]
    decide

theorem words_injective : Function.Injective words := by
  intro first second same
  cases first <;> cases second <;> simp [words] at same ⊢
  exact CharClass.words_injective same

theorem head?_words_ne (title : Title) (others : List String) : (title.words ++ others).head? ≠ some "SOURCE" := by
  cases title <;> simp [words]

end Title

/-- What a line says, apart from the number in front of it. -/
structure Entry where
  source : Bool
  title : Title
  next : List StateId

namespace Entry

def sourceWords (source : Bool) : List String := if source then ["SOURCE"] else []

def targets (next : List StateId) : List (List String) :=
  if next.isEmpty then [] else [next.map StateId.render]

def words (entry : Entry) : List String :=
  sourceWords entry.source ++ (entry.title.words ++ marked "->" (targets entry.next))

theorem targets_injective : Function.Injective targets := by
  intro first second same
  cases first <;> cases second <;> simp [targets] at same ⊢
  exact ⟨StateId.render_injective same.1, StateId.render_injective.list_map same.2⟩

theorem isPlain_of_mem_targets {next : List StateId} {part : List String} {word : String}
    (listed : part ∈ targets next) (member : word ∈ part) : IsPlain word := by
  rw [targets] at listed
  split at listed
  · nomatch listed
  · rw [List.mem_singleton.mp listed] at member
    obtain ⟨id, _, rfl⟩ := List.mem_map.mp member
    exact id.isPlain_render

theorem eq_arrow_or_isPlain {entry : Entry} {word : String} (member : word ∈ entry.words) :
    word = "->" ∨ IsPlain word := by
  obtain front | rest := List.mem_append.mp member
  · have named : word = "SOURCE" := by
      rw [sourceWords] at front
      split at front
      · exact List.mem_singleton.mp front
      · nomatch front
    rw [named]
    exact .inr (by decide)
  · obtain title | rear := List.mem_append.mp rest
    · exact .inr (Title.isPlain_of_mem_words title)
    · obtain ⟨part, listed, here⟩ := List.mem_flatMap.mp rear
      obtain rfl | inside := List.mem_cons.mp here
      · exact .inl rfl
      · exact .inr (isPlain_of_mem_targets listed inside)

/-- The arrow is between the title and the successors only. -/
theorem arrow_not_mem (entry : Entry) : ∀ part ∈ entry.title.words :: targets entry.next, "->" ∉ part := by
  have marked : ¬ IsPlain "->" := by decide
  intro part listed member
  obtain rfl | rear := List.mem_cons.mp listed
  · exact marked (Title.isPlain_of_mem_words member)
  · exact marked (isPlain_of_mem_targets rear member)

theorem sourceWords_append_inj {source other : Bool} {first second : List String}
    (front : first.head? ≠ some "SOURCE") (rear : second.head? ≠ some "SOURCE")
    (same : sourceWords source ++ first = sourceWords other ++ second) : source = other ∧ first = second := by
  cases source <;> cases other
  · exact ⟨rfl, same⟩
  · exact absurd (congrArg List.head? same) front
  · exact absurd (congrArg List.head? same).symm rear
  · exact ⟨rfl, (List.cons.inj same).2⟩

theorem words_injective : Function.Injective words := by
  intro first second same
  -- No title begins like a mark for a source, and the arrow separates the title from what follows it.
  obtain ⟨source, rest⟩ := sourceWords_append_inj (Title.head?_words_ne _ _) (Title.head?_words_ne _ _) same
  obtain ⟨title, next⟩ := append_marked_inj first.arrow_not_mem second.arrow_not_mem rest
  cases first
  cases second
  obtain rfl : _ = _ := source
  obtain rfl := Title.words_injective title
  obtain rfl := targets_injective next
  rfl

/-- What a line consists of, up to the line break. -/
def line (id : StateId) (entry : Entry) : List Char :=
  id.render.toList ++ [':'] ++ marked ' ' (entry.words.map String.toList)

theorem line_injective (id : StateId) : Function.Injective (line id) := by
  have free (entry : Entry) :
      ∀ part ∈ (id.render.toList ++ [':']) :: entry.words.map String.toList, ' ' ∉ part := by
    refine List.forall_mem_cons.mpr ⟨?_, List.forall_mem_map.mpr fun word member => ?_⟩
    · have plain := (StateId.isPlain_render id).blank
      simpa using plain
    · obtain rfl | plain := eq_arrow_or_isPlain member
      · decide
      · exact plain.blank
  intro first second same
  have words := (append_marked_inj (free first) (free second) same).2
  exact words_injective (Function.Injective.list_map (fun _ _ => String.toList_inj.mp) words)

theorem break_not_mem_line (id : StateId) (entry : Entry) : '\n' ∉ line id entry := by
  intro member
  obtain front | rear := List.mem_append.mp member
  · have plain := (StateId.isPlain_render id).line
    simp [plain] at front
  · obtain ⟨part, listed, here⟩ := List.mem_flatMap.mp rear
    obtain ⟨word, given, rfl⟩ := List.mem_map.mp listed
    have inside := (List.mem_cons.mp here).resolve_left (by decide)
    obtain rfl | plain := eq_arrow_or_isPlain given
    · exact absurd inside (by decide)
    · exact plain.line inside

end Entry

namespace Automaton

variable {first second automaton : Automaton} {id : StateId}

def title (automaton : Automaton) (id : StateId) (state : State) : Title :=
  match state.kind with
  | .consuming set => .consuming set
  | .epsilon => if id == automaton.accept then .accepting else if state.back then .loopback else .forking

def entry (automaton : Automaton) (id : StateId) (state : State) : Entry where
  source := automaton.sources.contains id
  title := automaton.title id state
  next := state.next

def entries (automaton : Automaton) : List Entry :=
  automaton.states.toList.zipIdx.map fun (state, id) => automaton.entry id state

def lines (automaton : Automaton) : List (List Char) :=
  automaton.states.toList.zipIdx.map fun (state, id) => (automaton.entry id state).line id

theorem getElem?_entries (automaton : Automaton) (id : StateId) :
    automaton.entries[id]? = automaton.states[id]?.map (automaton.entry id) := by
  simp [entries, List.getElem?_zipIdx, Function.comp_def]

theorem getElem?_lines (automaton : Automaton) (id : StateId) :
    automaton.lines[id]? = automaton.entries[id]?.map (Entry.line id) := by
  simp [entries, lines, List.getElem?_zipIdx, Function.comp_def]

theorem toList_renderRole (id : StateId) (state : State) :
    (automaton.renderRole id state).toList = marked ' ' ((automaton.title id state).words.map String.toList) := by
  rw [renderRole, title]
  cases state.kind with
  | epsilon =>
    dsimp only
    split
    · rfl
    · split <;> rfl
  | consuming set =>
    exact (String.toList_append ..).trans (congrArg (" CLASS".toList ++ ·) set.toList_render)

theorem toList_renderNext (next : List StateId) :
    (renderNext next).toList = marked ' ' ((marked "->" (Entry.targets next)).map String.toList) := by
  cases next with
  | nil => rfl
  | cons id rest =>
    simp [renderNext, marked, Entry.targets, List.flatMap_map]

theorem toList_renderState (id : StateId) (state : State) :
    (automaton.renderState id state).toList = (automaton.entry id state).line id ++ ['\n'] := by
  rw [renderState]
  simp only [String.toList_append, toList_renderRole, toList_renderNext]
  by_cases source : id ∈ automaton.sources <;>
    simp [Entry.line, Entry.words, Entry.sourceWords, entry, marked, source]

/-- The first line is empty, and so is what follows the last line break. -/
theorem toList_render (automaton : Automaton) :
    automaton.render.toList = [] ++ marked '\n' (automaton.lines ++ [[]]) := by
  rw [marked_concat_nil]
  simp [render, lines, String.toList_append, String.toList_join, toList_renderState, List.flatMap_map]

/-- The listing says all that is in the entries and nothing else. -/
theorem render_eq_iff : first.render = second.render ↔ first.entries = second.entries := by
  have free (automaton : Automaton) : ∀ part ∈ [] :: (automaton.lines ++ [[]]), '\n' ∉ part := by
    intro part listed
    simp only [List.mem_cons, List.mem_append, List.not_mem_nil, or_false] at listed
    obtain rfl | line | rfl := listed
    · exact List.not_mem_nil
    · obtain ⟨⟨state, id⟩, _, rfl⟩ := List.mem_map.mp line
      exact (automaton.entry id state).break_not_mem_line id
    · exact List.not_mem_nil
  rw [← String.toList_inj, toList_render, toList_render]
  constructor
  · intro texts
    have lines := List.append_cancel_right (append_marked_inj (free first) (free second) texts).2
    refine List.ext_getElem? fun id => Option.map_injective (Entry.line_injective id) ?_
    rw [← getElem?_lines, ← getElem?_lines, lines]
  · intro entries
    have lines : first.lines = second.lines := by
      refine List.ext_getElem? fun id => ?_
      rw [getElem?_lines, getElem?_lines, entries]
    rw [lines]

/-- What a run depends on. -/
def shape (automaton : Automaton) (id : StateId) : Option (StateKind × List StateId) :=
  automaton.states[id]?.map fun state => (state.kind, state.next)

theorem Path.of_shape {word : List UInt8} {final : StateId} (same : ∀ id, first.shape id = second.shape id)
    (path : first.Path id word final) : second.Path id word final := by
  have transfer {id : StateId} {kind : StateKind} {back : Bool} {next : List StateId}
      (found : first.states[id]? = some ⟨kind, back, next⟩) :
      ∃ other, second.states[id]? = some ⟨kind, other, next⟩ := by
    have shown : second.shape id = some (kind, next) := by
      rw [← same, shape, found]
      rfl
    obtain ⟨⟨_, other, _⟩, present, ⟨⟩⟩ := Option.map_eq_some_iff.mp shown
    exact ⟨other, present⟩
  induction path with
  | here id => exact .here id
  | fork found edge _ ih =>
    obtain ⟨_, present⟩ := transfer found
    exact .fork present edge ih
  | read found inside edge _ ih =>
    obtain ⟨_, present⟩ := transfer found
    exact .read present inside edge ih

/-- The automata differ at most in the order and number of times that they list their sources, and in the flags
of their epsilon states. -/
structure Alike (first second : Automaton) : Prop where
  size : first.size = second.size
  accept : first.accept = second.accept
  sources : ∀ id, id ∈ first.sources ↔ id ∈ second.sources
  shape : ∀ id, first.shape id = second.shape id

theorem Alike.symm (alike : first.Alike second) : second.Alike first :=
  ⟨alike.size.symm, alike.accept.symm, fun id => (alike.sources id).symm, fun id => (alike.shape id).symm⟩

theorem Alike.accepts {word : List UInt8} (alike : first.Alike second) (accepts : first.Accepts word) :
    second.Accepts word := by
  obtain ⟨source, listed, path⟩ := accepts
  refine ⟨source, (alike.sources source).mp listed, ?_⟩
  rw [← alike.accept]
  exact path.of_shape alike.shape

theorem kind_title (automaton : Automaton) (id : StateId) (state : State) :
    (automaton.title id state).kind = state.kind := by
  rw [title]
  cases state.kind with
  | epsilon =>
    dsimp only
    split
    · rfl
    · split <;> rfl
  | consuming set => rfl

theorem shape_eq (automaton : Automaton) (id : StateId) :
    automaton.shape id = automaton.entries[id]?.map fun entry => (entry.title.kind, entry.next) := by
  rw [shape, getElem?_entries, Option.map_map]
  refine congrFun (congrArg Option.map (funext fun state => ?_)) _
  exact congrArg (·, state.next) (automaton.kind_title id state).symm

/-- Only the accepting state is called that. -/
theorem eq_accept_iff (closed : automaton.Closed) :
    id = automaton.accept ↔ automaton.entries[id]?.map Entry.title = some .accepting := by
  rw [getElem?_entries, Option.map_map]
  constructor
  · rintro rfl
    obtain ⟨back, found⟩ := isEpsilon_iff.mp closed.accept_epsilon
    simp [found, entry, title]
  · intro named
    obtain ⟨state, _, called⟩ := Option.map_eq_some_iff.mp named
    change automaton.title id state = .accepting at called
    rw [title] at called
    split at called
    · nomatch called
    · split at called
      next here => exact eq_of_beq here
      next => split at called <;> nomatch called

theorem mem_sources_iff (closed : automaton.Closed) :
    id ∈ automaton.sources ↔ automaton.entries[id]?.map Entry.source = some true := by
  rw [getElem?_entries, Option.map_map]
  constructor
  · intro listed
    rw [Array.getElem?_eq_getElem (closed.source_lt id listed)]
    exact congrArg some (List.contains_iff_mem.mpr listed)
  · intro marked
    obtain ⟨state, _, listed⟩ := Option.map_eq_some_iff.mp marked
    exact List.contains_iff_mem.mp listed

/-- Automata that are listed the same are the same to a run. -/
theorem alike_of_render (closed : first.Closed) (valid : second.Closed) (same : first.render = second.render) :
    first.Alike second ∧ ∀ word, first.Accepts word ↔ second.Accepts word := by
  have entries := render_eq_iff.mp same
  have alike : first.Alike second := by
    refine ⟨?_, ?_, ?_, ?_⟩
    · simpa [Automaton.entries, size] using congrArg List.length entries
    · rw [eq_accept_iff valid, ← entries, ← eq_accept_iff closed]
    · intro id
      rw [mem_sources_iff closed, mem_sources_iff valid, entries]
    · intro id
      rw [shape_eq, shape_eq, entries]
  exact ⟨alike, fun word => ⟨alike.accepts, alike.symm.accepts⟩⟩

/-- Neither a second mention of a source nor a flag of the accepting state is in the listing. -/
theorem alike_of_render_repeated :
    let first : Automaton := ⟨#[.consuming (.single 120) [1], .epsilon []], [0], 1⟩
    let second : Automaton := ⟨#[.consuming (.single 120) [1], .loopback []], [0, 0], 1⟩
    first.Closed ∧ second.Closed ∧ first.render = second.render ∧
      first.Alike second ∧ ∀ word, first.Accepts word ↔ second.Accepts word := by
  intro first second
  have closed : first.Closed := by decide
  have valid : second.Closed := by decide
  have same : first.render = second.render := render_eq_iff.mpr rfl
  exact ⟨closed, valid, same, alike_of_render closed valid same⟩

end Automaton

end ByteRegex
