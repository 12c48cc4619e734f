import ByteRegex.Proofs.ParserCompleteness
import ByteRegex.Proofs.Reporting

/-! Where the parser says that a text is wrong. Each rule fails where what it has passed can still be
completed, and so does whatever a sequence notes; the error that is chosen in the end is one of them. -/

namespace ByteRegex.Pattern

open ByteRegex.Parser

/-- The word begins a word of the language. -/
def Extends {α : Type} (language : List UInt8 → α → Prop) (word : List UInt8) : Prop :=
  ∃ rest value, language (word ++ rest) value

def Enclosed (word : List UInt8) (ranges : List ByteRange) : Prop :=
  ∃ inside, word = inside ++ [']'.toUInt8] ∧ Intervals inside ranges

theorem extends_nil {α : Type} {language : List UInt8 → α → Prop} {word : List UInt8} {value : α}
    (member : language word value) : Extends language [] :=
  ⟨word, value, member⟩

theorem extends_escaped : Extends Escaped [] := extends_nil (.control (.head _))

theorem extends_boundary : Extends Boundary [] := extends_nil (.escape (.control (.head _)))

theorem Intervals.extends {before : List UInt8} {ranges : List ByteRange} (intervals : Intervals before ranges) :
    Extends Enclosed before :=
  ⟨[']'.toUInt8], ranges, before, rfl, intervals⟩

theorem Extends.enclosed {word : List UInt8} (boundary : Extends Boundary word) : Extends Enclosed word := by
  obtain ⟨rest, byte, boundary⟩ := boundary
  have intervals : Intervals (word ++ rest) [⟨byte, byte⟩] := .one ⟨.single boundary, UInt8.le_refl byte⟩
  exact ⟨rest ++ [']'.toUInt8], _, word ++ rest, (List.append_assoc ..).symm, intervals⟩

variable {text : Array UInt8} {start : Nat} {failures notes : ParseError → Prop} {error : ParseError}

theorem reports_hexDigit (inside : start ≤ text.size) :
    Reports Grammar.hexDigit text start (Blames text start (· = [])) notes :=
  .map (.satisfying inside)

theorem reports_hexByte (inside : start ≤ text.size) : Reports Grammar.hexByte text start
    (Blames text start fun word => word = [] ∨ ∃ high upper, word = [high] ∧ HexDigit high upper) notes := by
  refine .bind ((reports_hexDigit inside).failing fun _ => .begin (.inl rfl)) (sound_hexDigit.soundAt text start) ?_
  intro before upper spelled ⟨high, passed, digit⟩
  exact .map ((reports_hexDigit (spelled.le_size inside)).failing fun _ =>
    .close (.inr ⟨high, upper, passed, digit⟩) spelled)

theorem reports_escaped (inside : start ≤ text.size) :
    Reports Grammar.escaped text start (Blames text start (Extends Escaped)) notes := by
  refine .afterPosition (.bind ((Reports.anyByte inside).failing fun _ => .begin extends_escaped)
    (Sound.anyByte.soundAt text start) ?_)
  intro before byte spelled passed
  split
  next marked =>
    refine (reports_hexByte (spelled.le_size inside)).behind spelled ?_
    intro word viable
    have zero : HexDigit '0'.toUInt8 _ := .decimal (UInt8.le_refl _) (by decide)
    subst passed
    rcases viable with empty | ⟨high, upper, single, digit⟩
    · subst empty
      exact ⟨_, _, .hex (startsHex_iff.mp marked) zero zero⟩
    · subst single
      exact ⟨_, _, .hex (startsHex_iff.mp marked) digit zero⟩
  next =>
    split
    next => exact .pure
    next => exact .failAt (.here extends_escaped nofun nofun)

theorem reports_boundary (inside : start ≤ text.size) :
    Reports Grammar.boundary text start (Blames text start (Extends Boundary)) notes := by
  apply Reports.firstOf
  intro parser listed
  rcases List.mem_pair.mp listed with rfl | rfl
  · refine .afterSymbol inside (fun _ => .begin extends_boundary) fun spelled => ?_
    refine (reports_escaped (spelled.le_size inside)).behind spelled ?_
    exact fun word ⟨rest, byte, escape⟩ => ⟨rest, byte, .escape escape⟩
  · exact (Reports.satisfying inside).failing fun _ => .begin extends_boundary

theorem reports_bounds (inside : start ≤ text.size) :
    Reports Grammar.bounds text start (Blames text start (Extends Boundary)) notes := by
  refine .afterPosition (.bind (reports_boundary inside) (sound_boundary.soundAt text start) ?_)
  intro before first spelled _
  have last : Reports (do let _ ← symbol '-'; Grammar.boundary) text (start + before.length) (fun _ => True)
      notes := by
    refine .afterSymbol (spelled.le_size inside) (fun _ _ => trivial) fun dash => ?_
    exact (reports_boundary (dash.le_size (spelled.le_size inside))).failing fun _ _ => trivial
  exact .map (.maybe last)

theorem soundAt_bounds (text : Array UInt8) (start : Nat) :
    SoundAt Grammar.bounds text start fun word result => result.1 = start ∧ Bounds word result.2 := by
  intro furthest result final succeeds
  obtain ⟨word, spelled, passed, bounds⟩ := sound_bounds text _ result final succeeds
  refine ⟨word, spelled, passed, ?_, bounds⟩
  simp only [Grammar.bounds, run_bind, run_position] at succeeds
  split at succeeds
  next first after _ =>
    split at succeeds
    next => exact (congrArg Prod.fst (EStateM.Result.ok.inj succeeds).1).symm
    next => cases succeeds
  next => cases succeeds

theorem reports_ordered {bounds : Nat × ByteRange} (allowed : failures ⟨bounds.1, .invalidRange⟩) :
    Reports (Grammar.ordered bounds) text start failures notes := by
  obtain ⟨place, range⟩ := bounds
  rw [Grammar.ordered]
  split
  next => exact .failAt allowed
  next => exact .pure

theorem reports_nextRange (inside : start ≤ text.size) (ranges : Array ByteRange)
    (allowed : failures ⟨start, .invalidRange⟩) : Reports (Grammar.nextRange ranges) text start failures notes := by
  have sound : SoundAt (maybe Grammar.bounds) text start fun _ result => ∀ bounds ∈ result, bounds.1 = start := by
    refine .maybe ?_ nofun
    intro furthest result final succeeds
    obtain ⟨word, spelled, passed, place, _⟩ := soundAt_bounds text start furthest result final succeeds
    exact ⟨word, spelled, passed, fun bounds same => Option.some.inj same ▸ place⟩
  refine .bind (.maybe (reports_bounds inside)) sound ?_
  intro before result spelled place
  cases result with
  | none => exact .pure
  | some bounds =>
    obtain rfl := place bounds rfl
    exact .map (reports_ordered allowed)

theorem reports_bracketedRest (inverted : Bool) (inside : start ≤ text.size) :
    Reports (Grammar.bracketedRest inverted) text start (Blames text start (Extends Enclosed)) notes := by
  refine .bind ((reports_bounds inside).failing fun _ blames => blames.mono fun _ => Extends.enclosed)
    (soundAt_bounds text start) ?_
  intro before bounds spelled ⟨place, range⟩
  have begins : Blames text start (Extends Enclosed) ⟨bounds.1, .invalidRange⟩ :=
    place ▸ .here extends_boundary.enclosed nofun nofun
  refine .bind (reports_ordered begins) ((sound_ordered bounds).soundAt text _) ?_
  intro rest first _ ⟨passed, same, upright⟩
  subst passed same
  have front : Intervals before #[bounds.2].toList := .one ⟨range, upright⟩
  have loop : Reports (repeated #[bounds.2] Grammar.nextRange) text (start + before.length)
      (Blames text start (Extends Enclosed)) notes := by
    refine .repeated (fun word ranges => Intervals word ranges.toList) (fun _ _ => sound_nextRange) ?_ spelled front
    intro word ranges spelled intervals
    refine reports_nextRange (spelled.le_size inside) ranges ?_
    exact .close intervals.extends spelled (.here rfl nofun nofun)
  refine .bind loop ((Sound.repeated (fun word ranges => Intervals word ranges.toList)
    (fun _ _ => sound_nextRange) front).soundAt text _) ?_
  intro more ranges follows intervals
  have whole := spelled_append.mpr ⟨spelled, follows⟩
  have place : start + before.length + more.length = start + (before ++ more).length := by
    rw [List.length_append, Nat.add_assoc]
  refine .afterSymbol ?_ ?_ fun _ => .pure
  · exact place ▸ whole.le_size inside
  · exact fun _ blames => .close intervals.extends whole (place ▸ blames)

theorem reports_bracketed (table : ClassTable) (inside : start ≤ text.size) :
    Reports Grammar.bracketed text start (Blames text start (Extends (ByteMatch table))) notes := by
  rw [bracketed_eq]
  refine .afterSymbol inside (fun _ => .begin (extends_nil .any)) fun bracket => ?_
  refine .optionally (fun caret => ?_) fun other => ?_
  · have both : Spelled text start ['['.toUInt8, '^'.toUInt8] := spelled_append.mpr ⟨bracket, caret⟩
    refine (reports_bracketedRest true (both.le_size inside)).behind both ?_
    intro word ⟨rest, ranges, ranged, passed, intervals⟩
    refine ⟨rest, { ranges, inverted := true }, ?_⟩
    rw [List.append_assoc, passed]
    exact .inverted intervals
  · refine (reports_bracketedRest false (bracket.le_size inside)).failing fun _ blames =>
      blames.spelled.behind bracket ?_
    intro word ⟨spelled, rest, ranges, ranged, passed, intervals⟩
    cases word with
    | nil =>
      have newline : Intervals ['\\'.toUInt8, 'n'.toUInt8] [⟨0x0a, 0x0a⟩] :=
        .one ⟨.single (.escape (.control (.head _))), UInt8.le_refl _⟩
      have member : ByteMatch table ('['.toUInt8 :: (_ ++ [']'.toUInt8])) _ := .bracket newline (by decide)
      exact ⟨_, _, member⟩
    | cons first word =>
      refine ⟨rest, { ranges }, ?_⟩
      rw [List.append_assoc, passed]
      refine .bracket intervals fun caret => other ?_
      cases ranged with
      | nil => cases caret
      | cons second ranged =>
        obtain ⟨same, _⟩ := List.cons.inj passed
        exact (spelled_cons.mp spelled).1.trans ((congrArg some same).trans caret)

theorem reports_namedClass (table : ClassTable) (inside : start ≤ text.size) :
    Reports (Grammar.namedClass table) text start (Blames text start (· = [])) notes := by
  refine .afterPosition (.bind (.anyByte inside) (Sound.anyByte.soundAt text start) ?_)
  intro before name spelled passed
  split
  next => exact .pure
  next => exact .failAt (.here rfl nofun nofun)

/-- A backslash always begins a match: the letter for a line feed names a class or not. -/
theorem extends_backslash (table : ClassTable) : Extends (ByteMatch table) ['\\'.toUInt8] := by
  cases named : table.get? 'n'.toUInt8 with
  | none => exact ⟨['n'.toUInt8], _, .escape named (.control (.head _))⟩
  | some set => exact ⟨['n'.toUInt8], set, .named named⟩

theorem reports_backslash (table : ClassTable) (spelled : Spelled text start ['\\'.toUInt8])
    (inside : start ≤ text.size) :
    Reports (firstOf [Grammar.namedClass table, return .single (← Grammar.escaped)]) text (start + 1)
      (Blames text start (Extends (ByteMatch table))) notes := by
  have behind : start + 1 ≤ text.size := spelled.le_size inside
  have alone (word : List UInt8) (empty : word = []) : Extends (ByteMatch table) ('\\'.toUInt8 :: word) :=
    empty ▸ extends_backslash table
  refine .orElse ((reports_namedClass table behind).behind spelled alone) fun furthest error after fails => ?_
  refine .map ((reports_escaped behind).failing fun _ blames => blames.spelled.behind spelled ?_)
  intro word ⟨follows, rest, byte, escape⟩
  cases word with
  | nil => exact alone [] rfl
  | cons name word =>
    exact ⟨rest, .single byte, .escape (get?_of_namedClass fails (spelled_cons.mp follows).1) escape⟩

theorem reports_byteMatch (table : ClassTable) (inside : start ≤ text.size) :
    Reports (Grammar.byteMatch table) text start (Blames text start (Extends (ByteMatch table))) notes := by
  apply Reports.firstOf
  intro parser listed
  simp only [List.mem_cons, List.not_mem_nil, or_false] at listed
  rcases listed with rfl | rfl | rfl | rfl
  · exact reports_bracketed table inside
  · exact .afterSymbol inside (fun _ => .begin (extends_nil .any)) fun _ => .pure
  · refine .afterSymbol inside (fun _ => .begin (extends_nil .any)) fun spelled => ?_
    exact reports_backslash table spelled inside
  · exact .map ((Reports.satisfying inside).failing fun _ => .begin (extends_nil .any))

variable {table : ClassTable} {whole : Parser Pattern}

theorem extends_derives (table : ClassTable) (level : Level) : Extends (Derives table level) [] := by
  have atom : Derives table .atom ['.'.toUInt8] (.bytes .any) := .bytes .any
  cases level with
  | alternatives => exact extends_nil (.only (.alone (.bare atom)))
  | sequence => exact extends_nil (.alone (.bare atom))
  | quantified => exact extends_nil (.bare atom)
  | atom => exact extends_nil atom

/-- All that is reported is blamed on the beginning of a word of this level, which starts at `origin`. -/
def Accountable {α : Type} (table : ClassTable) (level : Level) (origin : Nat) (parser : Parser α)
    (text : Array UInt8) (start : Nat) : Prop :=
  Reports parser text start (Blames text origin (Extends (Derives table level)))
    (Blames text origin (Extends (Derives table level)))

/-- What was passed before counts in, and so does what has to follow. -/
theorem Accountable.behind {α : Type} {parser : Parser α} {before : List UInt8} {inner outer : Level}
    (accountable : Accountable table inner (start + before.length) parser text (start + before.length))
    (spelled : Spelled text start before)
    (leads : ∀ word tree, Derives table inner word tree → Extends (Derives table outer) (before ++ word)) :
    Accountable table outer start parser text (start + before.length) := by
  have larger (error : ParseError)
      (blames : Blames text (start + before.length) (Extends (Derives table inner)) error) :
      Blames text start (Extends (Derives table outer)) error := by
    refine blames.behind spelled ?_
    intro word ⟨rest, tree, derives⟩
    obtain ⟨more, whole, derives⟩ := leads (word ++ rest) tree derives
    refine ⟨rest ++ more, whole, ?_⟩
    simpa only [List.append_assoc] using derives
  exact accountable.mono larger larger

theorem Accountable.mono {α : Type} {parser : Parser α} {inner outer : Level}
    (accountable : Accountable table inner start parser text start)
    (leads : ∀ word tree, Derives table inner word tree → Extends (Derives table outer) word) :
    Accountable table outer start parser text start :=
  behind (show Accountable table inner (start + [].length) parser text (start + [].length) from accountable)
    spelled_nil leads

theorem accountable_atom (sound : Sound whole (Derives table .alternatives)) (inside : start ≤ text.size)
    (inner : start + 1 ≤ text.size → Accountable table .alternatives (start + 1) whole text (start + 1)) :
    Accountable table .atom start (Grammar.atom table whole) text start := by
  apply Reports.firstOf
  intro parser listed
  rcases List.mem_pair.mp listed with rfl | rfl
  · refine .afterSymbol inside (fun _ => .begin (extends_derives table .atom)) fun opens => ?_
    have content : Accountable table .atom start whole text (start + 1) :=
      (inner (opens.le_size inside)).behind opens fun word tree derives => ⟨[')'.toUInt8], tree, .group derives⟩
    refine .bind content (sound.soundAt text _) ?_
    intro word tree spelled derives
    have both := spelled_append.mpr ⟨opens, spelled⟩
    have place : start + 1 + word.length = start + (['('.toUInt8] ++ word).length := by
      rw [List.length_append, List.length_singleton, Nat.add_assoc]
    rw [place]
    refine .afterSymbol (both.le_size inside) (fun _ => .close ?_ both) fun _ => .pure
    exact ⟨[')'.toUInt8], tree, .group derives⟩
  · refine .map ((reports_byteMatch table inside).failing fun _ blames => blames.mono ?_)
    exact fun word ⟨rest, set, found⟩ => ⟨rest, .bytes set, .bytes found⟩

theorem reports_quantifier (body : Pattern) (inside : start ≤ text.size)
    (blamed : ∀ error, Blames text start (· = []) error → failures error) :
    Reports (Grammar.quantifier body) text start failures notes := by
  apply Reports.firstOf
  intro parser listed
  simp only [List.mem_cons, List.not_mem_nil, or_false] at listed
  rcases listed with rfl | rfl | rfl | rfl
  · exact .afterSymbol inside blamed fun _ => .pure
  · exact .afterSymbol inside blamed fun _ => .pure
  · exact .afterSymbol inside blamed fun _ => .pure
  · exact .pure

theorem accountable_quantified (sound : Sound whole (Derives table .alternatives)) (inside : start ≤ text.size)
    (inner : start + 1 ≤ text.size → Accountable table .alternatives (start + 1) whole text (start + 1)) :
    Accountable table .quantified start (Grammar.quantified table whole) text start := by
  rw [quantified_eq]
  have atom : Accountable table .quantified start (Grammar.atom table whole) text start :=
    (accountable_atom sound inside inner).mono fun word tree derives => ⟨[], tree, by simpa using .bare derives⟩
  refine .bind atom ((sound_atom sound).soundAt text start) ?_
  intro word tree spelled derives
  refine reports_quantifier tree (spelled.le_size inside) fun _ => .close ?_ spelled
  exact ⟨[], tree, by simpa using .bare derives⟩

/-- What is noted when a sequence does not go on is what its next atom fails with. -/
theorem accountable_nextAtom (sound : Sound whole (Derives table .alternatives)) {before : List UInt8}
    {first : Pattern} (spelled : Spelled text start before) (derives : Derives table .sequence before first)
    (inside : start ≤ text.size)
    (inner : ∀ place, start < place → place ≤ text.size →
      Accountable table .alternatives place whole text place) :
    Accountable table .sequence start (Grammar.nextAtom table whole first) text (start + before.length) := by
  have next : Accountable table .sequence start (Grammar.quantified table whole) text (start + before.length) := by
    refine (accountable_quantified sound (spelled.le_size inside) fun within => inner _ ?_ within).behind spelled ?_
    · omega
    · exact fun word second following => ⟨[], .concat first second, by simpa using .concat derives following⟩
  intro furthest
  have reports := next furthest
  rcases run_nextAtom first text ⟨start + before.length, furthest⟩ with
    ⟨second, after, ran, ends⟩ | ⟨error, after, ran, ends⟩
  · rw [ran] at reports
    rw [ends]
    exact reports
  · rw [ran] at reports
    rw [ends]
    obtain ⟨blames, adds⟩ := reports
    split
    · exact adds.trans (.furthestOf blames)
    · exact adds

theorem accountable_juxtaposed (sound : Sound whole (Derives table .alternatives)) (inside : start ≤ text.size)
    (inner : ∀ place, start < place → place ≤ text.size →
      Accountable table .alternatives place whole text place) :
    Accountable table .sequence start (Grammar.juxtaposed table whole) text start := by
  rw [juxtaposed_eq]
  have first : Accountable table .sequence start (Grammar.quantified table whole) text start :=
    (accountable_quantified sound inside (inner _ (Nat.lt_succ_self start))).mono
      fun word tree derives => ⟨[], tree, by simpa using .alone derives⟩
  refine .bind first ((sound_quantified sound).soundAt text start) ?_
  intro word tree spelled derives
  refine .repeated (Derives table .sequence) (fun _ _ => sound_nextAtom sound) ?_ spelled (.alone derives)
  intro before first spelled derives
  exact accountable_nextAtom sound spelled derives inside inner

/-- The nesting suffices for the rest of the text: it is used up at the end of it only. -/
theorem accountable_alternatives (depth : Nat) (inside : start ≤ text.size) (enough : text.size ≤ start + depth) :
    Accountable table .alternatives start (Grammar.alternatives table depth) text start := by
  induction depth generalizing start with
  | zero =>
    have whole : text[start]? = none := Array.getElem?_eq_none enough
    exact .afterPosition (.failAt (.ended (extends_derives table .alternatives) inside whole))
  | succ depth ih =>
    have inner (place : Nat) (further : start < place) (within : place ≤ text.size) :
        Accountable table .alternatives place (Grammar.alternatives table depth) text place :=
      ih within (by omega)
    have sequence : Accountable table .alternatives start
        (Grammar.juxtaposed table (Grammar.alternatives table depth)) text start :=
      (accountable_juxtaposed (sound_alternatives depth) inside inner).mono
        fun word tree derives => ⟨[], tree, by simpa using .only derives⟩
    refine .bind sequence ((sound_juxtaposed (sound_alternatives depth)).soundAt text start) ?_
    intro before first spelled derives
    have second : Accountable table .alternatives start
        (do let _ ← symbol '|'; Grammar.alternatives table depth) text (start + before.length) := by
      refine .afterSymbol (spelled.le_size inside) (fun _ => .close ?_ spelled) fun bar => ?_
      · exact ⟨[], first, by simpa using .only derives⟩
      · have both := spelled_append.mpr ⟨spelled, bar⟩
        have place : start + before.length + 1 = start + (before ++ ['|'.toUInt8]).length := by
          rw [List.length_append, List.length_singleton, Nat.add_assoc]
        rw [place]
        refine (inner _ (by omega) (both.le_size inside)).behind both ?_
        exact fun word second following => ⟨[], .either first second, by simpa using .either derives following⟩
    refine .andThen (.maybe second) fun result place => ?_
    cases result with
    | none => exact .pure
    | some tree => exact .pure

/-- The error stands where the text in front of it can still become a whole pattern. -/
structure Located (table : ClassTable) (text : Array UInt8) (error : ParseError) : Prop where
  inside : error.position ≤ text.size
  completed : ∃ rest tree, parse table (text.take error.position ++ rest) = .ok tree
  trailing : error.failure = .trailingInput →
    error.position < text.size ∧ ∃ tree, parse table (text.take error.position) = .ok tree
  ended : error.failure = .unexpectedEnd → error.position = text.size

theorem take_of_spelled {word : List UInt8} (spelled : Spelled text 0 word) :
    (text.take word.length).toList = word := by
  have taken : (text.take word.length).toList = text.toList.take word.length := by simp
  exact taken.trans (List.prefix_iff_eq_take.mp spelled).symm

theorem located_of_blames (blames : Blames text 0 (Extends (Derives table .alternatives)) error) :
    Located table text error := by
  obtain ⟨⟨word, spelled, place, rest, tree, derives⟩, atEnd, unfinished⟩ := blames
  rw [Nat.zero_add] at place
  refine ⟨place ▸ spelled.length_le, ⟨rest.toArray, tree, parse_of_derives ?_⟩,
    fun trailing => absurd trailing unfinished, atEnd⟩
  rw [Array.toList_append, place, take_of_spelled spelled]
  exact derives

theorem located_of_trailing {word : List UInt8} {tree : Pattern} (spelled : Spelled text 0 word)
    (derives : Derives table .alternatives word tree) (more : word.length ≠ text.size) :
    Located table text ⟨word.length, .trailingInput⟩ := by
  have accepted : parse table (text.take word.length) = .ok tree :=
    parse_of_derives ((take_of_spelled spelled).symm ▸ derives)
  have shorter := spelled.length_le
  refine ⟨shorter, ⟨#[], tree, ?_⟩, fun _ => ⟨Nat.lt_of_le_of_ne shorter more, tree, accepted⟩, nofun⟩
  rw [Array.append_empty]
  exact accepted

theorem located_of_complete {after : Cursor}
    (fails : Grammar.complete table (text.size + 1) text ⟨0, none⟩ = .error error after) :
    Located table text error ∧ ∀ noted ∈ after.furthest, Located table text noted := by
  have enough : text.size ≤ 0 + (text.size + 1) := by omega
  have reports : Accountable table .alternatives 0 (Grammar.alternatives table (text.size + 1)) text 0 :=
    accountable_alternatives (text.size + 1) (Nat.zero_le text.size) enough
  have reports := reports none
  simp only [Grammar.complete, run_bind] at fails
  cases ran : Grammar.alternatives table (text.size + 1) text ⟨0, none⟩ with
  | error inner stop =>
    rw [ran] at fails reports
    obtain ⟨rfl, rfl⟩ := EStateM.Result.error.inj fails
    refine ⟨located_of_blames reports.1, fun noted known => ?_⟩
    exact located_of_blames ((reports.2 noted known).resolve_left (Option.not_mem_none noted))
  | ok tree stop =>
    obtain ⟨word, spelled, passed, derives⟩ := sound_alternatives _ text ⟨0, none⟩ tree stop ran
    rw [ran] at fails reports
    simp only [run_endOfInput] at fails
    by_cases ends : stop.position = text.size
    · rw [if_pos ends] at fails
      cases fails
    · rw [if_neg ends] at fails
      obtain ⟨rfl, rfl⟩ := EStateM.Result.error.inj fails
      rw [Nat.zero_add] at passed
      rw [passed] at ends ⊢
      refine ⟨located_of_trailing spelled derives ends, fun noted known => ?_⟩
      exact located_of_blames ((reports noted known).resolve_left (Option.not_mem_none noted))

/-- The position of an error is never past the first byte that no pattern can have there. -/
theorem located_of_parse (rejected : parse table text = .error error) : Located table text error := by
  have start : ({ } : Cursor) = ⟨0, none⟩ := rfl
  rw [parse, start] at rejected
  split at rejected
  next => cases rejected
  next final after ran =>
    obtain ⟨located, noted⟩ := located_of_complete ran
    obtain rfl := Except.error.inj rejected
    split
    next furthest known =>
      split
      · exact noted furthest known
      · exact located
    next => exact located

theorem located_of_parse_reversed :
    parse .standard "(a[z-a])".toUTF8.data = .error ⟨3, .invalidRange⟩ ∧
      Located .standard "(a[z-a])".toUTF8.data ⟨3, .invalidRange⟩ := by
  have rejected : parse .standard "(a[z-a])".toUTF8.data = .error ⟨3, .invalidRange⟩ := by decide +kernel
  exact ⟨rejected, located_of_parse rejected⟩

end ByteRegex.Pattern
