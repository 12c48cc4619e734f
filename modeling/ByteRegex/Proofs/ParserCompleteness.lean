import ByteRegex.Proofs.ParserSoundness

/-! Every derivation is found. The alternatives of a rule differ in their first byte, so one that is
not derived is refused there, and what may follow a word never lets a part of it go on. -/

namespace ByteRegex.Pattern

open ByteRegex.Parser

variable {table : ClassTable} {text : Array UInt8} {start : Nat} {word : List UInt8}

theorem yields_hexDigit {digit value : UInt8} (denotes : HexDigit digit value)
    (found : text[start]? = some digit) : Yields Grammar.hexDigit text start [digit] value := by
  have known := hexValue?_iff.mpr denotes
  refine .finish (.satisfying found (by simp [known])) ?_
  rw [known]
  exact .pure

theorem yields_hexByte {high low upper lower : UInt8} (front : HexDigit high upper)
    (rear : HexDigit low lower) (spelled : Spelled text start [high, low]) :
    Yields Grammar.hexByte text start [high, low] (16 * upper + lower) := by
  obtain ⟨first, spelled⟩ := spelled_cons.mp spelled
  have second := spelled_singleton.mp spelled
  rw [← nibbles front rear]
  exact Yields.bind (yields_hexDigit front first) (.finish (yields_hexDigit rear second) .pure)

theorem yields_escaped {value : UInt8} (escape : Escaped word value) (spelled : Spelled text start word) :
    Yields Grammar.escaped text start word value := by
  cases escape with
  | hex marked front rear =>
    obtain ⟨mark, spelled⟩ := spelled_cons.mp spelled
    refine .afterNothing .position (.afterByte mark ?_)
    rw [if_pos (startsHex_iff.mpr marked)]
    exact yields_hexByte front rear spelled
  | verbatim inside =>
    obtain ⟨unmarked, denotes⟩ := value?_of_verbatim _ inside
    refine .afterNothing .position (.afterByte (spelled_singleton.mp spelled) ?_)
    simp only [unmarked, denotes]
    exact .pure
  | control inside =>
    obtain ⟨unmarked, denotes⟩ := value?_of_control _ inside
    refine .afterNothing .position (.afterByte (spelled_singleton.mp spelled) ?_)
    simp only [unmarked, denotes]
    exact .pure

theorem Boundary.begins {byte : UInt8} (boundary : Boundary word byte) :
    ∃ first rest, word = first :: rest ∧ first ≠ ']'.toUInt8 ∧ first ≠ '-'.toUInt8 := by
  cases boundary with
  | escape => exact ⟨_, _, rfl, by decide, by decide⟩
  | plain plain =>
    obtain ⟨_, _, others⟩ := plain
    exact ⟨_, _, rfl, (others ']' (by simp)).symm, (others '-' (by simp)).symm⟩

theorem yields_boundary {byte : UInt8} (boundary : Boundary word byte) (spelled : Spelled text start word) :
    Yields Grammar.boundary text start word byte := by
  cases boundary with
  | escape escape =>
    obtain ⟨backslash, spelled⟩ := spelled_cons.mp spelled
    exact .sooner (.afterSymbol backslash (yields_escaped escape spelled))
  | plain plain =>
    have found := spelled_singleton.mp spelled
    have other : text[start]? ≠ some '\\'.toUInt8 := by
      intro backslash
      exact plain.2.2 '\\' (by simp) (Option.some.inj (backslash.symm.trans found))
    exact .later (.bind (.symbol other)) (.sooner (.satisfying found (plain_iff.mpr plain)))

/-- Neither what starts a boundary follows, nor a bracket that closes is one. -/
theorem refuses_bounds (closes : text[start]? = some ']'.toUInt8) : Refuses Grammar.bounds text start := by
  refine .afterPosition (.bind (.firstOf ?_))
  intro parser listed
  rcases List.mem_pair.mp listed with rfl | rfl
  · exact .bind (.symbol (by rw [closes]; decide))
  · refine .satisfying ?_
    intro byte found accepted
    have excluded := (plain_iff.mp accepted).2.2 ']' (by simp)
    exact excluded (Option.some.inj (closes.symm.trans found))

theorem Bounds.begins {range : ByteRange} (bounds : Bounds word range) :
    ∃ first rest, word = first :: rest ∧ first ≠ ']'.toUInt8 ∧ first ≠ '-'.toUInt8 := by
  cases bounds with
  | single boundary => exact boundary.begins
  | pair lower upper =>
    obtain ⟨first, rest, rfl, others⟩ := lower.begins
    exact ⟨first, _, rfl, others⟩

theorem yields_bounds {range : ByteRange} (bounds : Bounds word range) (spelled : Spelled text start word)
    (ends : text[start + word.length]? ≠ some '-'.toUInt8) :
    Yields Grammar.bounds text start word (start, range) := by
  cases bounds with
  | single boundary =>
    refine .afterNothing .position (.finish (yields_boundary boundary spelled) ?_)
    exact .finish (.absent (.bind (.symbol ends))) .pure
  | pair lower upper =>
    obtain ⟨front, spelled⟩ := spelled_append.mp spelled
    obtain ⟨dash, rear⟩ := spelled_cons.mp spelled
    refine .afterNothing .position (.bind (yields_boundary lower front) ?_)
    exact .finish (.present (.afterSymbol dash (yields_boundary upper rear))) .pure

theorem ordered_eq {range : ByteRange} (upright : range.first ≤ range.last) (place : Nat) :
    Grammar.ordered (place, range) = pure range := if_neg (UInt8.not_lt.mpr upright)

theorem yields_nextRange {range : ByteRange} (interval : Interval word range)
    (spelled : Spelled text start word) (ends : text[start + word.length]? ≠ some '-'.toUInt8)
    (ranges : Array ByteRange) :
    Yields (Grammar.nextRange ranges) text start word (some (ranges.push range)) := by
  obtain ⟨bounds, upright⟩ := interval
  refine .finish (.present (yields_bounds bounds spelled ends)) ?_
  simp only [ordered_eq upright]
  exact .pure

theorem advances_intervals {ranges : List ByteRange} (intervals : Intervals word ranges)
    (spelled : Spelled text start word) (ends : text[start + word.length]? ≠ some '-'.toUInt8) :
    ∃ lead rest range steps, word = lead ++ rest ∧ Interval lead range ∧
      text[start + lead.length]? ≠ some '-'.toUInt8 ∧ steps ≤ rest.length ∧
      Advances Grammar.nextRange text steps (start + lead.length) #[range] (start + word.length) ranges.toArray := by
  induction intervals with
  | one interval =>
    exact ⟨_, [], _, 0, (List.append_nil _).symm, interval, ends, Nat.le_refl 0, .refl⟩
  | @more before word ranges range intervals interval ih =>
    obtain ⟨front, rear⟩ := spelled_append.mp spelled
    rw [List.length_append, ← Nat.add_assoc] at ends
    obtain ⟨first, others, same, _, dash⟩ := interval.1.begins
    have next : text[start + before.length]? = some first := by
      subst same
      exact (spelled_cons.mp rear).1
    obtain ⟨lead, rest, initial, steps, rfl, begins, follows, fewer, advances⟩ :=
      ih front (by rw [next]; simpa using dash)
    refine ⟨lead, rest ++ word, initial, steps + 1, List.append_assoc .., begins, follows, ?_, ?_⟩
    · simp only [List.length_append, same, List.length_cons]
      omega
    · have last := advances.snoc (yields_nextRange interval rear ends ranges.toArray)
      rw [List.length_append, ← Nat.add_assoc]
      simpa using last

theorem yields_bracketedRest {ranges : List ByteRange} (intervals : Intervals word ranges) (inverted : Bool)
    (spelled : Spelled text start (word ++ [']'.toUInt8])) :
    Yields (Grammar.bracketedRest inverted) text start (word ++ [']'.toUInt8]) { ranges, inverted } := by
  obtain ⟨inside, closing⟩ := spelled_append.mp spelled
  have closes := spelled_singleton.mp closing
  obtain ⟨lead, rest, range, steps, rfl, ⟨bounds, upright⟩, follows, fewer, advances⟩ :=
    advances_intervals intervals inside (by rw [closes]; decide)
  obtain ⟨front, _⟩ := spelled_append.mp inside
  have enough := Nat.le_trans fewer inside.length_rear_le
  have place : start + (lead ++ rest).length = start + lead.length + rest.length := by
    rw [List.length_append, Nat.add_assoc]
  rw [place] at advances closes
  have done : Yields (Grammar.nextRange ranges.toArray) text (start + lead.length + rest.length) [] none :=
    .finish (.absent (refuses_bounds closes)) .pure
  rw [List.append_assoc]
  refine .bind (yields_bounds bounds front follows) ?_
  simp only [ordered_eq upright, pure_bind]
  exact .bind (advances.repeated enough done) (.finish (.symbol closes) .pure)

theorem caretless_of_spelled (spelled : Spelled text start (word ++ [']'.toUInt8]))
    (caretless : word.head? ≠ some '^'.toUInt8) : text[start]? ≠ some '^'.toUInt8 := by
  cases word with
  | nil =>
    rw [spelled_singleton.mp spelled]
    decide
  | cons first rest =>
    rw [(spelled_cons.mp spelled).1]
    exact caretless

theorem refuses_bracketed (other : text[start]? ≠ some '['.toUInt8) : Refuses Grammar.bracketed text start :=
  .bind (.symbol other)

theorem yields_namedClass {name : UInt8} {set : CharClass} (named : table.get? name = some set)
    (found : text[start]? = some name) : Yields (Grammar.namedClass table) text start [name] set := by
  refine .afterNothing .position (.afterByte found ?_)
  rw [named]
  exact .pure

/-- A byte that names nothing is passed before the failure, which still leaves an alternative. -/
theorem refuses_namedClass {name : UInt8} (nameless : table.get? name = none)
    (found : text[start]? = some name) : Refuses (Grammar.namedClass table) text start := by
  intro furthest
  refine ⟨⟨start, .invalid none⟩, start + 1, ?_, Nat.le_refl start, Nat.le_succ start, Nat.le_refl _⟩
  simp only [Grammar.namedClass, run_bind, run_position, run_anyByte, found, nameless, run_failAt]

theorem yields_byteMatch {set : CharClass} (found : ByteMatch table word set) (spelled : Spelled text start word) :
    Yields (Grammar.byteMatch table) text start word set := by
  cases found with
  | bracket intervals caretless =>
    obtain ⟨opens, spelled⟩ := spelled_cons.mp spelled
    have missing := caretless_of_spelled spelled caretless
    refine .sooner (.afterSymbol opens ?_)
    exact .afterNothing (.absent (.symbol missing)) (yields_bracketedRest intervals false spelled)
  | inverted intervals =>
    obtain ⟨opens, spelled⟩ := spelled_cons.mp spelled
    obtain ⟨caret, spelled⟩ := spelled_cons.mp spelled
    refine .sooner (.afterSymbol opens ?_)
    exact Yields.bind (.present (.symbol caret)) (yields_bracketedRest intervals true spelled)
  | any =>
    have dot := spelled_singleton.mp spelled
    refine .later (refuses_bracketed (by rw [dot]; decide)) (.sooner ?_)
    exact .afterSymbol dot .pure
  | named named =>
    obtain ⟨backslash, spelled⟩ := spelled_cons.mp spelled
    refine .later (refuses_bracketed (by rw [backslash]; decide)) ?_
    refine .later (.bind (.symbol (by rw [backslash]; decide))) (.sooner ?_)
    exact .afterSymbol backslash (.sooner (yields_namedClass named (spelled_singleton.mp spelled)))
  | escape nameless escape =>
    obtain ⟨backslash, spelled⟩ := spelled_cons.mp spelled
    refine .later (refuses_bracketed (by rw [backslash]; decide)) ?_
    refine .later (.bind (.symbol (by rw [backslash]; decide))) (.sooner ?_)
    refine .afterSymbol backslash (.later (refuses_namedClass nameless (spelled_cons.mp spelled).1) (.sooner ?_))
    exact .finish (yields_escaped escape spelled) .pure
  | @plain byte plain =>
    have here := spelled_singleton.mp spelled
    have other (char : Char) (special : char ∈ ['\\', '*', '?', ')', '|', '+', '[', ']', '(', '.']) :
        text[start]? ≠ some char.toUInt8 := by
      intro same
      exact plain.2.2 char special (Option.some.inj (same.symm.trans here))
    refine .later (refuses_bracketed (other '[' (by simp))) ?_
    refine .later (.bind (.symbol (other '.' (by simp)))) ?_
    refine .later (.bind (.symbol (other '\\' (by simp)))) (.sooner ?_)
    exact .finish (.satisfying here (plain_iff.mpr plain)) .pure

theorem ByteMatch.begins {set : CharClass} (found : ByteMatch table word set) :
    ∃ first rest, word = first :: rest ∧ ∀ char ∈ ['?', '+', '*', ')', '|', '('], first ≠ char.toUInt8 := by
  cases found with
  | @plain byte plain =>
    refine ⟨byte, [], rfl, ?_⟩
    intro char listed same
    refine plain.2.2 char ?_ same.symm
    simp only [List.mem_cons, List.not_mem_nil, or_false] at listed
    rcases listed with rfl | rfl | rfl | rfl | rfl | rfl <;> simp
  | _ => exact ⟨_, _, rfl, List.all_iff_forall_prop.mp (by decide)⟩

/-- No derivation that starts with an atom starts like what may follow one. -/
theorem Derives.begins {level : Level} {tree : Pattern} (derives : Derives table level word tree) :
    ∃ first rest, word = first :: rest ∧ ∀ char ∈ ['?', '+', '*', ')', '|'], first ≠ char.toUInt8 := by
  induction derives with
  | bytes found =>
    obtain ⟨first, rest, same, others⟩ := found.begins
    refine ⟨first, rest, same, ?_⟩
    intro char listed
    exact others char (List.mem_append_left ['('] listed)
  | group => exact ⟨_, _, rfl, List.all_iff_forall_prop.mp (by decide)⟩
  | bare _ ih | alone _ ih | only _ ih => exact ih
  | optional _ ih | oneOrMore _ ih | zeroOrMore _ ih | concat _ _ ih | either _ _ ih =>
    obtain ⟨first, rest, rfl, others⟩ := ih
    exact ⟨first, _, rfl, others⟩

/-- At the end of the text, before a closing parenthesis and before a bar there is no atom. -/
theorem refuses_quantified {whole : Parser Pattern}
    (stops : ∀ byte, text[start]? = some byte → byte = ')'.toUInt8 ∨ byte = '|'.toUInt8) :
    Refuses (Grammar.quantified table whole) text start := by
  have other (char : Char) (distinct : char.toUInt8 ≠ ')'.toUInt8 ∧ char.toUInt8 ≠ '|'.toUInt8) :
      text[start]? ≠ some char.toUInt8 := by
    intro found
    rcases stops _ found with same | same
    · exact distinct.1 same
    · exact distinct.2 same
  refine .bind (.firstOf ?_)
  intro parser listed
  rcases List.mem_pair.mp listed with rfl | rfl
  · exact .bind (.symbol (other '(' (by decide)))
  · refine .bind (.firstOf ?_)
    intro parser listed
    simp only [List.mem_cons, List.not_mem_nil, or_false] at listed
    rcases listed with rfl | rfl | rfl | rfl
    · exact refuses_bracketed (other '[' (by decide))
    · exact .bind (.symbol (other '.' (by decide)))
    · exact .bind (.symbol (other '\\' (by decide)))
    · refine .bind (.satisfying ?_)
      intro byte found accepted
      have excluded := (plain_iff.mp accepted).2.2
      rcases stops byte found with rfl | rfl
      · exact excluded ')' (by simp) rfl
      · exact excluded '|' (by simp) rfl

/-- What the parser of a level does on a word that is derived at it. A level below the alternatives
may be nested `depth` deep, and what follows the word must not be a part of it as well. -/
def Completes (table : ClassTable) : Level → List UInt8 → Pattern → Prop
  | .atom, word, tree => ∀ text start depth, Spelled text start word → word.length ≤ depth →
    Yields (Grammar.atom table (Grammar.alternatives table depth)) text start word tree
  | .quantified, word, tree => ∀ text start depth, Spelled text start word → word.length ≤ depth →
    (∀ char ∈ ['?', '+', '*'], text[start + word.length]? ≠ some char.toUInt8) →
    Yields (Grammar.quantified table (Grammar.alternatives table depth)) text start word tree
  | .sequence, word, tree => ∀ text start depth, Spelled text start word → word.length ≤ depth →
    (∀ char ∈ ['?', '+', '*'], text[start + word.length]? ≠ some char.toUInt8) →
    ∃ lead rest first steps, word = lead ++ rest ∧ steps ≤ rest.length ∧
      Yields (Grammar.quantified table (Grammar.alternatives table depth)) text start lead first ∧
      Advances (Grammar.nextAtom table (Grammar.alternatives table depth)) text steps
        (start + lead.length) first (start + word.length) tree
  | .alternatives, word, tree => ∀ text start depth, Spelled text start word → word.length < depth →
    (∀ byte, text[start + word.length]? = some byte → byte = ')'.toUInt8) →
    Yields (Grammar.alternatives table depth) text start word tree

theorem completes_group {tree : Pattern} (content : Completes table .alternatives word tree) :
    Completes table .atom ('('.toUInt8 :: (word ++ [')'.toUInt8])) tree := by
  intro text start depth spelled shallow
  obtain ⟨opens, spelled⟩ := spelled_cons.mp spelled
  obtain ⟨inside, closing⟩ := spelled_append.mp spelled
  have closes := spelled_singleton.mp closing
  simp only [List.length_cons, List.length_append] at shallow
  have inner := content text (start + 1) depth inside (by omega) (by simp [closes])
  exact .sooner (.afterSymbol opens (.bind inner (.finish (.symbol closes) .pure)))

theorem completes_bytes {set : CharClass} (found : ByteMatch table word set) :
    Completes table .atom word (.bytes set) := by
  intro text start depth spelled _
  obtain ⟨first, rest, same, others⟩ := found.begins
  have other : text[start]? ≠ some '('.toUInt8 := by
    subst same
    rw [(spelled_cons.mp spelled).1]
    simpa using others '(' (by simp)
  exact .later (.bind (.symbol other)) (.sooner (.finish (yields_byteMatch found spelled) .pure))

theorem completes_bare {tree : Pattern} (body : Completes table .atom word tree) :
    Completes table .quantified word tree := by
  intro text start depth spelled shallow ends
  rw [quantified_eq]
  refine .finish (body text start depth spelled shallow) ?_
  refine .later (.bind (.symbol (ends '?' (by simp)))) ?_
  refine .later (.bind (.symbol (ends '+' (by simp)))) ?_
  exact .later (.bind (.symbol (ends '*' (by simp)))) (.sooner .pure)

theorem completes_marked {mark : Char} {tree marked : Pattern} (body : Completes table .atom word tree)
    (chosen : ∀ text start, text[start]? = some mark.toUInt8 →
      Yields (Grammar.quantifier tree) text start [mark.toUInt8] marked) :
    Completes table .quantified (word ++ [mark.toUInt8]) marked := by
  intro text start depth spelled shallow _
  obtain ⟨inside, behind⟩ := spelled_append.mp spelled
  rw [List.length_append] at shallow
  rw [quantified_eq]
  exact .bind (body text start depth inside (by omega)) (chosen text _ (spelled_singleton.mp behind))

theorem yields_optional (tree : Pattern) (mark : text[start]? = some '?'.toUInt8) :
    Yields (Grammar.quantifier tree) text start ['?'.toUInt8] (.optional tree) :=
  .sooner (.finish (.symbol mark) .pure)

theorem yields_oneOrMore (tree : Pattern) (mark : text[start]? = some '+'.toUInt8) :
    Yields (Grammar.quantifier tree) text start ['+'.toUInt8] (.oneOrMore tree) := by
  refine .later (.bind (.symbol (by rw [mark]; decide))) ?_
  exact .sooner (.finish (.symbol mark) .pure)

theorem yields_zeroOrMore (tree : Pattern) (mark : text[start]? = some '*'.toUInt8) :
    Yields (Grammar.quantifier tree) text start ['*'.toUInt8] (.zeroOrMore tree) := by
  refine .later (.bind (.symbol (by rw [mark]; decide))) ?_
  refine .later (.bind (.symbol (by rw [mark]; decide))) ?_
  exact .sooner (.finish (.symbol mark) .pure)

theorem yields_nextAtom {whole : Parser Pattern} {next : Pattern} (before : Pattern)
    (yields : Yields (Grammar.quantified table whole) text start word next) :
    Yields (Grammar.nextAtom table whole before) text start word (some (.concat before next)) := by
  intro furthest
  have ran := yields furthest
  rcases run_nextAtom before text ⟨start, furthest⟩ with ⟨found, after, succeeds, ends⟩ | ⟨_, _, fails, _⟩
  · obtain ⟨rfl, rfl⟩ := EStateM.Result.ok.inj (ran.symm.trans succeeds)
    exact ends
  · cases ran.symm.trans fails

theorem ends_nextAtom {whole : Parser Pattern} (before : Pattern)
    (refuses : Refuses (Grammar.quantified table whole) text start) :
    Yields (Grammar.nextAtom table whole before) text start [] none := by
  intro furthest
  obtain ⟨error, stop, ran, near, _⟩ := refuses furthest
  rcases run_nextAtom before text ⟨start, furthest⟩ with ⟨_, _, succeeds, _⟩ | ⟨_, _, fails, ends⟩
  · cases ran.symm.trans succeeds
  · obtain ⟨rfl, rfl⟩ := EStateM.Result.error.inj (ran.symm.trans fails)
    rw [if_neg (Nat.not_lt_of_le near)] at ends
    exact ends

theorem completes_alone {tree : Pattern} (only : Completes table .quantified word tree) :
    Completes table .sequence word tree := by
  intro text start depth spelled shallow ends
  exact ⟨word, [], tree, 0, (List.append_nil word).symm, Nat.le_refl 0,
    only text start depth spelled shallow ends, .refl⟩

theorem completes_concat {before : List UInt8} {first second : Pattern}
    (derives : Derives table .quantified word second) (front : Completes table .sequence before first)
    (last : Completes table .quantified word second) :
    Completes table .sequence (before ++ word) (.concat first second) := by
  intro text start depth spelled shallow ends
  obtain ⟨spelledFront, spelledLast⟩ := spelled_append.mp spelled
  rw [List.length_append] at shallow
  rw [List.length_append, ← Nat.add_assoc] at ends ⊢
  obtain ⟨byte, others, same, distinct⟩ := derives.begins
  have next : text[start + before.length]? = some byte := by
    subst same
    exact (spelled_cons.mp spelledLast).1
  have separate : ∀ char ∈ ['?', '+', '*'], text[start + before.length]? ≠ some char.toUInt8 := by
    intro char listed
    rw [next]
    simpa using distinct char (List.mem_append_left [')', '|'] listed)
  obtain ⟨lead, rest, initial, steps, rfl, fewer, yields, advances⟩ :=
    front text start depth spelledFront (by omega) separate
  refine ⟨lead, rest ++ word, initial, steps + 1, List.append_assoc .., ?_, yields, ?_⟩
  · simp only [List.length_append, same, List.length_cons]
    omega
  · -- One atom more is one step more of the repetition.
    exact advances.snoc (yields_nextAtom first (last text _ depth spelledLast (by omega) ends))

/-- A sequence is complete where no atom can follow. -/
theorem yields_juxtaposed {tree : Pattern} (sequence : Completes table .sequence word tree) {depth : Nat}
    (spelled : Spelled text start word) (shallow : word.length ≤ depth)
    (stops : ∀ byte, text[start + word.length]? = some byte → byte = ')'.toUInt8 ∨ byte = '|'.toUInt8) :
    Yields (Grammar.juxtaposed table (Grammar.alternatives table depth)) text start word tree := by
  have apart : ∀ char ∈ ['?', '+', '*'], ¬ (char.toUInt8 = ')'.toUInt8 ∨ char.toUInt8 = '|'.toUInt8) :=
    List.all_iff_forall_prop.mp (by decide)
  have ends : ∀ char ∈ ['?', '+', '*'], text[start + word.length]? ≠ some char.toUInt8 :=
    fun char listed found => apart char listed (stops _ found)
  obtain ⟨lead, rest, first, steps, rfl, fewer, yields, advances⟩ :=
    sequence text start depth spelled shallow ends
  have enough := Nat.le_trans fewer spelled.length_rear_le
  rw [List.length_append, ← Nat.add_assoc] at advances stops
  rw [juxtaposed_eq]
  exact .bind yields (advances.repeated enough (ends_nextAtom tree (refuses_quantified stops)))

theorem completes_only {tree : Pattern} (sequence : Completes table .sequence word tree) :
    Completes table .alternatives word tree := by
  intro text start depth spelled shallow ends
  obtain ⟨depth, rfl⟩ := Nat.exists_eq_add_of_le' (Nat.one_le_of_lt shallow)
  refine .finish (yields_juxtaposed sequence spelled (by omega) fun byte found => .inl (ends byte found)) ?_
  refine .finish (.absent (.bind (.symbol ?_))) .pure
  intro bar
  exact absurd (ends _ bar) (by decide)

theorem completes_either {before : List UInt8} {first second : Pattern}
    (front : Completes table .sequence before first) (rear : Completes table .alternatives word second) :
    Completes table .alternatives (before ++ '|'.toUInt8 :: word) (.either first second) := by
  intro text start depth spelled shallow ends
  obtain ⟨depth, rfl⟩ := Nat.exists_eq_add_of_le' (Nat.one_le_of_lt shallow)
  obtain ⟨spelledFront, spelled⟩ := spelled_append.mp spelled
  obtain ⟨bar, spelledRear⟩ := spelled_cons.mp spelled
  rw [List.length_append, List.length_cons] at shallow
  rw [List.length_append, List.length_cons, Nat.add_comm word.length, ← Nat.add_assoc, ← Nat.add_assoc] at ends
  refine .bind (yields_juxtaposed front spelledFront (by omega) ?_) ?_
  · intro byte found
    exact .inr (Option.some.inj (found.symm.trans bar))
  · -- The second alternative is nested one deeper, and shorter by the bar at least.
    exact .finish (.present (.afterSymbol bar (rear text _ depth spelledRear (by omega) ends))) .pure

theorem Derives.completes {level : Level} {tree : Pattern} (derives : Derives table level word tree) :
    Completes table level word tree := by
  induction derives with
  | bytes found => exact completes_bytes found
  | group _ content => exact completes_group content
  | bare _ body => exact completes_bare body
  | optional _ body => exact completes_marked body fun _ _ => yields_optional _
  | oneOrMore _ body => exact completes_marked body fun _ _ => yields_oneOrMore _
  | zeroOrMore _ body => exact completes_marked body fun _ _ => yields_zeroOrMore _
  | alone _ only => exact completes_alone only
  | concat _ derives front last => exact completes_concat derives front last
  | only _ sequence => exact completes_only sequence
  | either _ _ front rear => exact completes_either front rear

theorem parse_of_derives {tree : Pattern} (derives : Derives table .alternatives text.toList tree) :
    parse table text = .ok tree := by
  have ran := derives.completes text 0 (text.size + 1) (spelled_toList text) (Nat.lt_succ_self text.size)
    (by simp) none
  have ends := complete_eq_ok_iff.mpr ⟨ran, Nat.zero_add _⟩
  have start : ({ } : Cursor) = ⟨0, none⟩ := rfl
  rw [parse, start, ends]

/-- The parser accepts exactly the texts that the grammar derives, and with the tree of the derivation. -/
theorem parse_eq_ok_iff (table : ClassTable) (text : Array UInt8) (tree : Pattern) :
    parse table text = .ok tree ↔ Derives table .alternatives text.toList tree :=
  ⟨derives_of_parse, parse_of_derives⟩

end ByteRegex.Pattern
