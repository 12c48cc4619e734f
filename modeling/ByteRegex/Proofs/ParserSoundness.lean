import ByteRegex.Pattern.Grammar
import ByteRegex.Proofs.Derivations
import ByteRegex.Proofs.Parsing
import Mathlib.Data.List.Basic

/-! Every tree that the parser returns is derived from the text that it passed. -/

namespace ByteRegex.Pattern

open ByteRegex.Parser

theorem sound_hexDigit : Sound Grammar.hexDigit fun word value =>
    ∃ digit, word = [digit] ∧ HexDigit digit value := by
  refine .bind .satisfying ?_
  intro before digit ⟨passed, accepted⟩
  obtain ⟨value, denotes⟩ := Option.isSome_iff_exists.mp accepted
  subst passed
  exact .pure ⟨digit, rfl, hexValue?_iff.mp (by simp [denotes])⟩

theorem sound_hexByte : Sound Grammar.hexByte fun word value => ∃ high low upper lower,
    word = [high, low] ∧ HexDigit high upper ∧ HexDigit low lower ∧ value = 16 * upper + lower := by
  refine .bind sound_hexDigit ?_
  intro before upper ⟨high, passed, front⟩
  subst passed
  refine .bind sound_hexDigit ?_
  intro before lower ⟨low, passed, rear⟩
  subst passed
  exact .pure ⟨high, low, upper, lower, rfl, front, rear, nibbles front rear⟩

theorem sound_escaped : Sound Grammar.escaped Escaped := by
  refine .bind .position ?_
  intro before start passed
  subst passed
  refine .bind .anyByte ?_
  intro before byte passed
  subst passed
  split
  next marked =>
    refine sound_hexByte.mono ?_
    intro word value ⟨high, low, upper, lower, spelled, front, rear, same⟩
    subst spelled same
    exact .hex (startsHex_iff.mp marked) front rear
  next =>
    split
    next value denotes => exact .pure (.of_value? denotes)
    next => exact .failAt

theorem sound_boundary : Sound Grammar.boundary Boundary := by
  apply Sound.firstOf
  intro parser listed
  rcases List.mem_pair.mp listed with rfl | rfl
  · refine .bind .symbol ?_
    intro before _ passed
    subst passed
    exact sound_escaped.mono fun _ _ escape => .escape escape
  · refine Sound.satisfying.mono ?_
    intro word byte ⟨passed, accepted⟩
    subst passed
    exact .plain (plain_iff.mp accepted)

theorem sound_bounds : Sound Grammar.bounds fun word result => Bounds word result.2 := by
  refine .bind .position ?_
  intro before start passed
  subst passed
  refine .bind sound_boundary ?_
  intro lower first front
  have last : Sound (maybe do let _ ← symbol '-'; Grammar.boundary) fun word result =>
      word = [] ∧ result = none ∨
        ∃ upper last, word = '-'.toUInt8 :: upper ∧ result = some last ∧ Boundary upper last := by
    refine .maybe (.bind .symbol ?_) (.inl ⟨rfl, rfl⟩)
    intro before _ passed
    subst passed
    exact sound_boundary.mono fun upper last rear => .inr ⟨upper, last, rfl, rfl, rear⟩
  refine .bind last ?_
  intro word result found
  rcases found with ⟨passed, none⟩ | ⟨upper, last, passed, some, rear⟩
  · subst passed none
    exact .pure (by simpa using .single front)
  · subst passed some
    exact .pure (by simpa using .pair front rear)

theorem sound_ordered (bounds : Nat × ByteRange) : Sound (Grammar.ordered bounds) fun word range =>
    word = [] ∧ range = bounds.2 ∧ range.first ≤ range.last := by
  obtain ⟨start, range⟩ := bounds
  rw [Grammar.ordered]
  split
  next => exact .failAt
  next upright => exact .pure ⟨rfl, rfl, UInt8.not_lt.mp upright⟩

def Grammar.nextRange (ranges : Array ByteRange) : Parser (Option (Array ByteRange)) := do
  match ← maybe bounds with
  | some range => return some (ranges.push (← ordered range))
  | none => return none

/-- A bracketed class behind its bracket and its caret. -/
def Grammar.bracketedRest (inverted : Bool) : Parser CharClass := do
  let first ← ordered (← bounds)
  let ranges ← repeated #[first] nextRange
  let _ ← symbol ']'
  return { ranges := ranges.toList, inverted }

theorem bracketed_eq : Grammar.bracketed = (do
    let _ ← symbol '['
    let caret ← maybe (symbol '^')
    Grammar.bracketedRest caret.isSome) := rfl

theorem sound_nextRange {before : List UInt8} {ranges : Array ByteRange}
    (intervals : Intervals before ranges.toList) : Sound (Grammar.nextRange ranges) fun word result =>
      result.elim (word = []) fun longer => Intervals (before ++ word) longer.toList := by
  have found : Sound (maybe Grammar.bounds) fun word result =>
      result.elim (word = []) fun bounds => Bounds word bounds.2 := .maybe sound_bounds rfl
  refine .bind found ?_
  intro word result found
  cases result with
  | none => exact .pure (by simpa using found)
  | some bounds =>
    refine .bind (sound_ordered bounds) ?_
    intro rest range ⟨passed, same, upright⟩
    subst passed same
    refine .pure ?_
    simp only [List.append_nil, Option.elim_some, Array.toList_push]
    exact .more intervals ⟨found, upright⟩

theorem sound_bracketedRest (inverted : Bool) : Sound (Grammar.bracketedRest inverted) fun word set =>
    ∃ inside ranges, word = inside ++ [']'.toUInt8] ∧ Intervals inside ranges ∧ set = { ranges, inverted } := by
  refine .bind sound_bounds ?_
  intro word bounds range
  refine .bind (sound_ordered bounds) ?_
  intro rest first ⟨passed, same, upright⟩
  subst passed same
  refine .bind (.repeated (fun word ranges => Intervals word ranges.toList)
    (fun _ _ => sound_nextRange) (.one ⟨range, upright⟩)) ?_
  intro more ranges intervals
  refine .bind .symbol ?_
  intro closing _ passed
  subst passed
  exact .pure ⟨word ++ more, ranges.toList, by simp, intervals, rfl⟩

theorem sound_bracketed (table : ClassTable) : Sound Grammar.bracketed (ByteMatch table) := by
  rw [bracketed_eq]
  refine .bind .symbol ?_
  intro before _ passed
  subst passed
  refine .optionally ?_ ?_
  · refine (sound_bracketedRest true).mono ?_
    intro word set ⟨inside, ranges, passed, intervals, same⟩
    subst passed same
    exact .inverted intervals
  · refine (sound_bracketedRest false).mono ?_
    intro word set ⟨inside, ranges, passed, intervals, same⟩ caret
    subst passed same
    refine .bracket intervals ?_
    cases inside with
    | nil => simp
    | cons byte rest => exact caret

theorem sound_namedClass (table : ClassTable) : Sound (Grammar.namedClass table) fun word set =>
    ∃ name, word = [name] ∧ table.get? name = some set := by
  refine .bind .position ?_
  intro before start passed
  subst passed
  refine .bind .anyByte ?_
  intro before name passed
  subst passed
  split
  next set found => exact .pure ⟨name, rfl, found⟩
  next => exact .failAt

/-- Where no class is found, the byte names none. -/
theorem get?_of_namedClass {table : ClassTable} {text : Array UInt8} {before after : Cursor}
    {error : ParseError} {name : UInt8}
    (fails : Grammar.namedClass table text before = .error error after)
    (here : text[before.position]? = some name) : table.get? name = none := by
  simp only [Grammar.namedClass, run_bind, run_position, run_anyByte, here] at fails
  cases found : table.get? name with
  | none => rfl
  | some set =>
    rw [found] at fails
    cases fails

/-- A name or, where the byte names nothing, an escape sequence. -/
theorem sound_backslash (table : ClassTable) :
    Sound (firstOf [Grammar.namedClass table, return .single (← Grammar.escaped)]) fun word =>
      ByteMatch table ('\\'.toUInt8 :: word) := by
  intro text before set final succeeds
  rw [run_firstOf] at succeeds
  cases ran : Grammar.namedClass table text before with
  | ok found after =>
    rw [ran] at succeeds
    injection succeeds with same moved
    subst same moved
    obtain ⟨word, spelled, passed, name, same, named⟩ := sound_namedClass table text before found after ran
    subst same
    exact ⟨[name], spelled, passed, .named named⟩
  | error error after =>
    rw [ran] at succeeds
    simp only at succeeds
    split at succeeds
    next => cases succeeds
    next =>
      have single : Sound (return CharClass.single (← Grammar.escaped)) fun word set =>
          ∃ byte, Escaped word byte ∧ set = .single byte := by
        refine .bind sound_escaped ?_
        intro before byte escape
        exact .pure ⟨byte, by rwa [List.append_nil], rfl⟩
      obtain ⟨word, spelled, passed, byte, escape, same⟩ := single text _ set final succeeds
      subst same
      refine ⟨word, spelled, passed, ?_⟩
      cases word with
      | nil => cases escape
      | cons name rest =>
        exact .escape (get?_of_namedClass ran (spelled_cons.mp spelled).1) escape

theorem sound_byteMatch (table : ClassTable) : Sound (Grammar.byteMatch table) (ByteMatch table) := by
  apply Sound.firstOf
  intro parser listed
  simp only [List.mem_cons, List.not_mem_nil, or_false] at listed
  rcases listed with rfl | rfl | rfl | rfl
  · exact sound_bracketed table
  · refine .bind .symbol ?_
    intro before _ passed
    subst passed
    exact .pure .any
  · refine .bind .symbol ?_
    intro before _ passed
    subst passed
    exact sound_backslash table
  · refine .bind .satisfying ?_
    intro before byte ⟨passed, accepted⟩
    subst passed
    exact .pure (.plain (plain_iff.mp accepted))

variable {table : ClassTable} {whole : Parser Pattern}

theorem sound_atom (inner : Sound whole (Derives table .alternatives)) :
    Sound (Grammar.atom table whole) (Derives table .atom) := by
  apply Sound.firstOf
  intro parser listed
  rcases List.mem_pair.mp listed with rfl | rfl
  · refine .bind .symbol ?_
    intro before _ passed
    subst passed
    refine .bind inner ?_
    intro word tree derives
    refine .bind .symbol ?_
    intro closing _ passed
    subst passed
    exact .pure (.group derives)
  · refine .bind (sound_byteMatch table) ?_
    intro word set found
    exact .pure (by simpa using .bytes found)

/-- The mark behind an atom, if it has one. -/
def Grammar.quantifier (body : Pattern) : Parser Pattern :=
  firstOf [
    do let _ ← symbol '?'; return .optional body,
    do let _ ← symbol '+'; return .oneOrMore body,
    do let _ ← symbol '*'; return .zeroOrMore body,
    return body]

theorem quantified_eq : Grammar.quantified table whole = Grammar.atom table whole >>= Grammar.quantifier := rfl

theorem sound_mark {char : Char} {result : Pattern} :
    Sound (do let _ ← symbol char; return result) fun word tree => word = [char.toUInt8] ∧ tree = result := by
  refine .bind .symbol ?_
  intro mark _ passed
  subst passed
  exact .pure ⟨rfl, rfl⟩

theorem sound_quantifier {word : List UInt8} {body : Pattern} (derives : Derives table .atom word body) :
    Sound (Grammar.quantifier body) fun mark => Derives table .quantified (word ++ mark) := by
  apply Sound.firstOf
  intro parser listed
  simp only [List.mem_cons, List.not_mem_nil, or_false] at listed
  rcases listed with rfl | rfl | rfl | rfl
  · exact sound_mark.mono fun _ _ ⟨passed, same⟩ => passed ▸ same ▸ .optional derives
  · exact sound_mark.mono fun _ _ ⟨passed, same⟩ => passed ▸ same ▸ .oneOrMore derives
  · exact sound_mark.mono fun _ _ ⟨passed, same⟩ => passed ▸ same ▸ .zeroOrMore derives
  · exact .pure (by simpa using .bare derives)

theorem sound_quantified (inner : Sound whole (Derives table .alternatives)) :
    Sound (Grammar.quantified table whole) (Derives table .quantified) := by
  rw [quantified_eq]
  exact .bind (sound_atom inner) fun _ _ derives => sound_quantifier derives

/-- One atom more of a sequence, if the text goes on with one. -/
def Grammar.nextAtom (table : ClassTable) (whole : Parser Pattern) (before : Pattern) :
    Parser (Option Pattern) := do
  let start ← position
  match ← attempt (quantified table whole) with
  | .ok next => return some (.concat before next)
  | .error error =>
    if start < error.position then note error
    moveTo start
    return none

theorem juxtaposed_eq : Grammar.juxtaposed table whole = (do
    let first ← Grammar.quantified table whole
    repeated first (Grammar.nextAtom table whole)) := rfl

/-- The sequence goes on exactly if its next atom is accepted. It notes why it does not, unless the atom
fails where it begins. -/
theorem run_nextAtom (before : Pattern) (text : Array UInt8) (cursor : Cursor) :
    (∃ next after, Grammar.quantified table whole text cursor = .ok next after ∧
      Grammar.nextAtom table whole before text cursor = .ok (some (.concat before next)) after) ∨
    ∃ error after, Grammar.quantified table whole text cursor = .error error after ∧
      Grammar.nextAtom table whole before text cursor = .ok none ⟨cursor.position,
        if cursor.position < error.position then furthestOf error after.furthest else after.furthest⟩ := by
  cases ran : Grammar.quantified table whole text cursor with
  | ok next after =>
    refine .inl ⟨next, after, rfl, ?_⟩
    simp only [Grammar.nextAtom, run_bind, run_position, attempt, ran, run_pure]
  | error error after =>
    refine .inr ⟨error, after, rfl, ?_⟩
    by_cases further : cursor.position < error.position
    · simp only [Grammar.nextAtom, run_bind, run_position, attempt, ran, further, if_true, run_note,
        run_moveTo, run_pure]
    · simp only [Grammar.nextAtom, run_bind, run_position, attempt, ran, further, if_false,
        run_moveTo, run_pure]

theorem sound_nextAtom (inner : Sound whole (Derives table .alternatives)) {word : List UInt8} {before : Pattern}
    (derives : Derives table .sequence word before) :
    Sound (Grammar.nextAtom table whole before) fun rest result =>
      result.elim (rest = []) (Derives table .sequence (word ++ rest)) := by
  intro text cursor result final succeeds
  rcases run_nextAtom before text cursor with ⟨next, after, ran, ends⟩ | ⟨_, after, _, ends⟩
  · obtain ⟨same, moved⟩ := EStateM.Result.ok.inj (ends.symm.trans succeeds)
    subst same moved
    obtain ⟨rest, spelled, passed, following⟩ := sound_quantified inner text cursor next after ran
    exact ⟨rest, spelled, passed, .concat derives following⟩
  · obtain ⟨same, moved⟩ := EStateM.Result.ok.inj (ends.symm.trans succeeds)
    subst same moved
    exact ⟨[], spelled_nil, rfl, rfl⟩

theorem sound_juxtaposed (inner : Sound whole (Derives table .alternatives)) :
    Sound (Grammar.juxtaposed table whole) (Derives table .sequence) := by
  rw [juxtaposed_eq]
  refine .bind (sound_quantified inner) ?_
  intro word tree derives
  exact .repeated (Derives table .sequence) (fun _ _ => sound_nextAtom inner) (.alone derives)

theorem sound_alternatives (depth : Nat) :
    Sound (Grammar.alternatives table depth) (Derives table .alternatives) := by
  induction depth with
  | zero =>
    refine .bind .position ?_
    intro before start passed
    exact .failAt
  | succ depth ih =>
    refine .bind (sound_juxtaposed ih) ?_
    intro word first derives
    have second : Sound (maybe do let _ ← symbol '|'; Grammar.alternatives table depth) fun rest result =>
        result.elim (rest = []) fun tree =>
          ∃ word, rest = '|'.toUInt8 :: word ∧ Derives table .alternatives word tree := by
      refine .maybe (.bind .symbol ?_) rfl
      intro before _ passed
      subst passed
      exact ih.mono fun word tree derives => ⟨word, rfl, derives⟩
    refine .bind second ?_
    intro rest result found
    cases result with
    | none =>
      subst found
      exact .pure (by simpa using .only derives)
    | some tree =>
      obtain ⟨word, passed, following⟩ := found
      subst passed
      exact .pure (by simpa using .either derives following)

theorem complete_eq_ok_iff {depth : Nat} {text : Array UInt8} {before after : Cursor} {tree : Pattern} :
    Grammar.complete table depth text before = .ok tree after ↔
      Grammar.alternatives table depth text before = .ok tree after ∧ after.position = text.size := by
  simp only [Grammar.complete, run_bind]
  cases Grammar.alternatives table depth text before with
  | error error stop => simp
  | ok found stop =>
    simp only [run_endOfInput]
    by_cases ends : stop.position = text.size
    · simp only [ends, if_true, run_pure, EStateM.Result.ok.injEq]
      grind
    · simp only [ends, if_false, EStateM.Result.ok.injEq]
      grind

/-- The tree that the parser returns is derived from the whole text. -/
theorem derives_of_parse {text : Array UInt8} {tree : Pattern} (succeeds : parse table text = .ok tree) :
    Derives table .alternatives text.toList tree := by
  rw [parse] at succeeds
  split at succeeds
  next after ran =>
    obtain rfl := Except.ok.inj succeeds
    obtain ⟨inner, ends⟩ := complete_eq_ok_iff.mp ran
    obtain ⟨word, spelled, passed, derives⟩ := sound_alternatives _ text _ _ after inner
    rw [ends, Nat.zero_add] at passed
    exact spelled.eq_toList passed.symm ▸ derives
  next => cases succeeds

end ByteRegex.Pattern
