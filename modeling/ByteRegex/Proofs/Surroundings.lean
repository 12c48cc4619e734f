import ByteRegex.Proofs.ParserCompleteness
import ByteRegex.Proofs.Trimness

/-! What is around a character match in a pattern, and what can stand there instead. A class with a range the
wrong way round is such a match but for the order of two boundaries. -/

namespace ByteRegex.Pattern

open ByteRegex.Parser

def Ranges (word : List UInt8) : Prop := word = [] ∨ ∃ ranges, Intervals word ranges

/-- Ranges of which one is the wrong way round, the place where it starts, and what the ranges become when its
boundaries are exchanged. -/
inductive Reversed : (word : List UInt8) → (place : Nat) → (mended : List UInt8) → Prop
  | among {before lower upper after first last} : Ranges before → Boundary lower first → Boundary upper last →
    last < first → Ranges after → Reversed (before ++ (lower ++ '-'.toUInt8 :: upper) ++ after) before.length
      (before ++ (upper ++ '-'.toUInt8 :: lower) ++ after)

inductive Flawed : (word : List UInt8) → (place : Nat) → (mended : List UInt8) → Prop
  | bracket {word place mended} : Reversed word place mended → word.head? ≠ some '^'.toUInt8 →
    mended.head? ≠ some '^'.toUInt8 →
    Flawed ('['.toUInt8 :: (word ++ [']'.toUInt8])) (1 + place) ('['.toUInt8 :: (mended ++ [']'.toUInt8]))
  | inverted {word place mended} : Reversed word place mended →
    Flawed ('['.toUInt8 :: '^'.toUInt8 :: (word ++ [']'.toUInt8])) (2 + place)
      ('['.toUInt8 :: '^'.toUInt8 :: (mended ++ [']'.toUInt8]))

/-- What is in front of a character match, opening parentheses aside: nothing, another atom or a bar. -/
inductive Standing
  | foremost
  | later
  | behindBar
  deriving DecidableEq

def Standing.afterAtom : Standing → Standing
  | foremost => later
  | standing => standing

def Standing.afterBar : Standing → Standing
  | foremost => behindBar
  | standing => standing

theorem Standing.afterAtom_ne (standing : Standing) : standing.afterAtom ≠ .foremost := by
  cases standing <;> decide

theorem Standing.afterBar_ne (standing : Standing) : standing.afterBar ≠ .foremost := by
  cases standing <;> decide

/-- What is around one character match in a word of a level. -/
inductive Around (table : ClassTable) : Standing → Level → (front rear : List UInt8) → Prop
  | here : Around table .foremost .atom [] []
  | group {standing front rear} : Around table standing .alternatives front rear →
    Around table standing .atom ('('.toUInt8 :: front) (rear ++ [')'.toUInt8])
  | bare {standing front rear} : Around table standing .atom front rear →
    Around table standing .quantified front rear
  | marked {standing front rear mark} : mark ∈ ['?', '+', '*'] → Around table standing .atom front rear →
    Around table standing .quantified front (rear ++ [mark.toUInt8])
  | alone {standing front rear} : Around table standing .quantified front rear →
    Around table standing .sequence front rear
  | first {standing front rear word tree} : Around table standing .sequence front rear →
    Derives table .quantified word tree → Around table standing .sequence front (rear ++ word)
  | second {standing front rear before tree} : Derives table .sequence before tree →
    Around table standing .quantified front rear →
    Around table standing.afterAtom .sequence (before ++ front) rear
  | only {standing front rear} : Around table standing .sequence front rear →
    Around table standing .alternatives front rear
  | left {standing front rear word tree} : Around table standing .sequence front rear →
    Derives table .alternatives word tree → Around table standing .alternatives front (rear ++ '|'.toUInt8 :: word)
  | right {standing front rear before tree} : Derives table .sequence before tree →
    Around table standing .alternatives front rear →
    Around table standing.afterBar .alternatives (before ++ '|'.toUInt8 :: front) rear

variable {before after word front rear mended : List UInt8} {place : Nat} {table : ClassTable}
  {standing : Standing} {level : Level}

theorem Intervals.append {ranges others : List ByteRange} (left : Intervals before ranges)
    (right : Intervals after others) : Intervals (before ++ after) (ranges ++ others) := by
  induction right with
  | one interval => exact .more left interval
  | more _ interval ih =>
    rw [← List.append_assoc, ← List.append_assoc]
    exact .more ih interval

theorem Reversed.intervals (reversed : Reversed word place mended) : ∃ ranges, Intervals mended ranges := by
  obtain @⟨before, lower, upper, after, first, last, left, low, high, below, right⟩ := reversed
  have interval : Interval (upper ++ '-'.toUInt8 :: lower) ⟨last, first⟩ := ⟨.pair high low, UInt8.le_of_lt below⟩
  have front : ∃ ranges, Intervals (before ++ (upper ++ '-'.toUInt8 :: lower)) ranges := by
    rcases left with rfl | ⟨ranges, intervals⟩
    · exact ⟨_, .one interval⟩
    · exact ⟨_, .more intervals interval⟩
  obtain ⟨ranges, intervals⟩ := front
  rcases right with rfl | ⟨others, more⟩
  · exact ⟨ranges, by rwa [List.append_nil]⟩
  · exact ⟨_, intervals.append more⟩

theorem Flawed.byteMatch (table : ClassTable) (flawed : Flawed word place mended) :
    ∃ set, ByteMatch table mended set := by
  cases flawed with
  | bracket reversed _ caretless =>
    obtain ⟨ranges, intervals⟩ := reversed.intervals
    exact ⟨_, .bracket intervals caretless⟩
  | inverted reversed =>
    obtain ⟨ranges, intervals⟩ := reversed.intervals
    exact ⟨_, .inverted intervals⟩

/-- Every character match can stand there. -/
theorem Around.derives {set : CharClass} (around : Around table standing level front rear)
    (found : ByteMatch table word set) : ∃ tree, Derives table level (front ++ word ++ rear) tree := by
  induction around with
  | here => exact ⟨_, by simpa using .bytes found⟩
  | group _ ih =>
    obtain ⟨tree, derives⟩ := ih
    have whole := Derives.group derives
    exact ⟨tree, by simpa using whole⟩
  | bare _ ih =>
    obtain ⟨tree, derives⟩ := ih
    exact ⟨tree, .bare derives⟩
  | marked listed _ ih =>
    obtain ⟨tree, derives⟩ := ih
    rw [← List.append_assoc]
    simp only [List.mem_cons, List.not_mem_nil, or_false] at listed
    rcases listed with rfl | rfl | rfl
    · exact ⟨_, .optional derives⟩
    · exact ⟨_, .oneOrMore derives⟩
    · exact ⟨_, .zeroOrMore derives⟩
  | alone _ ih =>
    obtain ⟨tree, derives⟩ := ih
    exact ⟨tree, .alone derives⟩
  | first _ following ih =>
    obtain ⟨tree, derives⟩ := ih
    have whole := Derives.concat derives following
    exact ⟨_, by simpa using whole⟩
  | second leading _ ih =>
    obtain ⟨tree, derives⟩ := ih
    have whole := Derives.concat leading derives
    exact ⟨_, by simpa using whole⟩
  | only _ ih =>
    obtain ⟨tree, derives⟩ := ih
    exact ⟨tree, .only derives⟩
  | left _ following ih =>
    obtain ⟨tree, derives⟩ := ih
    have whole := Derives.either derives following
    exact ⟨_, by simpa using whole⟩
  | right leading _ ih =>
    obtain ⟨tree, derives⟩ := ih
    have whole := Derives.either leading derives
    exact ⟨_, by simpa using whole⟩

theorem Intervals.begins {ranges : List ByteRange} (intervals : Intervals word ranges) :
    ∃ first rest, word = first :: rest ∧ first ≠ ']'.toUInt8 ∧ first ≠ '-'.toUInt8 := by
  induction intervals with
  | one interval => exact interval.1.begins
  | more _ _ ih =>
    obtain ⟨first, rest, rfl, others⟩ := ih
    exact ⟨first, _, rfl, others⟩

theorem Flawed.begins (flawed : Flawed word place mended) : 0 < place ∧
    ∃ rest others, word = '['.toUInt8 :: rest ∧ mended = '['.toUInt8 :: others := by
  cases flawed with
  | bracket => exact ⟨by omega, _, _, rfl, rfl⟩
  | inverted => exact ⟨by omega, _, _, rfl, rfl⟩

theorem Flawed.place_lt (flawed : Flawed word place mended) : place < word.length := by
  cases flawed with
  | bracket reversed | inverted reversed =>
    cases reversed
    simp only [List.length_cons, List.length_append]
    omega

theorem Around.begins (around : Around table standing level front rear) (flawed : Flawed word place mended) :
    ∃ byte rest, front ++ word ++ rear = byte :: rest ∧
      ∀ char ∈ ['?', '+', '*', ')', '|'], byte ≠ char.toUInt8 := by
  obtain ⟨set, found⟩ := flawed.byteMatch table
  obtain ⟨tree, derives⟩ := around.derives found
  obtain ⟨byte, rest, same, distinct⟩ := derives.begins
  obtain ⟨_, others, more, rfl, rfl⟩ := flawed.begins
  cases front with
  | nil => exact ⟨_, _, rfl, (List.cons.inj same).1 ▸ distinct⟩
  | cons first front => exact ⟨_, _, rfl, (List.cons.inj same).1 ▸ distinct⟩

end ByteRegex.Pattern
