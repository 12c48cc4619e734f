import ByteRegex.Pattern.Basic
import ByteRegex.Pattern.ClassTable
import ByteRegex.Pattern.Escape
import Mathlib.Data.Bool.AllAny

/-! The grammar of patterns as derivations. A word is derived together with what it stands for, and
nothing is said about how to find the derivation. -/

namespace ByteRegex.Pattern

inductive HexDigit : UInt8 → UInt8 → Prop
  | decimal {digit} : '0'.toUInt8 ≤ digit → digit ≤ '9'.toUInt8 → HexDigit digit (digit - '0'.toUInt8)
  | lower {digit} : 'a'.toUInt8 ≤ digit → digit ≤ 'f'.toUInt8 → HexDigit digit (digit - 'a'.toUInt8 + 10)
  | upper {digit} : 'A'.toUInt8 ≤ digit → digit ≤ 'F'.toUInt8 → HexDigit digit (digit - 'A'.toUInt8 + 10)

/-- An escape sequence without its backslash, with the byte that it stands for. -/
inductive Escaped : List UInt8 → UInt8 → Prop
  | hex {mark high low upper lower} : mark = 'x'.toUInt8 ∨ mark = 'X'.toUInt8 →
    HexDigit high upper → HexDigit low lower → Escaped [mark, high, low] (16 * upper + lower)
  | verbatim {char} : char ∈ [']', '[', '\\', '(', ')', '^', '.', '?', '+', '*', '|', '-'] →
    Escaped [char.toUInt8] char.toUInt8
  | control {char value} :
    (char, value) ∈ [('n', 0x0a), ('0', 0x00), ('r', 0x0d), ('t', 0x09), ('a', 0x07), ('b', 0x08), ('v', 0x0b)] →
    Escaped [char.toUInt8] value

/-- A printable byte that is none of these characters. -/
def Plain (excluded : List Char) (byte : UInt8) : Prop :=
  0x20 ≤ byte ∧ byte ≤ 0x7e ∧ ∀ char ∈ excluded, char.toUInt8 ≠ byte

inductive Boundary : List UInt8 → UInt8 → Prop
  | escape {word byte} : Escaped word byte → Boundary ('\\'.toUInt8 :: word) byte
  | plain {byte} : Plain [']', '\\', '-'] byte → Boundary [byte] byte

inductive Bounds : List UInt8 → ByteRange → Prop
  | single {word byte} : Boundary word byte → Bounds word ⟨byte, byte⟩
  | pair {lower upper first last} : Boundary lower first → Boundary upper last →
    Bounds (lower ++ '-'.toUInt8 :: upper) ⟨first, last⟩

def Interval (word : List UInt8) (range : ByteRange) : Prop :=
  Bounds word range ∧ range.first ≤ range.last

inductive Intervals : List UInt8 → List ByteRange → Prop
  | one {word range} : Interval word range → Intervals word [range]
  | more {before word ranges range} : Intervals before ranges → Interval word range →
    Intervals (before ++ word) (ranges ++ [range])

/-- What matches a single byte. A caret after the bracket is never part of a range, and a name of the
table hides the escape sequence that begins with it. -/
inductive ByteMatch (table : ClassTable) : List UInt8 → CharClass → Prop
  | bracket {word ranges} : Intervals word ranges → word.head? ≠ some '^'.toUInt8 →
    ByteMatch table ('['.toUInt8 :: (word ++ [']'.toUInt8])) { ranges }
  | inverted {word ranges} : Intervals word ranges →
    ByteMatch table ('['.toUInt8 :: '^'.toUInt8 :: (word ++ [']'.toUInt8])) { ranges, inverted := true }
  | any : ByteMatch table ['.'.toUInt8] .any
  | named {name set} : table.get? name = some set → ByteMatch table ['\\'.toUInt8, name] set
  | escape {name rest byte} : table.get? name = none → Escaped (name :: rest) byte →
    ByteMatch table ('\\'.toUInt8 :: name :: rest) (.single byte)
  | plain {byte} : Plain ['\\', '*', '?', ')', '|', '+', '[', ']', '(', '.'] byte →
    ByteMatch table [byte] (.single byte)

/-- The nonterminals whose derivations contain whole patterns. -/
inductive Level
  | alternatives
  | sequence
  | quantified
  | atom

inductive Derives (table : ClassTable) : Level → List UInt8 → Pattern → Prop
  | bytes {word set} : ByteMatch table word set → Derives table .atom word (.bytes set)
  | group {word tree} : Derives table .alternatives word tree →
    Derives table .atom ('('.toUInt8 :: (word ++ [')'.toUInt8])) tree
  | bare {word tree} : Derives table .atom word tree → Derives table .quantified word tree
  | optional {word tree} : Derives table .atom word tree →
    Derives table .quantified (word ++ ['?'.toUInt8]) (.optional tree)
  | oneOrMore {word tree} : Derives table .atom word tree →
    Derives table .quantified (word ++ ['+'.toUInt8]) (.oneOrMore tree)
  | zeroOrMore {word tree} : Derives table .atom word tree →
    Derives table .quantified (word ++ ['*'.toUInt8]) (.zeroOrMore tree)
  | alone {word tree} : Derives table .quantified word tree → Derives table .sequence word tree
  | concat {before word first second} : Derives table .sequence before first →
    Derives table .quantified word second → Derives table .sequence (before ++ word) (.concat first second)
  | only {word tree} : Derives table .sequence word tree → Derives table .alternatives word tree
  | either {before word first second} : Derives table .sequence before first →
    Derives table .alternatives word second →
    Derives table .alternatives (before ++ '|'.toUInt8 :: word) (.either first second)

theorem hexValue?_iff {digit value : UInt8} : Escape.hexValue? digit = some value ↔ HexDigit digit value := by
  simp only [Escape.hexValue?, Bool.and_eq_true, decide_eq_true_eq]
  constructor
  · intro denotes
    split at denotes
    next within => exact Option.some.inj denotes ▸ .decimal within.1 within.2
    next =>
      split at denotes
      next within => exact Option.some.inj denotes ▸ .lower within.1 within.2
      next =>
        split at denotes
        next within => exact Option.some.inj denotes ▸ .upper within.1 within.2
        next => cases denotes
  · intro denotes
    cases denotes with
    | decimal above below => exact if_pos ⟨above, below⟩
    | lower above below =>
      have past : ¬ digit ≤ '9'.toUInt8 := fun within => absurd (UInt8.le_trans above within) (by decide)
      rw [if_neg (fun within => past within.2), if_pos ⟨above, below⟩]
    | upper above below =>
      have past : ¬ digit ≤ '9'.toUInt8 := fun within => absurd (UInt8.le_trans above within) (by decide)
      have short : ¬ 'a'.toUInt8 ≤ digit := fun within => absurd (UInt8.le_trans within below) (by decide)
      rw [if_neg (fun within => past within.2), if_neg (fun within => short within.1), if_pos ⟨above, below⟩]

theorem HexDigit.lt {digit value : UInt8} (denotes : HexDigit digit value) : value < 16 := by
  cases denotes with
  | decimal above below =>
    have first : '0'.toUInt8 = 48 := rfl
    have last : '9'.toUInt8 = 57 := rfl
    grind
  | lower above below =>
    have first : 'a'.toUInt8 = 97 := rfl
    have last : 'f'.toUInt8 = 102 := rfl
    grind
  | upper above below =>
    have first : 'A'.toUInt8 = 65 := rfl
    have last : 'F'.toUInt8 = 70 := rfl
    grind

theorem nibbles {high low upper lower : UInt8} (front : HexDigit high upper) (rear : HexDigit low lower) :
    upper <<< 4 ||| lower = 16 * upper + lower := by
  have fits : upper.toNat < 16 := UInt8.lt_iff_toNat_lt.mp front.lt
  have small : lower.toNat < 2 ^ 4 := UInt8.lt_iff_toNat_lt.mp rear.lt
  have joined := Nat.shiftLeft_add_eq_or_of_lt small upper.toNat
  rw [Nat.shiftLeft_eq] at joined
  have shifted : (upper <<< 4).toNat = upper.toNat * 2 ^ 4 := by
    simp only [UInt8.toNat_shiftLeft, UInt8.reduceToNat, Nat.shiftLeft_eq, Nat.reduceMod]
    omega
  apply UInt8.toNat_inj.mp
  rw [UInt8.toNat_or, shifted, ← joined]
  simp only [UInt8.toNat_add, UInt8.toNat_mul, UInt8.reduceToNat]
  omega

theorem plain_iff {excluded : List Char} {byte : UInt8} :
    (Escape.isPrintable byte && !excluded.any (·.toUInt8 == byte)) = true ↔ Plain excluded byte := by
  rw [Bool.and_eq_true, Bool.not_eq_true', List.any_eq_false]
  simp only [Escape.isPrintable, Plain, Bool.and_eq_true, decide_eq_true_eq, beq_iff_eq, and_assoc, ne_eq]

theorem startsHex_iff {byte : UInt8} :
    Escape.startsHex byte = true ↔ byte = 'x'.toUInt8 ∨ byte = 'X'.toUInt8 := by
  rw [Escape.startsHex, Bool.or_eq_true, beq_iff_eq, beq_iff_eq]

theorem Escaped.of_value? {byte value : UInt8} (denotes : Escape.value? byte = some value) :
    Escaped [byte] value := by
  rw [Escape.value?] at denotes
  split at denotes
  next listed =>
    obtain ⟨char, inside, same⟩ := List.any_eq_true.mp listed
    obtain rfl := Option.some.inj denotes
    obtain rfl := eq_of_beq same
    exact .verbatim inside
  next =>
    obtain ⟨⟨char, control⟩, found, same⟩ := Option.map_eq_some_iff.mp denotes
    have named : char.toUInt8 = byte := by simpa using List.find?_some found
    subst named same
    exact .control (List.mem_of_find?_eq_some found)

/-- The characters that stand for themselves and the control letters do not overlap with each other
or with the mark of hexadecimal digits. -/
theorem value?_of_verbatim : ∀ char ∈ Escape.verbatim,
    Escape.startsHex char.toUInt8 = false ∧ Escape.value? char.toUInt8 = some char.toUInt8 :=
  List.all_iff_forall_prop.mp (by decide)

theorem value?_of_control : ∀ control ∈ Escape.controls,
    Escape.startsHex control.1.toUInt8 = false ∧ Escape.value? control.1.toUInt8 = some control.2 :=
  List.all_iff_forall_prop.mp (by decide)

end ByteRegex.Pattern
