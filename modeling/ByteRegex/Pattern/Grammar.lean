import ByteRegex.Parser.Basic
import ByteRegex.Pattern.Basic
import ByteRegex.Pattern.ClassTable
import ByteRegex.Pattern.Escape

/-! The grammar of patterns. Quantifiers bind tighter than juxtaposition, which binds tighter
than the bar; juxtaposition leans to the left and the bar to the right. Rules that contain a
whole pattern take the parser for it as an argument, so that only one rule recurses. -/

namespace ByteRegex.Pattern

namespace Grammar

open ByteRegex.Parser

def hexDigit : Parser UInt8 := do
  let byte ← satisfying fun byte => (Escape.hexValue? byte).isSome
  return (Escape.hexValue? byte).getD 0

def hexByte : Parser UInt8 := do
  let high ← hexDigit
  let low ← hexDigit
  return high <<< 4 ||| low

/-- The byte that an escape sequence stands for, after its backslash. -/
def escaped : Parser UInt8 := do
  let start ← position
  let byte ← anyByte
  if Escape.startsHex byte then hexByte
  else match Escape.value? byte with
    | some value => return value
    | none =>
      failAt start (.invalid (some ("unknown escape sequence `\\" ++ Escape.render byte ++ "`")))

def namedClass (table : ClassTable) : Parser CharClass := do
  let start ← position
  match table.get? (← anyByte) with
  | some set => return set
  | none => failAt start (.invalid none)

/-- A printable character that is not one of the given ones. -/
def plain (excluded : List Char) : Parser UInt8 :=
  satisfying fun byte => Escape.isPrintable byte && !excluded.any (·.toUInt8 == byte)

def boundary : Parser UInt8 :=
  firstOf [
    do let _ ← symbol '\\'; escaped,
    plain [']', '\\', '-']]

/-- The bounds of a range and the place where it starts. A single character is both bounds. -/
def bounds : Parser (Nat × ByteRange) := do
  let start ← position
  let first ← boundary
  let last ← maybe do let _ ← symbol '-'; boundary
  return (start, ⟨first, last.getD first⟩)

def ordered : Nat × ByteRange → Parser ByteRange
  | (start, range) => if range.last < range.first then failAt start .invalidRange else pure range

/-- A bracketed class. A caret after the bracket complements it, and it has some range. -/
def bracketed : Parser CharClass := do
  let _ ← symbol '['
  let inverted := (← maybe (symbol '^')).isSome
  let first ← ordered (← bounds)
  let ranges ← repeated #[first] fun ranges => do
    match ← maybe bounds with
    | some range => return some (ranges.push (← ordered range))
    | none => return none
  let _ ← symbol ']'
  return { ranges := ranges.toList, inverted }

def byteMatch (table : ClassTable) : Parser CharClass :=
  firstOf [
    bracketed,
    do let _ ← symbol '.'; return .any,
    do
      let _ ← symbol '\\'
      firstOf [namedClass table, return .single (← escaped)],
    return .single (← plain ['\\', '*', '?', ')', '|', '+', '[', ']', '(', '.'])]

def group (whole : Parser Pattern) : Parser Pattern := do
  let _ ← symbol '('
  let content ← whole
  let _ ← symbol ')'
  return content

def atom (table : ClassTable) (whole : Parser Pattern) : Parser Pattern :=
  firstOf [group whole, return .bytes (← byteMatch table)]

def quantified (table : ClassTable) (whole : Parser Pattern) : Parser Pattern := do
  let body ← atom table whole
  firstOf [
    do let _ ← symbol '?'; return .optional body,
    do let _ ← symbol '+'; return .oneOrMore body,
    do let _ ← symbol '*'; return .zeroOrMore body,
    return body]

/-- One atom or more. The first atom that fails ends the sequence before it; if the fault lies
further in, it is noted, because it may explain why the text does not end there. -/
def juxtaposed (table : ClassTable) (whole : Parser Pattern) : Parser Pattern := do
  let first ← quantified table whole
  repeated first fun before => do
    let start ← position
    match ← attempt (quantified table whole) with
    | .ok next => return some (.concat before next)
    | .error error =>
      if start < error.position then note error
      moveTo start
      return none

/-- A whole pattern, nested at most `depth` deep. Each level of nesting consumes a parenthesis
or a bar, so the length of the text is depth enough. -/
def alternatives (table : ClassTable) : (depth : Nat) → Parser Pattern
  | 0 => fail .unexpectedEnd
  | depth + 1 => do
    let first ← juxtaposed table (alternatives table depth)
    match ← maybe do let _ ← symbol '|'; alternatives table depth with
    | some second => return .either first second
    | none => return first

def complete (table : ClassTable) (depth : Nat) : Parser Pattern := do
  let pattern ← alternatives table depth
  endOfInput
  return pattern

end Grammar

/-- The syntax tree of a text. Of the final error and the furthest one noted on the way, the
one further into the text is reported, and the final one if they are at the same place. -/
def parse (table : ClassTable) (text : Array UInt8) : Except ParseError Pattern :=
  match Grammar.complete table (text.size + 1) text { } with
  | .ok pattern _ => .ok pattern
  | .error error after =>
    .error (match after.furthest with
      | some noted => if error.position < noted.position then noted else error
      | none => error)

end ByteRegex.Pattern
