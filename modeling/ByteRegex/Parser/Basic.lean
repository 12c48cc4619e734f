import ByteRegex.Parser.Error

/-! Parsers over a cursor. A failing parser leaves the cursor where it stopped, and an ordered
choice looks at that place: an alternative that got past one byte has committed, so a grammar
has to tell its alternatives apart by their first byte. -/

namespace ByteRegex

/-- What changes during a parse. The text itself is fixed. -/
structure Cursor where
  position : Nat := 0
  /-- The furthest error that ended a sequence without failing the parse. -/
  furthest : Option ParseError := none
  deriving DecidableEq, Repr

abbrev Parser := ReaderT (Array UInt8) (EStateM ParseError Cursor)

namespace Parser

def position : Parser Nat := return (← get).position

def moveTo (position : Nat) : Parser Unit := modify ({ · with position })

def atEnd : Parser Bool := return (← position) == (← read).size

def failAt {α : Type} (position : Nat) (failure : ParseFailure) : Parser α :=
  throw { position, failure }

def fail {α : Type} (failure : ParseFailure) : Parser α := do failAt (← position) failure

def anyByte : Parser UInt8 := do
  let start ← position
  match (← read)[start]? with
  | some byte => moveTo (start + 1); return byte
  | none => failAt start .unexpectedEnd

/-- One byte with a property. A byte without it is passed all the same, and counts as the one
byte that an alternative may consume before it fails. -/
def satisfying (accepts : UInt8 → Bool) : Parser UInt8 := do
  let start ← position
  let byte ← anyByte
  if accepts byte then return byte else failAt start (.invalid none)

def literal (byte : UInt8) : Parser UInt8 := satisfying (· == byte)

def symbol (char : Char) : Parser UInt8 := literal char.toUInt8

def endOfInput : Parser Unit := do
  if ← atEnd then return () else fail .trailingInput

/-- Run a parser for its outcome alone; a failure stops it but not the parse. -/
def attempt {α : Type} (parser : Parser α) : Parser (Except ParseError α) := fun text before =>
  match parser text before with
  | .ok value after => .ok (.ok value) after
  | .error error after => .ok (.error error) after

/-- The first alternative that succeeds or commits. The last one stands for itself, whatever
it consumes. -/
def firstOf {α : Type} : List (Parser α) → Parser α
  | [] => fail (.invalid none)
  | [last] => last
  | first :: second :: rest => fun text before =>
    match first text before with
    | .ok value after => .ok value after
    | .error error after =>
      if before.position + 1 < after.position then .error error after
      else firstOf (second :: rest) text { after with position := before.position }

/-- A parser that may fail. After a failure the cursor returns to where it started. -/
def maybe {α : Type} (parser : Parser α) : Parser (Option α) := fun text before =>
  match parser text before with
  | .ok value after => .ok (some value) after
  | .error _ after => .ok none { after with position := before.position }

/-- Remember an error, unless one further into the text is already known. -/
def note (error : ParseError) : Parser Unit :=
  modify fun cursor =>
    if cursor.furthest.all (·.position < error.position) then
      { cursor with furthest := some error }
    else cursor

/-- Repeat a step until it has nothing to add, at most `limit` times. -/
def iterate {α : Type} (step : α → Parser (Option α)) : (limit : Nat) → α → Parser α
  | 0, value => pure value
  | limit + 1, value => do
    match ← step value with
    | some longer => iterate step limit longer
    | none => return value

/-- Repeat a step that consumes input whenever it adds something, which it can do at most once
per byte of the text. -/
def repeated {α : Type} (start : α) (step : α → Parser (Option α)) : Parser α := do
  iterate step ((← read).size + 1) start

end Parser

end ByteRegex
