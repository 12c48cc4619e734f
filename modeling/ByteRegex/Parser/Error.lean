/-! Malformed text: where it was found and what is wrong with it. -/

namespace ByteRegex

inductive ParseFailure
  /-- The text ended while more was expected. -/
  | unexpectedEnd
  /-- A byte is not valid at its position, possibly for a reason worth telling. -/
  | invalid (reason : Option String)
  /-- The lower bound of a range is above the upper one. -/
  | invalidRange
  /-- The text goes on after a complete pattern. -/
  | trailingInput
  deriving DecidableEq, Repr

structure ParseError where
  position : Nat
  failure : ParseFailure
  deriving DecidableEq, Repr

namespace ParseError

def reason (error : ParseError) : Option String :=
  match error.failure with
  | .unexpectedEnd => some "unexpected end of pattern"
  | .invalid reason => reason
  | .invalidRange => some "invalid range boundaries"
  | .trailingInput => some "junk at the end of pattern"

def message (error : ParseError) : String :=
  "invalid syntax at character " ++ toString error.position ++
    match error.reason with
    | some reason => ": " ++ reason
    | none => ""

end ParseError

end ByteRegex
