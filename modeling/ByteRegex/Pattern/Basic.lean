import ByteRegex.CharClass

/-! Syntax trees of patterns, and the words that they denote. A group leaves no node behind:
it denotes what it contains. -/

namespace ByteRegex

inductive Pattern
  | bytes (set : CharClass)
  | concat (first second : Pattern)
  | either (first second : Pattern)
  | optional (body : Pattern)
  | oneOrMore (body : Pattern)
  | zeroOrMore (body : Pattern)
  deriving DecidableEq, Repr

namespace Pattern

/-- The language of a pattern. A repetition takes its body once more or stops. -/
inductive Matches : Pattern → List UInt8 → Prop
  | bytes {set byte} : set.contains byte → Matches (.bytes set) [byte]
  | concat {first second before after} :
    Matches first before → Matches second after → Matches (.concat first second) (before ++ after)
  | left {first second word} : Matches first word → Matches (.either first second) word
  | right {first second word} : Matches second word → Matches (.either first second) word
  | absent {body} : Matches (.optional body) []
  | present {body word} : Matches body word → Matches (.optional body) word
  | once {body word} : Matches body word → Matches (.oneOrMore body) word
  | again {body before after} :
    Matches body before → Matches (.oneOrMore body) after →
    Matches (.oneOrMore body) (before ++ after)
  | stop {body} : Matches (.zeroOrMore body) []
  | repeat {body before after} :
    Matches body before → Matches (.zeroOrMore body) after →
    Matches (.zeroOrMore body) (before ++ after)

end Pattern

end ByteRegex
