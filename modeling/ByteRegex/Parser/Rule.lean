import ByteRegex.CharClass
import ByteRegex.Parser.Basic

/-! Parsers as data. A rule is a nesting of the primitives, and running it gives a value that
shows which of its parts matched what. -/

namespace ByteRegex

inductive Rule
  | any
  | oneOf (set : CharClass)
  | literal (byte : UInt8)
  | endOfInput
  | fail (failure : ParseFailure)
  | moveTo (position : Nat)
  | sequence (parts : List Rule)
  | maybe (part : Rule)
  | firstOf (alternatives : List Rule)

namespace Rule

inductive Value
  | byte (byte : UInt8)
  | nothing
  | found (value : Value)
  | list (values : List Value)

mutual

def run : Rule → Parser Value
  | any => return .byte (← Parser.anyByte)
  | oneOf set => return .byte (← Parser.satisfying set.contains)
  | literal byte => return .byte (← Parser.literal byte)
  | endOfInput => do Parser.endOfInput; return .nothing
  | fail reason => Parser.fail reason
  | moveTo place => do Parser.moveTo place; return .nothing
  | sequence parts => return .list (← (runAll parts).foldr
      (fun part rest => do return (← part) :: (← rest)) (pure []))
  | maybe part => return ((← Parser.maybe part.run).map .found).getD .nothing
  | firstOf alternatives => Parser.firstOf (runAll alternatives)

def runAll : List Rule → List (Parser Value)
  | [] => []
  | rule :: rest => rule.run :: runAll rest

end

end Rule

end ByteRegex
