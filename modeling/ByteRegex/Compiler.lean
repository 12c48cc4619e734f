import ByteRegex.Pattern.Grammar
import ByteRegex.Pattern.Layout
import ByteRegex.Subset.Determinize

/-! From the text of a pattern to an automaton. Each stage that the settings ask for takes the
result of the one before, and all of them are kept. -/

namespace ByteRegex

/-- The automaton of a pattern as the grammar gives it, with all its epsilon states. -/
def parse (classes : ClassTable) (pattern : String) : Except ParseError Automaton :=
  (Pattern.parse classes pattern.toUTF8.data).map Pattern.toAutomaton

structure Settings where
  classes : ClassTable := .standard
  /-- Remove epsilon states. A deterministic automaton never has them. -/
  optimize : Bool := true
  /-- Give the bytes that lead from one state to another a common class. -/
  compactClasses : Bool := false
  /-- Make the automaton deterministic over these bytes. -/
  alphabet : Option Alphabet := none
  deriving Repr

inductive CompileError
  | malformed (error : ParseError)
  | fault (cause : Fault)
  deriving DecidableEq, Repr

def CompileError.message : CompileError → String
  | malformed error => error.message
  | fault cause => cause.message

structure Compilation where
  pattern : String
  parsed : Automaton
  optimized : Option Automaton
  determinized : Option Determinization
  deriving Repr

def Compilation.automaton (compilation : Compilation) : Automaton :=
  match compilation.determinized with
  | some determinization => determinization.automaton
  | none => compilation.optimized.getD compilation.parsed

def compile (settings : Settings) (pattern : String) : Except CompileError Compilation := do
  let parsed ← (parse settings.classes pattern).mapError .malformed
  let optimized ←
    if settings.optimize || settings.alphabet.isSome then
      some <$> parsed.optimize.mapError .fault
    else pure none
  let determinized ← settings.alphabet.mapM fun alphabet =>
    ((optimized.getD parsed).determinize alphabet settings.compactClasses).mapError .fault
  return { pattern, parsed, optimized, determinized }

end ByteRegex
