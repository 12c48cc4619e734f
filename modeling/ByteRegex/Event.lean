import ByteRegex.Compiler
import ByteRegex.Reader.Scan

/-! What the stages have to tell. Every event follows from the input and the outcome of the
stage that it belongs to. -/

namespace ByteRegex

inductive Event
  | parsed (pattern : String) (states : Nat)
  | optimized (before after : Nat)
  /-- Epsilon states have to go before the subset construction begins. -/
  | preparing (states : Nat)
  | determinized (states rows : Nat)
  /-- The size of a deterministic automaton, consuming states included. -/
  | assembled (states : Nat)
  | compiled (pattern : String) (states : Nat)
  | unwinding (bytes : Nat)
  deriving DecidableEq, Repr

namespace Event

/-- Only a scan that gives up is told at the finest level. -/
def level : Event → String
  | unwinding _ => "TRACE"
  | _ => "DEBUG"

def message : Event → String
  | parsed pattern states =>
    "parsed `" ++ pattern ++ "` into an NFA with " ++ toString states ++ " states"
  | optimized before after =>
    "optimized NFA from " ++ toString before ++ " to " ++ toString after ++ " states"
  | preparing states =>
    "optimizing NFA with " ++ toString states ++ " states before determinizing"
  | determinized states rows =>
    "determinized NFA with " ++ toString states ++ " states into " ++ toString rows ++
      " DFA states"
  | assembled states => "DFA has " ++ toString states ++ " states"
  | compiled pattern states =>
    "compiled `" ++ pattern ++ "` into an automaton with " ++ toString states ++ " states"
  | unwinding bytes => "no live threads, unwinding " ++ toString bytes ++ " bytes"

def render (event : Event) : String := event.level ++ " " ++ event.message

def ofParse (pattern : String) (outcome : Except ParseError Automaton) : List Event :=
  match outcome with
  | .ok automaton => [.parsed pattern automaton.size]
  | .error _ => []

def ofOptimize (before : Automaton) (outcome : Except Fault Automaton) : List Event :=
  match outcome with
  | .ok after => [.optimized before.size after.size]
  | .error _ => []

def ofDeterminize (before : Automaton) (outcome : Except Fault Determinization) : List Event :=
  let preparation :=
    if before.isEpsilonFree then []
    else .preparing before.size :: ofOptimize before (outcome.map (·.prepared))
  preparation ++
    match outcome with
    | .ok result =>
      [.determinized result.prepared.size result.rows.length, .assembled result.automaton.size]
    | .error _ => []

def ofCompile (compilation : Compilation) : List Event :=
  let input := compilation.optimized.getD compilation.parsed
  ofParse compilation.pattern (.ok compilation.parsed) ++
    (compilation.optimized.map fun after => ofOptimize compilation.parsed (.ok after)).getD [] ++
    (compilation.determinized.map fun result => ofDeterminize input (.ok result)).getD [] ++
    [.compiled compilation.pattern compilation.automaton.size]

def ofScan {ρ : Type} (scan : Scan ρ) : List Event :=
  (scan.unwound.map unwinding).toList

end Event

end ByteRegex
