import ByteRegex.Compiler
import ByteRegex.Proofs.Determinization
import ByteRegex.Proofs.ParserCompleteness
import ByteRegex.Proofs.Scanning
import ByteRegex.Proofs.Thompson

/-! From the text of a pattern to the words that a scanner accepts. Every stage keeps the language, up
to the alphabet of the subset construction, and hands on an automaton that the next one can take. -/

namespace ByteRegex

/-- An automaton that every stage can take, with the language that it accepts. -/
structure Automaton.Recognizes (automaton : Automaton) (language : List UInt8 → Prop) : Prop where
  closed : automaton.Closed
  distinct : automaton.sources.Nodup
  accepts : ∀ word, automaton.Accepts word ↔ language word

open Automaton

variable {automaton : Automaton} {language : List UInt8 → Prop}

theorem Pattern.recognizes_toAutomaton (pattern : Pattern) :
    pattern.toAutomaton.Recognizes pattern.Matches :=
  ⟨pattern.closed_toAutomaton, pattern.nodup_toAutomaton_sources, fun _ => accepts_toAutomaton⟩

theorem Automaton.Recognizes.optimize (recognizes : automaton.Recognizes language) :
    ∃ optimized, automaton.optimize = .ok optimized ∧ optimized.Recognizes language := by
  obtain ⟨optimized, succeeds, closed, distinct, _, same⟩ := optimize_spec recognizes.closed recognizes.distinct
  exact ⟨optimized, succeeds, closed, distinct, fun word => (same word).trans (recognizes.accepts word)⟩

variable {settings : Settings} {pattern : String} {tree : Pattern}

theorem compile_spec (accepted : Pattern.parse settings.classes pattern.toUTF8.data = .ok tree) :
    ∃ compilation, compile settings pattern = .ok compilation ∧ compilation.automaton.Closed ∧ ∀ word,
      compilation.automaton.Accepts word ↔
        tree.Matches word ∧ ∀ alphabet ∈ settings.alphabet, ∀ byte ∈ word, alphabet.contains byte := by
  have parsed : parse settings.classes pattern = .ok tree.toAutomaton := by
    rw [parse, accepted]
    rfl
  obtain ⟨optimized, reduces, smaller⟩ := tree.recognizes_toAutomaton.optimize
  cases chosen : settings.alphabet with
  | none =>
    cases asked : settings.optimize with
    | false =>
      refine ⟨⟨pattern, tree.toAutomaton, none, none⟩, ?_, tree.recognizes_toAutomaton.closed, ?_⟩
      · rw [compile, parsed, chosen, asked]
        rfl
      · intro word
        simp only [Option.mem_def, reduceCtorEq, false_implies, implies_true, and_true]
        exact tree.recognizes_toAutomaton.accepts word
    | true =>
      refine ⟨⟨pattern, tree.toAutomaton, some optimized, none⟩, ?_, smaller.closed, ?_⟩
      · simp [compile, parsed, chosen, asked, reduces, Except.mapError, bind, Except.bind, pure, Except.pure,
          Functor.map, Except.map]
      · intro word
        simp only [Option.mem_def, reduceCtorEq, false_implies, implies_true, and_true]
        exact smaller.accepts word
  | some alphabet =>
    obtain ⟨result, succeeds, closed, same⟩ :=
      determinize_spec smaller.closed smaller.distinct alphabet settings.compactClasses
    refine ⟨⟨pattern, tree.toAutomaton, some optimized, some result⟩, ?_, closed, ?_⟩
    · simp [compile, parsed, chosen, reduces, succeeds, Except.mapError, bind, Except.bind, pure, Except.pure,
          Functor.map, Except.map]
    · intro word
      simp only [Option.mem_def, Option.some.injEq, forall_eq']
      exact (same word).trans (and_congr_left' (smaller.accepts word))

/-- The scanner of a compiled pattern matches exactly the words of the pattern over the alphabet,
whichever stages the settings ask for. -/
theorem isMatch_compile (accepted : Pattern.parse settings.classes pattern.toUTF8.data = .ok tree) :
    Pattern.Derives settings.classes .alternatives pattern.toUTF8.data.toList tree ∧
    ∃ compilation, compile settings pattern = .ok compilation ∧ ∀ word,
      ((Scanner.ofAutomaton compilation.automaton).isMatch word).1 ↔
        tree.Matches word ∧ ∀ alphabet ∈ settings.alphabet, ∀ byte ∈ word, alphabet.contains byte := by
  refine ⟨Pattern.derives_of_parse accepted, ?_⟩
  obtain ⟨compilation, compiles, closed, same⟩ := compile_spec accepted
  exact ⟨compilation, compiles, fun word => (Scanner.isMatch_iff closed word).trans (same word)⟩

def loops : Pattern :=
  .either (.oneOrMore (.optional (.bytes (.single 0x61)))) (.zeroOrMore (.bytes ClassTable.digits))

theorem parse_loops : parse .standard "(a?)+|\\d*" = .ok loops.toAutomaton := by
  have parsed : Pattern.parse .standard "(a?)+|\\d*".toUTF8.data = .ok loops := by decide +kernel
  rw [parse, parsed]
  rfl

def loopSettings : Settings := { compactClasses := true, alphabet := some (.ofBytes [0x61, 0x30]) }

theorem isMatch_compile_loops :
    Pattern.parse loopSettings.classes "(a?)+|\\d*".toUTF8.data = .ok loops ∧
    Pattern.Derives loopSettings.classes .alternatives "(a?)+|\\d*".toUTF8.data.toList loops ∧
    ∃ compilation, compile loopSettings "(a?)+|\\d*" = .ok compilation ∧ ∀ word,
      ((Scanner.ofAutomaton compilation.automaton).isMatch word).1 ↔
        loops.Matches word ∧ ∀ alphabet ∈ loopSettings.alphabet, ∀ byte ∈ word, alphabet.contains byte :=
  ⟨by decide +kernel, isMatch_compile (by decide +kernel)⟩

end ByteRegex
