import ByteRegex.Reader.Basic
import ByteRegex.Scanner

/-! Matching the input of a reader. The scan reads on until the input ends or no thread is left,
and in that case pushes back what it did not examine. -/

namespace ByteRegex

inductive ScanError
  | reader (error : ReadError)
  deriving DecidableEq, Repr

def ScanError.message : ScanError → String
  | reader error => "can not read input: " ++ error.message

/-- How a scan ended, and what it leaves behind. -/
structure Scan (ρ : Type) where
  scanner : Scanner
  reader : ρ
  /-- The number of bytes that the scan pushed back, if no thread was left for them. -/
  unwound : Option Nat
  result : Except ScanError Bool

namespace Scanner

variable {ρ : Type} [Reader ρ]

/-- Push back the bytes that were not examined. The input is not matched then. -/
def giveUp (scanner : Scanner) (reader : ρ) (unexamined : Nat) : Scan ρ :=
  let (outcome, reader) := Reader.unwind unexamined reader
  { scanner, reader, unwound := some unexamined
    result := match outcome with
      | .ok _ => .ok false
      | .error error => .error (.reader error) }

/-- Go on with the threads of the scanner until the reader has no more input for them. -/
def consume (scanner : Scanner) (reader : ρ) : Scan ρ :=
  match _delivered : Reader.read reader with
  | (.error error, reader) =>
    { scanner, reader, unwound := none, result := .error (.reader error) }
  | (.ok [], reader) => { scanner, reader, unwound := none, result := .ok scanner.accepting }
  | (.ok (byte :: chunk), after) =>
    match scanner.run (byte :: chunk) with
    | (scanner, []) => scanner.consume after
    | (scanner, unexamined) => scanner.giveUp after unexamined.length
termination_by Reader.remaining reader
decreasing_by exact Reader.remaining_read reader _delivered

section

variable {scanner : Scanner} {reader after : ρ}

theorem consume_of_failure {error : ReadError} (failed : Reader.read reader = (.error error, after)) :
    scanner.consume reader = ⟨scanner, after, none, .error (.reader error)⟩ := by
  fun_cases consume scanner reader <;> simp_all

theorem consume_of_end (ended : Reader.read reader = (.ok [], after)) :
    scanner.consume reader = ⟨scanner, after, none, .ok scanner.accepting⟩ := by
  fun_cases consume scanner reader <;> simp_all

theorem consume_of_chunk {chunk : List UInt8} (read : Reader.read reader = (.ok chunk, after))
    (nonempty : chunk ≠ []) (examined : (scanner.run chunk).2 = []) :
    scanner.consume reader = (scanner.run chunk).1.consume after := by
  fun_cases consume scanner reader <;> simp_all

theorem consume_of_unexamined {chunk : List UInt8} (read : Reader.read reader = (.ok chunk, after))
    (unexamined : (scanner.run chunk).2 ≠ []) :
    scanner.consume reader = (scanner.run chunk).1.giveUp after (scanner.run chunk).2.length := by
  have nonempty : chunk ≠ [] := fun empty => unexamined (by rw [empty]; rfl)
  fun_cases consume scanner reader <;> simp_all

end

def matchReader (scanner : Scanner) (reader : ρ) : Scan ρ := scanner.start.consume reader

end Scanner

end ByteRegex
