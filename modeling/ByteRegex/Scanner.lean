import ByteRegex.Automaton.Closure

/-! Lock-step simulation of an automaton. After any part of the input the threads are the
consuming states that it can lead to, each once; a word is matched if the accepting state is
among the states that the whole of it leads to. The sets are cleared where they are needed next,
so whatever a scan leaves in them is still there when another one begins. -/

namespace ByteRegex

structure Scanner where
  automaton : Automaton
  /-- The consuming states that are live at the current offset. -/
  threads : KeySet
  /-- Where the threads of the next offset are collected. -/
  nextThreads : KeySet
  visited : KeySet
  stack : List StateId
  /-- The accepting state can be reached at the current offset. -/
  accepting : Bool
  /-- Every search runs to its end. -/
  idle : stack = []

namespace Scanner

def ofAutomaton (automaton : Automaton) : Scanner where
  automaton
  threads := .withCapacity automaton.size
  nextThreads := .withCapacity automaton.size
  visited := .withCapacity automaton.size
  stack := []
  accepting := false
  idle := rfl

def start (scanner : Scanner) : Scanner :=
  match scanner with
  | ⟨automaton, threads, nextThreads, visited, stack, _, idle⟩ =>
    let closure := automaton.sources.foldl automaton.close ⟨visited.clear, stack, threads.clear, false⟩
    ⟨automaton, closure.threads, nextThreads, closure.visited, closure.stack, closure.accepting,
      automaton.stack_foldl_close automaton.sources idle⟩

/-- The states behind the threads that consume the byte. -/
def successors (scanner : Scanner) (byte : UInt8) : List StateId :=
  scanner.threads.toList.flatMap fun id =>
    match scanner.automaton.states[id]? with
    | some state => if state.consumes byte then state.next else []
    | none => []

/-- Consume a byte with every thread. The two sets of threads change places. -/
def step (scanner : Scanner) (byte : UInt8) : Scanner :=
  let starts := scanner.successors byte
  match scanner with
  | ⟨automaton, threads, nextThreads, visited, stack, _, idle⟩ =>
    let closure := starts.foldl automaton.close ⟨visited.clear, stack, nextThreads.clear, false⟩
    ⟨automaton, closure.threads, threads, closure.visited, closure.stack, closure.accepting,
      automaton.stack_foldl_close starts idle⟩

/-- Consume bytes while there are threads, and give back the bytes that were not consumed. -/
def run (scanner : Scanner) : List UInt8 → Scanner × List UInt8
  | [] => (scanner, [])
  | byte :: rest =>
    if scanner.threads.isEmpty then (scanner, byte :: rest) else (scanner.step byte).run rest

/-- Whether the automaton accepts the whole input. The scanner can be used for another one
afterwards, whatever the outcome. -/
def isMatch (scanner : Scanner) (input : List UInt8) : Bool × Scanner :=
  let (after, rest) := scanner.start.run input
  (rest.isEmpty && after.accepting, after)

def matchAll (scanner : Scanner) (inputs : List (List UInt8)) : List Bool × Scanner :=
  inputs.foldr
    (fun input rest scanner =>
      let (matched, scanner) := scanner.isMatch input
      let (later, scanner) := rest scanner
      (matched :: later, scanner))
    (fun scanner => ([], scanner)) scanner

end Scanner

end ByteRegex
