import ByteRegex.Parser.Rule
import ByteRegex.Proofs.Parsing

/-! Where parsers stop. Whatever is put together from the primitives moves the cursor forward inside the text,
and an error of it lies on that way. Of several alternatives the first one counts that succeeds or gets past
one byte, and those before it leave no trace. -/

namespace ByteRegex

namespace Parser

/-- Parsers that are put together from the primitives. How a sequence goes on may depend on its values. -/
inductive Built : {α : Type} → Parser α → Prop
  | pure {α : Type} (value : α) : Built (Pure.pure value)
  | anyByte : Built anyByte
  | satisfying (accepts : UInt8 → Bool) : Built (satisfying accepts)
  | literal (byte : UInt8) : Built (literal byte)
  | endOfInput : Built endOfInput
  | fail {α : Type} (failure : ParseFailure) : Built (fail failure : Parser α)
  | bind {α β : Type} {parser : Parser β} {rest : β → Parser α} :
    Built parser → (∀ value, Built (rest value)) → Built (parser >>= rest)
  | maybe {α : Type} {parser : Parser α} : Built parser → Built (maybe parser)
  | firstOf {α : Type} {alternatives : List (Parser α)} :
    (∀ parser ∈ alternatives, Built parser) → Built (firstOf alternatives)

structure Onward (text : Array UInt8) (before after : Cursor) : Prop where
  forward : before.position ≤ after.position
  inside : after.position ≤ text.size
  furthest : after.furthest = before.furthest

/-- An error is somewhere between the place where the parser started and the one where it stopped. -/
def Stops {α : Type} (text : Array UInt8) (before : Cursor) : EStateM.Result ParseError Cursor α → Prop
  | .ok _ after => Onward text before after
  | .error error after =>
    Onward text before after ∧ before.position ≤ error.position ∧ error.position ≤ after.position

/-- The parser succeeds, or gets past one byte before it fails. -/
def settles {α : Type} (text : Array UInt8) (before : Cursor) (parser : Parser α) : Bool :=
  match parser text before with
  | .ok _ _ => true
  | .error _ after => before.position + 1 < after.position

variable {α β : Type} {text : Array UInt8} {before middle after : Cursor} {parser : Parser α}

namespace Onward

theorem refl (inside : before.position ≤ text.size) : Onward text before before := ⟨Nat.le_refl _, inside, rfl⟩

theorem trans (first : Onward text before middle) (second : Onward text middle after) : Onward text before after :=
  ⟨Nat.le_trans first.forward second.forward, second.inside, second.furthest.trans first.furthest⟩

theorem restored (onward : Onward text before after) : { after with position := before.position } = before := by
  rw [onward.furthest]

end Onward

theorem Stops.behind {result : EStateM.Result ParseError Cursor α} (onward : Onward text before middle)
    (stops : Stops text middle result) : Stops text before result := by
  cases result with
  | ok value after => exact onward.trans stops
  | error error after =>
    obtain ⟨further, behind, ahead⟩ := stops
    exact ⟨onward.trans further, Nat.le_trans onward.forward behind, ahead⟩

theorem stops_satisfying (accepts : UInt8 → Bool) (inside : before.position ≤ text.size) :
    Stops text before (satisfying accepts text before) := by
  rw [run_satisfying]
  cases found : text[before.position]? with
  | none => exact ⟨.refl inside, Nat.le_refl _, Nat.le_refl _⟩
  | some byte =>
    have further : Onward text before { before with position := before.position + 1 } :=
      ⟨Nat.le_succ _, (Array.getElem?_eq_some_iff.mp found).1, rfl⟩
    by_cases accepted : accepts byte
    · simp only [accepted, if_true]
      exact further
    · simp only [accepted]
      exact ⟨further, Nat.le_refl _, Nat.le_succ _⟩

theorem stops_anyByte (inside : before.position ≤ text.size) : Stops text before (anyByte text before) := by
  rw [run_anyByte]
  cases found : text[before.position]? with
  | none => exact ⟨.refl inside, Nat.le_refl _, Nat.le_refl _⟩
  | some byte => exact ⟨Nat.le_succ _, (Array.getElem?_eq_some_iff.mp found).1, rfl⟩

theorem stops_endOfInput (inside : before.position ≤ text.size) : Stops text before (endOfInput text before) := by
  rw [run_endOfInput]
  split
  · exact .refl inside
  · exact ⟨.refl inside, Nat.le_refl _, Nat.le_refl _⟩

theorem stops_bind {parser : Parser β} {rest : β → Parser α} (first : Stops text before (parser text before))
    (second : ∀ value after, Onward text before after → Stops text after (rest value text after)) :
    Stops text before ((parser >>= rest) text before) := by
  rw [run_bind]
  cases ran : parser text before with
  | ok value after =>
    rw [ran] at first
    exact (second value after first).behind first
  | error error after =>
    rw [ran] at first
    exact first

theorem maybe_eq_none_iff (stops : Stops text before (parser text before)) :
    maybe parser text before = .ok none after ↔
      after = before ∧ ∃ error stop, parser text before = .error error stop := by
  rw [run_maybe]
  cases ran : parser text before with
  | ok value stop => simp
  | error error stop =>
    rw [ran] at stops
    simp [stops.1.restored, eq_comm]

theorem stops_maybe (stops : Stops text before (parser text before)) (inside : before.position ≤ text.size) :
    Stops text before (maybe parser text before) := by
  cases ran : parser text before with
  | ok value after =>
    rw [run_maybe, ran]
    rwa [ran] at stops
  | error error after =>
    rw [(maybe_eq_none_iff stops).mpr ⟨rfl, error, after, ran⟩]
    exact .refl inside

/-- An alternative that does not settle the choice might as well not be there. -/
theorem firstOf_of_unsettled {first second : Parser α} {others : List (Parser α)}
    (stops : Stops text before (first text before)) (unsettled : ¬ settles text before first) :
    firstOf (first :: second :: others) text before = firstOf (second :: others) text before := by
  rw [run_firstOf]
  rw [settles] at unsettled
  cases ran : first text before with
  | ok value after => simp [ran] at unsettled
  | error error after =>
    rw [ran] at stops unsettled
    simp only at unsettled ⊢
    rw [if_neg (by simpa using unsettled), stops.1.restored]

theorem firstOf_of_settled {first second : Parser α} {others : List (Parser α)}
    (settled : settles text before first) : firstOf (first :: second :: others) text before = first text before := by
  rw [run_firstOf]
  rw [settles] at settled
  cases ran : first text before with
  | ok value after => rfl
  | error error after =>
    rw [ran] at settled
    exact if_pos (by simpa using settled)

theorem firstOf_eq {first : Parser α} {others : List (Parser α)}
    (stops : ∀ parser ∈ first :: others, Stops text before (parser text before)) :
    firstOf (first :: others) text before =
      (((first :: others).find? (settles text before)).getD
        ((first :: others).getLast (List.cons_ne_nil first others))) text before := by
  induction others generalizing first with
  | nil =>
    have only : ([first].find? (settles text before)).getD first = first := by
      rw [List.find?_singleton]
      split <;> rfl
    exact (congrFun (congrFun only text) before).symm
  | cons second others ih =>
    by_cases settled : settles text before first
    · rw [firstOf_of_settled settled, List.find?_cons_of_pos settled, Option.getD_some]
    · rw [firstOf_of_unsettled (stops first List.mem_cons_self) settled, List.find?_cons_of_neg settled,
        List.getLast_cons (List.cons_ne_nil second others)]
      exact ih fun parser listed => stops parser (List.mem_cons_of_mem first listed)

theorem stops_firstOf {alternatives : List (Parser α)}
    (stops : ∀ parser ∈ alternatives, Stops text before (parser text before))
    (inside : before.position ≤ text.size) : Stops text before (firstOf alternatives text before) := by
  cases alternatives with
  | nil => exact ⟨.refl inside, Nat.le_refl _, Nat.le_refl _⟩
  | cons first others =>
    rw [firstOf_eq stops]
    cases chosen : (first :: others).find? (settles text before) with
    | none => exact stops _ (List.getLast_mem _)
    | some parser => exact stops parser (List.mem_of_find?_eq_some chosen)

theorem Built.stops (built : Built parser) (inside : before.position ≤ text.size) :
    Stops text before (parser text before) := by
  induction built generalizing before with
  | pure value => exact .refl inside
  | anyByte => exact stops_anyByte inside
  | satisfying accepts => exact stops_satisfying accepts inside
  | literal byte => exact stops_satisfying _ inside
  | endOfInput => exact stops_endOfInput inside
  | fail failure => exact ⟨.refl inside, Nat.le_refl _, Nat.le_refl _⟩
  | bind _ _ first second => exact stops_bind (first inside) fun value after onward => second value onward.inside
  | maybe _ ih => exact stops_maybe (ih inside) inside
  | firstOf _ ih => exact stops_firstOf (fun parser listed => ih parser listed inside) inside

end Parser

namespace Rule

/-- Rules that never jump to a place of their own choice. -/
inductive Staying : Rule → Prop
  | any : Staying any
  | oneOf (set : CharClass) : Staying (oneOf set)
  | literal (byte : UInt8) : Staying (literal byte)
  | endOfInput : Staying endOfInput
  | fail (failure : ParseFailure) : Staying (fail failure)
  | sequence {parts : List Rule} : (∀ part ∈ parts, Staying part) → Staying (sequence parts)
  | maybe {part : Rule} : Staying part → Staying (maybe part)
  | firstOf {alternatives : List Rule} : (∀ rule ∈ alternatives, Staying rule) → Staying (firstOf alternatives)

theorem runAll_eq_map (rules : List Rule) : runAll rules = rules.map run := by
  induction rules with
  | nil => rfl
  | cons rule rest ih => rw [runAll, List.map_cons, ih]

theorem built_foldr {α : Type} {parts : List (Parser α)} (each : ∀ part ∈ parts, Parser.Built part) :
    Parser.Built (parts.foldr (fun part rest => do return (← part) :: (← rest)) (pure [])) := by
  induction parts with
  | nil => exact .pure []
  | cons part rest ih =>
    obtain ⟨first, others⟩ := List.forall_mem_cons.mp each
    exact .bind first fun _ => .bind (ih others) fun _ => .pure _

theorem Staying.built {rule : Rule} (staying : rule.Staying) : Parser.Built rule.run := by
  induction staying with
  | any => exact .bind .anyByte fun _ => .pure _
  | oneOf set => exact .bind (.satisfying _) fun _ => .pure _
  | literal byte => exact .bind (.literal byte) fun _ => .pure _
  | endOfInput => exact .bind .endOfInput fun _ => .pure _
  | fail failure => exact .fail failure
  | maybe _ ih => exact .bind (.maybe ih) fun _ => .pure _
  | firstOf _ ih =>
    rw [run, runAll_eq_map]
    exact .firstOf (List.forall_mem_map.mpr ih)
  | sequence _ ih =>
    rw [run, runAll_eq_map]
    exact .bind (built_foldr (List.forall_mem_map.mpr ih)) fun _ => .pure _

end Rule

namespace Parser

variable {α : Type} {text : Array UInt8} {before : Cursor} {parser : Parser α}

/-- Where a parser stops and with what error, when an optional part is missing, and which of several alternatives
counts. -/
theorem positions_of_built (built : Built parser) (inside : before.position ≤ text.size) :
    Stops text before (parser text before) ∧
    (∀ after, maybe parser text before = .ok none after ↔
      after = before ∧ ∃ error stop, parser text before = .error error stop) ∧
    ∀ others : List (Parser α), (∀ other ∈ others, Built other) →
      firstOf (parser :: others) text before =
        (((parser :: others).find? (settles text before)).getD
          ((parser :: others).getLast (List.cons_ne_nil parser others))) text before := by
  refine ⟨built.stops inside, fun after => maybe_eq_none_iff (built.stops inside), ?_⟩
  intro others each
  exact firstOf_eq (List.forall_mem_cons.mpr
    ⟨built.stops inside, fun other listed => (each other listed).stops inside⟩)

theorem positions_of_built_committed :
    let text : Array UInt8 := #[32, 120, 121]
    let before : Cursor := { position := 1 }
    let one := Rule.literal 120
    let two := Rule.sequence [one, one]
    Built two.run ∧ (∀ other ∈ [one.run], Built other) ∧ before.position ≤ text.size ∧
    Stops text before (two.run text before) ∧ maybe two.run text before = .ok none before ∧
    firstOf [two.run, one.run] text before = .error { position := 2, failure := .invalid none } { position := 3 } := by
  intro text before one two
  have staying : ∀ part ∈ [one, one], part.Staying :=
    List.forall_mem_cons.mpr ⟨.literal 120, List.forall_mem_singleton.mpr (.literal 120)⟩
  have built : Built two.run := (Rule.Staying.sequence staying).built
  have other : ∀ other ∈ [one.run], Built other := List.forall_mem_singleton.mpr (Rule.Staying.literal 120).built
  have inside : before.position ≤ text.size := by decide
  obtain ⟨stops, missing, choice⟩ := positions_of_built built inside
  exact ⟨built, other, inside, stops, (missing before).mpr ⟨rfl, _, _, rfl⟩, (choice _ other).trans rfl⟩

end Parser

end ByteRegex
