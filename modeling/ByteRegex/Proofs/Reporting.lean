import ByteRegex.Proofs.Parsing

/-! The errors that a parser reports from one place of a text: the one that it fails with, and those that
it notes on the way. An error is blamed on a place if what leads up to it could still have gone well. -/

namespace ByteRegex.Parser

variable {α β : Type}

/-- Soundness at one place of a text, where the meaning may refer to it. -/
def SoundAt (parser : Parser α) (text : Array UInt8) (start : Nat) (meaning : List UInt8 → α → Prop) : Prop :=
  ∀ furthest value after, parser text ⟨start, furthest⟩ = .ok value after →
    ∃ word, Spelled text start word ∧ after.position = start + word.length ∧ meaning word value

theorem Sound.soundAt {parser : Parser α} {meaning : List UInt8 → α → Prop} (sound : Sound parser meaning)
    (text : Array UInt8) (start : Nat) : SoundAt parser text start meaning :=
  fun furthest => sound text ⟨start, furthest⟩

theorem SoundAt.maybe {parser : Parser α} {text : Array UInt8} {start : Nat}
    {meaning : List UInt8 → Option α → Prop}
    (present : SoundAt parser text start fun word value => meaning word (some value)) (absent : meaning [] none) :
    SoundAt (maybe parser) text start meaning := by
  intro furthest value final succeeds
  rw [run_maybe] at succeeds
  cases ran : parser text ⟨start, furthest⟩ with
  | ok result after =>
    rw [ran] at succeeds
    obtain ⟨rfl, rfl⟩ := EStateM.Result.ok.inj succeeds
    exact present furthest result after ran
  | error error after =>
    rw [ran] at succeeds
    obtain ⟨rfl, rfl⟩ := EStateM.Result.ok.inj succeeds
    exact ⟨[], spelled_nil, rfl, absent⟩

/-- What is remembered afterwards was known before, or is one of `notes`. -/
def Adds (notes : ParseError → Prop) (before after : Option ParseError) : Prop :=
  ∀ noted ∈ after, noted ∈ before ∨ notes noted

/-- A failure is one of `failures`, and nothing was noted but `notes`. -/
def Within (failures notes : ParseError → Prop) (furthest : Option ParseError) :
    EStateM.Result ParseError Cursor α → Prop
  | .ok _ after => Adds notes furthest after.furthest
  | .error error after => failures error ∧ Adds notes furthest after.furthest

def Reports (parser : Parser α) (text : Array UInt8) (start : Nat) (failures notes : ParseError → Prop) : Prop :=
  ∀ furthest, Within failures notes furthest (parser text ⟨start, furthest⟩)

/-- The error is at the end of a word that is viable where it starts. That the text ends too early is
reported at the end of the text only. -/
structure Blames (text : Array UInt8) (start : Nat) (viable : List UInt8 → Prop) (error : ParseError) : Prop where
  reached : ∃ word, Spelled text start word ∧ error.position = start + word.length ∧ viable word
  atEnd : error.failure = .unexpectedEnd → error.position = text.size
  unfinished : error.failure ≠ .trailingInput

variable {text : Array UInt8} {start : Nat} {failures notes : ParseError → Prop} {error : ParseError}

namespace Adds

variable {before middle after : Option ParseError}

theorem refl : Adds notes before before := fun _ known => .inl known

theorem trans (first : Adds notes before middle) (second : Adds notes middle after) : Adds notes before after :=
  fun noted known => (second noted known).elim (first noted) .inr

theorem mono {more : ParseError → Prop} (adds : Adds notes before after)
    (weakens : ∀ error, notes error → more error) : Adds more before after :=
  fun noted known => (adds noted known).imp_right (weakens noted)

theorem furthestOf (allowed : notes error) : Adds notes before (furthestOf error before) := by
  rw [Parser.furthestOf]
  split
  · exact fun noted known => .inr (Option.some.inj known ▸ allowed)
  · exact refl

end Adds

namespace Within

variable {before middle : Option ParseError} {result : EStateM.Result ParseError Cursor α}

theorem mono {others more : ParseError → Prop} (within : Within failures notes before result)
    (failing : ∀ error, failures error → others error) (noting : ∀ error, notes error → more error) :
    Within others more before result := by
  cases result with
  | ok value after => exact within.mono noting
  | error error after => exact ⟨failing error within.1, within.2.mono noting⟩

theorem after (adds : Adds notes before middle) (within : Within failures notes middle result) :
    Within failures notes before result := by
  cases result with
  | ok value after => exact adds.trans within
  | error error after => exact ⟨within.1, adds.trans within.2⟩

end Within

theorem Spelled.le_size {word : List UInt8} (spelled : Spelled text start word) (inside : start ≤ text.size) :
    start + word.length ≤ text.size := by
  have shorter : word.length ≤ (text.toList.drop start).length := List.IsPrefix.length_le spelled
  have whole : text.toList.length = text.size := rfl
  rw [List.length_drop, whole] at shorter
  omega

namespace Blames

variable {viable wider : List UInt8 → Prop} {before : List UInt8}

theorem behind (spelled : Spelled text start before) (blames : Blames text (start + before.length) viable error)
    (leads : ∀ word, viable word → wider (before ++ word)) : Blames text start wider error := by
  obtain ⟨⟨word, follows, place, goes⟩, atEnd, unfinished⟩ := blames
  refine ⟨⟨before ++ word, spelled_append.mpr ⟨spelled, follows⟩, ?_, leads word goes⟩, atEnd, unfinished⟩
  rw [place, List.length_append, Nat.add_assoc]

theorem mono (blames : Blames text start viable error) (weakens : ∀ word, viable word → wider word) :
    Blames text start wider error :=
  behind spelled_nil blames weakens

theorem spelled (blames : Blames text start viable error) :
    Blames text start (fun word => Spelled text start word ∧ viable word) error := by
  obtain ⟨⟨word, follows, place, goes⟩, atEnd, unfinished⟩ := blames
  exact ⟨⟨word, follows, place, follows, goes⟩, atEnd, unfinished⟩

theorem begin (begins : viable []) (blames : Blames text start (· = []) error) : Blames text start viable error :=
  blames.mono fun _ empty => empty ▸ begins

theorem close (viable : wider before) (spelled : Spelled text start before)
    (blames : Blames text (start + before.length) (· = []) error) : Blames text start wider error := by
  refine blames.behind spelled ?_
  intro word empty
  rwa [empty, List.append_nil]

theorem here {failure : ParseFailure} (begins : viable []) (complete : failure ≠ .unexpectedEnd)
    (unfinished : failure ≠ .trailingInput) : Blames text start viable ⟨start, failure⟩ :=
  ⟨⟨[], spelled_nil, rfl, begins⟩, fun ended => absurd ended complete, unfinished⟩

theorem ended (begins : viable []) (inside : start ≤ text.size) (whole : text[start]? = none) :
    Blames text start viable ⟨start, .unexpectedEnd⟩ := by
  refine ⟨⟨[], spelled_nil, rfl, begins⟩, fun _ => ?_, nofun⟩
  exact Nat.le_antisymm inside (Array.getElem?_eq_none_iff.mp whole)

end Blames

namespace Reports

theorem mono {parser : Parser α} {others more : ParseError → Prop}
    (reports : Reports parser text start failures notes) (failing : ∀ error, failures error → others error)
    (noting : ∀ error, notes error → more error) : Reports parser text start others more :=
  fun furthest => (reports furthest).mono failing noting

theorem failing {parser : Parser α} {others : ParseError → Prop} (reports : Reports parser text start failures notes)
    (weakens : ∀ error, failures error → others error) : Reports parser text start others notes :=
  reports.mono weakens fun _ noted => noted

theorem behind {parser : Parser α} {viable wider : List UInt8 → Prop} {before : List UInt8}
    (reports : Reports parser text (start + before.length) (Blames text (start + before.length) viable) notes)
    (spelled : Spelled text start before) (leads : ∀ word, viable word → wider (before ++ word)) :
    Reports parser text (start + before.length) (Blames text start wider) notes :=
  reports.failing fun _ blames => blames.behind spelled leads

theorem pure {value : α} : Reports (Pure.pure value) text start failures notes := fun _ => Adds.refl

theorem afterPosition {rest : Nat → Parser α} (reports : Reports (rest start) text start failures notes) :
    Reports (position >>= rest) text start failures notes := reports

theorem failAt {place : Nat} {failure : ParseFailure} (allowed : failures ⟨place, failure⟩) :
    Reports (failAt place failure : Parser α) text start failures notes := fun _ => ⟨allowed, Adds.refl⟩

theorem anyByte (inside : start ≤ text.size) : Reports anyByte text start (Blames text start (· = [])) notes := by
  intro furthest
  rw [run_anyByte]
  cases found : text[start]? with
  | none => exact ⟨.ended rfl inside found, Adds.refl⟩
  | some byte => exact Adds.refl

theorem satisfying {accepts : UInt8 → Bool} (inside : start ≤ text.size) :
    Reports (satisfying accepts) text start (Blames text start (· = [])) notes := by
  intro furthest
  rw [run_satisfying]
  cases found : text[start]? with
  | none => exact ⟨.ended rfl inside found, Adds.refl⟩
  | some byte =>
    by_cases accepted : accepts byte
    · simp only [accepted, if_true]
      exact Adds.refl
    · simp only [accepted]
      exact ⟨.here rfl nofun nofun, Adds.refl⟩

/-- The second part starts where the first one stopped, and what it reports counts as well. -/
theorem bind {step : List UInt8 → β → Prop} {parser : Parser β} {rest : β → Parser α}
    (first : Reports parser text start failures notes) (sound : SoundAt parser text start step)
    (second : ∀ before value, Spelled text start before → step before value →
      Reports (rest value) text (start + before.length) failures notes) :
    Reports (parser >>= rest) text start failures notes := by
  intro furthest
  have reports := first furthest
  rw [run_bind]
  cases ran : parser text ⟨start, furthest⟩ with
  | error error after =>
    rw [ran] at reports
    exact reports
  | ok value after =>
    rw [ran] at reports
    obtain ⟨before, spelled, passed, means⟩ := sound furthest value after ran
    have further := second before value spelled means after.furthest
    rw [← passed] at further
    exact further.after reports

/-- What the second part reports counts wherever it starts. -/
theorem andThen {parser : Parser β} {rest : β → Parser α} (first : Reports parser text start failures notes)
    (second : ∀ value place, Reports (rest value) text place failures notes) :
    Reports (parser >>= rest) text start failures notes := by
  intro furthest
  have reports := first furthest
  rw [run_bind]
  cases ran : parser text ⟨start, furthest⟩ with
  | ok value after =>
    rw [ran] at reports
    exact (second value after.position after.furthest).after reports
  | error error after =>
    rw [ran] at reports
    exact reports

theorem map {parser : Parser β} {f : β → α} (reports : Reports parser text start failures notes) :
    Reports (parser >>= fun value => Pure.pure (f value)) text start failures notes :=
  .andThen reports fun _ _ => .pure

theorem afterSymbol {char : Char} {rest : UInt8 → Parser α} (inside : start ≤ text.size)
    (blamed : ∀ error, Blames text start (· = []) error → failures error)
    (second : Spelled text start [char.toUInt8] → Reports (rest char.toUInt8) text (start + 1) failures notes) :
    Reports (symbol char >>= rest) text start failures notes := by
  have sound : SoundAt (symbol char) text start fun word byte => word = [char.toUInt8] ∧ byte = char.toUInt8 := by
    refine (Sound.satisfying.mono ?_).soundAt text start
    intro word byte ⟨passed, same⟩
    rw [passed, eq_of_beq same]
    exact ⟨rfl, rfl⟩
  refine .bind ((satisfying inside).failing blamed) sound ?_
  intro before byte spelled ⟨passed, same⟩
  subst passed same
  exact second spelled

/-- The second alternative is tried only where the first one can fail. -/
theorem orElse {first second : Parser α} {others : List (Parser α)}
    (here : Reports first text start failures notes)
    (later : ∀ furthest error after, first text ⟨start, furthest⟩ = .error error after →
      Reports (firstOf (second :: others)) text start failures notes) :
    Reports (firstOf (first :: second :: others)) text start failures notes := by
  intro furthest
  have reports := here furthest
  rw [run_firstOf]
  cases ran : first text ⟨start, furthest⟩ with
  | ok value after =>
    rw [ran] at reports
    exact reports
  | error error after =>
    rw [ran] at reports
    simp only
    split
    · exact reports
    · exact (later furthest error after ran after.furthest).after reports.2

theorem firstOf {first : Parser α} {others : List (Parser α)}
    (reports : ∀ parser ∈ first :: others, Reports parser text start failures notes) :
    Reports (firstOf (first :: others)) text start failures notes := by
  induction others generalizing first with
  | nil => exact reports first List.mem_cons_self
  | cons second others ih =>
    have later := ih fun parser listed => reports parser (List.mem_cons_of_mem first listed)
    exact .orElse (reports first List.mem_cons_self) fun _ _ _ _ => later

theorem maybe {swallowed : ParseError → Prop} {parser : Parser α}
    (reports : Reports parser text start swallowed notes) : Reports (maybe parser) text start failures notes := by
  intro furthest
  have inner := reports furthest
  rw [run_maybe]
  cases ran : parser text ⟨start, furthest⟩ with
  | ok value after =>
    rw [ran] at inner
    exact inner
  | error error after =>
    rw [ran] at inner
    exact inner.2

theorem optionally {char : Char} {rest : Option UInt8 → Parser α}
    (present : Spelled text start [char.toUInt8] →
      Reports (rest (some char.toUInt8)) text (start + 1) failures notes)
    (absent : text[start]? ≠ some char.toUInt8 → Reports (rest none) text start failures notes) :
    Reports (Parser.maybe (symbol char) >>= rest) text start failures notes := by
  intro furthest
  rw [run_bind, run_maybe, symbol, literal, run_satisfying]
  cases found : text[start]? with
  | none => exact absent (by simp [found]) furthest
  | some byte =>
    by_cases same : byte = char.toUInt8
    · subst same
      simp only [beq_self_eq_true, if_true]
      exact present (spelled_singleton.mpr found) furthest
    · have other : (byte == char.toUInt8) = false := by simpa using same
      simp only [other]
      exact absent (by simpa [found] using same) furthest

theorem iterate (invariant : List UInt8 → α → Prop) {step : α → Parser (Option α)}
    (keeps : ∀ before value, invariant before value → Sound (step value) fun word result =>
      result.elim (word = []) (invariant (before ++ word)))
    (reports : ∀ before value, Spelled text start before → invariant before value →
      Reports (step value) text (start + before.length) failures notes)
    (limit : Nat) {before : List UInt8} {value : α} (spelled : Spelled text start before)
    (holds : invariant before value) :
    Reports (iterate step limit value) text (start + before.length) failures notes := by
  induction limit generalizing before value with
  | zero => exact .pure
  | succ limit ih =>
    rw [Parser.iterate]
    refine .bind (reports before value spelled holds) ((keeps before value holds).soundAt text _) ?_
    intro word result follows kept
    cases result with
    | none => exact .pure
    | some longer =>
      have longest := ih (spelled_append.mpr ⟨spelled, follows⟩) kept
      rwa [List.length_append, ← Nat.add_assoc] at longest

theorem repeated (invariant : List UInt8 → α → Prop) {step : α → Parser (Option α)}
    (keeps : ∀ before value, invariant before value → Sound (step value) fun word result =>
      result.elim (word = []) (invariant (before ++ word)))
    (reports : ∀ before value, Spelled text start before → invariant before value →
      Reports (step value) text (start + before.length) failures notes)
    {before : List UInt8} {value : α} (spelled : Spelled text start before) (holds : invariant before value) :
    Reports (repeated value step) text (start + before.length) failures notes :=
  fun furthest => iterate invariant keeps reports (text.size + 1) spelled holds furthest

end Reports

end ByteRegex.Parser
