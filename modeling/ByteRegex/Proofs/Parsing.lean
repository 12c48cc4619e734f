import ByteRegex.Parser.Basic

/-! What it means that a parser is right about a text. It is sound if whatever it passes before it
succeeds has the meaning of its value. In the other direction a text is given, and the parser yields
a value on a part of it, or refuses it without getting past one byte; neither leaves a note behind. -/

namespace ByteRegex.Parser

/-- The text has `word` at this position. -/
def Spelled (text : Array UInt8) (position : Nat) (word : List UInt8) : Prop :=
  word <+: text.toList.drop position

section Spelled

variable {text : Array UInt8} {position : Nat} {byte : UInt8} {word first second : List UInt8}

@[simp] theorem spelled_nil : Spelled text position [] := List.nil_prefix

theorem spelled_cons : Spelled text position (byte :: word) ↔
    text[position]? = some byte ∧ Spelled text (position + 1) word := by
  by_cases inside : position < text.size
  · have present : position < text.toList.length := inside
    rw [Spelled, List.drop_eq_getElem_cons present, List.cons_prefix_cons, Array.getElem?_eq_getElem inside]
    simp [Spelled, eq_comm]
  · have absent : text.toList.drop position = [] := List.drop_eq_nil_of_le (Nat.le_of_not_lt inside)
    rw [Spelled, absent, Array.getElem?_eq_none (Nat.le_of_not_lt inside)]
    simp

theorem spelled_append : Spelled text position (first ++ second) ↔
    Spelled text position first ∧ Spelled text (position + first.length) second := by
  induction first generalizing position with
  | nil => simp
  | cons byte rest ih =>
    rw [List.cons_append, spelled_cons, ih, spelled_cons, and_assoc, List.length_cons, Nat.add_assoc,
      Nat.add_comm 1]

theorem spelled_singleton : Spelled text position [byte] ↔ text[position]? = some byte := by
  simp [spelled_cons]

theorem spelled_toList (text : Array UInt8) : Spelled text 0 text.toList := List.prefix_refl _

theorem Spelled.eq_toList (spelled : Spelled text 0 word) (whole : word.length = text.size) :
    word = text.toList :=
  spelled.eq_of_length whole

theorem Spelled.length_le (spelled : Spelled text position word) : word.length ≤ text.size := by
  have shorter := List.IsPrefix.length_le spelled
  rw [List.length_drop] at shorter
  exact Nat.le_trans shorter (Nat.sub_le _ _)

theorem Spelled.length_rear_le (spelled : Spelled text position (first ++ second)) : second.length ≤ text.size :=
  (spelled_append.mp spelled).2.length_le

end Spelled

variable {α β : Type}

theorem run_bind (parser : Parser α) (rest : α → Parser β) (text : Array UInt8) (before : Cursor) :
    (parser >>= rest) text before = match parser text before with
      | .ok value after => rest value text after
      | .error error after => .error error after := by
  simp only [bind, ReaderT.bind, EStateM.bind]
  cases parser text before <;> rfl

theorem run_pure (value : α) (text : Array UInt8) (before : Cursor) :
    (pure value : Parser α) text before = .ok value before := rfl

theorem run_text (text : Array UInt8) (before : Cursor) :
    (read : Parser (Array UInt8)) text before = .ok text before := rfl

theorem run_position (text : Array UInt8) (before : Cursor) :
    position text before = .ok before.position before := rfl

theorem run_moveTo (place : Nat) (text : Array UInt8) (before : Cursor) :
    moveTo place text before = .ok () { before with position := place } := rfl

theorem run_failAt (place : Nat) (failure : ParseFailure) (text : Array UInt8) (before : Cursor) :
    (failAt place failure : Parser α) text before = .error ⟨place, failure⟩ before := rfl

theorem run_anyByte (text : Array UInt8) (before : Cursor) : anyByte text before =
    match text[before.position]? with
    | some byte => .ok byte { before with position := before.position + 1 }
    | none => .error ⟨before.position, .unexpectedEnd⟩ before := by
  simp only [anyByte, run_bind, run_position, run_text]
  cases text[before.position]? <;> rfl

theorem run_satisfying (accepts : UInt8 → Bool) (text : Array UInt8) (before : Cursor) :
    satisfying accepts text before = match text[before.position]? with
    | some byte =>
      if accepts byte then .ok byte { before with position := before.position + 1 }
      else .error ⟨before.position, .invalid none⟩ { before with position := before.position + 1 }
    | none => .error ⟨before.position, .unexpectedEnd⟩ before := by
  simp only [satisfying, run_bind, run_position, run_anyByte]
  cases text[before.position]? with
  | none => rfl
  | some byte => by_cases accepted : accepts byte <;> simp [accepted, run_pure, run_failAt]

theorem run_endOfInput (text : Array UInt8) (before : Cursor) : endOfInput text before =
    if before.position = text.size then .ok () before
    else .error ⟨before.position, .trailingInput⟩ before := by
  simp only [endOfInput, atEnd, run_bind, run_position, run_text, run_pure, beq_iff_eq]
  split <;> rfl

/-- The error to remember out of a new one and the furthest one so far. -/
def furthestOf (error : ParseError) (known : Option ParseError) : Option ParseError :=
  if known.all (·.position < error.position) then some error else known

theorem run_note (error : ParseError) (text : Array UInt8) (before : Cursor) :
    note error text before = .ok () { before with furthest := furthestOf error before.furthest } := by
  have ran : note error text before = .ok () (if before.furthest.all (·.position < error.position) then
      { before with furthest := some error } else before) := rfl
  rw [ran, furthestOf]
  split <;> rfl

theorem run_firstOf (first second : Parser α) (rest : List (Parser α)) (text : Array UInt8) (before : Cursor) :
    firstOf (first :: second :: rest) text before = match first text before with
      | .ok value after => .ok value after
      | .error error after =>
        if before.position + 1 < after.position then .error error after
        else firstOf (second :: rest) text { after with position := before.position } := rfl

theorem run_maybe (parser : Parser α) (text : Array UInt8) (before : Cursor) :
    maybe parser text before = match parser text before with
      | .ok value after => .ok (some value) after
      | .error _ after => .ok none { after with position := before.position } := rfl

/-- Every success is due to a word of the text that has the meaning of the value. -/
def Sound (parser : Parser α) (meaning : List UInt8 → α → Prop) : Prop :=
  ∀ text before value after, parser text before = .ok value after →
    ∃ word, Spelled text before.position word ∧ after.position = before.position + word.length ∧
      meaning word value

namespace Sound

variable {meaning : List UInt8 → α → Prop}

theorem mono {weaker : List UInt8 → α → Prop} {parser : Parser α} (sound : Sound parser meaning)
    (weakens : ∀ word value, meaning word value → weaker word value) : Sound parser weaker := by
  intro text before value after succeeds
  obtain ⟨word, spelled, passed, means⟩ := sound text before value after succeeds
  exact ⟨word, spelled, passed, weakens word value means⟩

/-- The parts of a sequence share its meaning: each continues the words before it. -/
theorem bind {step : List UInt8 → β → Prop} {parser : Parser β} {rest : β → Parser α}
    (first : Sound parser step)
    (second : ∀ before value, step before value → Sound (rest value) fun word => meaning (before ++ word)) :
    Sound (parser >>= rest) meaning := by
  intro text start value final succeeds
  rw [run_bind] at succeeds
  cases ran : parser text start with
  | error error after => simp [ran] at succeeds
  | ok middle after =>
    rw [ran] at succeeds
    obtain ⟨front, spelled, passed, means⟩ := first text start middle after ran
    obtain ⟨rear, follows, moved, whole⟩ := second front middle means text after value final succeeds
    refine ⟨front ++ rear, spelled_append.mpr ⟨spelled, passed ▸ follows⟩, ?_, whole⟩
    rw [moved, passed, List.length_append, Nat.add_assoc]

theorem pure {value : α} (means : meaning [] value) : Sound (Pure.pure value) meaning := by
  intro text before _ after succeeds
  cases succeeds
  exact ⟨[], spelled_nil, rfl, means⟩

theorem position : Sound position fun word _ => word = [] := by
  intro text before _ after succeeds
  cases succeeds
  exact ⟨[], spelled_nil, rfl, rfl⟩

theorem failAt {place : Nat} {failure : ParseFailure} : Sound (failAt place failure) meaning := by
  intro text before value after succeeds
  cases succeeds

theorem anyByte : Sound anyByte fun word byte => word = [byte] := by
  intro text before value after succeeds
  rw [run_anyByte] at succeeds
  cases found : text[before.position]? with
  | none => simp [found] at succeeds
  | some byte =>
    rw [found] at succeeds
    injection succeeds with same moved
    subst same moved
    exact ⟨[byte], spelled_singleton.mpr found, rfl, rfl⟩

theorem satisfying {accepts : UInt8 → Bool} :
    Sound (satisfying accepts) fun word byte => word = [byte] ∧ accepts byte := by
  intro text before value after succeeds
  rw [run_satisfying] at succeeds
  cases found : text[before.position]? with
  | none => simp [found] at succeeds
  | some byte =>
    by_cases accepted : accepts byte
    · simp only [found, accepted, if_true] at succeeds
      injection succeeds with same moved
      subst same moved
      exact ⟨[byte], spelled_singleton.mpr found, rfl, rfl, accepted⟩
    · simp [found, accepted] at succeeds

theorem symbol {char : Char} : Sound (symbol char) fun word _ => word = [char.toUInt8] := by
  refine satisfying.mono ?_
  intro word byte ⟨passed, same⟩
  rw [passed, eq_of_beq same]

theorem firstOf {alternatives : List (Parser α)}
    (sound : ∀ parser ∈ alternatives, Sound parser meaning) : Sound (firstOf alternatives) meaning := by
  induction alternatives with
  | nil =>
    intro text before value after succeeds
    cases succeeds
  | cons first rest ih =>
    cases rest with
    | nil => exact sound first List.mem_cons_self
    | cons second rest =>
      intro text before value final succeeds
      rw [run_firstOf] at succeeds
      cases ran : first text before with
      | ok result after =>
        rw [ran] at succeeds
        exact sound first List.mem_cons_self text before value final (ran.trans succeeds)
      | error error after =>
        rw [ran] at succeeds
        simp only at succeeds
        split at succeeds
        · cases succeeds
        · have others := ih fun parser listed => sound parser (List.mem_cons_of_mem first listed)
          obtain ⟨word, spelled, passed, means⟩ := others text _ value final succeeds
          exact ⟨word, spelled, passed, means⟩

theorem maybe {meaning : List UInt8 → Option α → Prop} {parser : Parser α}
    (present : Sound parser fun word value => meaning word (some value)) (absent : meaning [] none) :
    Sound (maybe parser) meaning := by
  intro text before value final succeeds
  rw [run_maybe] at succeeds
  cases ran : parser text before with
  | ok result after =>
    rw [ran] at succeeds
    injection succeeds with same moved
    subst same moved
    exact present text before result after ran
  | error error after =>
    rw [ran] at succeeds
    injection succeeds with same moved
    subst same moved
    exact ⟨[], spelled_nil, rfl, absent⟩

/-- An optional symbol that is missing is not what follows either. -/
theorem optionally {char : Char} {rest : Option UInt8 → Parser α}
    (present : Sound (rest (some char.toUInt8)) fun word => meaning (char.toUInt8 :: word))
    (absent : Sound (rest none) fun word value => word.head? ≠ some char.toUInt8 → meaning word value) :
    Sound (Parser.maybe (Parser.symbol char) >>= rest) meaning := by
  intro text before value final succeeds
  rw [run_bind, run_maybe, Parser.symbol, Parser.literal, run_satisfying] at succeeds
  by_cases here : text[before.position]? = some char.toUInt8
  · simp only [here, beq_self_eq_true, if_true] at succeeds
    obtain ⟨word, spelled, passed, means⟩ := present text _ value final succeeds
    refine ⟨char.toUInt8 :: word, spelled_cons.mpr ⟨here, spelled⟩, ?_, means⟩
    rw [passed, List.length_cons, Nat.add_assoc, Nat.add_comm 1]
  · have missing : rest none text before = .ok value final := by
      cases found : text[before.position]? with
      | none => simpa [found] using succeeds
      | some byte =>
        have other : (byte == char.toUInt8) = false := by simpa [found] using here
        simpa [found, other] using succeeds
    obtain ⟨word, spelled, passed, means⟩ := absent text before value final missing
    refine ⟨word, spelled, passed, means ?_⟩
    intro begins
    cases word with
    | nil => cases begins
    | cons byte rest => exact here (begins ▸ (spelled_cons.mp spelled).1)

/-- What holds of the start and is kept by every step holds of the result. -/
theorem iterate (invariant : List UInt8 → α → Prop) {step : α → Parser (Option α)}
    (keeps : ∀ before value, invariant before value → Sound (step value) fun word result =>
      result.elim (word = []) (invariant (before ++ word)))
    (limit : Nat) {before : List UInt8} {start : α} (holds : invariant before start) :
    Sound (iterate step limit start) fun word => invariant (before ++ word) := by
  induction limit generalizing before start with
  | zero => exact .pure (by rwa [List.append_nil])
  | succ limit ih =>
    rw [Parser.iterate]
    refine .bind (keeps before start holds) ?_
    intro word result kept
    cases result with
    | none =>
      subst kept
      exact .pure (by rwa [List.append_nil, List.append_nil])
    | some longer =>
      refine (ih kept).mono ?_
      intro rest value holds
      rwa [← List.append_assoc]

theorem repeated (invariant : List UInt8 → α → Prop) {step : α → Parser (Option α)}
    (keeps : ∀ before value, invariant before value → Sound (step value) fun word result =>
      result.elim (word = []) (invariant (before ++ word)))
    {before : List UInt8} {start : α} (holds : invariant before start) :
    Sound (repeated start step) fun word => invariant (before ++ word) := by
  intro text cursor value after succeeds
  exact iterate invariant keeps _ holds text cursor value after succeeds

end Sound

/-- The parser takes `word` from this place on and returns the value. -/
def Yields (parser : Parser α) (text : Array UInt8) (start : Nat) (word : List UInt8) (value : α) : Prop :=
  ∀ furthest, parser text ⟨start, furthest⟩ = .ok value ⟨start + word.length, furthest⟩

/-- The parser fails where it starts, and leaves an alternative to it in place. -/
def Refuses (parser : Parser α) (text : Array UInt8) (start : Nat) : Prop :=
  ∀ furthest, ∃ error stop, parser text ⟨start, furthest⟩ = .error error ⟨stop, furthest⟩ ∧
    error.position ≤ start ∧ start ≤ stop ∧ stop ≤ start + 1

/-- So many steps lead from one value and place to another. -/
def Advances (step : α → Parser (Option α)) (text : Array UInt8) (steps start : Nat) (value : α)
    (stop : Nat) (longer : α) : Prop :=
  ∀ limit furthest,
    iterate step (limit + steps) value text ⟨start, furthest⟩ = iterate step limit longer text ⟨stop, furthest⟩

variable {text : Array UInt8} {start : Nat} {word first second : List UInt8} {value : α}

namespace Yields

theorem pure : Yields (Pure.pure value) text start [] value := fun _ => rfl

theorem position : Yields position text start [] start := fun _ => rfl

theorem bind {parser : Parser β} {rest : β → Parser α} {middle : β}
    (front : Yields parser text start first middle)
    (rear : Yields (rest middle) text (start + first.length) second value) :
    Yields (parser >>= rest) text start (first ++ second) value := by
  intro furthest
  rw [run_bind, front furthest, List.length_append, ← Nat.add_assoc]
  exact rear furthest

/-- The first part of a sequence takes nothing. -/
theorem afterNothing {parser : Parser β} {rest : β → Parser α} {middle : β}
    (front : Yields parser text start [] middle) (rear : Yields (rest middle) text start word value) :
    Yields (parser >>= rest) text start word value :=
  bind front rear

/-- The last part of a sequence takes nothing. -/
theorem finish {parser : Parser β} {rest : β → Parser α} {middle : β}
    (front : Yields parser text start word middle)
    (rear : Yields (rest middle) text (start + word.length) [] value) :
    Yields (parser >>= rest) text start word value := by
  have whole := front.bind rear
  rwa [List.append_nil] at whole

theorem anyByte {byte : UInt8} (found : text[start]? = some byte) :
    Yields anyByte text start [byte] byte := by
  intro furthest
  rw [run_anyByte, found]
  rfl

theorem satisfying {accepts : UInt8 → Bool} {byte : UInt8} (found : text[start]? = some byte)
    (accepted : accepts byte) : Yields (satisfying accepts) text start [byte] byte := by
  intro furthest
  rw [run_satisfying, found]
  exact if_pos accepted

theorem symbol {char : Char} (found : text[start]? = some char.toUInt8) :
    Yields (symbol char) text start [char.toUInt8] char.toUInt8 :=
  satisfying found (beq_self_eq_true _)

theorem afterByte {byte : UInt8} {rest : UInt8 → Parser α} (found : text[start]? = some byte)
    (next : Yields (rest byte) text (start + 1) word value) :
    Yields (Parser.anyByte >>= rest) text start (byte :: word) value :=
  bind (anyByte found) next

theorem afterSymbol {char : Char} {rest : UInt8 → Parser α} (found : text[start]? = some char.toUInt8)
    (next : Yields (rest char.toUInt8) text (start + 1) word value) :
    Yields (Parser.symbol char >>= rest) text start (char.toUInt8 :: word) value :=
  bind (symbol found) next

theorem sooner {parser : Parser α} {rest : List (Parser α)} (yields : Yields parser text start word value) :
    Yields (firstOf (parser :: rest)) text start word value := by
  cases rest with
  | nil => exact yields
  | cons second rest =>
    intro furthest
    rw [run_firstOf, yields furthest]

theorem later {parser second : Parser α} {rest : List (Parser α)} (refuses : Refuses parser text start)
    (yields : Yields (firstOf (second :: rest)) text start word value) :
    Yields (firstOf (parser :: second :: rest)) text start word value := by
  intro furthest
  obtain ⟨error, stop, ran, _, _, near⟩ := refuses furthest
  rw [run_firstOf, ran]
  exact (if_neg (Nat.not_lt_of_le near)).trans (yields furthest)

theorem present {parser : Parser α} (yields : Yields parser text start word value) :
    Yields (maybe parser) text start word (some value) := by
  intro furthest
  rw [run_maybe, yields furthest]

theorem absent {parser : Parser α} (refuses : Refuses parser text start) :
    Yields (maybe parser) text start [] none := by
  intro furthest
  obtain ⟨error, stop, ran, _⟩ := refuses furthest
  rw [run_maybe, ran]
  rfl

end Yields

namespace Refuses

theorem bind {parser : Parser β} {rest : β → Parser α} (refuses : Refuses parser text start) :
    Refuses (parser >>= rest) text start := by
  intro furthest
  obtain ⟨error, stop, ran, near⟩ := refuses furthest
  refine ⟨error, stop, ?_, near⟩
  rw [run_bind, ran]

theorem afterPosition {rest : Nat → Parser α} (refuses : Refuses (rest start) text start) :
    Refuses (position >>= rest) text start := refuses

theorem satisfying {accepts : UInt8 → Bool} (others : ∀ byte, text[start]? = some byte → ¬ accepts byte) :
    Refuses (satisfying accepts) text start := by
  intro furthest
  rw [run_satisfying]
  cases found : text[start]? with
  | none => exact ⟨_, _, rfl, Nat.le_refl start, Nat.le_refl start, Nat.le_succ start⟩
  | some byte => exact ⟨_, _, if_neg (others byte found), Nat.le_refl start, Nat.le_succ start, Nat.le_refl _⟩

theorem symbol {char : Char} (others : text[start]? ≠ some char.toUInt8) :
    Refuses (symbol char) text start :=
  satisfying fun _ found same => others (found.trans (congrArg some (eq_of_beq same)))

theorem firstOf {alternatives : List (Parser α)}
    (refuses : ∀ parser ∈ alternatives, Refuses parser text start) :
    Refuses (firstOf alternatives) text start := by
  induction alternatives with
  | nil => exact fun furthest => ⟨_, _, rfl, Nat.le_refl start, Nat.le_refl start, Nat.le_succ start⟩
  | cons first rest ih =>
    cases rest with
    | nil => exact refuses first List.mem_cons_self
    | cons second rest =>
      intro furthest
      obtain ⟨error, stop, ran, _, _, near⟩ := refuses first List.mem_cons_self furthest
      rw [run_firstOf, ran]
      simp only [if_neg (Nat.not_lt_of_le near)]
      exact ih (fun parser listed => refuses parser (List.mem_cons_of_mem first listed)) furthest

end Refuses

namespace Advances

variable {step : α → Parser (Option α)} {steps stop : Nat} {longer : α}

theorem refl : Advances step text 0 start value start value := fun _ _ => rfl

theorem snoc {longest : α} (before : Advances step text steps start value stop longer)
    (next : Yields (step longer) text stop word (some longest)) :
    Advances step text (steps + 1) start value (stop + word.length) longest := by
  intro limit furthest
  rw [Nat.add_comm steps, ← Nat.add_assoc, before (limit + 1) furthest, iterate, run_bind, next furthest]

/-- The repetition takes all steps, which its limit allows, and the next one decides how it goes on. -/
theorem run_repeated (advances : Advances step text steps start value stop longer) (enough : steps ≤ text.size)
    (furthest : Option ParseError) : ∃ limit, Parser.repeated value step text ⟨start, furthest⟩ =
      iterate step (limit + 1) longer text ⟨stop, furthest⟩ := by
  obtain ⟨limit, sum⟩ := Nat.exists_eq_add_of_le' enough
  have begins : Parser.repeated value step text ⟨start, furthest⟩ =
      iterate step (text.size + 1) value text ⟨start, furthest⟩ := rfl
  refine ⟨limit, ?_⟩
  rw [begins, sum, Nat.add_right_comm, advances (limit + 1) furthest]

/-- The repetition ends when there is nothing to add. -/
theorem repeated (advances : Advances step text steps start value (start + word.length) longer)
    (enough : steps ≤ text.size) (done : Yields (step longer) text (start + word.length) [] none) :
    Yields (Parser.repeated value step) text start word longer := by
  intro furthest
  obtain ⟨limit, ran⟩ := advances.run_repeated enough furthest
  rw [ran, iterate, run_bind, done furthest]
  rfl

end Advances

end ByteRegex.Parser
