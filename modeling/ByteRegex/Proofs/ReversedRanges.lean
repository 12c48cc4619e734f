import ByteRegex.Proofs.Surroundings

/-! Patterns with a range the wrong way round. The parser stops at such a range, and what becomes of the error
depends on the way out: a sequence remembers the error of an atom behind another one, but what is wrong in
the first atom behind a bar is forgotten, and an earlier place is reported. -/

namespace ByteRegex

namespace Parser

variable {α β : Type} {text : Array UInt8} {start flaw : Nat} {word : List UInt8}

/-- The parser fails because of the range that starts at `flaw`, and has passed some of it. -/
def Trips (parser : Parser α) (text : Array UInt8) (start flaw : Nat) : Prop :=
  ∀ furthest, ∃ stop, parser text ⟨start, furthest⟩ = .error ⟨flaw, .invalidRange⟩ ⟨stop, furthest⟩ ∧ flaw < stop

namespace Trips

theorem bind {parser : Parser β} {rest : β → Parser α} (trips : Trips parser text start flaw) :
    Trips (parser >>= rest) text start flaw := by
  intro furthest
  obtain ⟨stop, ran, past⟩ := trips furthest
  exact ⟨stop, by rw [run_bind, ran], past⟩

theorem after {parser : Parser β} {rest : β → Parser α} {middle : β}
    (yields : Yields parser text start word middle) (trips : Trips (rest middle) text (start + word.length) flaw) :
    Trips (parser >>= rest) text start flaw := by
  intro furthest
  obtain ⟨stop, ran, past⟩ := trips furthest
  refine ⟨stop, ?_, past⟩
  rw [run_bind, yields furthest]
  exact ran

theorem sooner {parser : Parser α} {rest : List (Parser α)} (trips : Trips parser text start flaw)
    (ahead : start < flaw) : Trips (firstOf (parser :: rest)) text start flaw := by
  cases rest with
  | nil => exact trips
  | cons second rest =>
    intro furthest
    obtain ⟨stop, ran, past⟩ := trips furthest
    refine ⟨stop, ?_, past⟩
    have commits : start + 1 < stop := Nat.lt_of_le_of_lt ahead past
    rw [run_firstOf, ran]
    exact if_pos commits

theorem later {parser second : Parser α} {rest : List (Parser α)} (refuses : Refuses parser text start)
    (trips : Trips (firstOf (second :: rest)) text start flaw) :
    Trips (firstOf (parser :: second :: rest)) text start flaw := by
  intro furthest
  obtain ⟨error, middle, ran, _, _, near⟩ := refuses furthest
  obtain ⟨stop, ends, past⟩ := trips furthest
  refine ⟨stop, ?_, past⟩
  rw [run_firstOf, ran]
  exact (if_neg (Nat.not_lt_of_le near)).trans ends

theorem repeated {step : α → Parser (Option α)} {steps stop : Nat} {value longer : α}
    (advances : Advances step text steps start value stop longer) (enough : steps ≤ text.size)
    (trips : Trips (step longer) text stop flaw) : Trips (repeated value step) text start flaw := by
  intro furthest
  obtain ⟨limit, ran⟩ := advances.run_repeated enough furthest
  obtain ⟨last, ends, past⟩ := trips furthest
  exact ⟨last, by rw [ran, iterate, run_bind, ends], past⟩

end Trips

end Parser

namespace Pattern

open ByteRegex.Parser

variable {before after word front rear mended : List UInt8} {text : Array UInt8} {start flaw place : Nat}
  {table : ClassTable} {standing : Standing} {level : Level}

theorem Ranges.separate (ranges : Ranges after) (spelled : Spelled text start (after ++ [']'.toUInt8])) :
    text[start]? ≠ some '-'.toUInt8 := by
  rcases ranges with rfl | ⟨ranges, intervals⟩
  · rw [spelled_singleton.mp spelled]
    decide
  · obtain ⟨first, rest, rfl, _, other⟩ := intervals.begins
    rw [(spelled_cons.mp spelled).1]
    simpa using other

theorem trips_ordered {range : ByteRange} (below : range.last < range.first) (past : flaw < start) :
    Trips (Grammar.ordered (flaw, range)) text start flaw := by
  intro furthest
  refine ⟨start, ?_, past⟩
  rw [Grammar.ordered, if_pos below]
  rfl

theorem trips_nextRange {range : ByteRange} (bounds : Bounds word range) (below : range.last < range.first)
    (spelled : Spelled text start word) (ends : text[start + word.length]? ≠ some '-'.toUInt8)
    (ranges : Array ByteRange) : Trips (Grammar.nextRange ranges) text start start := by
  obtain ⟨byte, rest, rfl, _⟩ := bounds.begins
  refine .after (.present (yields_bounds bounds spelled ends)) (.bind (trips_ordered below ?_))
  simp

theorem trips_bracketedRest (reversed : Reversed word place mended) (inverted : Bool)
    (spelled : Spelled text start (word ++ [']'.toUInt8])) :
    Trips (Grammar.bracketedRest inverted) text start (start + place) := by
  obtain @⟨before, lower, upper, after, first, last, left, low, high, below, right⟩ := reversed
  rw [List.append_assoc] at spelled
  obtain ⟨front, closing⟩ := spelled_append.mp spelled
  rw [List.length_append, ← Nat.add_assoc] at closing
  obtain ⟨leading, range⟩ := spelled_append.mp front
  have bounds : Bounds (lower ++ '-'.toUInt8 :: upper) ⟨first, last⟩ := .pair low high
  obtain ⟨byte, others, begins, _, dash⟩ := bounds.begins
  -- The first range of a class is parsed apart from those that the repetition takes.
  rcases left with rfl | ⟨ranges, intervals⟩
  · have yields := yields_bounds bounds range (right.separate closing)
    refine .after yields (.bind (trips_ordered below ?_))
    rw [begins]
    simp
  · have next : text[start + before.length]? ≠ some '-'.toUInt8 := by
      rw [begins] at range
      rw [(spelled_cons.mp range).1]
      simpa using dash
    obtain ⟨lead, rest, initial, steps, rfl, ⟨leads, upright⟩, follows, fewer, advances⟩ :=
      advances_intervals intervals leading next
    have enough := Nat.le_trans fewer leading.length_rear_le
    refine .after (yields_bounds leads (spelled_append.mp leading).1 follows) ?_
    simp only [ordered_eq upright, pure_bind]
    have trips := trips_nextRange bounds below range (right.separate closing) ranges.toArray
    exact .bind (.repeated advances enough trips)

theorem trips_bracketed (flawed : Flawed word place mended) (spelled : Spelled text start word) :
    Trips Grammar.bracketed text start (start + place) := by
  rw [bracketed_eq]
  cases flawed with
  | bracket reversed caretless _ =>
    obtain ⟨opens, spelled⟩ := spelled_cons.mp spelled
    have missing := caretless_of_spelled spelled caretless
    have trips := trips_bracketedRest reversed false spelled
    rw [← Nat.add_assoc]
    exact .after (.symbol opens) (.after (.absent (.symbol missing)) trips)
  | inverted reversed =>
    obtain ⟨opens, spelled⟩ := spelled_cons.mp spelled
    obtain ⟨caret, spelled⟩ := spelled_cons.mp spelled
    have trips := trips_bracketedRest reversed true spelled
    rw [← Nat.add_assoc]
    exact .after (.symbol opens) (.after (.present (.symbol caret)) trips)

theorem trips_atom (whole : Parser Pattern) (flawed : Flawed word place mended) (spelled : Spelled text start word) :
    Trips (Grammar.atom table whole) text start (start + place) := by
  have trips := trips_bracketed flawed spelled
  obtain ⟨inside, rest, _, rfl, _⟩ := flawed.begins
  have other : text[start]? ≠ some '('.toUInt8 := by
    rw [(spelled_cons.mp spelled).1]
    decide
  refine .later (.bind (.symbol other)) (.bind (.sooner trips ?_))
  exact Nat.lt_add_of_pos_right inside

/-- What is remembered of the flaw when the parser of a level has ended. -/
def Standing.Remembers (flaw : Nat) (known : Option ParseError) : Standing → Prop
  | later => known = some ⟨flaw, .invalidRange⟩
  | _ => ∀ noted ∈ known, noted.position < flaw

def Standing.Blames (flaw : Nat) (error : ParseError) : Standing → Prop
  | foremost => error = ⟨flaw, .invalidRange⟩
  | _ => error.position < flaw

/-- Where the parser of a level may stop without getting to the flaw. -/
def Level.Halts (text : Array UInt8) (place : Nat) : Level → Prop
  | .atom | .quantified => False
  | .sequence => text[place]? ≠ some ')'.toUInt8 ∧ text[place]? ≠ some '|'.toUInt8
  | .alternatives => text[place]? ≠ some ')'.toUInt8

/-- How the parser of a level ends if it starts in front of the flaw. -/
def Ends {α : Type} (standing : Standing) (level : Level) (text : Array UInt8) (start flaw : Nat) :
    EStateM.Result ParseError Cursor α → Prop
  | .ok _ after => standing ≠ .foremost ∧ level.Halts text after.position ∧ start < after.position ∧
    after.position < flaw ∧ standing.Remembers flaw after.furthest
  | .error error after => standing.Blames flaw error ∧ start + 1 < after.position ∧
    standing.Remembers flaw after.furthest

/-- The parser ends like this unless more than what is in front of the flaw was known before. -/
def Breaks {α : Type} (standing : Standing) (level : Level) (parser : Parser α) (text : Array UInt8)
    (start flaw : Nat) : Prop :=
  ∀ furthest, (∀ noted ∈ furthest, noted.position < flaw) →
    Ends standing level text start flaw (parser text ⟨start, furthest⟩)

variable {whole : Parser Pattern} {error : ParseError} {known : Option ParseError}

/-- What is blamed while a sequence ends is noted if the flaw is, and does not replace the flaw. -/
theorem Standing.Remembers.note (remembers : standing.Remembers flaw known) (blames : standing.Blames flaw error)
    (ahead : start < flaw) : standing.afterAtom.Remembers flaw
      (if start < error.position then furthestOf error known else known) := by
  cases standing with
  | foremost =>
    obtain rfl := blames
    have all : known.all (fun noted => noted.position < flaw) := by
      rw [Option.all_eq_true]
      exact fun noted listed => decide_eq_true (remembers noted listed)
    rw [if_pos ahead, furthestOf, if_pos all]
    rfl
  | later =>
    -- The flaw has been noted before, and the error lies in front of it.
    obtain rfl := remembers
    have nearer : ¬ flaw < error.position := Nat.lt_asymm blames
    simp [furthestOf, nearer, afterAtom, Remembers]
  | behindBar =>
    split
    · rw [furthestOf]
      split
      · intro noted same
        exact Option.some.inj same ▸ blames
      · exact remembers
    · exact remembers

theorem Standing.Remembers.branch (remembers : standing.Remembers flaw known) :
    standing.afterBar.Remembers flaw known := by
  cases standing <;> exact remembers

theorem breaks_trips {parser : Parser Pattern} (trips : Trips parser text start flaw) (ahead : start < flaw) :
    Breaks .foremost level parser text start flaw := by
  intro furthest nearer
  obtain ⟨stop, ran, past⟩ := trips furthest
  rw [ran]
  exact ⟨rfl, Nat.lt_of_le_of_lt ahead past, nearer⟩

theorem Breaks.bind {α β : Type} {outer : Level} {parser : Parser β} {rest : β → Parser α}
    (breaks : Breaks standing level parser text start flaw) (never : ∀ place, ¬ level.Halts text place) :
    Breaks standing outer (parser >>= rest) text start flaw := by
  intro furthest nearer
  have ends := breaks furthest nearer
  rw [run_bind]
  cases ran : parser text ⟨start, furthest⟩ with
  | ok value after =>
    rw [ran] at ends
    exact absurd ends.2.1 (never _)
  | error error after =>
    rw [ran] at ends
    exact ends

theorem breaks_group (content : Breaks standing .alternatives whole text (start + 1) flaw)
    (opens : text[start]? = some '('.toUInt8) :
    Breaks standing .atom (Grammar.atom table whole) text start flaw := by
  intro furthest nearer
  have ends := content furthest nearer
  have enters : Grammar.group whole text ⟨start, furthest⟩ =
      (whole >>= fun content => symbol ')' >>= fun _ => pure content) text ⟨start + 1, furthest⟩ := by
    rw [Grammar.group, run_bind, Yields.symbol opens furthest]
    rfl
  rw [Grammar.atom, run_firstOf, enters, run_bind]
  cases ran : whole text ⟨start + 1, furthest⟩ with
  | error error after =>
    rw [ran] at ends
    obtain ⟨blames, past, remembers⟩ := ends
    have commits : start + 1 < after.position := by omega
    simp only [if_pos commits]
    exact ⟨blames, commits, remembers⟩
  | ok tree after =>
    rw [ran] at ends
    obtain ⟨standing', halts, past, ahead, remembers⟩ := ends
    obtain ⟨error, stop, fails, near, further, _⟩ := Refuses.symbol halts after.furthest
    have commits : start + 1 < stop := Nat.lt_of_lt_of_le past further
    have closes : (symbol ')' >>= fun _ => pure tree : Parser Pattern) text after =
        .error error ⟨stop, after.furthest⟩ := by
      rw [run_bind, fails]
    simp only [closes, if_pos commits]
    refine ⟨?_, commits, remembers⟩
    cases standing with
    | foremost => exact absurd rfl standing'
    | later | behindBar => exact Nat.lt_of_le_of_lt near ahead

theorem breaks_quantified (atom : Breaks standing .atom (Grammar.atom table whole) text start flaw) :
    Breaks standing .quantified (Grammar.quantified table whole) text start flaw := by
  rw [quantified_eq]
  exact atom.bind fun _ => id

theorem breaks_alone (only : Breaks standing .quantified (Grammar.quantified table whole) text start flaw) :
    Breaks standing .sequence (Grammar.juxtaposed table whole) text start flaw := by
  rw [juxtaposed_eq]
  exact only.bind fun _ => id

theorem breaks_second {depth : Nat} {tree : Pattern} (leading : Derives table .sequence before tree)
    (next : Breaks standing .quantified (Grammar.quantified table (Grammar.alternatives table depth)) text
      (start + before.length) flaw)
    (spelled : Spelled text start before) (shallow : before.length ≤ depth)
    (begins : ∀ char ∈ ['?', '+', '*', ')', '|'], text[start + before.length]? ≠ some char.toUInt8)
    (ahead : start + before.length < flaw) :
    Breaks standing.afterAtom .sequence (Grammar.juxtaposed table (Grammar.alternatives table depth)) text start
      flaw := by
  obtain ⟨byte, others, same, _⟩ := leading.begins
  have further : start < start + before.length := by simp [same]
  obtain ⟨lead, rest, first, steps, rfl, fewer, yields, advances⟩ := leading.completes text start depth spelled
    shallow fun char listed => begins char (List.mem_append_left [')', '|'] listed)
  have enough := Nat.le_trans fewer spelled.length_rear_le
  intro furthest nearer
  -- The repetition takes the atoms in front. The next one fails, which ends the sequence and is only noted.
  obtain ⟨limit, repeats⟩ := advances.run_repeated enough furthest
  rw [juxtaposed_eq, run_bind, yields furthest]
  simp only [repeats, iterate, run_bind]
  have ends := next furthest nearer
  rcases run_nextAtom tree text ⟨start + (lead ++ rest).length, furthest⟩ with
    ⟨second, after, ran, _⟩ | ⟨error, after, ran, stops⟩
  · rw [ran] at ends
    exact absurd ends.2.1 id
  · rw [ran] at ends
    obtain ⟨blames, _, remembers⟩ := ends
    rw [stops]
    have halts := And.intro (begins ')' (by simp)) (begins '|' (by simp))
    exact ⟨standing.afterAtom_ne, halts, further, ahead, remembers.note blames ahead⟩

theorem breaks_only {depth : Nat}
    (sequence : Breaks standing .sequence (Grammar.juxtaposed table (Grammar.alternatives table depth)) text
      start flaw) :
    Breaks standing .alternatives (Grammar.alternatives table (depth + 1)) text start flaw := by
  intro furthest nearer
  have ends := sequence furthest nearer
  rw [Grammar.alternatives, run_bind]
  cases ran : Grammar.juxtaposed table (Grammar.alternatives table depth) text ⟨start, furthest⟩ with
  | error error after =>
    rw [ran] at ends
    exact ends
  | ok first after =>
    rw [ran] at ends
    -- The sequence stopped short of the flaw, and no bar follows there.
    obtain ⟨standing', ⟨closed, barred⟩, bounds⟩ := ends
    have absent : Yields (maybe do let _ ← symbol '|'; Grammar.alternatives table depth) text after.position []
        none := .absent (.bind (.symbol barred))
    simp only [run_bind]
    rw [absent after.furthest]
    exact ⟨standing', closed, bounds⟩

/-- What goes wrong behind a bar is forgotten, and the bar is not passed. -/
theorem breaks_right {depth : Nat} {tree : Pattern} (leading : Derives table .sequence before tree)
    (second : Breaks standing .alternatives (Grammar.alternatives table depth) text (start + before.length + 1) flaw)
    (spelled : Spelled text start before) (bar : text[start + before.length]? = some '|'.toUInt8)
    (shallow : before.length ≤ depth) (ahead : start + before.length < flaw) :
    Breaks standing.afterBar .alternatives (Grammar.alternatives table (depth + 1)) text start flaw := by
  obtain ⟨byte, others, same, _⟩ := leading.begins
  have further : start < start + before.length := by simp [same]
  have first : Yields (Grammar.juxtaposed table (Grammar.alternatives table depth)) text start before tree := by
    refine yields_juxtaposed leading.completes spelled shallow ?_
    exact fun byte found => .inr (Option.some.inj (found.symm.trans bar))
  intro furthest nearer
  have ends := second furthest nearer
  have enters : symbol '|' text ⟨start + before.length, furthest⟩ =
      .ok '|'.toUInt8 ⟨start + before.length + 1, furthest⟩ := Yields.symbol bar furthest
  rw [Grammar.alternatives, run_bind, first furthest]
  cases ran : Grammar.alternatives table depth text ⟨start + before.length + 1, furthest⟩ with
  | error error after =>
    rw [ran] at ends
    have closed : text[start + before.length]? ≠ some ')'.toUInt8 := by
      rw [bar]
      decide
    simp only [run_bind, run_maybe, enters, ran]
    exact ⟨standing.afterBar_ne, closed, further, ahead, ends.2.2.branch⟩
  | ok tree after =>
    rw [ran] at ends
    obtain ⟨standing', halts, past, bounds, remembers⟩ := ends
    simp only [run_bind, run_maybe, enters, ran]
    exact ⟨standing.afterBar_ne, halts, by omega, bounds, remembers.branch⟩

def Grammar.ofLevel (table : ClassTable) (depth : Nat) : Level → Parser Pattern
  | .alternatives => alternatives table depth
  | .sequence => juxtaposed table (alternatives table depth)
  | .quantified => quantified table (alternatives table depth)
  | .atom => atom table (alternatives table depth)

def Level.Fits (length depth : Nat) : Level → Prop
  | .alternatives => length < depth
  | _ => length ≤ depth

theorem Level.Fits.mono {length shorter depth : Nat} (fits : level.Fits length depth) (less : shorter ≤ length) :
    level.Fits shorter depth := by
  cases level with
  | alternatives => exact Nat.lt_of_le_of_lt less fits
  | sequence | quantified | atom => exact Nat.le_trans less fits

/-- The parser does not get past the flaw, by induction on what is around it. -/
theorem Around.breaks (around : Around table standing level front rear) (flawed : Flawed word place mended)
    {text : Array UInt8} {start depth : Nat} (spelled : Spelled text start (front ++ word ++ rear))
    (fits : level.Fits (front ++ word ++ rear).length depth) :
    Breaks standing level (Grammar.ofLevel table depth level) text start (start + front.length + place) := by
  have inside : 0 < place := flawed.begins.1
  induction around generalizing start depth with
  | here =>
    rw [List.nil_append, List.append_nil] at spelled
    exact breaks_trips (trips_atom _ flawed spelled) (Nat.lt_add_of_pos_right inside)
  | @group standing front rear _ ih =>
    have parts : '('.toUInt8 :: front ++ word ++ (rear ++ [')'.toUInt8]) =
        '('.toUInt8 :: (front ++ word ++ rear ++ [')'.toUInt8]) := by simp
    rw [parts] at spelled fits
    obtain ⟨opens, spelled⟩ := spelled_cons.mp spelled
    have shorter : Level.alternatives.Fits (front ++ word ++ rear).length depth := by
      simp only [Level.Fits, List.length_cons, List.length_append] at fits ⊢
      omega
    have content := ih (spelled_append.mp spelled).1 shorter
    rw [List.length_cons, Nat.add_comm front.length, ← Nat.add_assoc]
    exact breaks_group content opens
  | bare _ ih => exact breaks_quantified (ih spelled fits)
  | marked _ _ ih =>
    rw [← List.append_assoc] at spelled fits
    have shorter := fits.mono (List.prefix_append _ _).length_le
    exact breaks_quantified (ih (spelled_append.mp spelled).1 shorter)
  | alone _ ih => exact breaks_alone (ih spelled fits)
  | first _ _ ih =>
    rw [← List.append_assoc] at spelled fits
    exact ih (spelled_append.mp spelled).1 (fits.mono (List.prefix_append _ _).length_le)
  | @second standing front rear before tree leading around ih =>
    rw [List.append_assoc before, List.append_assoc before] at spelled fits
    obtain ⟨front', behind⟩ := spelled_append.mp spelled
    have shorter := fits.mono (List.suffix_append _ _).length_le
    have shallow := fits.mono (List.prefix_append _ _).length_le
    obtain ⟨byte, rest, same, distinct⟩ := around.begins flawed
    have begins : ∀ char ∈ ['?', '+', '*', ')', '|'], text[start + before.length]? ≠ some char.toUInt8 := by
      intro char listed
      rw [same] at behind
      rw [(spelled_cons.mp behind).1]
      simpa using distinct char listed
    have next := ih behind shorter
    rw [List.length_append, ← Nat.add_assoc]
    exact breaks_second leading next front' shallow begins (by omega)
  | only _ ih =>
    obtain ⟨depth, rfl⟩ := Nat.exists_eq_add_of_le' (Nat.one_le_of_lt fits)
    exact breaks_only (ih spelled (Nat.le_of_lt_succ fits))
  | left _ _ ih =>
    rw [← List.append_assoc] at spelled fits
    obtain ⟨depth, rfl⟩ := Nat.exists_eq_add_of_le' (Nat.one_le_of_lt fits)
    have shorter := fits.mono (List.prefix_append _ _).length_le
    exact breaks_only (ih (spelled_append.mp spelled).1 (Nat.le_of_lt_succ shorter))
  | @right standing front rear before tree leading _ ih =>
    have parts : before ++ '|'.toUInt8 :: front ++ word ++ rear =
        before ++ '|'.toUInt8 :: (front ++ word ++ rear) := by simp
    rw [parts] at spelled fits
    obtain ⟨depth, rfl⟩ := Nat.exists_eq_add_of_le' (Nat.one_le_of_lt fits)
    obtain ⟨first, behind⟩ := spelled_append.mp spelled
    obtain ⟨bar, behind⟩ := spelled_cons.mp behind
    simp only [Level.Fits, List.length_append, List.length_cons] at fits
    -- The level of nesting that the bar takes is paid for by its own byte.
    have shorter : Level.alternatives.Fits (front ++ word ++ rear).length depth := by
      simp only [Level.Fits, List.length_append]
      omega
    have second := ih behind shorter
    have same : start + (before ++ '|'.toUInt8 :: front).length + place =
        start + before.length + 1 + front.length + place := by
      rw [List.length_append, List.length_cons]
      omega
    rw [same]
    exact breaks_right leading second first bar (by omega) (by omega)

theorem complete_of_flawed (around : Around table standing .alternatives front rear)
    (flawed : Flawed word place mended) (spelled : text.toList = front ++ word ++ rear) :
    ∃ error after, Grammar.complete table (text.size + 1) text ⟨0, none⟩ = .error error after ∧
      standing.Blames (front.length + place) error ∧ standing.Remembers (front.length + place) after.furthest := by
  have whole : Spelled text 0 (front ++ word ++ rear) := spelled ▸ spelled_toList text
  have size : (front ++ word ++ rear).length = text.size := congrArg List.length spelled.symm
  have fits : Level.alternatives.Fits (front ++ word ++ rear).length (text.size + 1) := size ▸ Nat.lt_succ_self _
  have ends := around.breaks flawed whole fits none fun noted => by simp
  rw [Nat.zero_add] at ends
  simp only [Grammar.complete, run_bind]
  cases ran : Grammar.alternatives table (text.size + 1) text ⟨0, none⟩ with
  | error error after =>
    rw [Grammar.ofLevel, ran] at ends
    exact ⟨error, after, rfl, ends.1, ends.2.2⟩
  | ok tree after =>
    rw [Grammar.ofLevel, ran] at ends
    obtain ⟨standing', _, _, ahead, remembers⟩ := ends
    have short : after.position ≠ text.size := by
      have inside := flawed.place_lt
      simp only [List.length_append] at size
      omega
    refine ⟨⟨after.position, .trailingInput⟩, after, by simp only [run_endOfInput, if_neg short], ?_, remembers⟩
    cases standing with
    | foremost => exact absurd rfl standing'
    | later | behindBar => exact ahead

/-- A range the wrong way round is never accepted, although its pattern would be with the boundaries
exchanged. It is reported where it starts unless it is in the first atom behind a bar, where the error is
in front of it. -/
theorem parse_of_flawed (around : Around table standing .alternatives front rear)
    (flawed : Flawed word place mended) : (∃ tree, parse table (front ++ mended ++ rear).toArray = .ok tree) ∧
    ∃ error, parse table (front ++ word ++ rear).toArray = .error error ∧
      (standing ≠ .behindBar → error = ⟨front.length + place, .invalidRange⟩) ∧
      (standing = .behindBar → error.position < front.length + place) := by
  constructor
  · obtain ⟨set, found⟩ := flawed.byteMatch table
    obtain ⟨tree, derives⟩ := around.derives found
    exact ⟨tree, parse_of_derives derives⟩
  · obtain ⟨error, after, ran, blames, remembers⟩ := complete_of_flawed around flawed rfl
    have start : ({ } : Cursor) = ⟨0, none⟩ := rfl
    rw [parse, start, ran]
    refine ⟨_, rfl, ?_⟩
    cases standing with
    | foremost =>
      obtain rfl := blames
      refine ⟨fun _ => ?_, fun same => by cases same⟩
      split
      next noted known => exact if_neg (Nat.lt_asymm (remembers noted known))
      next => rfl
    | later =>
      have known : after.furthest = some ⟨front.length + place, .invalidRange⟩ := remembers
      refine ⟨fun _ => ?_, fun same => by cases same⟩
      simp only [known]
      exact if_pos blames
    | behindBar =>
      refine ⟨fun other => absurd rfl other, fun _ => ?_⟩
      split
      next noted known =>
        split
        · exact remembers noted known
        · exact blames
      next => exact blames

theorem parse_of_flawed_later :
    Around .standard .later .alternatives ['('.toUInt8, 'x'.toUInt8, '|'.toUInt8, 'a'.toUInt8] [')'.toUInt8] ∧
    Flawed ['['.toUInt8, 'z'.toUInt8, '-'.toUInt8, 'a'.toUInt8, ']'.toUInt8] 1
      ['['.toUInt8, 'a'.toUInt8, '-'.toUInt8, 'z'.toUInt8, ']'.toUInt8] ∧
    (∃ tree, parse .standard "(x|a[a-z])".toUTF8.data = .ok tree) ∧
    parse .standard "(x|a[z-a])".toUTF8.data = .error ⟨5, .invalidRange⟩ := by
  have single (byte : UInt8) (plain : Plain ['\\', '*', '?', ')', '|', '+', '[', ']', '(', '.'] byte) :
      Derives .standard .sequence [byte] (.bytes (.single byte)) := .alone (.bare (.bytes (.plain plain)))
  have before : Derives .standard .sequence ['x'.toUInt8] (.bytes (.single 'x'.toUInt8)) :=
    single 'x'.toUInt8 (plain_iff.mp (by decide))
  have first : Derives .standard .sequence ['a'.toUInt8] (.bytes (.single 'a'.toUInt8)) :=
    single 'a'.toUInt8 (plain_iff.mp (by decide))
  have inner : Around .standard .later .alternatives ['x'.toUInt8, '|'.toUInt8, 'a'.toUInt8] [] :=
    .right before (.only (.second first (.bare .here)))
  have around : Around .standard .later .alternatives
      ['('.toUInt8, 'x'.toUInt8, '|'.toUInt8, 'a'.toUInt8] [')'.toUInt8] :=
    .only (.alone (.bare (.group inner)))
  have low : Boundary ['z'.toUInt8] 'z'.toUInt8 := .plain (plain_iff.mp (by decide))
  have high : Boundary ['a'.toUInt8] 'a'.toUInt8 := .plain (plain_iff.mp (by decide))
  have flawed : Flawed ['['.toUInt8, 'z'.toUInt8, '-'.toUInt8, 'a'.toUInt8, ']'.toUInt8] 1
      ['['.toUInt8, 'a'.toUInt8, '-'.toUInt8, 'z'.toUInt8, ']'.toUInt8] :=
    .bracket (.among (.inl rfl) low high (by decide) (.inl rfl)) (by decide) (by decide)
  obtain ⟨accepted, error, rejected, reported, _⟩ := parse_of_flawed around flawed
  obtain rfl := reported (by decide)
  exact ⟨around, flawed, accepted, rejected⟩

/-- The error of the range at place 3 is lost, and what is reported is that the text goes on at the bar. -/
theorem parse_flawed_branch : (parse .standard "a|[a-z]".toUTF8.data).isOk ∧
    parse .standard "a|[z-a]".toUTF8.data = .error ⟨1, .trailingInput⟩ := by
  decide +kernel

end Pattern

end ByteRegex
