import ByteRegex.Proofs.Invariants

/-! Parentheses that change nothing. A group leaves no node behind, and how a sequence is grouped decides
neither the states of its parts nor how they are linked. What is joined is text, and a bar of one part
would divide the whole; where it does not is read off the bytes alone. -/

namespace ByteRegex

namespace Pattern

/-- Where in a text the next byte stands. -/
structure Scope where
  groups : Nat := 0
  inClass : Bool := false
  /-- The byte before is a backslash that is not itself escaped. -/
  escaped : Bool := false
  deriving DecidableEq, Repr

namespace Scope

def delimiters : List Char := ['\\', '[', ']', '(', ')']

def read (scope : Scope) (byte : UInt8) : Scope :=
  if scope.escaped then { scope with escaped := false }
  else if byte = '\\'.toUInt8 then { scope with escaped := true }
  else if byte = '['.toUInt8 then { scope with inClass := true }
  else if byte = ']'.toUInt8 then { scope with inClass := false }
  else if scope.inClass then scope
  else if byte = '('.toUInt8 then { scope with groups := scope.groups + 1 }
  else if byte = ')'.toUInt8 then { scope with groups := scope.groups - 1 }
  else scope

/-- No bar stands where nothing is open. -/
def barless : Scope → List UInt8 → Bool
  | _, [] => true
  | scope, byte :: rest => (byte != '|'.toUInt8 || scope != { }) && (scope.read byte).barless rest

theorem barless_append (scope : Scope) (before after : List UInt8) :
    scope.barless (before ++ after) = (scope.barless before && (before.foldl read scope).barless after) := by
  induction before generalizing scope with
  | nil => rfl
  | cons byte before ih => rw [List.cons_append, barless, barless, ih, List.foldl_cons, Bool.and_assoc]

end Scope

/-- Whatever the word opens it closes again, and where so many groups are open around it, none of its
bars stands outside of everything. -/
structure Contained (least : Nat) (inClass : Bool) (word : List UInt8) : Prop where
  returns : ∀ groups, word.foldl Scope.read ⟨groups, inClass, false⟩ = ⟨groups, inClass, false⟩
  barless : ∀ groups, least ≤ groups → Scope.barless ⟨groups, inClass, false⟩ word

variable {least : Nat} {inClass : Bool} {word : List UInt8} {byte : UInt8} {table : ClassTable}

namespace Contained

theorem mono {more : Nat} (contained : Contained least inClass word) (grows : least ≤ more) :
    Contained more inClass word :=
  ⟨contained.returns, fun groups above => contained.barless groups (Nat.le_trans grows above)⟩

theorem append {before : List UInt8} (front : Contained least inClass before)
    (rear : Contained least inClass word) : Contained least inClass (before ++ word) := by
  constructor
  · intro groups
    rw [List.foldl_append, front.returns, rear.returns]
  · intro groups above
    rw [Scope.barless_append, front.returns, front.barless groups above, rear.barless groups above]
    rfl

theorem cons (first : Contained least inClass [byte]) (rest : Contained least inClass word) :
    Contained least inClass (byte :: word) :=
  first.append rest

theorem single (stays : ∀ groups, Scope.read ⟨groups, inClass, false⟩ byte = ⟨groups, inClass, false⟩)
    (covered : byte = '|'.toUInt8 → inClass ∨ 0 < least) : Contained least inClass [byte] := by
  refine ⟨stays, ?_⟩
  intro groups above
  by_cases bar : byte = '|'.toUInt8
  · rcases covered bar with within | within
    · simp [Scope.barless, within]
    · simp [Scope.barless, Nat.ne_of_gt (Nat.lt_of_lt_of_le within above)]
  · simp [Scope.barless, bar]

theorem ordinary (apart : ∀ char ∈ Scope.delimiters, char.toUInt8 ≠ byte) (other : byte ≠ '|'.toUInt8) :
    Contained 0 inClass [byte] := by
  refine .single ?_ fun bar => absurd bar other
  intro groups
  simp only [Scope.delimiters, List.forall_mem_cons, ne_comm] at apart
  obtain ⟨backslash, openClass, closeClass, openGroup, closeGroup, _⟩ := apart
  simp [Scope.read, backslash, openClass, closeClass, openGroup, closeGroup]

theorem escape (rest : Contained 0 inClass word) : Contained 0 inClass ('\\'.toUInt8 :: byte :: word) := by
  have pair : Contained 0 inClass ['\\'.toUInt8, byte] := by
    refine ⟨fun _ => rfl, ?_⟩
    intro groups _
    have enters : Scope.read ⟨groups, inClass, false⟩ '\\'.toUInt8 = ⟨groups, inClass, true⟩ := rfl
    have other : '\\'.toUInt8 ≠ '|'.toUInt8 := by decide
    simp [Scope.barless, enters, other]
  exact pair.append rest

theorem nil : Contained least inClass [] := ⟨fun _ => rfl, fun _ _ => rfl⟩

theorem bracketed (content : Contained 0 true word) :
    Contained 0 false ('['.toUInt8 :: (word ++ [']'.toUInt8])) := by
  have enters (groups : Nat) : Scope.read ⟨groups, false, false⟩ '['.toUInt8 = ⟨groups, true, false⟩ := rfl
  constructor
  · intro groups
    rw [List.foldl_cons, enters, List.foldl_append, content.returns]
    rfl
  · intro groups above
    rw [Scope.barless, enters, Scope.barless_append, content.returns, content.barless groups above]
    rfl

theorem grouped (content : Contained 1 false word) :
    Contained 0 false ('('.toUInt8 :: (word ++ [')'.toUInt8])) := by
  have enters (groups : Nat) : Scope.read ⟨groups, false, false⟩ '('.toUInt8 = ⟨groups + 1, false, false⟩ := rfl
  constructor
  · intro groups
    rw [List.foldl_cons, enters, List.foldl_append, content.returns]
    rfl
  · intro groups _
    have covered := content.barless (groups + 1) (Nat.le_add_left 1 groups)
    rw [Scope.barless, enters, Scope.barless_append, content.returns, covered]
    rfl

end Contained

theorem HexDigit.contained {digit value : UInt8} (denotes : HexDigit digit value) :
    Contained 0 inClass [digit] := by
  have worthless : ∀ char ∈ '|' :: Scope.delimiters, Escape.hexValue? char.toUInt8 = none :=
    List.all_iff_forall_prop.mp (by decide)
  have apart : ∀ char ∈ '|' :: Scope.delimiters, char.toUInt8 ≠ digit := by
    rintro char listed rfl
    have valued := hexValue?_iff.mpr denotes
    rw [worthless char listed] at valued
    cases valued
  exact .ordinary (fun char listed => apart char (.tail _ listed)) (apart '|' (.head _)).symm

theorem Escaped.contained (escape : Escaped word byte) : Contained 0 inClass ('\\'.toUInt8 :: word) := by
  cases escape with
  | hex _ high low => exact .escape (high.contained.cons low.contained)
  | verbatim => exact .escape .nil
  | control => exact .escape .nil

theorem Boundary.contained (boundary : Boundary word byte) : Contained 0 true word := by
  cases boundary with
  | escape escape => exact escape.contained
  | plain plain =>
    refine .single ?_ fun _ => .inl rfl
    intro groups
    obtain ⟨_, _, apart⟩ := plain
    simp only [List.forall_mem_cons, ne_comm] at apart
    obtain ⟨closes, backslash, _⟩ := apart
    simp [Scope.read, closes, backslash]

theorem Bounds.contained {range : ByteRange} (bounds : Bounds word range) : Contained 0 true word := by
  cases bounds with
  | single boundary => exact boundary.contained
  | pair lower upper =>
    have dash : Contained 0 true ['-'.toUInt8] := .single (fun _ => rfl) (by decide)
    exact lower.contained.append (dash.cons upper.contained)

theorem Intervals.contained {ranges : List ByteRange} (intervals : Intervals word ranges) :
    Contained 0 true word := by
  induction intervals with
  | one interval => exact interval.1.contained
  | more _ interval ih => exact ih.append interval.1.contained

theorem ByteMatch.contained {set : CharClass} (found : ByteMatch table word set) : Contained 0 false word := by
  cases found with
  | bracket intervals => exact intervals.contained.bracketed
  | inverted intervals =>
    have caret : Contained 0 true ['^'.toUInt8] := .single (fun _ => rfl) (by decide)
    exact (caret.cons intervals.contained).bracketed
  | any => exact .single (fun _ => rfl) (by decide)
  | named => exact .escape .nil
  | escape _ escape => exact escape.contained
  | plain plain =>
    obtain ⟨_, _, apart⟩ := plain
    have listed : '|' :: Scope.delimiters ⊆ ['\\', '*', '?', ')', '|', '+', '[', ']', '(', '.'] := by decide
    exact .ordinary (fun char inside => apart char (listed (.tail _ inside))) (apart '|' (listed (.head _))).symm

def Level.depth : Level → Nat
  | .alternatives => 1
  | _ => 0

theorem Derives.contained {level : Level} {tree : Pattern} (derives : Derives table level word tree) :
    Contained level.depth false word := by
  induction derives with
  | bytes found => exact found.contained
  | group _ ih => exact ih.grouped
  | bare _ ih | alone _ ih => exact ih
  | optional _ ih | oneOrMore _ ih | zeroOrMore _ ih => exact ih.append (.single (fun _ => rfl) (by decide))
  | concat _ _ front rear => exact front.append rear
  | only _ ih => exact ih.mono (Nat.zero_le 1)
  | either _ _ front rear =>
    have bar : Contained 1 false ['|'.toUInt8] := .single (fun _ => rfl) (by decide)
    exact (front.mono (Nat.zero_le 1)).append (bar.cons rear)

/-- An accepted text is a sequence exactly if no bar stands outside of its groups and classes. Such a bar
would stand behind a sequence, where nothing is open. -/
theorem Derives.sequence_iff {tree : Pattern} (derives : Derives table .alternatives word tree) :
    Derives table .sequence word tree ↔ Scope.barless { } word := by
  constructor
  · exact fun sequence => sequence.contained.barless 0 (Nat.le_refl 0)
  · intro barless
    cases derives with
    | only sequence => exact sequence
    | either front rear =>
      rw [Scope.barless_append, front.contained.returns 0, Bool.and_eq_true] at barless
      cases barless.2

/-- The same states wherever the patterns are placed. -/
structure SameLayout (first second : Pattern) : Prop where
  size : first.size = second.size
  entry : ∀ base, first.entry base = second.entry base
  block : ∀ base follow, first.block base follow = second.block base follow

namespace SameLayout

variable {first second third fourth : Pattern}

theorem refl (pattern : Pattern) : SameLayout pattern pattern :=
  ⟨rfl, fun _ => rfl, fun _ _ => rfl⟩

theorem symm (same : SameLayout first second) : SameLayout second first :=
  ⟨same.size.symm, fun base => (same.entry base).symm, fun base follow => (same.block base follow).symm⟩

theorem trans (left : SameLayout first second) (right : SameLayout second third) : SameLayout first third where
  size := left.size.trans right.size
  entry base := (left.entry base).trans (right.entry base)
  block base follow := (left.block base follow).trans (right.block base follow)

theorem concat (left : SameLayout first second) (right : SameLayout third fourth) :
    SameLayout (first.concat third) (second.concat fourth) where
  size := by rw [Pattern.size, Pattern.size, left.size, right.size]
  entry := left.entry
  block base follow := by
    rw [Pattern.block, Pattern.block, left.size, right.entry, left.block, right.block]

/-- The block of the middle goes on to the same state whichever side it is grouped with. -/
theorem assoc (first second third : Pattern) :
    SameLayout ((first.concat second).concat third) (first.concat (second.concat third)) where
  size := Nat.add_assoc ..
  entry _ := rfl
  block base follow := by
    simp only [Pattern.block, Pattern.size, Pattern.entry, List.append_assoc, Nat.add_assoc]

theorem toAutomaton_eq (same : SameLayout first second) : first.toAutomaton = second.toAutomaton := by
  rw [toAutomaton, toAutomaton, same.entry, same.block]

end SameLayout

/-- Two sequences in a row are a sequence. Its tree takes the parts of the second one by one, and so
leans to the left where a group would keep them together. -/
theorem Derives.join {before : List UInt8} {first second : Pattern} (front : Derives table .sequence before first)
    (rear : Derives table .sequence word second) :
    ∃ tree, Derives table .sequence (before ++ word) tree ∧ SameLayout tree (.concat first second) := by
  generalize within : Level.sequence = level at rear
  induction rear with
  | alone last => exact ⟨_, .concat (within ▸ front) last, .refl _⟩
  | concat _ last ih =>
    obtain ⟨tree, derives, same⟩ := ih rfl
    rw [← List.append_assoc]
    exact ⟨_, .concat derives last, (same.concat (.refl _)).trans (.assoc ..)⟩
  | _ => cases within

theorem Derives.enclosed {tree : Pattern} (derives : Derives table .alternatives word tree) :
    Derives table .sequence ('('.toUInt8 :: (word ++ [')'.toUInt8])) tree :=
  .alone (.bare (.group derives))

theorem Derives.regroup {front middle rear : List UInt8} {first second third : Pattern}
    (opening : Derives table .sequence front first) (inner : Derives table .sequence middle second)
    (closing : Derives table .sequence rear third) :
    ∃ flat left right, SameLayout flat left ∧ SameLayout flat right ∧
      Derives table .sequence (front ++ middle ++ rear) flat ∧
      Derives table .sequence ('('.toUInt8 :: (front ++ middle ++ [')'.toUInt8]) ++ rear) left ∧
      Derives table .sequence (front ++ '('.toUInt8 :: (middle ++ rear ++ [')'.toUInt8])) right := by
  obtain ⟨before, derivesBefore, sameBefore⟩ := opening.join inner
  obtain ⟨after, derivesAfter, sameAfter⟩ := inner.join closing
  obtain ⟨flat, derivesFlat, sameFlat⟩ := derivesBefore.join closing
  obtain ⟨left, derivesLeft, sameLeft⟩ := (Derives.only derivesBefore).enclosed.join closing
  obtain ⟨right, derivesRight, sameRight⟩ := opening.join (Derives.only derivesAfter).enclosed
  have nested : SameLayout flat ((first.concat second).concat third) :=
    sameFlat.trans (sameBefore.concat (.refl _))
  have regrouped : SameLayout right (first.concat (second.concat third)) :=
    sameRight.trans ((SameLayout.refl _).concat sameAfter)
  exact ⟨flat, left, right, sameFlat.trans sameLeft.symm,
    nested.trans ((SameLayout.assoc ..).trans regrouped.symm), derivesFlat, derivesLeft, derivesRight⟩

end Pattern

open Pattern

variable {classes : ClassTable} {tree : Pattern}

theorem bytes_append (front rear : String) :
    (front ++ rear).toUTF8.data.toList = front.toUTF8.data.toList ++ rear.toUTF8.data.toList := by
  rw [String.toUTF8, String.toByteArray_append, ByteArray.toList_data_append]
  rfl

theorem bytes_parenthesized (text : String) :
    ("(" ++ text ++ ")").toUTF8.data.toList = '('.toUInt8 :: (text.toUTF8.data.toList ++ [')'.toUInt8]) := by
  rw [bytes_append, bytes_append]
  rfl

theorem exists_derives_of_isOk {text : String} (accepted : (parse classes text).isOk) :
    ∃ tree, Derives classes .alternatives text.toUTF8.data.toList tree ∧
      parse classes text = .ok tree.toAutomaton := by
  cases given : parse classes text with
  | error error =>
    rw [given] at accepted
    cases accepted
  | ok automaton =>
    obtain ⟨tree, parsed, rfl⟩ := exists_tree_of_parse given
    exact ⟨tree, derives_of_parse parsed, rfl⟩

theorem parse_eq_of_derives {text : String}
    (derives : Derives classes .alternatives text.toUTF8.data.toList tree) :
    parse classes text = .ok tree.toAutomaton := by
  rw [parse, parse_of_derives derives]
  rfl

/-- An accepted pattern whose bars all stand in a group, in a class or after a backslash, so that none
of them divides what the pattern is joined to. -/
structure Sequential (classes : ClassTable) (text : String) : Prop where
  accepted : (parse classes text).isOk
  barless : Scope.barless { } text.toUTF8.data.toList

theorem Sequential.exists_derives {text : String} (sequential : Sequential classes text) :
    ∃ tree, Derives classes .sequence text.toUTF8.data.toList tree := by
  obtain ⟨tree, derives, _⟩ := exists_derives_of_isOk sequential.accepted
  exact ⟨tree, derives.sequence_iff.mpr sequential.barless⟩

/-- Parentheses around a whole pattern leave its automaton as it is, and so do parentheses around a
part of a sequence, whichever part it is: states, numbers, successors, source and accepting state. -/
theorem parse_parenthesized (classes : ClassTable) :
    (∀ pattern, (parse classes pattern).isOk → parse classes ("(" ++ pattern ++ ")") = parse classes pattern) ∧
    ∀ first second third, Sequential classes first → Sequential classes second → Sequential classes third →
      ∃ automaton, parse classes (first ++ second ++ third) = .ok automaton ∧
        parse classes ("(" ++ (first ++ second) ++ ")" ++ third) = .ok automaton ∧
        parse classes (first ++ ("(" ++ (second ++ third) ++ ")")) = .ok automaton := by
  constructor
  · intro pattern accepted
    obtain ⟨tree, derives, parsed⟩ := exists_derives_of_isOk accepted
    rw [parsed]
    apply parse_eq_of_derives
    rw [bytes_parenthesized]
    exact .only derives.enclosed
  · intro first second third sequentialFirst sequentialSecond sequentialThird
    obtain ⟨_, opening⟩ := sequentialFirst.exists_derives
    obtain ⟨_, inner⟩ := sequentialSecond.exists_derives
    obtain ⟨_, closing⟩ := sequentialThird.exists_derives
    obtain ⟨flat, left, right, sameLeft, sameRight, derivesFlat, derivesLeft, derivesRight⟩ :=
      opening.regroup inner closing
    refine ⟨flat.toAutomaton, parse_eq_of_derives ?_, ?_, ?_⟩
    · rw [bytes_append, bytes_append]
      exact .only derivesFlat
    · rw [sameLeft.toAutomaton_eq]
      apply parse_eq_of_derives
      rw [bytes_append, bytes_parenthesized, bytes_append]
      exact .only derivesLeft
    · rw [sameRight.toAutomaton_eq]
      apply parse_eq_of_derives
      rw [bytes_append, bytes_parenthesized, bytes_append]
      exact .only derivesRight

theorem parse_parenthesized_bars :
    (parse .standard "a|b+").isOk ∧ Sequential .standard "a\\|[^|(]" ∧ Sequential .standard "(b|c)*" ∧
    Sequential .standard "\\d\\x7C?" ∧
    parse .standard "(a|b+)" = parse .standard "a|b+" ∧
    ∃ automaton, parse .standard "a\\|[^|(](b|c)*\\d\\x7C?" = .ok automaton ∧
      parse .standard "(a\\|[^|(](b|c)*)\\d\\x7C?" = .ok automaton ∧
      parse .standard "a\\|[^|(]((b|c)*\\d\\x7C?)" = .ok automaton := by
  have whole : (parse .standard "a|b+").isOk := by decide +kernel
  have first : Sequential .standard "a\\|[^|(]" := ⟨by decide +kernel, by decide +kernel⟩
  have second : Sequential .standard "(b|c)*" := ⟨by decide +kernel, by decide +kernel⟩
  have third : Sequential .standard "\\d\\x7C?" := ⟨by decide +kernel, by decide +kernel⟩
  have around := (parse_parenthesized .standard).1 _ whole
  have between := (parse_parenthesized .standard).2 _ _ _ first second third
  simp only [String.reduceAppend] at around between
  exact ⟨whole, first, second, third, around, between⟩

end ByteRegex
