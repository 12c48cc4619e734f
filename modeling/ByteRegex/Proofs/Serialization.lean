import ByteRegex.Flat.Encoding
import ByteRegex.Proofs.Decoding

/-! Serialized automata. Reading takes what was written, field by field, and nothing that it accepts
can be cut short or go on. -/

namespace ByteRegex

open Decoder

namespace Varint

theorem takes_decode {value : Nat} (fits : value < UInt64.size) :
    decode.Takes (parts value).flatten value := by
  unfold parts
  split
  next small =>
    have exact : (UInt8.ofNat value).toNat = value := by
      rw [UInt8.toNat_ofNat']
      omega
    have below : UInt8.ofNat value < 0xfb := by
      rw [UInt8.lt_iff_toNat_lt, exact]
      exact small
    refine (Takes.byte (UInt8.ofNat value)).bind_pure ?_
    rw [if_pos below, exact]
  split
  next medium => exact (Takes.byte 0xfb).bind (.littleEndian medium)
  split
  next large => exact (Takes.byte 0xfc).bind (.littleEndian large)
  next => exact (Takes.byte 0xfd).bind (.littleEndian fits)

theorem takes_decode32 (value : UInt32) : decode32.Takes (parts value.toNat).flatten value := by
  have fits : value.toNat < UInt64.size := Nat.lt_trans value.toNat_lt (by decide)
  refine (takes_decode fits).bind_pure ?_
  rw [if_pos value.toNat_lt, UInt32.ofNat_toNat]

theorem steady_decode : decode.Steady := by
  apply Steady.byte.bind
  intro lead
  split
  · exact .pure _
  split
  · exact .littleEndian 2
  split
  · exact .littleEndian 4
  split
  · exact .littleEndian 8
  split <;> exact .throw _

theorem steady_decode32 : decode32.Steady := by
  apply steady_decode.bind
  intro value
  split
  · exact .pure _
  · exact .throw _

end Varint

namespace FlatAutomaton

/-- Lengths are written in 64 bits at most. -/
structure LengthsFit (flat : FlatAutomaton) : Prop where
  states : flat.states.size < UInt64.size
  next : flat.next.size < UInt64.size
  ranges : flat.ranges.size < UInt64.size
  sources : flat.sources.length < UInt64.size

theorem takes_decodeState (state : FlatState) : decodeState.Takes (stateParts state).flatten state := by
  obtain ⟨nextStart, nextLength, rangesStart, rangesLength, flags⟩ := state
  have taken : decodeState.Takes _ _ :=
    (Varint.takes_decode32 nextStart).bind <|
    (Varint.takes_decode32 nextLength).bind <|
    (Varint.takes_decode32 rangesStart).bind <|
    (Varint.takes_decode32 rangesLength).bind <|
    (Takes.byte flags).bind_pure rfl
  simpa [stateParts] using taken

theorem takes_decodeRange (range : ByteRange) : decodeRange.Takes (rangeParts range).flatten range :=
  (Takes.byte range.first).bind ((Takes.byte range.last).bind_pure rfl)

theorem flatten_flatMap {α : Type} (itemParts : α → List (List UInt8)) (items : List α) :
    (items.flatMap itemParts).flatten = items.flatMap fun value => (itemParts value).flatten := by
  rw [← List.flatMap_id, List.flatMap_assoc]
  simp

theorem takes_decodeList {α : Type} {item : Decoder α} {itemParts : α → List (List UInt8)} {items : List α}
    (taken : ∀ value, item.Takes (itemParts value).flatten value) (short : items.length < UInt64.size) :
    (decodeList item).Takes (listParts itemParts items).flatten items.toArray := by
  have all : (decodeList item).Takes _ _ :=
    (Varint.takes_decode short).bind (.many (fun value (_ : value ∈ items) => taken value) #[])
  simpa [listParts, flatten_flatMap] using all

theorem takes_decode {flat : FlatAutomaton} (fits : flat.LengthsFit) :
    decode.Takes flat.parts.flatten flat := by
  have taken : decode.Takes _ _ :=
    (takes_decodeList takes_decodeState fits.states).bind <|
    (takes_decodeList Varint.takes_decode32 fits.next).bind <|
    (takes_decodeList takes_decodeRange fits.ranges).bind <|
    (takes_decodeList Varint.takes_decode32 fits.sources).bind <|
    (Varint.takes_decode32 flat.accept).bind_pure rfl
  simpa only [parts, List.flatten_append, List.append_assoc] using taken

theorem steady_decodeState : decodeState.Steady :=
  Varint.steady_decode32.bind fun _ => Varint.steady_decode32.bind fun _ =>
    Varint.steady_decode32.bind fun _ => Varint.steady_decode32.bind fun _ =>
      Steady.byte.bind fun _ => .pure _

theorem steady_decodeRange : decodeRange.Steady :=
  Steady.byte.bind fun _ => Steady.byte.bind fun _ => .pure _

theorem steady_decodeList {α : Type} {item : Decoder α} (steady : item.Steady) : (decodeList item).Steady :=
  Varint.steady_decode.bind fun count => steady.many count #[]

theorem steady_decode : decode.Steady :=
  (steady_decodeList steady_decodeState).bind fun _ =>
    (steady_decodeList Varint.steady_decode32).bind fun _ =>
      (steady_decodeList steady_decodeRange).bind fun _ =>
        (steady_decodeList Varint.steady_decode32).bind fun _ =>
          Varint.steady_decode32.bind fun _ => .pure _

variable {data : List UInt8} {flat : FlatAutomaton}

theorem deserialize_of_error {error : EncodingError} (failed : complete decode data = .error error) :
    deserialize (signature ++ data) = .error (.invalidEncoding error) := by
  rw [deserialize, List.take_left, if_neg (not_not_intro rfl), List.drop_left, failed]

theorem deserialize_of_defect {defect : FlatDefect} (taken : complete decode data = .ok flat)
    (found : flat.defect? = some defect) :
    deserialize (signature ++ data) = .error (.invalidAutomaton defect) := by
  rw [deserialize, List.take_left, if_neg (not_not_intro rfl), List.drop_left, taken]
  simp only [found]

theorem deserialize_of_sound (taken : complete decode data = .ok flat) (sound : flat.defect? = none) :
    deserialize (signature ++ data) = .ok flat := by
  rw [deserialize, List.take_left, if_neg (not_not_intro rfl), List.drop_left, taken]
  simp only [sound]

theorem exists_signature {bytes : List UInt8} (accepted : deserialize bytes = .ok flat) :
    ∃ data, bytes = signature ++ data ∧ complete decode data = .ok flat ∧ flat.defect? = none := by
  by_cases signed : bytes.take signature.length = signature
  · obtain ⟨data, rfl⟩ : signature <+: bytes := signed ▸ List.take_prefix _ _
    refine ⟨data, rfl, ?_⟩
    cases taken : complete decode data with
    | error error =>
      rw [deserialize_of_error taken] at accepted
      cases accepted
    | ok decoded =>
      cases found : decoded.defect? with
      | some defect =>
        rw [deserialize_of_defect taken found] at accepted
        cases accepted
      | none =>
        rw [deserialize_of_sound taken found] at accepted
        cases accepted
        exact ⟨rfl, found⟩
  · rw [deserialize, if_pos signed] at accepted
    cases accepted

/-- What was written is read again, and refused only if it is no automaton. -/
theorem deserialize_serialize (fits : flat.LengthsFit) :
    deserialize flat.serialize = match flat.defect? with
      | some defect => .error (.invalidAutomaton defect)
      | none => .ok flat := by
  have taken := (takes_decode fits).complete
  rw [serialize]
  cases found : flat.defect? with
  | some defect => exact deserialize_of_defect taken found
  | none => exact deserialize_of_sound taken found

/-- Numbers of every written length, and slices past the ends of the arrays. -/
def oversized : FlatAutomaton where
  states := #[⟨250, 251, 0xffff, 0x10000, 0xff⟩, ⟨0, 0, 0, 0, 1⟩]
  next := #[0xffffffff]
  ranges := #[⟨0xfb, 0xff⟩]
  sources := [1, 0]
  accept := 1

theorem deserialize_serialize_oversized : oversized.LengthsFit ∧
    deserialize oversized.serialize = .error (.invalidAutomaton (.nextOutOfBounds 0)) := by
  have fits : oversized.LengthsFit := ⟨by decide, by decide, by decide, by decide⟩
  have defective : oversized.defect? = some (.nextOutOfBounds 0) := by decide
  refine ⟨fits, ?_⟩
  rw [deserialize_serialize fits, defective]

/-- Nothing can be appended to serialized data that is accepted, and nothing can be cut off. -/
theorem deserialize_of_accepted {bytes : List UInt8}
    (accepted : deserialize bytes = .ok flat) :
    (∀ more, more ≠ [] → deserialize (bytes ++ more) = .error (.invalidEncoding .trailingBytes)) ∧
    ∀ front back, bytes = front ++ back → back ≠ [] → deserialize front =
      .error (if front.length < signature.length then .invalidFormat else .invalidEncoding .endOfData) := by
  obtain ⟨data, rfl, used, _⟩ := exists_signature accepted
  constructor
  · intro more nonempty
    rw [List.append_assoc, deserialize_of_error (steady_decode.complete_append used nonempty)]
  · intro front back whole nonempty
    split
    next short =>
      have unsigned : front.take signature.length ≠ signature := by
        intro signed
        have size := congrArg List.length signed
        rw [List.length_take] at size
        omega
      rw [deserialize, if_pos unsigned]
    next long =>
      obtain ⟨kept, rfl⟩ : signature <+: front :=
        List.prefix_of_prefix_length_le (List.prefix_append _ _) ⟨back, whole.symm⟩ (Nat.le_of_not_lt long)
      rw [List.append_assoc, List.append_cancel_left_eq] at whole
      subst whole
      rw [deserialize_of_error (steady_decode.complete_of_append used nonempty)]

/-- An accepting source, with a length in more bytes than it needs. -/
def lengthened : List UInt8 := signature ++ [0xfb, 1, 0, 0, 0, 0, 0, 1, 0, 0, 1, 0, 0]

theorem deserialize_of_accepted_lengthened :
    deserialize lengthened = .ok ⟨#[⟨0, 0, 0, 0, 1⟩], #[], #[], [0], 0⟩ ∧
    (∀ more, more ≠ [] → deserialize (lengthened ++ more) = .error (.invalidEncoding .trailingBytes)) ∧
    ∀ front back, lengthened = front ++ back → back ≠ [] → deserialize front =
      .error (if front.length < signature.length then .invalidFormat else .invalidEncoding .endOfData) := by
  have accepted : deserialize lengthened = .ok ⟨#[⟨0, 0, 0, 0, 1⟩], #[], #[], [0], 0⟩ := rfl
  exact ⟨accepted, deserialize_of_accepted accepted⟩

end FlatAutomaton

end ByteRegex
