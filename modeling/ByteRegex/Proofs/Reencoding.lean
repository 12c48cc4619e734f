import ByteRegex.Proofs.Serialization

/-! Serialized data that is written anew. A number can be read from more bytes than it needs, and so the
same automaton from several texts; the one that is written is the shortest of them, and no other is as
short. -/

namespace ByteRegex

/-- The first text is the second one, or shorter. -/
def Shortens (short long : List UInt8) : Prop := short = long ∨ short.length < long.length

namespace Shortens

variable {short long first second before after : List UInt8}

theorem refl (text : List UInt8) : Shortens text text := .inl rfl

theorem append (front : Shortens first before) (rear : Shortens second after) :
    Shortens (first ++ second) (before ++ after) := by
  rcases front with rfl | front
  · rcases rear with rfl | rear
    · exact .refl _
    · right
      simp only [List.length_append]
      omega
  · have rear_le : second.length ≤ after.length := by
      rcases rear with rfl | rear
      · exact Nat.le_refl _
      · exact Nat.le_of_lt rear
    right
    simp only [List.length_append]
    omega

theorem length_le (shortens : Shortens short long) : short.length ≤ long.length := by
  rcases shortens with rfl | shorter
  · exact Nat.le_refl _
  · exact Nat.le_of_lt shorter

theorem length_eq_iff (shortens : Shortens short long) : short.length = long.length ↔ short = long := by
  rcases shortens with rfl | shorter
  · exact iff_of_true rfl rfl
  · have differ := Nat.ne_of_lt shorter
    exact iff_of_false differ fun same => differ (congrArg List.length same)

end Shortens

namespace Decoder

variable {α β : Type}

/-- Whatever the decoder takes from the front of its data has the meaning of its value. -/
def Sound (decoder : Decoder α) (meaning : List UInt8 → α → Prop) : Prop :=
  ∀ data value rest, decoder data = .ok (value, rest) → ∃ used, data = used ++ rest ∧ meaning used value

namespace Sound

variable {meaning : List UInt8 → α → Prop}

theorem mono {weaker : List UInt8 → α → Prop} {decoder : Decoder α} (sound : Sound decoder meaning)
    (weakens : ∀ used value, meaning used value → weaker used value) : Sound decoder weaker := by
  intro data value rest succeeds
  obtain ⟨used, split, means⟩ := sound data value rest succeeds
  exact ⟨used, split, weakens used value means⟩

theorem pure {value : α} (means : meaning [] value) : Sound (Pure.pure value) meaning := by
  intro data _ rest succeeds
  cases succeeds
  exact ⟨[], rfl, means⟩

theorem throw {error : EncodingError} : Sound (throw error) meaning := by
  intro data value rest succeeds
  cases succeeds

theorem bind {step : List UInt8 → β → Prop} {decoder : Decoder β} {next : β → Decoder α}
    (first : Sound decoder step)
    (second : ∀ before value, step before value → Sound (next value) fun used => meaning (before ++ used)) :
    Sound (decoder >>= next) meaning := by
  intro data value rest succeeds
  rw [run_bind] at succeeds
  split at succeeds
  next middle remaining taken =>
    obtain ⟨before, rfl, means⟩ := first data middle remaining taken
    obtain ⟨used, rfl, whole⟩ := second before middle means remaining value rest succeeds
    exact ⟨before ++ used, (List.append_assoc ..).symm, whole⟩
  next => cases succeeds

theorem byte : Sound Decoder.byte fun used value => used = [value] := by
  intro data value rest succeeds
  cases data with
  | nil => cases succeeds
  | cons first others =>
    cases succeeds
    exact ⟨[value], rfl, rfl⟩

theorem littleEndian (count : Nat) : Sound (Decoder.littleEndian count) fun used value =>
    used = Varint.littleEndian count value ∧ value < 256 ^ count := by
  induction count with
  | zero => exact .pure ⟨rfl, Nat.zero_lt_one⟩
  | succ count ih =>
    refine .bind .byte ?_
    intro before low taken
    subst taken
    refine .bind ih ?_
    intro used high ⟨taken, bounded⟩
    subst taken
    have below := low.toNat_lt
    have lowest : UInt8.ofNat (low.toNat + 256 * high) = low := by
      apply UInt8.toNat_inj.mp
      rw [UInt8.toNat_ofNat']
      omega
    have others : (low.toNat + 256 * high) / 256 = high := by omega
    refine .pure ⟨?_, ?_⟩
    · rw [List.append_nil, Varint.littleEndian, lowest, others]
      rfl
    · rw [Nat.pow_succ]
      omega

theorem many {item : Decoder α} {encoding : α → List UInt8}
    (sound : Sound item fun used value => Shortens (encoding value) used) (count : Nat) (done : Array α) :
    Sound (Decoder.many item count done) fun used items => ∃ taken : List α, items = done ++ taken ∧
      taken.length = count ∧ Shortens (taken.flatMap encoding) used := by
  induction count generalizing done with
  | zero => exact .pure ⟨[], by simp, rfl, .refl []⟩
  | succ count ih =>
    rw [many_succ]
    refine .bind sound ?_
    intro before value front
    refine (ih (done.push value)).mono ?_
    intro used items ⟨taken, same, length, rear⟩
    subst same
    exact ⟨value :: taken, by simp, by rw [List.length_cons, length], front.append rear⟩

end Sound

end Decoder

open Decoder

namespace Varint

theorem length_littleEndian (count value : Nat) : (littleEndian count value).length = count := by
  induction count generalizing value with
  | zero => rfl
  | succ count ih => rw [littleEndian, List.length_cons, ih]

theorem shortens_encode {lead : UInt8} {count value : Nat}
    (form : (lead, count) ∈ [((0xfb : UInt8), 2), (0xfc, 4), (0xfd, 8)]) (fits : value < 256 ^ count) :
    Shortens (encode value) (lead :: littleEndian count value) := by
  simp only [List.mem_cons, Prod.mk.injEq, List.not_mem_nil, or_false] at form
  unfold encode parts
  split
  · right
    rcases form with ⟨rfl, rfl⟩ | ⟨rfl, rfl⟩ | ⟨rfl, rfl⟩ <;> simp [length_littleEndian]
  split
  · rcases form with ⟨rfl, rfl⟩ | ⟨rfl, rfl⟩ | ⟨rfl, rfl⟩
    · exact .refl _
    · exact .inr (by simp [length_littleEndian])
    · exact .inr (by simp [length_littleEndian])
  next large =>
  split
  · rcases form with ⟨rfl, rfl⟩ | ⟨rfl, rfl⟩ | ⟨rfl, rfl⟩
    · exact absurd fits large
    · exact .refl _
    · exact .inr (by simp [length_littleEndian])
  next larger =>
    rcases form with ⟨rfl, rfl⟩ | ⟨rfl, rfl⟩ | ⟨rfl, rfl⟩
    · exact absurd fits large
    · exact absurd fits larger
    · exact .refl _

/-- Every form of a number is read, and none is shorter than the one that is written. -/
theorem sound_decode : decode.Sound fun used value => value < UInt64.size ∧ Shortens (encode value) used := by
  refine .bind .byte ?_
  intro before lead taken
  subst taken
  have wide {count : Nat} (form : (lead, count) ∈ [((0xfb : UInt8), 2), (0xfc, 4), (0xfd, 8)])
      (fits : 256 ^ count ≤ UInt64.size) : (Decoder.littleEndian count).Sound fun used value =>
        value < UInt64.size ∧ Shortens (encode value) ([lead] ++ used) := by
    refine (Sound.littleEndian count).mono ?_
    intro used value ⟨taken, bounded⟩
    subst taken
    exact ⟨Nat.lt_of_lt_of_le bounded fits, shortens_encode form bounded⟩
  split
  next small =>
    have bounded : lead.toNat < 251 := UInt8.lt_iff_toNat_lt.mp small
    refine .pure ⟨Nat.lt_trans bounded (by decide), .inl ?_⟩
    rw [encode, parts, if_pos bounded, UInt8.ofNat_toNat]
    rfl
  split
  next same => exact wide (by simp [same]) (by decide)
  split
  next same => exact wide (by simp [same]) (by decide)
  split
  next same => exact wide (by simp [same]) (by decide)
  split <;> exact .throw

theorem sound_decode32 : decode32.Sound fun used value => Shortens (encode value.toNat) used := by
  refine .bind sound_decode ?_
  intro used value ⟨_, shortens⟩
  split
  next fits =>
    have exact : (UInt32.ofNat value).toNat = value := UInt32.toNat_ofNat_of_lt fits
    refine .pure ?_
    rwa [List.append_nil, exact]
  next => exact .throw

end Varint

namespace FlatAutomaton

theorem sound_decodeState : decodeState.Sound fun used state => Shortens (stateParts state).flatten used := by
  refine .bind Varint.sound_decode32 ?_
  intro first nextStart nextStart_short
  refine .bind Varint.sound_decode32 ?_
  intro second nextLength nextLength_short
  refine .bind Varint.sound_decode32 ?_
  intro third rangesStart rangesStart_short
  refine .bind Varint.sound_decode32 ?_
  intro fourth rangesLength rangesLength_short
  refine .bind .byte ?_
  intro last flags taken
  subst taken
  refine .pure ?_
  have whole := nextStart_short.append <| nextLength_short.append <| rangesStart_short.append <|
    rangesLength_short.append (.refl [flags])
  simpa [stateParts, Varint.encode] using whole

theorem sound_decodeRange : decodeRange.Sound fun used range => Shortens (rangeParts range).flatten used := by
  refine .bind .byte ?_
  intro before first taken
  subst taken
  refine .bind .byte ?_
  intro before last taken
  subst taken
  exact .pure (.refl _)

theorem sound_decodeList {α : Type} {item : Decoder α} {itemParts : α → List (List UInt8)}
    (sound : item.Sound fun used value => Shortens (itemParts value).flatten used) :
    (decodeList item).Sound fun used items =>
      items.size < UInt64.size ∧ Shortens (listParts itemParts items.toList).flatten used := by
  refine .bind Varint.sound_decode ?_
  intro before count ⟨bounded, front⟩
  refine (Sound.many sound count #[]).mono ?_
  intro used items ⟨taken, same, length, rear⟩
  subst same length
  refine ⟨by simpa using bounded, ?_⟩
  simpa [listParts, Varint.encode, flatten_flatMap] using front.append rear

theorem sound_decode : decode.Sound fun used flat => flat.LengthsFit ∧ Shortens flat.parts.flatten used := by
  refine .bind (sound_decodeList sound_decodeState) ?_
  intro first states ⟨states_fit, states_short⟩
  refine .bind (sound_decodeList Varint.sound_decode32) ?_
  intro second next ⟨next_fit, next_short⟩
  refine .bind (sound_decodeList sound_decodeRange) ?_
  intro third ranges ⟨ranges_fit, ranges_short⟩
  refine .bind (sound_decodeList Varint.sound_decode32) ?_
  intro fourth sources ⟨sources_fit, sources_short⟩
  refine .bind Varint.sound_decode32 ?_
  intro last accept accept_short
  refine .pure ⟨⟨states_fit, next_fit, ranges_fit, sources_fit⟩, ?_⟩
  have whole := states_short.append <| next_short.append <| ranges_short.append <|
    sources_short.append accept_short
  simpa [parts, Varint.encode] using whole

/-- What was accepted is accepted again when it is written anew. That takes fewer bytes, unless every
number was as short as it can be: then it gives the same bytes. -/
theorem serialize_of_accepted {bytes : List UInt8} {flat : FlatAutomaton}
    (accepted : deserialize bytes = .ok flat) :
    flat.serialize.length ≤ bytes.length ∧ deserialize flat.serialize = .ok flat ∧
    (flat.serialize.length = bytes.length ↔ flat.serialize = bytes) := by
  obtain ⟨data, rfl, used, sound⟩ := exists_signature accepted
  obtain ⟨whole, split, fits, short⟩ := sound_decode data flat [] (complete_eq_ok_iff.mp used)
  rw [List.append_nil] at split
  subst split
  have shortens : Shortens flat.serialize (signature ++ data) := (Shortens.refl signature).append short
  exact ⟨shortens.length_le, deserialize_of_sound (takes_decode fits).complete sound, shortens.length_eq_iff⟩

def stretched : List UInt8 :=
  signature ++ [0xfd, 1, 0, 0, 0, 0, 0, 0, 0, 0xfb, 1, 0, 0, 0, 0xfc, 0, 0, 0, 0, 9,
    1, 0xfc, 5, 0, 0, 0, 0xfb, 0, 0, 1, 0, 0xfb, 0, 0]

def brief : FlatAutomaton where
  states := #[⟨1, 0, 0, 0, 9⟩]
  next := #[5]
  ranges := #[]
  sources := [0]
  accept := 0

theorem serialize_of_accepted_stretched : deserialize stretched = .ok brief ∧ brief.serialize ≠ stretched ∧
    brief.serialize.length ≤ stretched.length ∧ deserialize brief.serialize = .ok brief ∧
    (brief.serialize.length = stretched.length ↔ brief.serialize = stretched) := by
  have accepted : deserialize stretched = .ok brief := rfl
  exact ⟨accepted, by decide, serialize_of_accepted accepted⟩

end FlatAutomaton

end ByteRegex
