import ByteRegex.Flat.Varint
import Mathlib.Algebra.Group.Nat.Defs

/-! What a decoder takes from the front of its data. It takes the bytes of a value whatever comes
behind them, and more data behind its data leaves its answer as it is, unless the data ended too
early for one. -/

namespace ByteRegex.Decoder

variable {α β : Type}

/-- From data that begins with these bytes, the decoder takes them for the value. -/
def Takes (decoder : Decoder α) (bytes : List UInt8) (value : α) : Prop :=
  ∀ rest, decoder (bytes ++ rest) = .ok (value, rest)

/-- The end of the data is the only thing that the decoder learns about what it does not take. -/
structure Steady (decoder : Decoder α) : Prop where
  ok : ∀ {data value rest} (more : List UInt8), decoder data = .ok (value, rest) →
    decoder (data ++ more) = .ok (value, rest ++ more)
  error : ∀ {data error} (more : List UInt8), decoder data = .error error → error ≠ .endOfData →
    decoder (data ++ more) = .error error

theorem run_bind (decoder : Decoder α) (next : α → Decoder β) (data : List UInt8) :
    (decoder >>= next) data = match decoder data with
      | .ok (value, rest) => next value rest
      | .error error => .error error := by
  simp only [bind, StateT.bind, Except.bind]
  cases decoder data <;> rfl

theorem many_succ (item : Decoder α) (count : Nat) (done : Array α) :
    many item (count + 1) done = item >>= fun value => many item count (done.push value) := by
  funext data
  rw [run_bind]
  rfl

theorem complete_eq_ok_iff {decoder : Decoder α} {data : List UInt8} {value : α} :
    complete decoder data = .ok value ↔ decoder data = .ok (value, []) := by
  unfold complete
  split <;> simp_all

namespace Takes

theorem pure (value : α) : Takes (pure value) [] value := fun _ => rfl

theorem bind {decoder : Decoder α} {next : α → Decoder β} {before after : List UInt8} {value : α}
    {result : β} (first : Takes decoder before value) (second : Takes (next value) after result) :
    Takes (decoder >>= next) (before ++ after) result := by
  intro rest
  rw [List.append_assoc, run_bind, first]
  exact second rest

theorem bind_pure {decoder : Decoder α} {next : α → Decoder β} {bytes : List UInt8} {value : α} {result : β}
    (first : Takes decoder bytes value) (returned : next value = Pure.pure result) :
    Takes (decoder >>= next) bytes result := by
  rw [← List.append_nil bytes]
  exact first.bind (returned ▸ pure result)

theorem byte (byte : UInt8) : Takes Decoder.byte [byte] byte := fun _ => rfl

theorem littleEndian {count value : Nat} (fits : value < 256 ^ count) :
    Takes (Decoder.littleEndian count) (Varint.littleEndian count value) value := by
  induction count generalizing value with
  | zero =>
    obtain rfl : value = 0 := by simpa using fits
    exact pure 0
  | succ count ih =>
    have high : value / 256 < 256 ^ count := by
      rw [Nat.pow_succ, Nat.mul_comm] at fits
      exact Nat.div_lt_of_lt_mul fits
    have whole : (UInt8.ofNat value).toNat + 256 * (value / 256) = value := by
      rw [UInt8.toNat_ofNat']
      exact Nat.mod_add_div value 256
    exact (byte (UInt8.ofNat value)).bind ((ih high).bind_pure (congrArg Pure.pure whole))

/-- Items that lie end to end are taken in turn. -/
theorem many {item : Decoder α} {encoding : α → List UInt8} {items : List α}
    (taken : ∀ value ∈ items, Takes item (encoding value) value) (done : Array α) :
    Takes (Decoder.many item items.length done) (items.flatMap encoding) (done ++ items) := by
  induction items generalizing done with
  | nil => simpa [Decoder.many] using pure done
  | cons first others ih =>
    obtain ⟨head, tail⟩ := List.forall_mem_cons.mp taken
    rw [List.flatMap_cons, List.length_cons, many_succ]
    simpa using head.bind (ih tail (done.push first))

theorem complete {decoder : Decoder α} {data : List UInt8} {value : α} (taken : Takes decoder data value) :
    complete decoder data = .ok value := by
  have used := taken []
  rw [List.append_nil] at used
  exact complete_eq_ok_iff.mpr used

end Takes

namespace Steady

theorem pure (value : α) : Steady (pure value) := by
  constructor
  · intro data other rest more same
    cases same
    rfl
  · intro data error more impossible
    cases impossible

theorem throw (error : EncodingError) : Steady (throw error : Decoder α) := by
  constructor
  · intro data value rest more impossible
    cases impossible
  · intro data other more same _
    cases same
    rfl

theorem bind {decoder : Decoder α} {next : α → Decoder β} (first : Steady decoder)
    (second : ∀ value, Steady (next value)) : Steady (decoder >>= next) := by
  constructor
  · intro data result rest more succeeds
    rw [run_bind] at succeeds ⊢
    split at succeeds
    next value middle taken =>
      rw [first.ok more taken]
      exact (second value).ok more succeeds
    next => cases succeeds
  · intro data error more fails early
    rw [run_bind] at fails ⊢
    split at fails
    next value middle taken =>
      rw [first.ok more taken]
      exact (second value).error more fails early
    next failed =>
      cases fails
      rw [first.error more failed early]

theorem byte : Steady Decoder.byte := by
  constructor
  · intro data value rest more succeeds
    cases data with
    | nil => cases succeeds
    | cons first others =>
      cases succeeds
      rfl
  · intro data error more fails early
    cases data with
    | nil =>
      cases fails
      exact absurd rfl early
    | cons first others => cases fails

theorem littleEndian (count : Nat) : Steady (Decoder.littleEndian count) := by
  induction count with
  | zero => exact pure 0
  | succ count ih => exact byte.bind fun _ => ih.bind fun _ => pure _

theorem many {item : Decoder α} (steady : Steady item) (count : Nat) (done : Array α) :
    Steady (Decoder.many item count done) := by
  induction count generalizing done with
  | zero => exact pure done
  | succ count ih =>
    rw [many_succ]
    exact steady.bind fun value => ih (done.push value)

variable {decoder : Decoder α} {data more : List UInt8} {value : α}

theorem complete_append (steady : Steady decoder) (used : complete decoder data = .ok value)
    (nonempty : more ≠ []) : complete decoder (data ++ more) = .error .trailingBytes := by
  obtain ⟨first, others, rfl⟩ := List.exists_cons_of_ne_nil nonempty
  rw [complete, steady.ok _ (complete_eq_ok_iff.mp used), List.nil_append]

/-- Whatever is cut off, the data that is left ends too early. Any other answer to it would stand for
the whole data as well. -/
theorem complete_of_append (steady : Steady decoder) (used : complete decoder (data ++ more) = .ok value)
    (nonempty : more ≠ []) : complete decoder data = .error .endOfData := by
  have whole := complete_eq_ok_iff.mp used
  cases answer : decoder data with
  | ok taken =>
    rw [steady.ok more answer] at whole
    simp [nonempty] at whole
  | error error =>
    obtain rfl : error = .endOfData := by
      apply Classical.byContradiction
      intro early
      rw [steady.error more answer early] at whole
      cases whole
    rw [complete, answer]

end Steady

end ByteRegex.Decoder
