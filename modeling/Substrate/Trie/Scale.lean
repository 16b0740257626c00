import Mathlib
import Substrate.Lib.Cursor

/-! # The input of the node codec

`ByteSliceInput` of `src/primitives/trie/src/node_codec.rs` and the SCALE codecs read from it,
little-endian integers and `Compact<u32>`. The compact codec lives in parity-scale-codec, outside
the repository: it is a parameter, `Compact`, that carries what is assumed of it.
-/

namespace Substrate.Trie

open Decoder

/-- The errors of `decode_plan`: a `codec::Error` with its message, or the trie's `BadFormat`. -/
inductive Error
  | codec (message : String)
  | badFormat
  deriving DecidableEq, Repr

abbrev ByteSliceInput := Cursor UInt8

namespace ByteSliceInput

/-- `ByteSliceInput::take`: the range of the next `count` bytes. -/
def take (count : Nat) : Decoder UInt8 Error (Nat × Nat) := fun input =>
  if input.offset + count > input.data.length then .error (.codec "out of data")
  else .ok ((input.offset, input.offset + count), input.advance count)

def readByte : Decoder UInt8 Error UInt8 := fun input =>
  if h : input.offset + 1 > input.data.length then .error (.codec "out of data")
  else .ok (input.data.get ⟨input.offset, by omega⟩, input.advance 1)

def read (count : Nat) : Decoder UInt8 Error (List UInt8) := fun input =>
  match take count input with
  | .ok (range, input') => .ok ((input.data.drop range.1).take (range.2 - range.1), input')
  | .error e => .error e

end ByteSliceInput

/-! ## Little-endian integers -/

def leValue : List UInt8 → Nat
  | [] => 0
  | b :: bs => b.toNat + 256 * leValue bs

/-- The `count` little-endian bytes of a value, as `to_le_bytes` writes them. -/
def leBytes : Nat → Nat → List UInt8
  | 0, _ => []
  | count + 1, v => (v % 256).toUInt8 :: leBytes count (v / 256)

/-! ## `Compact<u32>` -/

/-- `Compact<u32>` of parity-scale-codec: the codec of the lengths, with what the trie and the
extrinsic format assume of it, that it reads back every value below `2^32` it writes, whatever
follows, and accepts nothing but what it writes. -/
structure Compact extends Codec UInt8 Error Nat where
  readsAt (o : Nat) {n : Nat} : n < 2 ^ 32 → ReadsAt decode o (encode n) n
  spans : Spans decode fun _ n w => n < 2 ^ 32 ∧ w = encode n

/-! ## Reading from the input -/

namespace ByteSliceInput

variable (o : Nat)

theorem readsAt_take (w : List UInt8) : ReadsAt (take w.length) o w (o, o + w.length) := by
  intro data rest ho hdata
  rw [take, if_neg (not_lt.mpr (le_length_of_drop_eq ho hdata))]
  rfl

theorem reads_take (P : List UInt8 → Prop) (o : Nat) (w : List UInt8) :
    Reads P (take w.length) o w fun data range => range = (o, o + w.length) ∧ slice data range = w := by
  intro data rest ho hdata _
  exact ⟨_, readsAt_take o w data rest ho hdata, rfl, slice_of_drop_eq hdata⟩

variable (count : Nat)

theorem spans_take :
    Spans (take count) fun c range w => range = (c.offset, c.offset + count) ∧ w.length = count := by
  intro data o range c h
  rw [take] at h
  split at h
  · cases h
  · next hle =>
      dsimp only at hle
      cases h
      refine ⟨(data.drop o).take count, ?_, ?_, rfl, ?_⟩
      · rw [List.length_take, List.length_drop, Nat.min_eq_left (by omega)]
        rfl
      · rw [List.length_take, List.length_drop, Nat.min_eq_left (by omega), ← List.drop_drop,
          List.take_append_drop]
      · rw [List.length_take, List.length_drop]
        omega

/-- `take` accepts only a range within the data, and its bytes are what it read. -/
theorem spans_take_within :
    Spans (take count) fun c range w => range = (c.offset, c.offset + w.length) ∧
      w.length = count ∧ range.2 ≤ c.data.length ∧ slice c.data range = w := by
  intro data o range c h
  have hbound : o + count ≤ data.length := by
    rw [take] at h
    split at h
    · cases h
    · next hle =>
        dsimp only at hle
        omega
  obtain ⟨w, hc, hdata, ⟨hrange, hlen⟩, hslice⟩ := (spans_take count).slice data o range c h
  refine ⟨w, hc, hdata, by rw [hrange, hlen], hlen, by rw [hrange]; exact hbound, ?_⟩
  rw [hrange, ← hlen]
  exact hslice

theorem readsAt_readByte (b : UInt8) : ReadsAt readByte o [b] b := by
  intro data rest ho hdata
  have hlt : o < data.length := by
    have := le_length_of_drop_eq ho hdata
    simp only [List.length_singleton] at this
    omega
  rw [readByte, dif_neg (show ¬(o + 1 > data.length) by omega)]
  have hb : data[o]? = some b := by rw [← Nat.add_zero o, ← List.getElem?_drop, hdata]; rfl
  rw [List.getElem?_eq_getElem hlt, Option.some.injEq] at hb
  simp only [List.get_eq_getElem, hb]
  rfl

theorem spans_readByte : Spans readByte fun _ b w => w = [b] := by
  intro data o b c h
  rw [readByte] at h
  split at h
  · cases h
  · next hlt =>
      dsimp only at hlt
      cases h
      refine ⟨[data.get ⟨o, by omega⟩], rfl, ?_, rfl⟩
      rw [List.length_singleton, List.drop_eq_getElem_cons (by omega)]
      rfl

theorem readByte_eq_ok {input input' : ByteSliceInput} {b : UInt8}
    (h : readByte input = .ok (b, input')) :
    input' = input.advance 1 ∧ input.offset < input.data.length := by
  rw [readByte] at h
  split at h
  · cases h
  · next hlt =>
      cases h
      exact ⟨rfl, by omega⟩

theorem readsAt_read (w : List UInt8) : ReadsAt (read w.length) o w w := by
  intro data rest ho hdata
  rw [read, readsAt_take o w data rest ho hdata]
  simp only [Nat.add_sub_cancel_left, hdata, List.take_left]

theorem spans_read :
    Spans (read count) fun _ bytes w => bytes = w ∧ w.length = count := by
  intro data o bytes c h
  rw [read] at h
  split at h
  · next range input' htake =>
      cases h
      obtain ⟨w, rfl, hdata, hrange, hlen⟩ := spans_take count data o range _ htake
      refine ⟨w, rfl, hdata, ?_, hlen⟩
      rw [hrange, Nat.add_sub_cancel_left, hdata, ← hlen, List.take_left]
  · cases h

end ByteSliceInput

def u8Codec : Codec UInt8 Error UInt8 := ⟨fun b => [b], ByteSliceInput.readByte⟩

theorem canonical_u8Codec : u8Codec.Canonical :=
  ⟨fun b o => ByteSliceInput.readsAt_readByte o b, ByteSliceInput.spans_readByte⟩

theorem leValue_leBytes : ∀ (count v : Nat), leValue (leBytes count v) = v % 256 ^ count
  | 0, v => by rw [leBytes, leValue, Nat.pow_zero, Nat.mod_one]
  | count + 1, v => by
    -- the low byte and the rest of the value, as `Nat.mod_mul` splits them
    rw [leBytes, leValue, leValue_leBytes count, UInt8.toNat_ofNat',
      show (2 : Nat) ^ 8 = 256 from rfl, Nat.mod_mod, Nat.pow_succ, Nat.mul_comm _ 256,
      Nat.mod_mul]

theorem leBytes_leValue : ∀ (bytes : List UInt8), leBytes bytes.length (leValue bytes) = bytes
  | [] => rfl
  | b :: bs => by
    have hb := b.toNat_lt
    rw [List.length_cons, leBytes, leValue,
      show (b.toNat + 256 * leValue bs) % 256 = b.toNat by omega,
      show (b.toNat + 256 * leValue bs) / 256 = leValue bs by omega, leBytes_leValue bs]
    simp

theorem leValue_lt : ∀ (bytes : List UInt8), leValue bytes < 256 ^ bytes.length
  | [] => by decide
  | b :: bs => by
    have hb := b.toNat_lt
    have hbs := leValue_lt bs
    rw [leValue, List.length_cons, Nat.pow_succ]
    omega

theorem toUInt8_toNat (i : UInt8) : i.toNat.toUInt8 = i := UInt8.ofNat_toNat

/-- A fact of every byte, from the fact of every number below 256; `decide` proves the latter. -/
theorem forall_byte {P : UInt8 → Prop} (h : ∀ n < 256, P n.toUInt8) (i : UInt8) : P i := by
  have hi := h i.toNat i.toNat_lt
  rwa [toUInt8_toNat] at hi

theorem length_leBytes : ∀ (count v : Nat), (leBytes count v).length = count
  | 0, _ => rfl
  | count + 1, v => by rw [leBytes, List.length_cons, length_leBytes count]

/-- A `Compact` of four little-endian bytes. The theorems hold for every `Compact`; this one shows
that what they assume can be met. -/
def Compact.fixed : Compact where
  encode := leBytes 4
  decode := do
    let bytes ← ByteSliceInput.read 4
    return leValue bytes
  readsAt o n hn := by
    have hread := ByteSliceInput.readsAt_read o (leBytes 4 n)
    rw [length_leBytes] at hread
    refine (hread.bind (readsAt_pure _ (leValue (leBytes 4 n)))).congr (List.append_nil _) ?_
    rw [leValue_leBytes, Nat.mod_eq_of_lt (by simpa using hn)]
  spans := ((ByteSliceInput.spans_read 4).bind fun bytes => spans_pure (leValue bytes)).imp <| by
    rintro _ _ _ ⟨bytes, w₁, _, rfl, ⟨rfl, hlen⟩, rfl, rfl⟩
    have hlt := leValue_lt bytes
    rw [hlen] at hlt
    refine ⟨hlt, ?_⟩
    rw [List.append_nil, ← hlen, leBytes_leValue]

end Substrate.Trie
