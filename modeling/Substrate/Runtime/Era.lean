import Mathlib
import Substrate.Lib.Unsigned

/-! # Transaction eras

`src/primitives/runtime/src/generic/era.rs`. A mortal era is valid for `period` blocks from its
birth. Every era `mortal` makes is alive at its block, but `death` adds the period unchecked and
overflows near `u64::MAX`. The two-byte encoding is canonical.
-/

namespace Substrate.Runtime

/-- `Era`: valid forever, or for a period from a phase. The variants keep the source's names,
beside the function `mortal` that builds a mortal era. -/
inductive Era
  | Immortal
  | Mortal (period phase : Nat)
  deriving DecidableEq, Repr

/-- `u64::checked_next_power_of_two`: the least power of two at least `n`, unless it is past
`u64::MAX`. -/
def checkedNextPowerOfTwo (n : Nat) : Option Nat :=
  ((List.range 64).find? fun k => n ≤ 2 ^ k).map (2 ^ ·)

def trailingZerosAux : Nat → Nat → Nat
  | 0, _ => 0
  | fuel + 1, n => if n % 2 = 1 then 0 else trailingZerosAux fuel (n / 2) + 1

/-- `u64::trailing_zeros`: 64 for zero. -/
def trailingZeros (n : Nat) : Nat := trailingZerosAux 64 n

def clamp (lo hi x : Nat) : Nat := if x < lo then lo else if x > hi then hi else x

namespace Era

/-- `Era::mortal`: the period rounded up to a power of two in `[4, 2^16]`, and the current block's
phase, rounded down to a multiple of `period / 2^12`. -/
def mortal (period current : Nat) : Era :=
  let period := clamp 4 (1 <<< 16) ((checkedNextPowerOfTwo period).getD (1 <<< 16))
  let phase := current % period
  let quantizeFactor := max (period >>> 12) 1
  let quantizedPhase := phase / quantizeFactor * quantizeFactor
  .Mortal period quantizedPhase

/-- `Era::birth`; `none` where the division by a zero period panics. -/
def birth : Era → Nat → Option Nat
  | .Immortal, _ => some 0
  | .Mortal period phase, current =>
      if period = 0 then none else some ((max current phase - phase) / period * period + phase)

/-- `Era::death`; `none` also where adding the period to the birth overflows a `u64`. -/
def death (e : Era) (current : Nat) : Option Nat :=
  match e with
  | .Immortal => some (Unsigned.maxValue 64)
  | .Mortal period _ => (e.birth current).bind fun b => Unsigned.checkedAdd 64 b period

/-- `Era::decode`: a zero byte is immortal, else two little-endian bytes, the low four bits the
period's exponent less one and the rest the phase over the quantize factor. -/
def decode : List UInt8 → Except String (Era × List UInt8)
  | [] => .error "Not enough data to fill buffer"
  | first :: rest =>
      if first = 0 then .ok (.Immortal, rest)
      else
        match rest with
        | [] => .error "Not enough data to fill buffer"
        | second :: rest =>
            let encoded := first.toNat + (second.toNat <<< 8)
            let period := 2 <<< (encoded % (1 <<< 4))
            let quantizeFactor := max (period >>> 12) 1
            let phase := (encoded >>> 4) * quantizeFactor
            if period ≥ 4 ∧ phase < period then .ok (.Mortal period phase, rest)
            else .error "Invalid period and phase"

/-- `Encode for Era`: a zero byte for the immortal era, else two little-endian bytes of the period's
exponent less one, clamped to `[1, 15]`, and the quantized phase above it. -/
def encode : Era → List UInt8
  | .Immortal => [0]
  | .Mortal period phase =>
      let quantizeFactor := max (period >>> 12) 1
      -- the `u32` subtraction of `trailing_zeros() - 1` wraps in a release build, and the
      -- `as u16` keeps the low sixteen bits of the shifted phase
      let encoded := clamp 1 15 ((trailingZeros period + (2 ^ 32 - 1)) % 2 ^ 32) |||
        ((phase / quantizeFactor) <<< 4) % 2 ^ 16
      [UInt8.ofNat (encoded % 2 ^ 8), UInt8.ofNat (encoded / 2 ^ 8)]

example : (mortal 64 42).encode = [5 + 42 % 16 * 16, 42 / 16] := by decide

example : (mortal 32768 20000).encode = [78, 156] := by decide

/-! ## The window of a mortal era -/

/-- From the phase on, the birth is the last block at or before the current one in the phase's
class, and the block lies within a period of it. -/
theorem window {period phase current : Nat} (hperiod : 0 < period) (hphase : phase ≤ current) :
    (current - phase) / period * period + phase ≤ current ∧
      current < (current - phase) / period * period + phase + period ∧
      ((current - phase) / period * period + phase) % period = phase % period := by
  have hdown := Nat.div_mul_le_self (current - phase) period
  have hup := Nat.lt_div_mul_add (a := current - phase) hperiod
  refine ⟨by omega, by omega, Nat.mul_add_mod_self_right _ _ _⟩

theorem birth_of_le {period phase current : Nat} (hperiod : 0 < period) (hphase : phase ≤ current) :
    (Mortal period phase).birth current = some ((current - phase) / period * period + phase) := by
  rw [birth, if_neg (Nat.pos_iff_ne_zero.mp hperiod), Nat.max_eq_left hphase]

/-- A mortal era is alive at every block from its phase on; its death is one period after its
birth, where that sum fits in a `u64`. -/
theorem alive {period phase current : Nat} (hperiod : 0 < period) (hphase : phase ≤ current) :
    ∃ b, (Mortal period phase).birth current = some b ∧ b ≤ current ∧ current < b + period ∧
      b % period = phase % period ∧
      (Mortal period phase).death current = Unsigned.checkedAdd 64 b period := by
  obtain ⟨hle, hlt, hmod⟩ := window hperiod hphase
  refine ⟨_, birth_of_le hperiod hphase, hle, hlt, hmod, ?_⟩
  rw [death, birth_of_le hperiod hphase, Option.bind_some]

/-! ## The eras `mortal` makes and decoding accepts -/

theorem clamp_le {lo hi : Nat} (h : lo ≤ hi) (x : Nat) : lo ≤ clamp lo hi x ∧ clamp lo hi x ≤ hi := by
  rw [clamp]
  split
  · omega
  · split <;> omega

/-- `mortal` picks a period between 4 and `2^16` and a phase at most the current block's. -/
theorem mortal_eq (period current : Nat) :
    ∃ p q, mortal period current = .Mortal p q ∧ 4 ≤ p ∧ p ≤ 2 ^ 16 ∧ q ≤ current % p := by
  obtain ⟨hlo, hhi⟩ := clamp_le (show 4 ≤ 1 <<< 16 by decide)
    ((checkedNextPowerOfTwo period).getD (1 <<< 16))
  refine ⟨_, _, rfl, hlo, hhi, ?_⟩
  -- the quantized phase rounds the phase down
  exact Nat.div_mul_le_self _ _

/-- Decoding accepts a mortal era only with a period of at least 4 and a phase below it. -/
theorem decode_mortal {bytes rest : List UInt8} {period phase : Nat}
    (h : decode bytes = .ok (.Mortal period phase, rest)) : 4 ≤ period ∧ phase < period := by
  rcases bytes with _ | ⟨first, _ | ⟨second, tail⟩⟩
  · cases h
  · rw [decode] at h
    split at h <;> cases h
  · rw [decode] at h
    split at h
    · cases h
    · dsimp only at h
      split at h
      · next hvalid =>
          cases h
          exact hvalid
      · cases h

/-! ## The codec -/

theorem trailingZerosAux_two_pow : ∀ {k fuel : Nat}, k ≤ fuel → trailingZerosAux fuel (2 ^ k) = k := by
  intro k
  induction k with
  | zero =>
    intro fuel _
    cases fuel <;> rfl
  | succ k ih =>
    intro fuel hfuel
    obtain ⟨fuel, rfl⟩ : ∃ f, fuel = f + 1 := ⟨fuel - 1, by omega⟩
    rw [trailingZerosAux, if_neg (by rw [Nat.pow_succ]; omega), Nat.pow_succ, Nat.mul_div_cancel _ (by norm_num),
      ih (by omega)]

theorem clamp_two_pow (j : Nat) : ∃ k, 2 ≤ k ∧ k ≤ 16 ∧ clamp 4 (1 <<< 16) (2 ^ j) = 2 ^ k := by
  unfold clamp
  split
  · exact ⟨2, le_rfl, by norm_num, rfl⟩
  · split
    · exact ⟨16, by norm_num, le_rfl, rfl⟩
    · next hlo hhi =>
      refine ⟨j, ?_, ?_, rfl⟩
      · by_contra hj
        have hlt : 2 ^ j < 2 ^ 2 := (Nat.pow_lt_pow_iff_right (by norm_num)).mpr (by omega)
        exact hlo hlt
      · by_contra hj
        have hlt : 2 ^ 16 < 2 ^ j := (Nat.pow_lt_pow_iff_right (by norm_num)).mpr (by omega)
        exact hhi hlt

theorem trailingZeros_two_pow {k : Nat} (hk : k ≤ 64) : trailingZeros (2 ^ k) = k :=
  trailingZerosAux_two_pow hk

/-- `mortal` picks a period `2^k`, `k` from 2 to 16, and the phase of the current block rounded
down to a multiple of the quantize factor. -/
theorem mortal_eq_pow (period current : Nat) : ∃ k, 2 ≤ k ∧ k ≤ 16 ∧
    mortal period current =
      .Mortal (2 ^ k) (current % 2 ^ k / max (2 ^ k >>> 12) 1 * max (2 ^ k >>> 12) 1) := by
  -- the period is rounded up to a power of two, or is `2^16` past `u64::MAX`
  obtain ⟨j, hj⟩ : ∃ j, (checkedNextPowerOfTwo period).getD (1 <<< 16) = 2 ^ j := by
    unfold checkedNextPowerOfTwo
    cases (List.range 64).find? fun k => period ≤ 2 ^ k with
    | none => exact ⟨16, rfl⟩
    | some k => exact ⟨k, rfl⟩
  obtain ⟨k, hk₁, hk₂, hk⟩ := clamp_two_pow j
  refine ⟨k, hk₁, hk₂, ?_⟩
  unfold mortal
  dsimp only
  rw [hj, hk]

/-- The quantize factor of a period `2^k` leaves at most `2^12` of its multiples below the period. -/
theorem le_quantizeFactor_mul (k : Nat) : 2 ^ k ≤ 2 ^ 12 * max (2 ^ k >>> 12) 1 := by
  rw [Nat.shiftRight_eq_div_pow]
  rcases Nat.lt_or_ge k 12 with hk | hk
  · calc 2 ^ k ≤ 2 ^ 12 := Nat.pow_le_pow_right (by norm_num) hk.le
      _ ≤ 2 ^ 12 * max (2 ^ k / 2 ^ 12) 1 := Nat.le_mul_of_pos_right _ (by omega)
  · rw [Nat.pow_div hk (by norm_num), max_eq_left Nat.one_le_two_pow, ← Nat.pow_add,
      Nat.add_sub_cancel' hk]

/-- A phase below the period over the quantize factor fits the twelve high bits of the encoding. -/
theorem quantized_lt {k r : Nat} (hr : r < 2 ^ k) : r / max (2 ^ k >>> 12) 1 < 2 ^ 12 :=
  (Nat.div_lt_iff_lt_mul (by omega)).mpr (lt_of_lt_of_le hr (le_quantizeFactor_mul k))

theorem lor_sixteen_mul {a m : Nat} (ha : a < 16) : a ||| 16 * m = a + 16 * m := by
  have h := Nat.shiftLeft_add_eq_or_of_lt (i := 4) (b := a) (by omega) m
  rw [Nat.shiftLeft_eq] at h
  rw [Nat.lor_comm, show 16 * m = m * 2 ^ 4 by omega, ← h]
  omega

/-- A mortal era of period `2^k`, `k` from 2 to 16, with the phase `m` times the quantize factor,
encodes as the two little-endian bytes of `k - 1 + 16 m`. -/
theorem encode_mortal_pow {k m : Nat} (hk₁ : 2 ≤ k) (hk₂ : k ≤ 16) (hm : m < 2 ^ 12) :
    (Mortal (2 ^ k) (m * max (2 ^ k >>> 12) 1)).encode =
      [UInt8.ofNat ((k - 1 + 16 * m) % 2 ^ 8), UInt8.ofNat ((k - 1 + 16 * m) / 2 ^ 8)] := by
  have hq : 0 < max (2 ^ k >>> 12) 1 := by omega
  -- the exponent less one, with no wrap and nothing to clamp
  have hexp : clamp 1 15 ((trailingZeros (2 ^ k) + (2 ^ 32 - 1)) % 2 ^ 32) = k - 1 := by
    rw [trailingZeros_two_pow (by omega)]
    unfold clamp
    split_ifs <;> omega
  have hphase : ((m * max (2 ^ k >>> 12) 1 / max (2 ^ k >>> 12) 1) <<< 4) % 2 ^ 16 = 16 * m := by
    rw [Nat.mul_div_cancel _ hq, Nat.shiftLeft_eq]
    omega
  simp only [encode, hexp, hphase, lor_sixteen_mul (show k - 1 < 16 by omega)]

theorem bytes_toNat {e : Nat} (he : e < 2 ^ 16) :
    (UInt8.ofNat (e % 2 ^ 8)).toNat + ((UInt8.ofNat (e / 2 ^ 8)).toNat <<< 8) = e := by
  rw [UInt8.toNat_ofNat', UInt8.toNat_ofNat', Nat.shiftLeft_eq]
  omega


theorem low_byte_ne_zero {e : Nat} (hlow : e % 16 ≠ 0) : UInt8.ofNat (e % 2 ^ 8) ≠ 0 := by
  intro h
  have h' := congrArg UInt8.toNat h
  rw [UInt8.toNat_ofNat'] at h'
  simp only [UInt8.toNat_zero, Nat.reducePow] at h'
  omega

/-- Every era `mortal` makes decodes from its encoding, with whatever follows left over. -/
theorem decode_encode_mortal (period current : Nat) (rest : List UInt8) :
    decode ((mortal period current).encode ++ rest) = .ok (mortal period current, rest) := by
  obtain ⟨k, hk₁, hk₂, he⟩ := mortal_eq_pow period current
  have hr : current % 2 ^ k < 2 ^ k := Nat.mod_lt _ (Nat.two_pow_pos k)
  have hm := quantized_lt hr
  rw [he, encode_mortal_pow hk₁ hk₂ hm]
  -- the two bytes read back as `k - 1 + 16 m`, whose low four bits are `k - 1`, not zero
  have hvalue := bytes_toNat (e := k - 1 + 16 * (current % 2 ^ k / max (2 ^ k >>> 12) 1)) (by omega)
  have hfirst := low_byte_ne_zero (e := k - 1 + 16 * (current % 2 ^ k / max (2 ^ k >>> 12) 1)) (by omega)
  have hperiod : 2 <<< ((k - 1 + 16 * (current % 2 ^ k / max (2 ^ k >>> 12) 1)) % (1 <<< 4)) = 2 ^ k := by
    rw [show (k - 1 + 16 * (current % 2 ^ k / max (2 ^ k >>> 12) 1)) % (1 <<< 4) = k - 1 by
      rw [Nat.one_shiftLeft]; omega, Nat.shiftLeft_eq, ← Nat.pow_succ']
    congr 1
    omega
  have hhigh : (k - 1 + 16 * (current % 2 ^ k / max (2 ^ k >>> 12) 1)) >>> 4 =
      current % 2 ^ k / max (2 ^ k >>> 12) 1 := by
    rw [Nat.shiftRight_eq_div_pow]
    omega
  have hfour : 4 ≤ 2 ^ k := le_trans (by norm_num) (Nat.pow_le_pow_right (by norm_num) hk₁)
  have hbelow : current % 2 ^ k / max (2 ^ k >>> 12) 1 * max (2 ^ k >>> 12) 1 < 2 ^ k :=
    lt_of_le_of_lt (Nat.div_mul_le_self _ _) hr
  simp only [List.cons_append, List.nil_append, decode, hfirst, if_false, hvalue, hperiod, hhigh,
    ge_iff_le, hfour, hbelow, and_self, if_true]

theorem bytes_of_toNat (first second : UInt8) :
    [UInt8.ofNat ((first.toNat + (second.toNat <<< 8)) % 2 ^ 8),
      UInt8.ofNat ((first.toNat + (second.toNat <<< 8)) / 2 ^ 8)] = [first, second] := by
  have h₁ := UInt8.toNat_lt first
  have h₂ := UInt8.toNat_lt second
  rw [Nat.shiftLeft_eq]
  congr 1
  · rw [← UInt8.toNat_inj, UInt8.toNat_ofNat']
    omega
  · congr 1
    rw [← UInt8.toNat_inj, UInt8.toNat_ofNat']
    omega

/-- Whatever `decode` accepts is the encoding of the era it returns, followed by the rest: one
zero byte for the immortal era and two bytes for a mortal one. -/
theorem decode_eq_ok {bytes rest : List UInt8} {e : Era} (h : decode bytes = .ok (e, rest)) :
    bytes = e.encode ++ rest := by
  rcases bytes with _ | ⟨first, _ | ⟨second, tail⟩⟩
  · cases h
  · -- one byte: only the immortal era
    rw [decode] at h
    split at h
    · next hzero =>
      cases h
      rw [hzero]
      rfl
    · cases h
  rw [decode] at h
  split at h
  · next hzero =>
    cases h
    rw [hzero]
    rfl
  dsimp only at h
  split at h
  · next hvalid =>
    cases h
    -- the two bytes make a value below `2^16`; its low four bits are the exponent less one
    have hvalue : first.toNat + (second.toNat <<< 8) < 2 ^ 16 := by
      have h₁ := UInt8.toNat_lt first
      have h₂ := UInt8.toNat_lt second
      rw [Nat.shiftLeft_eq]
      omega
    have hperiod : 2 <<< ((first.toNat + (second.toNat <<< 8)) % (1 <<< 4)) =
        2 ^ ((first.toNat + (second.toNat <<< 8)) % 16 + 1) := by
      rw [Nat.one_shiftLeft, Nat.shiftLeft_eq, ← Nat.pow_succ']
    rw [hperiod] at hvalid ⊢
    have hexp : 1 ≤ (first.toNat + (second.toNat <<< 8)) % 16 := by
      have hfour : 2 ^ 2 ≤ 2 ^ ((first.toNat + (second.toNat <<< 8)) % 16 + 1) := hvalid.1
      have := (Nat.pow_le_pow_iff_right (by norm_num)).mp hfour
      omega
    have hhigh : (first.toNat + (second.toNat <<< 8)) >>> 4 < 2 ^ 12 := by
      rw [Nat.shiftRight_eq_div_pow]
      omega
    rw [encode_mortal_pow (by omega) (by omega) hhigh]
    have hsame : (first.toNat + (second.toNat <<< 8)) % 16 + 1 - 1 +
        16 * ((first.toNat + (second.toNat <<< 8)) >>> 4) = first.toNat + (second.toNat <<< 8) := by
      rw [Nat.shiftRight_eq_div_pow]
      omega
    rw [hsame, bytes_of_toNat]
    rfl
  · cases h

/-- Every era `mortal` makes is alive at its block, and every decodable era from its phase on; but
at block `u64::MAX` with period 4 adding the period overflows. -/
theorem mortal_alive_but_death_overflows :
    (∀ period current : Nat, ∃ p q b, mortal period current = .Mortal p q ∧ 4 ≤ p ∧ p ≤ 2 ^ 16 ∧
      (mortal period current).birth current = some b ∧ b ≤ current ∧ current < b + p ∧
      b % p = q ∧ (mortal period current).death current = Unsigned.checkedAdd 64 b p) ∧
    (∀ (bytes rest : List UInt8) (period phase current : Nat),
      decode bytes = .ok (.Mortal period phase, rest) → phase ≤ current →
      ∃ b, (Mortal period phase).birth current = some b ∧ b ≤ current ∧ current < b + period ∧
        b % period = phase ∧ (Mortal period phase).death current = Unsigned.checkedAdd 64 b period) ∧
    mortal 4 (2 ^ 64 - 1) = .Mortal 4 3 ∧ (Mortal 4 3).birth (2 ^ 64 - 1) = some (2 ^ 64 - 1) ∧
    (Mortal 4 3).death (2 ^ 64 - 1) = none := by
  refine ⟨?_, ?_, by decide, by decide, by decide⟩
  · intro period current
    obtain ⟨p, q, he, hlo, hhi, hq⟩ := mortal_eq period current
    have hqlt : q < p := lt_of_le_of_lt hq (Nat.mod_lt _ (by omega))
    obtain ⟨b, hb, hle, hlt, hmod, hdeath⟩ :=
      @alive p q current (by omega) (le_trans hq (Nat.mod_le _ _))
    refine ⟨p, q, b, he, hlo, hhi, ?_, hle, hlt, ?_, ?_⟩
    · rw [he]
      exact hb
    · rw [hmod, Nat.mod_eq_of_lt hqlt]
    · rw [he]
      exact hdeath
  · intro bytes rest period phase current h hphase
    obtain ⟨hlo, hlt⟩ := decode_mortal h
    obtain ⟨b, hb, hle, hlt', hmod, hdeath⟩ := @alive period phase current (by omega) hphase
    exact ⟨b, hb, hle, hlt', by rw [hmod, Nat.mod_eq_of_lt hlt], hdeath⟩

/-- Every era `mortal` makes encodes as two bytes and decodes back; whatever `decode` accepts is the
encoding of the era it returns. -/
theorem mortal_codec_is_canonical :
    (∀ (period current : Nat) (rest : List UInt8),
      decode ((mortal period current).encode ++ rest) = .ok (mortal period current, rest) ∧
      ∃ first second, (mortal period current).encode = [first, second] ∧ first ≠ 0) ∧
    (∀ (bytes rest : List UInt8) (e : Era), decode bytes = .ok (e, rest) →
      bytes = e.encode ++ rest ∧
      (e = .Immortal ∧ e.encode = [0] ∨ ∃ first second, e.encode = [first, second] ∧ first ≠ 0)) := by
  refine ⟨fun period current rest => ⟨decode_encode_mortal period current rest, ?_⟩, ?_⟩
  · obtain ⟨k, hk₁, hk₂, he⟩ := mortal_eq_pow period current
    rw [he, encode_mortal_pow hk₁ hk₂ (quantized_lt (Nat.mod_lt current (Nat.two_pow_pos k)))]
    exact ⟨_, _, rfl, low_byte_ne_zero (by omega)⟩
  · intro bytes rest e h
    refine ⟨decode_eq_ok h, ?_⟩
    cases e with
    | Immortal => exact .inl ⟨rfl, rfl⟩
    | Mortal period phase =>
      -- a zero first byte would have decoded as the immortal era
      obtain ⟨first, second, hencode⟩ : ∃ first second, (Mortal period phase).encode = [first, second] :=
        ⟨_, _, rfl⟩
      refine .inr ⟨first, second, hencode, fun hzero => ?_⟩
      rw [decode_eq_ok h, hencode, hzero] at h
      cases h

end Era

end Substrate.Runtime
