import Mathlib
import Substrate.Arithmetic.MultiplyRational
import Substrate.Lib.Unsigned

/-! # Multiplying by a per-thing and by its reciprocal

`mul_floor`, `mul_ceil` and `Mul<N>` (`overflow_prune_mul`), the `saturating_reciprocal_mul`
family and `from_rational_with_rounding` of `per_things.rs`, against the exact rational rounded by
`Rounding.round`. An `N` is a `w`-bit unsigned integer.
-/

namespace Substrate.Arithmetic

/-! ## Rounded quotients -/

section RoundedQuotient

variable {r : Rounding} {n d k : Nat}

theorem roundsUp_zero (hd : 0 < d) : roundsUp r 0 d = false := by
  cases r <;> simp only [roundsUp, decide_eq_false_iff_not] <;> omega

/-- Whole divisors pass through the rounding. -/
theorem roundedQuotient_mul_add (hd : 0 < d) (k m : Nat) :
    roundedQuotient r (d * k + m) d = k + roundedQuotient r m d := by
  rw [roundedQuotient, roundedQuotient, Nat.mul_add_mod, Nat.mul_add_div hd, Nat.add_assoc]

/-- At most `k` divisors round to at most `k`, whatever the rounding. -/
theorem roundedQuotient_le_of_le_mul (hd : 0 < d) (h : n ≤ k * d) : roundedQuotient r n d ≤ k := by
  have hdiv : n / d ≤ k := Nat.div_le_of_le_mul (by rwa [Nat.mul_comm])
  rw [roundedQuotient]
  rcases Nat.lt_or_eq_of_le hdiv with hlt | heq
  · split <;> omega
  · -- exactly `k` divisors: no remainder is left to round up
    have hmod : n % d = 0 := by
      have hsplit := Nat.div_add_mod n d
      rw [heq, Nat.mul_comm] at hsplit
      omega
    rw [heq, hmod, roundsUp_zero hd]
    rfl

theorem le_roundedQuotient_of_mul_le (hd : 0 < d) (h : k * d ≤ n) : k ≤ roundedQuotient r n d :=
  calc k ≤ n / d := (Nat.le_div_iff_mul_le hd).2 h
    _ ≤ roundedQuotient r n d := Nat.le_add_right _ _

theorem roundedQuotient_down_mul_le : roundedQuotient .down n d * d ≤ n := by
  simp only [roundedQuotient, roundsUp, Bool.false_eq_true, if_false, Nat.add_zero]
  exact Nat.div_mul_le_self n d

theorem le_roundedQuotient_up_mul (hd : 0 < d) : n ≤ roundedQuotient .up n d * d := by
  have hsplit := Nat.div_add_mod' n d
  have hlt := Nat.mod_lt n hd
  simp only [roundedQuotient, roundsUp, decide_eq_true_eq, Nat.add_mul]
  generalize n / d * d = m at hsplit ⊢
  split <;> omega

end RoundedQuotient

/-- `rational_mul_correction` is the rounded share of the remainder. -/
theorem rationalMulCorrection_eq (x numer denom : Nat) (r : Rounding) :
    rationalMulCorrection x numer denom r = roundedQuotient r (x % denom * numer) denom := by
  cases r <;> simp [rationalMulCorrection, roundedQuotient, roundsUp] <;> split <;> rfl

/-- `x * m` split at `x / d`: what the source multiplies after dividing, and the remainder's part. -/
theorem mul_eq_div_add_mod (x m d : Nat) : x * m = d * (x / d * m) + x % d * m :=
  calc x * m = (d * (x / d) + x % d) * m := by rw [Nat.div_add_mod]
    _ = _ := by ring

/-- Dividing `x` first and rounding the remainder's share rounds the whole product. -/
theorem overflowPruneMul_eq {accuracy : Nat} (hacc : 0 < accuracy) (x part : Nat) (r : Rounding) :
    overflowPruneMul x part accuracy r = roundedQuotient r (x * part) accuracy := by
  rw [overflowPruneMul, rationalMulCorrection_eq, mul_eq_div_add_mod x part accuracy,
    roundedQuotient_mul_add hacc]

/-- `saturating_reciprocal_mul` for an `N` of `w` bits: `x / part` in parts of `accuracy`. -/
def saturatingReciprocalMul (w x part accuracy : Nat) (rounding : Rounding) : Nat :=
  Unsigned.saturatingAdd w (Unsigned.saturatingMul w (x / part) accuracy)
    (rationalMulCorrection x accuracy part rounding)

/-- Saturating twice is saturating the rounded quotient once. -/
theorem saturatingReciprocalMul_eq {part accuracy : Nat} (hpart : 0 < part) (w x : Nat)
    (r : Rounding) :
    saturatingReciprocalMul w x part accuracy r =
      min (roundedQuotient r (x * accuracy) part) (Unsigned.maxValue w) := by
  rw [saturatingReciprocalMul, rationalMulCorrection_eq, mul_eq_div_add_mod x accuracy part,
    roundedQuotient_mul_add hpart, Unsigned.saturatingAdd, Unsigned.saturatingMul]
  omega

namespace PerThing

variable {P : PerThingType}

def saturatingReciprocalMul (w : Nat) (p : PerThing P.accuracy) (x : Nat) : Nat :=
  Arithmetic.saturatingReciprocalMul w x p.parts P.accuracy .nearestPrefUp

def saturatingReciprocalMulFloor (w : Nat) (p : PerThing P.accuracy) (x : Nat) : Nat :=
  Arithmetic.saturatingReciprocalMul w x p.parts P.accuracy .down

def saturatingReciprocalMulCeil (w : Nat) (p : PerThing P.accuracy) (x : Nat) : Nat :=
  Arithmetic.saturatingReciprocalMul w x p.parts P.accuracy .up

/-- `mul_floor`, `mul_ceil` and `p * x` round the exact `x * p / ACCURACY` down, up and to the
nearest (down on a tie), and `overflow_prune_mul` keeps every value in its type. -/
theorem mul_rounds_the_exact_product (p : PerThing P.accuracy) (x : Nat) :
    ((p.mulFloor x : ℤ) = Rounding.down.round ((x * p.parts : ℕ) / (P.accuracy : ℚ)) ∧
      (p.mulCeil x : ℤ) = Rounding.up.round ((x * p.parts : ℕ) / (P.accuracy : ℚ)) ∧
      (p.mul x : ℤ) = Rounding.nearestPrefDown.round ((x * p.parts : ℕ) / (P.accuracy : ℚ))) ∧
    ∀ r : Rounding, x / P.accuracy * p.parts ≤ x ∧
      x % P.accuracy * p.parts < P.accuracy * P.accuracy ∧
      rationalMulCorrection x p.parts P.accuracy r ≤ p.parts ∧
      overflowPruneMul x p.parts P.accuracy r ≤ x := by
  have hacc := P.accuracy_pos
  have hexact : ∀ r : Rounding, (overflowPruneMul x p.parts P.accuracy r : ℤ) =
      r.round ((x * p.parts : ℕ) / (P.accuracy : ℚ)) := fun r => by
    rw [overflowPruneMul_eq hacc, round_div r hacc]
  refine ⟨⟨hexact .down, hexact .up, hexact .nearestPrefDown⟩, fun r => ⟨?_, ?_, ?_, ?_⟩⟩
  · calc x / P.accuracy * p.parts ≤ x / P.accuracy * P.accuracy :=
          Nat.mul_le_mul_left _ p.parts_le
      _ ≤ x := Nat.div_mul_le_self x P.accuracy
  · calc x % P.accuracy * p.parts ≤ x % P.accuracy * P.accuracy := Nat.mul_le_mul_left _ p.parts_le
      _ < P.accuracy * P.accuracy := Nat.mul_lt_mul_of_pos_right (Nat.mod_lt x hacc) hacc
  · rw [rationalMulCorrection_eq, ← Nat.mul_comm p.parts]
    exact roundedQuotient_le_of_le_mul hacc (Nat.mul_le_mul_left _ (Nat.mod_lt x hacc).le)
  · rw [overflowPruneMul_eq hacc]
    exact roundedQuotient_le_of_le_mul hacc (Nat.mul_le_mul_left x p.parts_le)

/-- `from_rational_with_rounding` for an `N` of `w` bits whose `multiply_rational` is `mulRat`. The
tuple constructor keeps parts up to `ACCURACY` as `from_parts` does. -/
def fromRationalWithRounding (P : PerThingType) {w : Nat}
    (mulRat : BitVec w → BitVec w → BitVec w → Rounding → Option (BitVec w)) (p q : BitVec w)
    (r : Rounding) : Except Unit (PerThing P.accuracy) :=
  if q = 0 then .error ()
  else if p > q then .error ()
  else
    match mulRat (BitVec.ofNat w P.accuracy) p q r with
    | none => .error ()
    -- `try_into` of `P::Inner`
    | some x => if x.toNat < 2 ^ P.innerBits then .ok (fromParts x.toNat) else .error ()

section FromRational

variable {w : Nat} {mulRat : BitVec w → BitVec w → BitVec w → Rounding → Option (BitVec w)}

theorem toNat_pos {q : BitVec w} (hq : q ≠ 0) : 0 < q.toNat :=
  Nat.pos_of_ne_zero fun h => hq (BitVec.eq_of_toNat_eq (by simpa using h))

/-- Below `q`, `p` rounds to at most the accuracy. -/
theorem roundedQuotient_le_accuracy {p q : BitVec w} (hq : q ≠ 0) (hpq : p ≤ q) (r : Rounding) :
    roundedQuotient r (P.accuracy * p.toNat) q.toNat ≤ P.accuracy :=
  roundedQuotient_le_of_le_mul (toNat_pos hq) (Nat.mul_le_mul_left _ (BitVec.le_def.1 hpq))

theorem parts_fromParts {p q : BitVec w} (hq : q ≠ 0) (hpq : p ≤ q) (r : Rounding) :
    (fromParts (roundedQuotient r (P.accuracy * p.toNat) q.toNat) : PerThing P.accuracy).parts =
      roundedQuotient r (P.accuracy * p.toNat) q.toNat :=
  Nat.min_eq_left (roundedQuotient_le_accuracy hq hpq r)

/-- Below `q`, `p` gives the per-thing of `ACCURACY * p / q`, rounded. -/
theorem fromRationalWithRounding_eq (hw : P.innerBits ≤ w)
    (hmul : ∀ a b c r, (mulRat a b c r).map BitVec.toNat = exactRounded w a.toNat b.toNat c.toNat r)
    {p q : BitVec w} (hq : q ≠ 0) (hpq : p ≤ q) (r : Rounding) :
    fromRationalWithRounding P mulRat p q r =
      .ok (fromParts (roundedQuotient r (P.accuracy * p.toNat) q.toNat)) := by
  have hfits : P.accuracy < 2 ^ w :=
    lt_of_lt_of_le P.accuracy_lt (Nat.pow_le_pow_right (by norm_num) hw)
  -- the rounded quotient is at most the accuracy, so it fits `N` and `P::Inner`
  have hle := roundedQuotient_le_accuracy (P := P) hq hpq r
  have hrat := hmul (BitVec.ofNat w P.accuracy) p q r
  rw [BitVec.toNat_ofNat, Nat.mod_eq_of_lt hfits, exactRounded_eq, if_neg (toNat_pos hq).ne',
    if_pos (by omega)] at hrat
  obtain ⟨v, hv, hvNat⟩ := Option.map_eq_some_iff.1 hrat
  rw [fromRationalWithRounding, if_neg hq, if_neg (BitVec.not_lt.2 hpq), hv]
  dsimp only
  rw [hvNat, if_pos (lt_of_le_of_lt hle P.accuracy_lt)]

/-- What `from_rational_with_rounding` returns: an error exactly on `q = 0` or `p > q`, else
`ACCURACY * p / q` exactly rounded, down times `q` at most `p` and up at least `p`. -/
structure FromRationalSpec (P : PerThingType)
    (mulRat : BitVec w → BitVec w → BitVec w → Rounding → Option (BitVec w)) (p q : BitVec w) :
    Prop where
  error_iff : ∀ r, fromRationalWithRounding P mulRat p q r = .error () ↔ q = 0 ∨ q < p
  exact : q ≠ 0 → p ≤ q → ∀ r, ∃ x : PerThing P.accuracy,
    fromRationalWithRounding P mulRat p q r = .ok x ∧
      (x.parts : ℤ) = r.round ((P.accuracy * p.toNat : ℕ) / (q.toNat : ℚ))
  mul_bounds : q ≠ 0 → p ≤ q → ∃ down up : PerThing P.accuracy,
    fromRationalWithRounding P mulRat p q .down = .ok down ∧
      fromRationalWithRounding P mulRat p q .up = .ok up ∧
      down.mul q.toNat ≤ p.toNat ∧ p.toNat ≤ up.mul q.toNat

theorem fromRationalWithRounding_rounds_the_exact_ratio (hw : P.innerBits ≤ w)
    (hmul : ∀ a b c r, (mulRat a b c r).map BitVec.toNat = exactRounded w a.toNat b.toNat c.toNat r)
    (p q : BitVec w) : FromRationalSpec P mulRat p q := by
  have hacc := P.accuracy_pos
  refine ⟨fun r => ?_, fun hq hpq r => ⟨_, fromRationalWithRounding_eq hw hmul hq hpq r, ?_⟩,
    fun hq hpq => ⟨_, _, fromRationalWithRounding_eq hw hmul hq hpq .down,
      fromRationalWithRounding_eq hw hmul hq hpq .up, ?_, ?_⟩⟩
  · by_cases hq : q = 0
    · simp [fromRationalWithRounding, hq]
    by_cases hlt : q < p
    · simp [fromRationalWithRounding, hlt]
    rw [fromRationalWithRounding_eq hw hmul hq (BitVec.not_lt.1 hlt)]
    simp only [reduceCtorEq, false_iff, not_or]
    exact ⟨hq, hlt⟩
  · rw [parts_fromParts hq hpq, round_div r (toNat_pos hq)]
  · -- rounded down, the parts times `q` are at most `ACCURACY * p`
    rw [mul, overflowPruneMul_eq hacc]
    apply roundedQuotient_le_of_le_mul hacc
    rw [parts_fromParts hq hpq, Nat.mul_comm q.toNat, Nat.mul_comm p.toNat]
    exact roundedQuotient_down_mul_le
  · -- rounded up, at least `ACCURACY * p`
    rw [mul, overflowPruneMul_eq hacc]
    apply le_roundedQuotient_of_mul_le hacc
    rw [parts_fromParts hq hpq, Nat.mul_comm q.toNat, Nat.mul_comm p.toNat]
    exact le_roundedQuotient_up_mul (toNat_pos hq)

theorem fromRationalWithRounding_of_perbill :
    perbill.innerBits ≤ 32 ∧
      (∀ a b c r, (multiplyRationalU32 a b c r).map BitVec.toNat =
        exactRounded 32 a.toNat b.toNat c.toNat r) ∧
      FromRationalSpec perbill multiplyRationalU32 1 3 :=
  ⟨by decide, fun a b c r => multiplyRational_toNat (by norm_num) a b c r,
    fromRationalWithRounding_rounds_the_exact_ratio (by decide)
      (fun a b c r => multiplyRational_toNat (by norm_num) a b c r) 1 3⟩

end FromRational

end PerThing

section Reciprocal

variable {P : PerThingType}

/-- What the `saturating_reciprocal_mul` family computes: `x * ACCURACY / p` rounded to the nearest
(up on a tie), down and up, saturated at `N::MAX`, with `P::Upper` in range. -/
structure ReciprocalSpec (w : Nat) (p : PerThing P.accuracy) (x : Nat) : Prop where
  nearest : (p.saturatingReciprocalMul w x : ℤ) =
    min (Rounding.nearestPrefUp.round ((x * P.accuracy : ℕ) / (p.parts : ℚ))) (Unsigned.maxValue w)
  floor : (p.saturatingReciprocalMulFloor w x : ℤ) =
    min (Rounding.down.round ((x * P.accuracy : ℕ) / (p.parts : ℚ))) (Unsigned.maxValue w)
  ceil : (p.saturatingReciprocalMulCeil w x : ℤ) =
    min (Rounding.up.round ((x * P.accuracy : ℕ) / (p.parts : ℚ))) (Unsigned.maxValue w)
  upper_lt : x % p.parts * P.accuracy < P.accuracy * P.accuracy
  correction_le : ∀ r : Rounding, rationalMulCorrection x P.accuracy p.parts r ≤ P.accuracy

theorem saturatingReciprocalMul_rounds_the_exact_quotient (w : Nat) (p : PerThing P.accuracy)
    (hp : 0 < p.parts) (x : Nat) : ReciprocalSpec w p x := by
  have hexact : ∀ r : Rounding, (Arithmetic.saturatingReciprocalMul w x p.parts P.accuracy r : ℤ) =
      min (r.round ((x * P.accuracy : ℕ) / (p.parts : ℚ))) (Unsigned.maxValue w) := fun r => by
    rw [saturatingReciprocalMul_eq hp, Nat.cast_min, round_div r hp]
  refine ⟨hexact .nearestPrefUp, hexact .down, hexact .up, ?_, fun r => ?_⟩
  · exact Nat.mul_lt_mul_of_pos_right (lt_of_lt_of_le (Nat.mod_lt x hp) p.parts_le) P.accuracy_pos
  · rw [rationalMulCorrection_eq, ← Nat.mul_comm P.accuracy]
    exact roundedQuotient_le_of_le_mul hp (Nat.mul_le_mul_left _ (Nat.mod_lt x hp).le)

theorem saturatingReciprocalMul_of_half_percent :
    0 < (⟨50, by decide⟩ : PerThing percent.accuracy).parts ∧
      ReciprocalSpec 8 (⟨50, by decide⟩ : PerThing percent.accuracy) 10 :=
  ⟨by decide, saturatingReciprocalMul_rounds_the_exact_quotient 8 ⟨50, by decide⟩ (by decide) 10⟩

end Reciprocal

end Substrate.Arithmetic
