import Mathlib
import Substrate.Arithmetic.PerThingMul

/-!
# `Rational128`

`checked_add` and `checked_sub` bring both numbers to the `lcm` of their denominators, rounding
`NearestPrefDown`; every division there is exact.
-/

namespace Substrate.Arithmetic

/-- `Rational128(n, d)`. -/
structure Rational128 where
  n : BitVec 128
  d : BitVec 128
  deriving DecidableEq, Repr

/-- The errors of `checked_add` and `checked_sub`. -/
inductive RationalError where
  /-- "failed to scale to denominator" -/
  | failedToScale
  /-- "overflow while adding numerators" -/
  | addOverflow
  /-- "overflow while subtracting numerators" -/
  | subOverflow
  deriving DecidableEq, Repr

/-- With a divisor that divides the product, the rounding adds nothing. -/
theorem Helpers128bit.multiplyByRationalWithRounding_of_dvd {a b c v : BitVec 128} {r : Rounding}
    (h : Helpers128bit.multiplyByRationalWithRounding a b c r = some v)
    (hdvd : c.toNat ∣ a.toNat * b.toNat) : v.toNat = a.toNat * b.toNat / c.toNat := by
  have hnat := Helpers128bit.multiplyByRationalWithRounding_toNat a b c r
  rw [h, multiplyByRationalWithRounding_eq_exactRounded, exactRounded_eq] at hnat
  split at hnat
  · cases hnat
  · next hc =>
    rw [roundedQuotient, Nat.mod_eq_zero_of_dvd hdvd, roundsUp_zero (Nat.pos_of_ne_zero hc),
      if_neg Bool.false_ne_true, Nat.add_zero] at hnat
    split at hnat
    · exact Option.some_injective _ hnat
    · cases hnat

namespace Rational128

/-- The number `n / d`. -/
def value (x : Rational128) : ℚ := (x.n.toNat : ℚ) / x.d.toNat

/-- `to_den`: the same number over `den`, if the numerator fits. -/
def toDen (x : Rational128) (den : BitVec 128) : Option Rational128 :=
  if den = x.d then some x
  else
    (Helpers128bit.multiplyByRationalWithRounding x.n den x.d .nearestPrefDown).map
      fun n => ⟨n, den⟩

def lcm (x y : Rational128) : Option (BitVec 128) :=
  if x.d = y.d then some x.d
  else
    Helpers128bit.multiplyByRationalWithRounding x.d y.d (Helpers128bit.gcd x.d y.d)
      .nearestPrefDown

/-- The three steps `checked_add` and `checked_sub` share, each failing with "failed to scale to
denominator": both numbers over the `lcm` of their denominators. -/
def scaled (x y : Rational128) : Option (Rational128 × Rational128) := do
  let lcm ← x.lcm y
  let x' ← x.toDen lcm
  let y' ← y.toDen lcm
  pure (x', y')

def checkedAdd (x y : Rational128) : Except RationalError Rational128 :=
  match x.scaled y with
  | none => .error .failedToScale
  | some (x', y') =>
    match Helpers128bit.checkedAdd x'.n y'.n with
    | none => .error .addOverflow
    | some n => .ok ⟨n, x'.d⟩

def checkedSub (x y : Rational128) : Except RationalError Rational128 :=
  match x.scaled y with
  | none => .error .failedToScale
  | some (x', y') => if y'.n ≤ x'.n then .ok ⟨x'.n - y'.n, x'.d⟩ else .error .subOverflow

example : checkedAdd ⟨1, 4⟩ ⟨2, 4⟩ = .ok ⟨3, 4⟩ := by decide

/-- `lcm` is the least common multiple of the denominators. -/
theorem lcm_toNat {x y : Rational128} {l : BitVec 128} (h : x.lcm y = some l) :
    l.toNat = Nat.lcm x.d.toNat y.d.toNat := by
  rw [lcm] at h
  split at h
  · next heq =>
    cases h
    rw [heq, Nat.lcm_self]
  · have hdvd : (Helpers128bit.gcd x.d y.d).toNat ∣ x.d.toNat * y.d.toNat := by
      rw [Helpers128bit.gcd_toNat]
      exact Dvd.dvd.mul_right (Nat.gcd_dvd_left _ _) _
    rw [Helpers128bit.multiplyByRationalWithRounding_of_dvd h hdvd, Helpers128bit.gcd_toNat]
    rfl

/-- Over a multiple of the denominator, `to_den` keeps the number. -/
theorem toDen_value {x x' : Rational128} {den : BitVec 128} (hx : 0 < x.d.toNat)
    (hden : 0 < den.toNat) (hdvd : x.d.toNat ∣ den.toNat) (h : x.toDen den = some x') :
    x'.d = den ∧ x'.value = x.value := by
  rw [toDen] at h
  split at h
  · next heq =>
    cases h
    exact ⟨heq.symm, rfl⟩
  · obtain ⟨n, hn, rfl⟩ := Option.map_eq_some_iff.mp h
    -- the numerator times `den` is a multiple of `d`
    have hexact : x.d.toNat ∣ x.n.toNat * den.toNat := Dvd.dvd.mul_left hdvd _
    refine ⟨rfl, ?_⟩
    rw [value, value, Helpers128bit.multiplyByRationalWithRounding_of_dvd hn hexact,
      Nat.cast_div hexact (by exact_mod_cast hx.ne'), Nat.cast_mul]
    have : (den.toNat : ℚ) ≠ 0 := by exact_mod_cast hden.ne'
    field_simp

/-- Both numbers come out over one positive denominator, unchanged. -/
theorem scaled_value {x y x' y' : Rational128} (hx : 0 < x.d.toNat) (hy : 0 < y.d.toNat)
    (h : x.scaled y = some (x', y')) :
    x'.d = y'.d ∧ 0 < x'.d.toNat ∧ x'.value = x.value ∧ y'.value = y.value := by
  obtain ⟨l, hl, h⟩ := Option.bind_eq_some_iff.mp h
  obtain ⟨x'', hx'', h⟩ := Option.bind_eq_some_iff.mp h
  obtain ⟨y'', hy'', h⟩ := Option.bind_eq_some_iff.mp h
  cases h
  have hl' := lcm_toNat hl
  have hpos : 0 < l.toNat := hl' ▸ Nat.lcm_pos hx hy
  obtain ⟨hdx, hvx⟩ := toDen_value hx hpos (hl' ▸ Nat.dvd_lcm_left _ _) hx''
  obtain ⟨hdy, hvy⟩ := toDen_value hy hpos (hl' ▸ Nat.dvd_lcm_right _ _) hy''
  exact ⟨hdx.trans hdy.symm, hdx ▸ hpos, hvx, hvy⟩

/-- `checked_add` and `checked_sub` are exact: an `Ok` result is the sum or the difference of the
two numbers, over a positive denominator. -/
theorem checked_add_and_sub_are_exact (x y : Rational128) (hx : 0 < x.d.toNat)
    (hy : 0 < y.d.toNat) :
    (∀ c, x.checkedAdd y = .ok c → 0 < c.d.toNat ∧ c.value = x.value + y.value) ∧
    (∀ c, x.checkedSub y = .ok c → 0 < c.d.toNat ∧ c.value = x.value - y.value) := by
  constructor
  · intro c h
    rw [checkedAdd] at h
    split at h
    · cases h
    · next x' y' hs =>
      obtain ⟨hd, hpos, hvx, hvy⟩ := scaled_value hx hy hs
      split at h
      · cases h
      · next n hn =>
        cases h
        refine ⟨hpos, ?_⟩
        rw [← hvx, ← hvy, value, value, value, Helpers128bit.checkedAdd_toNat hn, ← hd,
          Nat.cast_add, add_div]
  · intro c h
    rw [checkedSub] at h
    split at h
    · cases h
    · next x' y' hs =>
      obtain ⟨hd, hpos, hvx, hvy⟩ := scaled_value hx hy hs
      split at h
      · next hle =>
        cases h
        refine ⟨hpos, ?_⟩
        rw [← hvx, ← hvy, value, value, value, BitVec.toNat_sub_of_le hle, ← hd,
          Nat.cast_sub (BitVec.le_def.mp hle), sub_div]
      · cases h

theorem checkedAdd_of_half_and_third :
    0 < (⟨1, 2⟩ : Rational128).d.toNat ∧ 0 < (⟨1, 3⟩ : Rational128).d.toNat ∧
      checkedAdd ⟨1, 2⟩ ⟨1, 3⟩ = .ok ⟨5, 6⟩ ∧ value ⟨5, 6⟩ = 1 / 2 + 1 / 3 := by
  have hlcm : lcm ⟨1, 2⟩ ⟨1, 3⟩ = some 6 := by
    rw [lcm, if_neg (by decide), show Helpers128bit.gcd 2 3 = 1 by simp [Helpers128bit.gcd]]
    decide
  have hadd : checkedAdd ⟨1, 2⟩ ⟨1, 3⟩ = .ok ⟨5, 6⟩ := by
    rw [checkedAdd, scaled, hlcm]
    decide
  refine ⟨by decide, by decide, hadd, ?_⟩
  rw [((checked_add_and_sub_are_exact ⟨1, 2⟩ ⟨1, 3⟩ (by decide) (by decide)).1 _ hadd).2]
  simp [value]

end Rational128

end Substrate.Arithmetic
