import Mathlib

/-! # Per-things: fixed-point ratios

`src/primitives/arithmetic/src/per_things.rs`: parts out of a fixed `ACCURACY`, never more. A
product divides first and corrects for the remainder, so it never overflows.
-/

namespace Substrate.Arithmetic

inductive Rounding where
  | up
  | down
  | nearestPrefUp
  | nearestPrefDown
  deriving DecidableEq, Repr

/-- A per-thing of accuracy `accuracy`; decoding saturates at the accuracy. -/
structure PerThing (accuracy : Nat) where
  parts : Nat
  parts_le : parts ≤ accuracy
  deriving DecidableEq, Repr

/-- A per-thing type of `implement_per_thing!`: its `ACCURACY`, and the width of its `Inner`, which
holds it. -/
structure PerThingType where
  accuracy : Nat
  innerBits : Nat
  accuracy_pos : 0 < accuracy
  accuracy_lt : accuracy < 2 ^ innerBits

def percent : PerThingType := ⟨100, 8, Nat.zero_lt_succ _, by decide⟩
def perU16 : PerThingType := ⟨65535, 16, Nat.zero_lt_succ _, by decide⟩
def permill : PerThingType := ⟨1000000, 32, Nat.zero_lt_succ _, by decide⟩
def perbill : PerThingType := ⟨1000000000, 32, Nat.zero_lt_succ _, by decide⟩
def perquintill : PerThingType := ⟨1000000000000000000, 64, Nat.zero_lt_succ _, by decide⟩

namespace PerThing

variable {accuracy : Nat}

def fromParts (parts : Nat) : PerThing accuracy := ⟨min parts accuracy, Nat.min_le_right _ _⟩

def zero : PerThing accuracy := ⟨0, Nat.zero_le _⟩

def one : PerThing accuracy := ⟨accuracy, le_rfl⟩

def isZero (p : PerThing accuracy) : Bool := p.parts == 0

def saturatingAdd (p q : PerThing accuracy) : PerThing accuracy := fromParts (p.parts + q.parts)

def saturatingSub (p q : PerThing accuracy) : PerThing accuracy :=
  ⟨p.parts - q.parts, Nat.le_trans (Nat.sub_le _ _) p.parts_le⟩

/-- `Ord::min`: the first of two equal ones. -/
def min (p q : PerThing accuracy) : PerThing accuracy := if p.parts ≤ q.parts then p else q

end PerThing

/-- `rational_mul_correction`: the part of `x / denom * numer` lost to the division. -/
def rationalMulCorrection (x numer denom : Nat) (rounding : Rounding) : Nat :=
  let remMul := x % denom * numer
  let quotient := remMul / denom
  match rounding with
  | .down => quotient
  | .up => if 0 < remMul % denom then quotient + 1 else quotient
  | .nearestPrefDown => if denom / 2 < remMul % denom then quotient + 1 else quotient
  | .nearestPrefUp => if denom / 2 + denom % 2 ≤ remMul % denom then quotient + 1 else quotient

/-- `overflow_prune_mul`: `x * part / accuracy`, dividing first. -/
def overflowPruneMul (x part accuracy : Nat) (rounding : Rounding) : Nat :=
  x / accuracy * part + rationalMulCorrection x part accuracy rounding

namespace PerThing

variable {accuracy : Nat}

/-- `impl Mul<N> for PerThing`: rounds to the nearest, down on a tie. -/
def mul (p : PerThing accuracy) (x : Nat) : Nat := overflowPruneMul x p.parts accuracy .nearestPrefDown

def mulCeil (p : PerThing accuracy) (x : Nat) : Nat := overflowPruneMul x p.parts accuracy .up

def mulFloor (p : PerThing accuracy) (x : Nat) : Nat := overflowPruneMul x p.parts accuracy .down

@[simp] theorem zero_parts : (zero : PerThing accuracy).parts = 0 := rfl

@[simp] theorem one_parts : (one : PerThing accuracy).parts = accuracy := rfl

@[simp] theorem mulCeil_zero (x : Nat) : (zero : PerThing accuracy).mulCeil x = 0 := by
  simp [mulCeil, overflowPruneMul, rationalMulCorrection]

@[simp] theorem isZero_iff (p : PerThing accuracy) : p.isZero = true ↔ p.parts = 0 := by
  simp [isZero]

theorem ext_parts {p q : PerThing accuracy} (h : p.parts = q.parts) : p = q := by
  cases p
  cases q
  cases h
  rfl

/-- The whole of `x`: dividing by the accuracy and multiplying back loses nothing once the
remainder is added. -/
@[simp] theorem one_mul (hacc : 0 < accuracy) (x : Nat) : (one : PerThing accuracy).mul x = x := by
  have hexact : x % accuracy * accuracy % accuracy = 0 := Nat.mul_mod_left _ _
  simp only [mul, overflowPruneMul, rationalMulCorrection, one_parts, hexact,
    Nat.mul_div_cancel _ hacc]
  exact Nat.div_add_mod' x accuracy

@[simp] theorem one_min (q : PerThing accuracy) : (one : PerThing accuracy).min q = q := by
  rw [min]
  split
  · next hle => exact ext_parts (Nat.le_antisymm hle q.parts_le)
  · rfl

@[simp] theorem zero_mul (x : Nat) : (zero : PerThing accuracy).mul x = 0 := by
  simp [mul, overflowPruneMul, rationalMulCorrection]

@[simp] theorem zero_mulCeil (x : Nat) : (zero : PerThing accuracy).mulCeil x = 0 := by
  simp [mulCeil, overflowPruneMul, rationalMulCorrection]

end PerThing

/-! ## `from_rational` and the rounding of a product -/

namespace PerThing

variable {accuracy : Nat}

/-- `from_rational`: `p / q` rounded down; `one` when `q` is zero or `p` exceeds `q`, where
`from_rational_with_rounding` fails. -/
def fromRational (p q : Nat) : PerThing accuracy :=
  if h : q = 0 ∨ q < p then one
  else ⟨accuracy * p / q, Nat.div_le_of_le_mul (by
    push Not at h
    calc accuracy * p ≤ accuracy * q := Nat.mul_le_mul_left _ h.2
      _ = q * accuracy := Nat.mul_comm _ _)⟩

theorem fromRational_parts {p q : Nat} (hq : 0 < q) (hpq : p ≤ q) :
    (fromRational p q : PerThing accuracy).parts = accuracy * p / q := by
  rw [fromRational, dif_neg (by omega)]

theorem fromRational_parts_mul_le {p q : Nat} (hq : 0 < q) (hpq : p ≤ q) :
    (fromRational p q : PerThing accuracy).parts * q ≤ accuracy * p := by
  rw [fromRational_parts hq hpq]
  exact Nat.div_mul_le_self _ _

/-- The fractions of shares that add up to at most `q` add up to at most the whole. -/
theorem sum_fromRational_parts_le {q : Nat} (hq : 0 < q) (l : List Nat) (hsum : l.sum ≤ q) :
    (l.map fun v => (fromRational v q : PerThing accuracy).parts).sum ≤ accuracy := by
  -- each share rounds down, so their sum is at most the rounded sum
  have hfloor : ∀ l : List Nat, l.sum ≤ q →
      (l.map fun v => (fromRational v q : PerThing accuracy).parts).sum ≤ accuracy * l.sum / q := by
    intro l
    induction l with
    | nil => intro _; simp
    | cons v rest ih =>
      intro hle
      rw [List.sum_cons] at hle
      rw [List.map_cons, List.sum_cons, fromRational_parts hq (by omega), List.sum_cons,
        Nat.mul_add]
      calc accuracy * v / q + (rest.map fun v => (fromRational v q : PerThing accuracy).parts).sum
          ≤ accuracy * v / q + accuracy * rest.sum / q := Nat.add_le_add_left (ih (by omega)) _
        _ ≤ (accuracy * v + accuracy * rest.sum) / q := Nat.div_add_div_le_add_div
  calc (l.map fun v => (fromRational v q : PerThing accuracy).parts).sum
      ≤ accuracy * l.sum / q := hfloor l hsum
    _ ≤ accuracy * q / q := Nat.div_le_div_right (Nat.mul_le_mul_left _ hsum)
    _ = accuracy := Nat.mul_div_cancel _ hq

end PerThing

/-- Rounding to the nearest loses at most half a unit. -/
theorem overflowPruneMul_nearest_le {accuracy : Nat} (hacc : 0 < accuracy) (x part : Nat) :
    2 * accuracy * overflowPruneMul x part accuracy .nearestPrefDown ≤
      2 * x * part + accuracy := by
  set m := x % accuracy * part with hm
  -- `x * part` is the exact product, split at the two divisions
  have hxp : x * part =
      accuracy * (x / accuracy * part) + accuracy * (m / accuracy) + m % accuracy := by
    have hx := Nat.div_add_mod x accuracy
    have hmd := Nat.div_add_mod m accuracy
    calc x * part = (accuracy * (x / accuracy) + x % accuracy) * part := by rw [hx]
      _ = accuracy * (x / accuracy * part) + m := by rw [hm]; ring
      _ = _ := by linarith [hmd]
  simp only [overflowPruneMul, rationalMulCorrection]
  rw [← hm]
  split
  · -- the remainder is past half: rounding up adds less than half a unit
    have hhalf : accuracy ≤ 2 * (m % accuracy) := by omega
    calc 2 * accuracy * (x / accuracy * part + (m / accuracy + 1))
        = 2 * (accuracy * (x / accuracy * part)) + 2 * (accuracy * (m / accuracy)) +
          2 * accuracy := by ring
      _ ≤ 2 * (accuracy * (x / accuracy * part) + accuracy * (m / accuracy) + m % accuracy) +
          accuracy := by linarith
      _ = 2 * x * part + accuracy := by rw [mul_assoc, hxp]
  · calc 2 * accuracy * (x / accuracy * part + m / accuracy)
        = 2 * (accuracy * (x / accuracy * part)) + 2 * (accuracy * (m / accuracy)) := by ring
      _ ≤ 2 * (accuracy * (x / accuracy * part) + accuracy * (m / accuracy) + m % accuracy) +
          accuracy := by linarith [Nat.zero_le (m % accuracy)]
      _ = 2 * x * part + accuracy := by rw [mul_assoc, hxp]

namespace PerThing

variable {accuracy : Nat}

theorem mul_le_half (hacc : 0 < accuracy) (p : PerThing accuracy) (x : Nat) :
    2 * accuracy * p.mul x ≤ 2 * x * p.parts + accuracy :=
  overflowPruneMul_nearest_le hacc x p.parts

theorem mul_le_self (hacc : 0 < accuracy) (p : PerThing accuracy) (x : Nat) : p.mul x ≤ x := by
  have hhalf := p.mul_le_half hacc x
  have hparts : 2 * x * p.parts ≤ 2 * x * accuracy := Nat.mul_le_mul_left _ p.parts_le
  by_contra hgt
  -- `p * x ≥ x + 1` would put the product a whole unit above
  have hbig : 2 * accuracy * (x + 1) ≤ 2 * accuracy * p.mul x :=
    Nat.mul_le_mul_left _ (by omega)
  nlinarith

/-- A share `p / q` of `x`, rounded down to a `PerThing` and then multiplied to the nearest, is at
most half a unit above `x * p / q`. -/
theorem mul_fromRational_le (hacc : 0 < accuracy) {p q : Nat} (hq : 0 < q) (hpq : p ≤ q)
    (x : Nat) : 2 * q * (fromRational p q : PerThing accuracy).mul x ≤ 2 * x * p + q := by
  set r : PerThing accuracy := fromRational p q
  have hparts : r.parts * q ≤ accuracy * p := fromRational_parts_mul_le hq hpq
  have hmul : 2 * accuracy * r.mul x ≤ 2 * x * r.parts + accuracy := r.mul_le_half hacc x
  have hscaled : accuracy * (2 * q * r.mul x) ≤ accuracy * (2 * x * p + q) :=
    calc accuracy * (2 * q * r.mul x) = q * (2 * accuracy * r.mul x) := by ring
      _ ≤ q * (2 * x * r.parts + accuracy) := Nat.mul_le_mul_left _ hmul
      _ = 2 * x * (r.parts * q) + accuracy * q := by ring
      _ ≤ 2 * x * (accuracy * p) + accuracy * q :=
          Nat.add_le_add_right (Nat.mul_le_mul_left _ hparts) _
      _ = accuracy * (2 * x * p + q) := by ring
  exact Nat.le_of_mul_le_mul_left hscaled hacc

/-- Shares of `x` whose numerators add up to at most `q` add up to at most `x`, plus half a unit
for each share. -/
theorem sum_mul_fromRational_le (hacc : 0 < accuracy) {q : Nat} (hq : 0 < q) (l : List Nat)
    (hsum : l.sum ≤ q) (x : Nat) :
    2 * (l.map fun v => (fromRational v q : PerThing accuracy).mul x).sum ≤ 2 * x + l.length := by
  have heach : ∀ v ∈ l, 2 * accuracy * (fromRational v q : PerThing accuracy).mul x ≤
      2 * x * (fromRational v q : PerThing accuracy).parts + accuracy :=
    fun v _ => (fromRational v q).mul_le_half hacc x
  have hparts : (l.map fun v => (fromRational v q : PerThing accuracy).parts).sum ≤ accuracy :=
    sum_fromRational_parts_le hq l hsum
  have hscaled : accuracy * (2 * (l.map fun v => (fromRational v q : PerThing accuracy).mul x).sum) ≤
      accuracy * (2 * x + l.length) :=
    calc accuracy * (2 * (l.map fun v => (fromRational v q : PerThing accuracy).mul x).sum)
        = (l.map fun v => 2 * accuracy * (fromRational v q : PerThing accuracy).mul x).sum := by
          rw [List.sum_map_mul_left]; ring
      _ ≤ (l.map fun v => 2 * x * (fromRational v q : PerThing accuracy).parts + accuracy).sum :=
          List.sum_le_sum heach
      _ = 2 * x * (l.map fun v => (fromRational v q : PerThing accuracy).parts).sum +
          accuracy * l.length := by
          rw [List.sum_map_add, List.sum_map_mul_left, List.map_const', List.sum_replicate,
            smul_eq_mul, Nat.mul_comm l.length]
      _ ≤ 2 * x * accuracy + accuracy * l.length :=
          Nat.add_le_add_right (Nat.mul_le_mul_left _ hparts) _
      _ = accuracy * (2 * x + l.length) := by ring
  exact Nat.le_of_mul_le_mul_left hscaled hacc

end PerThing

/-! ## Monotonicity of a product -/

/-- Rounding to the nearest, down on a tie, is a division after adding just under half the
divisor. -/
theorem overflowPruneMul_nearestPrefDown {accuracy : Nat} (hacc : 0 < accuracy) (x part : Nat) :
    overflowPruneMul x part accuracy .nearestPrefDown =
      (x * part + (accuracy - 1 - accuracy / 2)) / accuracy := by
  set m := x % accuracy * part with hm
  set k := accuracy - 1 - accuracy / 2 with hk
  -- `x * part + k` is the quotient's multiple of the accuracy plus what the correction rounds
  have hsplit : x * part + k = (m % accuracy + k) + accuracy * (x / accuracy * part + m / accuracy) := by
    have hx := Nat.div_add_mod x accuracy
    have hmd := Nat.div_add_mod m accuracy
    calc x * part + k = (accuracy * (x / accuracy) + x % accuracy) * part + k := by rw [hx]
      _ = accuracy * (x / accuracy * part) + m + k := by rw [hm]; ring
      _ = _ := by linarith [hmd]
  have hlt : m % accuracy < accuracy := Nat.mod_lt _ hacc
  rw [hsplit, Nat.add_mul_div_left _ _ hacc, overflowPruneMul, rationalMulCorrection]
  rw [← hm]
  split
  · rename_i hhalf
    have hone : (m % accuracy + k) / accuracy = 1 :=
      Nat.div_eq_of_lt_le (by omega) (by omega)
    rw [hone]
    ring
  · rename_i hhalf
    have hzero : (m % accuracy + k) / accuracy = 0 := Nat.div_eq_of_lt (by omega)
    rw [hzero]
    ring

namespace PerThing

variable {accuracy : Nat}

theorem mul_le_mul_of_le (hacc : 0 < accuracy) {p q : PerThing accuracy} {x y : Nat}
    (hpq : p.parts ≤ q.parts) (hxy : x ≤ y) : p.mul x ≤ q.mul y := by
  rw [mul, mul, overflowPruneMul_nearestPrefDown hacc, overflowPruneMul_nearestPrefDown hacc]
  exact Nat.div_le_div_right (Nat.add_le_add_right (Nat.mul_le_mul hxy hpq) _)

end PerThing

end Substrate.Arithmetic
