import Substrate.Arithmetic.FixedPoint
import Mathlib

/-! # `a * b / c` in 256 bits, and `sqrt`

`src/primitives/arithmetic/src/helpers_128bit.rs`: a `u128` is a `BitVec 128`, a `Double128` its
halves. The product and the division by a `u128` are exact, and the loop of `div` ends within the
rounds the model allows. `sqrt` finds a root one binary digit a round.
-/

namespace Substrate.Arithmetic

/-- The rounding test of `multiply_by_rational_with_rounding` and `multiply_rational` on the
remainder and the divisor: add one or not. -/
def roundsUp (r : Rounding) (remainder d : Nat) : Bool :=
  match r with
  | .up => decide (0 < remainder)
  | .nearestPrefUp => decide (d / 2 + d % 2 ≤ remainder)
  | .nearestPrefDown => decide (d / 2 < remainder)
  | .down => false

namespace Helpers128bit

/-- The rounding test the source writes twice, in `multiply_by_rational_with_rounding` and
`impl_rrm!`. -/
def roundUp {w : Nat} (r : Rounding) (remainder c : BitVec w) : Bool :=
  match r with
  | .up => decide (remainder > 0)
  | .nearestPrefUp => decide (remainder ≥ c / 2 + c % 2)
  | .nearestPrefDown => decide (remainder > c / 2)
  | .down => false

def checkedAdd {w : Nat} (x y : BitVec w) : Option (BitVec w) :=
  if x.toNat + y.toNat < 2 ^ w then some (x + y) else none

def low64 (a : BitVec 128) : BitVec 128 := a &&& ((1 <<< 64) - 1)

def high64 (a : BitVec 128) : BitVec 128 := a >>> 64

def neg128 (a : BitVec 128) : BitVec 128 := ~~~a + 1

def div128 (a : BitVec 128) : BitVec 128 := neg128 a / a + 1

def mod128 (a : BitVec 128) : BitVec 128 := neg128 a % a

structure Double128 where
  high : BitVec 128
  low : BitVec 128
  deriving DecidableEq, Repr

namespace Double128

def tryIntoU128 (self : Double128) : Except Unit (BitVec 128) :=
  if self.high = 0 then .ok self.low else .error ()

def zero : Double128 := ⟨0, 0⟩

def leftShift64 (scaledValue : BitVec 128) : Double128 := ⟨scaledValue >>> 64, scaledValue <<< 64⟩

def fromLow (low : BitVec 128) : Double128 := ⟨0, low⟩

def lowPart (self : Double128) : Double128 := { self with high := 0 }

/-- `add`: the low halves with `overflowing_add`, the carry into the wrapping sum of the high
halves. -/
def add (self b : Double128) : Double128 :=
  let low := self.low + b.low
  let overflow := BitVec.uaddOverflow self.low b.low
  let carry : BitVec 128 := if overflow then 1 else 0
  let high := self.high + b.high + carry
  ⟨high, low⟩

def productOf (a b : BitVec 128) : Double128 :=
  let aLow := low64 a
  let aHigh := high64 a
  let bLow := low64 b
  let bHigh := high64 b
  let f := aLow * bLow
  let o := aLow * bHigh
  let i := aHigh * bLow
  let l := aHigh * bHigh
  let fl : Double128 := ⟨l, f⟩
  let i := leftShift64 i
  let o := leftShift64 o
  (fl.add i).add o

/-- The `while self.high != 0` loop of `div`, for at most `fuel` rounds: the quotient so far and
what is left. -/
def divLoop (q r : BitVec 128) : Nat → Double128 → Double128 → Double128 × Double128
  | 0, x, self => (x, self)
  | fuel + 1, x, self =>
      if self.high ≠ 0 then
        let x := x.add (productOf self.high q)
        let self := (productOf self.high r).add self.lowPart
        divLoop q r fuel x self
      else (x, self)

/-- `div`: the quotient and the remainder. The loop ends within `2 ^ 129` rounds
(`divLoop_spec`). -/
def div (self : Double128) (rhs : BitVec 128) : Double128 × BitVec 128 :=
  if rhs = 1 then (self, 0)
  else
    let q := div128 rhs
    let r := mod128 rhs
    let (x, self) := divLoop q r (2 ^ 129) zero self
    (x.add (fromLow (self.low / rhs)), self.low % rhs)

end Double128

def multiplyByRationalWithRounding (a b c : BitVec 128) (r : Rounding) : Option (BitVec 128) :=
  if c = 0 then none
  else
    let (result, remainder) := (Double128.productOf a b).div c
    match result.tryIntoU128 with
    | .error _ => none
    | .ok result =>
        let roundUp := roundUp r remainder c
        if roundUp then checkedAdd result 1 else some result

example : multiplyByRationalWithRounding 1 2 3 .nearestPrefDown = some 1 := by decide
example : multiplyByRationalWithRounding (BitVec.allOnes 128) 1 (BitVec.allOnes 128) .up =
    some 1 := by decide

namespace Double128

/-! ## `Double128` as a number -/

def toNat (d : Double128) : Nat := d.high.toNat * 2 ^ 128 + d.low.toNat

theorem toNat_lt (d : Double128) : d.toNat < 2 ^ 256 := by
  have hhigh := d.high.isLt
  have hlow := d.low.isLt
  rw [toNat]
  omega

@[simp] theorem zero_toNat : zero.toNat = 0 := rfl

@[simp] theorem fromLow_toNat (low : BitVec 128) : (fromLow low).toNat = low.toNat := by
  simp [fromLow, toNat]

@[simp] theorem lowPart_toNat (d : Double128) : d.lowPart.toNat = d.low.toNat := by
  simp [lowPart, toNat]

theorem high_eq_zero_iff (d : Double128) : d.high = 0 ↔ d.toNat < 2 ^ 128 := by
  have hlow := d.low.isLt
  have hzero : d.high = 0 ↔ d.high.toNat = 0 := by rw [← BitVec.toNat_inj]; rfl
  rw [hzero, toNat]
  omega

theorem add_toNat {d e : Double128} (h : d.toNat + e.toNat < 2 ^ 256) :
    (d.add e).toNat = d.toNat + e.toNat := by
  have hdl := d.low.isLt
  have hel := e.low.isLt
  have hdh := d.high.isLt
  have heh := e.high.isLt
  rw [toNat, toNat] at h
  -- the carry is one exactly when the low halves overflow
  by_cases hover : 2 ^ 128 ≤ d.low.toNat + e.low.toNat
  · have hcarry : BitVec.uaddOverflow d.low e.low = true := decide_eq_true hover
    have hone : (1 : BitVec 128).toNat = 1 := rfl
    simp only [add, toNat, BitVec.toNat_add, hcarry, if_true, hone]
    omega
  · have hcarry : BitVec.uaddOverflow d.low e.low = false := decide_eq_false hover
    have hzero : (0 : BitVec 128).toNat = 0 := rfl
    simp only [add, toNat, BitVec.toNat_add, hcarry, Bool.false_eq_true, if_false, hzero]
    omega

theorem leftShift64_toNat (v : BitVec 128) : (leftShift64 v).toNat = v.toNat * 2 ^ 64 := by
  have hv := v.isLt
  simp only [leftShift64, toNat, BitVec.toNat_ushiftRight, BitVec.toNat_shiftLeft,
    Nat.shiftRight_eq_div_pow, Nat.shiftLeft_eq]
  omega

theorem low64_toNat (a : BitVec 128) : (low64 a).toNat = a.toNat % 2 ^ 64 := by
  have hmask : ((1 <<< 64) - 1 : BitVec 128).toNat = 2 ^ 64 - 1 := by decide
  rw [low64, BitVec.toNat_and, hmask, Nat.and_two_pow_sub_one_eq_mod]

theorem high64_toNat (a : BitVec 128) : (high64 a).toNat = a.toNat / 2 ^ 64 := by
  rw [high64, BitVec.toNat_ushiftRight, Nat.shiftRight_eq_div_pow]

theorem halves_mul_toNat {x y : BitVec 128} (hx : x.toNat < 2 ^ 64) (hy : y.toNat < 2 ^ 64) :
    (x * y).toNat = x.toNat * y.toNat := by
  rw [BitVec.toNat_mul, Nat.mod_eq_of_lt]
  calc x.toNat * y.toNat < 2 ^ 64 * 2 ^ 64 := Nat.mul_lt_mul'' hx hy
    _ = 2 ^ 128 := by norm_num

theorem productOf_toNat (a b : BitVec 128) : (productOf a b).toNat = a.toNat * b.toNat := by
  have ha := a.isLt
  have hb := b.isLt
  -- the halves of the factors, and their four products
  have haLow : (low64 a).toNat < 2 ^ 64 := by rw [low64_toNat]; exact Nat.mod_lt _ (by norm_num)
  have hbLow : (low64 b).toNat < 2 ^ 64 := by rw [low64_toNat]; exact Nat.mod_lt _ (by norm_num)
  have haHigh : (high64 a).toNat < 2 ^ 64 := by rw [high64_toNat]; omega
  have hbHigh : (high64 b).toNat < 2 ^ 64 := by rw [high64_toNat]; omega
  have hA : a.toNat = (low64 a).toNat + (high64 a).toNat * 2 ^ 64 := by
    rw [low64_toNat, high64_toNat]; omega
  have hB : b.toNat = (low64 b).toNat + (high64 b).toNat * 2 ^ 64 := by
    rw [low64_toNat, high64_toNat]; omega
  have hf := halves_mul_toNat haLow hbLow
  have ho := halves_mul_toNat haLow hbHigh
  have hi := halves_mul_toNat haHigh hbLow
  have hl := halves_mul_toNat haHigh hbHigh
  have hfl : (⟨high64 a * high64 b, low64 a * low64 b⟩ : Double128).toNat =
      (high64 a).toNat * (high64 b).toNat * 2 ^ 128 + (low64 a).toNat * (low64 b).toNat := by
    rw [toNat, hl, hf]
  have hproduct : a.toNat * b.toNat = (high64 a).toNat * (high64 b).toNat * 2 ^ 128 +
      (low64 a).toNat * (low64 b).toNat + (high64 a).toNat * (low64 b).toNat * 2 ^ 64 +
      (low64 a).toNat * (high64 b).toNat * 2 ^ 64 := by
    rw [hA, hB]
    ring
  have hlt : a.toNat * b.toNat < 2 ^ 256 :=
    calc a.toNat * b.toNat < 2 ^ 128 * 2 ^ 128 := Nat.mul_lt_mul'' ha hb
      _ = 2 ^ 256 := by norm_num
  -- each partial sum is at most the product, so no addition wraps
  have hsum₁ : (⟨high64 a * high64 b, low64 a * low64 b⟩ : Double128).toNat +
      (leftShift64 (high64 a * low64 b)).toNat < 2 ^ 256 := by
    rw [hfl, leftShift64_toNat, hi]
    omega
  simp only [productOf]
  rw [add_toNat (by rw [add_toNat hsum₁, leftShift64_toNat, leftShift64_toNat, hfl, hi, ho]; omega),
    add_toNat hsum₁, leftShift64_toNat, leftShift64_toNat, hfl, hi, ho, hproduct]

/-! ## The reciprocal of the divisor -/

variable {a : BitVec 128}

theorem neg128_toNat (ha : a ≠ 0) : (neg128 a).toNat = 2 ^ 128 - a.toNat := by
  have hpos : 0 < a.toNat := Nat.pos_of_ne_zero (by rwa [Ne, ← BitVec.toNat_inj] at ha)
  have hlt := a.isLt
  have hone : (1 : BitVec 128).toNat = 1 := rfl
  rw [neg128, BitVec.toNat_add, BitVec.toNat_not, hone]
  omega

theorem div128_toNat (ha : 2 ≤ a.toNat) : (div128 a).toNat = 2 ^ 128 / a.toNat := by
  have hne : a ≠ 0 := by
    rintro rfl
    exact absurd ha (by decide)
  have hlt := a.isLt
  -- `(2 ^ 128 - a) / a + 1 = 2 ^ 128 / a`, which is at most `2 ^ 127`
  have hsub : (2 ^ 128 - a.toNat) / a.toNat = 2 ^ 128 / a.toNat - 1 := by
    have := Nat.sub_mul_div (2 ^ 128) a.toNat 1
    rwa [Nat.mul_one] at this
  have hpos : 1 ≤ 2 ^ 128 / a.toNat := (Nat.le_div_iff_mul_le (by omega)).mpr (by omega)
  have hle : 2 ^ 128 / a.toNat ≤ 2 ^ 128 / 2 := Nat.div_le_div_left ha (by norm_num)
  have hone : (1 : BitVec 128).toNat = 1 := rfl
  rw [div128, BitVec.toNat_add, BitVec.toNat_udiv, neg128_toNat hne, hsub, hone]
  omega

theorem mod128_toNat (ha : a ≠ 0) : (mod128 a).toNat = 2 ^ 128 % a.toNat := by
  have hlt := a.isLt
  rw [mod128, BitVec.toNat_umod, neg128_toNat ha]
  have := Nat.sub_mul_mod (x := 2 ^ 128) (k := 1) (n := a.toNat) (by omega)
  rwa [Nat.mul_one] at this

theorem two_pow_mod_le {d : Nat} (hd : 0 < d) (hlt : d < 2 ^ 128) : 2 ^ 128 % d ≤ 2 ^ 127 := by
  by_cases hsmall : d ≤ 2 ^ 127
  · have := Nat.mod_lt (2 ^ 128) hd
    omega
  · rw [Nat.mod_eq_sub_mod (by omega), Nat.mod_eq_of_lt (by omega)]
    omega

/-! ## The division loop -/

section DivLoop

variable {q r : BitVec 128} {rhs : Nat}

/-- One round of the loop keeps `x * rhs + self` and takes at least `2 ^ 127` off `self`. -/
theorem divLoop_step (hrhs : 2 ≤ rhs) (hrhsLt : rhs < 2 ^ 128) (hq : q.toNat = 2 ^ 128 / rhs)
    (hr : r.toNat = 2 ^ 128 % rhs) {x self : Double128} (hhigh : self.high ≠ 0)
    (hbound : x.toNat * rhs + self.toNat < 2 ^ 256) :
    (x.add (productOf self.high q)).toNat * rhs + ((productOf self.high r).add self.lowPart).toNat =
        x.toNat * rhs + self.toNat ∧
      ((productOf self.high r).add self.lowPart).toNat + 2 ^ 127 ≤ self.toNat := by
  have hH : 1 ≤ self.high.toNat := Nat.one_le_iff_ne_zero.mpr (by
    rwa [Ne, ← BitVec.toNat_inj] at hhigh)
  have hHlt := self.high.isLt
  have hL := self.low.isLt
  have hself : self.toNat = self.high.toNat * 2 ^ 128 + self.low.toNat := rfl
  have hdivmod : 2 ^ 128 / rhs * rhs + 2 ^ 128 % rhs = 2 ^ 128 := Nat.div_add_mod' _ _
  have hrle : r.toNat ≤ 2 ^ 127 := hr ▸ two_pow_mod_le (by omega) hrhsLt
  -- `high * 2 ^ 128 = high * q * rhs + high * r`
  have hsplit : self.high.toNat * 2 ^ 128 =
      self.high.toNat * q.toNat * rhs + self.high.toNat * r.toNat := by
    rw [hq, hr, Nat.mul_assoc, ← Nat.mul_add, hdivmod]
  have hquot : (x.toNat + self.high.toNat * q.toNat) * rhs ≤ x.toNat * rhs + self.toNat := by
    rw [Nat.add_mul, hself]
    omega
  have hquotLt : x.toNat + self.high.toNat * q.toNat < 2 ^ 256 :=
    lt_of_le_of_lt (Nat.le_mul_of_pos_right _ (by omega)) (lt_of_le_of_lt hquot hbound)
  have hrem : self.high.toNat * r.toNat ≤ self.high.toNat * 2 ^ 127 := Nat.mul_le_mul_left _ hrle
  have hremLt : (productOf self.high r).toNat + self.lowPart.toNat < 2 ^ 256 := by
    rw [productOf_toNat, lowPart_toNat]
    omega
  rw [add_toNat (by rw [productOf_toNat]; exact hquotLt), add_toNat hremLt, productOf_toNat,
    productOf_toNat, lowPart_toNat]
  constructor
  · rw [Nat.add_mul, hself, hsplit]
    ring
  · rw [hself]
    omega

/-- The loop, from `x * rhs + self` below `2 ^ 256` with enough rounds, ends with a high half of
zero and keeps `x * rhs + self`. -/
theorem divLoop_spec (hrhs : 2 ≤ rhs) (hrhsLt : rhs < 2 ^ 128) (hq : q.toNat = 2 ^ 128 / rhs)
    (hr : r.toNat = 2 ^ 128 % rhs) :
    ∀ (fuel : Nat) (x self : Double128), x.toNat * rhs + self.toNat < 2 ^ 256 →
      self.toNat < 2 ^ 128 + fuel * 2 ^ 127 →
        (divLoop q r fuel x self).2.high = 0 ∧
          (divLoop q r fuel x self).1.toNat * rhs + (divLoop q r fuel x self).2.toNat =
            x.toNat * rhs + self.toNat := by
  intro fuel
  -- induction on the rounds left, each taking `2 ^ 127` off `self`
  induction fuel with
  | zero =>
    intro x self _ hfuel
    exact ⟨(high_eq_zero_iff self).mpr (by omega), rfl⟩
  | succ fuel ih =>
    intro x self hbound hfuel
    rw [divLoop]
    split
    · next hhigh =>
      obtain ⟨hkeep, hdrop⟩ := divLoop_step hrhs hrhsLt hq hr hhigh hbound
      rw [← hkeep]
      exact ih _ _ (by rw [hkeep]; exact hbound) (by rw [Nat.add_mul] at hfuel; omega)
    · next hhigh =>
      exact ⟨not_not.mp hhigh, rfl⟩

theorem divLoop_of_high_eq_zero {x self : Double128} (h : self.high = 0) (fuel : Nat) :
    divLoop q r fuel x self = (x, self) := by
  cases fuel with
  | zero => rfl
  | succ fuel => simp [divLoop, h]

/-- Once the loop has stopped, more rounds change nothing: the fuel is only a bound. -/
theorem divLoop_add (extra : Nat) : ∀ (fuel : Nat) (x self : Double128),
    (divLoop q r fuel x self).2.high = 0 →
      divLoop q r (fuel + extra) x self = divLoop q r fuel x self := by
  intro fuel
  induction fuel with
  | zero =>
    intro x self h
    rw [Nat.zero_add]
    exact divLoop_of_high_eq_zero h extra
  | succ fuel ih =>
    intro x self h
    rw [Nat.add_right_comm, divLoop, divLoop]
    by_cases hhigh : self.high ≠ 0
    · rw [divLoop, if_pos hhigh] at h
      rw [if_pos hhigh, if_pos hhigh]
      exact ih _ _ h
    · rw [if_neg hhigh, if_neg hhigh]

end DivLoop

variable {rhs : BitVec 128}

/-- From `zero`, the `2 ^ 129` rounds of `div` end with a high half of zero, keeping the value. -/
theorem divLoop_ends (hrhs : 2 ≤ rhs.toNat) (self : Double128) :
    (divLoop (div128 rhs) (mod128 rhs) (2 ^ 129) zero self).2.high = 0 ∧
      (divLoop (div128 rhs) (mod128 rhs) (2 ^ 129) zero self).1.toNat * rhs.toNat +
        (divLoop (div128 rhs) (mod128 rhs) (2 ^ 129) zero self).2.toNat = self.toNat := by
  have hne : rhs ≠ 0 := fun h => by simp [h] at hrhs
  -- `2 ^ 129` rounds take `self` below `2 ^ 128` whatever it is
  have hfuel : (2 : Nat) ^ 256 ≤ 2 ^ 129 * 2 ^ 127 := by rw [← Nat.pow_add]
  have h := divLoop_spec hrhs rhs.isLt (div128_toNat hrhs) (mod128_toNat hne) (2 ^ 129) zero self
    (by simpa using self.toNat_lt) (by have := self.toNat_lt; omega)
  simpa using h

theorem div_toNat (self : Double128) (hrhs : rhs ≠ 0) :
    (self.div rhs).1.toNat = self.toNat / rhs.toNat ∧
      (self.div rhs).2.toNat = self.toNat % rhs.toNat := by
  have hpos : 0 < rhs.toNat := Nat.pos_of_ne_zero (by rwa [Ne, ← BitVec.toNat_inj] at hrhs)
  rw [div]
  split
  · next hone =>
    subst hone
    have h1 : (1 : BitVec 128).toNat = 1 := rfl
    exact ⟨by rw [h1, Nat.div_one], by rw [h1, Nat.mod_one]; rfl⟩
  · next hone =>
    have hrhs2 : 2 ≤ rhs.toNat := by
      have : rhs.toNat ≠ 1 := fun h => hone (by rw [← BitVec.toNat_inj, h]; rfl)
      omega
    obtain ⟨hhigh, hkeep⟩ := divLoop_ends hrhs2 self
    -- what is left is a low half: its quotient completes the loop's
    dsimp only
    generalize divLoop (div128 rhs) (mod128 rhs) (2 ^ 129) zero self = res at hhigh hkeep ⊢
    obtain ⟨x, rest⟩ := res
    dsimp only at hhigh hkeep ⊢
    have hrest : rest.toNat = rest.low.toNat := by rw [toNat, hhigh]; simp
    rw [hrest] at hkeep
    have hquot : self.toNat / rhs.toNat = x.toNat + rest.low.toNat / rhs.toNat := by
      rw [← hkeep, Nat.add_comm, Nat.add_mul_div_right _ _ hpos, Nat.add_comm]
    have hfits : x.toNat + rest.low.toNat / rhs.toNat < 2 ^ 256 := by
      rw [← hquot]
      exact lt_of_le_of_lt (Nat.div_le_self _ _) self.toNat_lt
    refine ⟨?_, ?_⟩
    · rw [add_toNat (by rw [fromLow_toNat, BitVec.toNat_udiv]; exact hfits), fromLow_toNat,
        BitVec.toNat_udiv, hquot]
    · rw [BitVec.toNat_umod, ← hkeep, Nat.add_comm, Nat.add_mul_mod_self_right]

/-- From a divisor of one on, the `while` loop of `div` (run for divisors from two) stops within
`2 ^ 129` rounds, which more rounds do not change, and `div` returns a quotient and a remainder. -/
theorem div_loop_ends_with_quotient_and_remainder (self : Double128)
    (hrhs : 1 ≤ rhs.toNat) :
    (2 ≤ rhs.toNat → (divLoop (div128 rhs) (mod128 rhs) (2 ^ 129) zero self).2.high = 0 ∧
      ∀ fuel ≥ 2 ^ 129, divLoop (div128 rhs) (mod128 rhs) fuel zero self =
        divLoop (div128 rhs) (mod128 rhs) (2 ^ 129) zero self) ∧
    self.toNat = (self.div rhs).1.toNat * rhs.toNat + (self.div rhs).2.toNat ∧
    (self.div rhs).2.toNat < rhs.toNat := by
  have hne : rhs ≠ 0 := fun h => by simp [h] at hrhs
  obtain ⟨hquot, hrem⟩ := div_toNat self hne
  refine ⟨fun hrhs2 => ?_, by rw [hquot, hrem, Nat.div_add_mod'], hrem ▸ Nat.mod_lt _ hrhs⟩
  have hhigh := (divLoop_ends hrhs2 self).1
  refine ⟨hhigh, fun fuel hfuel => ?_⟩
  obtain ⟨extra, rfl⟩ := Nat.exists_eq_add_of_le hfuel
  exact divLoop_add extra _ _ _ hhigh

theorem div_loop_ends_for_three :
    1 ≤ (3 : BitVec 128).toNat ∧ ((⟨1, 5⟩ : Double128).div 3).2.toNat < (3 : BitVec 128).toNat :=
  ⟨by decide, (div_loop_ends_with_quotient_and_remainder ⟨1, 5⟩ (by decide)).2.2⟩

theorem tryIntoU128_eq_ok {d : Double128} {v : BitVec 128} :
    d.tryIntoU128 = .ok v ↔ d.toNat < 2 ^ 128 ∧ v = d.low := by
  rw [tryIntoU128, ← high_eq_zero_iff]
  split
  · next h => simp [h, eq_comm]
  · next h =>
    constructor
    · intro hok
      cases hok
    · rintro ⟨hzero, -⟩
      exact absurd hzero h

end Double128

/-! ## Against the model `FixedPoint` calls -/

/-- The rounding tests of the source, on numbers, for any width that holds a two. -/
theorem roundUp_toNat {w : Nat} (hw : 2 ≤ w) (r : Rounding) {remainder c : BitVec w} :
    roundUp r remainder c = roundsUp r remainder.toNat c.toNat := by
  have hc := c.isLt
  have htwo : (2 : BitVec w).toNat = 2 := by
    change (BitVec.ofNat w 2).toNat = 2
    rw [BitVec.toNat_ofNat, Nat.mod_eq_of_lt]
    calc 2 = 2 ^ 1 := rfl
      _ < 2 ^ w := Nat.pow_lt_pow_right (by norm_num) (by omega)
  have hhalf : (c / 2 + c % 2).toNat = c.toNat / 2 + c.toNat % 2 := by
    rw [BitVec.toNat_add, BitVec.toNat_udiv, BitVec.toNat_umod, htwo]
    apply Nat.mod_eq_of_lt
    omega
  cases r with
  | up => simp [roundUp, roundsUp, BitVec.lt_def]
  | nearestPrefUp => simp only [roundUp, roundsUp, ge_iff_le, BitVec.le_def, hhalf]
  | nearestPrefDown => simp only [roundUp, roundsUp, gt_iff_lt, BitVec.lt_def, BitVec.toNat_udiv, htwo]
  | down => rfl

theorem checkedAdd_toNat {w : Nat} {x y n : BitVec w} (h : checkedAdd x y = some n) :
    n.toNat = x.toNat + y.toNat := by
  rw [checkedAdd] at h
  split at h
  · next hlt =>
    cases h
    rw [BitVec.toNat_add, Nat.mod_eq_of_lt hlt]
  · cases h

theorem map_checkedAdd_one (v : BitVec 128) :
    (checkedAdd v 1).map BitVec.toNat =
      if v.toNat + 1 < 2 ^ 128 then some (v.toNat + 1) else none := by
  have hone : (1 : BitVec 128).toNat = 1 := rfl
  rw [checkedAdd, hone]
  split
  · next h => rw [Option.map_some, BitVec.toNat_add, hone, Nat.mod_eq_of_lt h]
  · rfl

theorem map_roundUp (up : Bool) (v : BitVec 128) :
    (if up then checkedAdd v 1 else some v).map BitVec.toNat =
      if up then (if v.toNat + 1 < 2 ^ 128 then some (v.toNat + 1) else none)
      else some v.toNat := by
  cases up
  · rfl
  · exact map_checkedAdd_one v

/-- The 256-bit computation is the one on natural numbers that `FixedPoint` uses. -/
theorem multiplyByRationalWithRounding_toNat (a b c : BitVec 128) (r : Rounding) :
    (multiplyByRationalWithRounding a b c r).map BitVec.toNat =
      Arithmetic.multiplyByRationalWithRounding a.toNat b.toNat c.toNat r := by
  rw [multiplyByRationalWithRounding, Arithmetic.multiplyByRationalWithRounding]
  by_cases hc : c = 0
  · rw [if_pos hc, if_pos (by rw [hc]; rfl)]
    rfl
  · have hcNat : c.toNat ≠ 0 := fun h => hc (BitVec.eq_of_toNat_eq (by rw [h]; rfl))
    rw [if_neg hc, if_neg hcNat]
    obtain ⟨hquot, hrem⟩ := Double128.div_toNat (Double128.productOf a b) hc
    rw [Double128.productOf_toNat] at hquot hrem
    dsimp only
    generalize (Double128.productOf a b).div c = res at hquot hrem
    obtain ⟨result, remainder⟩ := res
    dsimp only at hquot hrem ⊢
    rw [roundUp_toNat (by norm_num), hrem]
    cases hok : result.tryIntoU128 with
    | error e =>
      -- the quotient leaves `u128`
      have hbig : ¬result.toNat < 2 ^ 128 := fun hlt =>
        absurd ((Double128.tryIntoU128_eq_ok).mpr ⟨hlt, rfl⟩) (by rw [hok]; simp)
      rw [if_pos (by omega)]
      rfl
    | ok v =>
      obtain ⟨hlt, rfl⟩ := Double128.tryIntoU128_eq_ok.mp hok
      have hlow : result.low.toNat = a.toNat * b.toNat / c.toNat := by
        rw [← hquot, Double128.toNat, (Double128.high_eq_zero_iff result).mpr hlt]
        simp
      rw [if_neg (by omega)]
      dsimp only
      rw [map_roundUp, hlow]
      rfl


/-! ## `sqrt` -/

def leadingZeros (n : BitVec 128) : Nat := 128 - n.toNat.size

/-- The loop of `sqrt`, given `fuel` tests of `bit`. `result + bit` is `checked_add`, as a debug
build checks it; `(result >> 1) + bit` is below it. -/
def sqrtLoop : Nat → BitVec 128 → BitVec 128 → BitVec 128 → Option (BitVec 128)
  | 0, _, _, _ => none
  | fuel + 1, n, result, bit =>
    if bit = 0 then some result
    else
      match checkedAdd result bit with
      | none => none
      | some sum =>
        if n ≥ sum then sqrtLoop fuel (n - sum) ((result >>> 1) + bit) (bit >>> 2)
        else sqrtLoop fuel n (result >>> 1) (bit >>> 2)

/-- `sqrt`: the loop starts at the largest power of four up to `n` and runs at most 64 rounds. -/
def sqrt (n : BitVec 128) : Option (BitVec 128) :=
  if n = 0 then some 0
  else
    let maxShift : BitVec 32 := BitVec.ofNat 32 (leadingZeros 0) - 1
    let shift := (maxShift - BitVec.ofNat 32 (leadingZeros n)) &&& ~~~1
    sqrtLoop 65 n 0 (1 <<< shift.toNat)

example : sqrt 1000000 = some 1000 := by decide

section Sqrt

variable {x : Nat}

/-- While the digits above `4 ^ k` give the root `R` of `x`, `result + bit` stays in `u128`. -/
theorem sum_lt_of_root {R k : Nat} (hx : x < 2 ^ 128) (hk : k ≤ 63) (hR : R * R * 4 ^ (k + 1) ≤ x) :
    R * 4 ^ (k + 1) + 4 ^ k < 2 ^ 128 := by
  -- `R * 2 ^ (k + 1)` is the root of a number below `2 ^ 128`
  have hroot : R * 2 ^ (k + 1) < 2 ^ 64 := by
    rw [← Nat.mul_self_lt_mul_self_iff]
    calc R * 2 ^ (k + 1) * (R * 2 ^ (k + 1)) = R * R * 4 ^ (k + 1) := by
          rw [show (4 : Nat) = 2 * 2 from rfl, Nat.mul_pow]; ring
      _ < 2 ^ 64 * 2 ^ 64 := by omega
  have hquad : R * 4 ^ (k + 1) = R * 2 ^ (k + 1) * 2 ^ (k + 1) := by
    rw [show (4 : Nat) = 2 * 2 from rfl, Nat.mul_pow]; ring
  rcases Nat.lt_or_ge k 63 with hlt | hge
  · have h2 : 2 ^ (k + 1) ≤ 2 ^ 63 := Nat.pow_le_pow_right (by norm_num) (by omega)
    have h4 : 4 ^ k ≤ 4 ^ 62 := Nat.pow_le_pow_right (by norm_num) (by omega)
    have hprod : R * 2 ^ (k + 1) * 2 ^ (k + 1) ≤ (2 ^ 64 - 1) * 2 ^ 63 :=
      Nat.mul_le_mul (by omega) h2
    omega
  · -- at the top power no digit is set yet
    have hk63 : k = 63 := by omega
    subst hk63
    have hR0 : R = 0 := by
      by_contra hne
      have : 2 ^ 64 ≤ R * 2 ^ 64 := Nat.le_mul_of_pos_left _ (Nat.pos_of_ne_zero hne)
      omega
    subst hR0
    norm_num

/-- One digit a round: with `bit = 4 ^ k / 4`, the root `R` of the digits above it in
`result = R * 4 ^ k`, and `n = x - R * R * 4 ^ k`, the loop ends with the root of `x`. -/
theorem sqrtLoop_spec (hx : x < 2 ^ 128) : ∀ (k fuel R : Nat) (n result bit : BitVec 128),
    k ≤ 64 → k < fuel → bit.toNat = 4 ^ k / 4 → result.toNat = R * 4 ^ k →
    n.toNat + R * R * 4 ^ k = x → x < (R + 1) * (R + 1) * 4 ^ k →
    ∃ r, sqrtLoop fuel n result bit = some r ∧
      r.toNat * r.toNat ≤ x ∧ x < (r.toNat + 1) * (r.toNat + 1)
  | 0, fuel + 1, R, n, result, bit, _, _, hbit, hres, hn, hlt => by
    -- no bit is left, and `result` is the root
    have hb : bit = 0 := BitVec.eq_of_toNat_eq (by rw [hbit]; rfl)
    simp only [pow_zero, Nat.mul_one] at hres hn hlt
    refine ⟨result, by rw [sqrtLoop, if_pos hb], ?_, ?_⟩
    · rw [hres]
      omega
    · rw [hres]
      exact hlt
  | k + 1, fuel + 1, R, n, result, bit, hk, hfuel, hbit, hres, hn, hlt => by
    have hpow : 4 ^ (k + 1) = 4 * 4 ^ k := pow_succ' 4 k
    have hbit' : bit.toNat = 4 ^ k := by rw [hbit, hpow, Nat.mul_div_cancel_left _ (by norm_num)]
    have hpos : 0 < 4 ^ k := by positivity
    have hb : bit ≠ 0 := fun h => by rw [h] at hbit'; simp at hbit'; omega
    have hsum := sum_lt_of_root hx (by omega) (by omega : R * R * 4 ^ (k + 1) ≤ x)
    have hadd : checkedAdd result bit = some (result + bit) := by
      rw [checkedAdd, if_pos (by omega)]
    have hsumNat : (result + bit).toNat = R * 4 ^ (k + 1) + 4 ^ k := by
      rw [BitVec.toNat_add_of_lt (by omega)]
      omega
    have hhalf : (result >>> 1).toNat = 2 * R * 4 ^ k := by
      rw [BitVec.toNat_ushiftRight, hres, Nat.shiftRight_eq_div_pow, pow_one, hpow,
        show R * (4 * 4 ^ k) = 2 * (2 * R * 4 ^ k) by ring, Nat.mul_div_cancel_left _ (by norm_num)]
    have hnext : (bit >>> 2).toNat = 4 ^ k / 4 := by
      rw [BitVec.toNat_ushiftRight, hbit', Nat.shiftRight_eq_div_pow]
    rw [sqrtLoop, if_neg hb, hadd]
    dsimp only
    -- the products are linear in `R * R * 4 ^ k` and `R * 4 ^ k`
    have hsq : R * R * 4 ^ (k + 1) = 4 * (R * R * 4 ^ k) := by rw [hpow]; ring
    have hlin : R * 4 ^ (k + 1) = 4 * (R * 4 ^ k) := by rw [hpow]; ring
    split
    · -- the digit is one: the root of the digits so far is `2 * R + 1`
      rename_i hge
      rw [ge_iff_le, BitVec.le_def, hsumNat] at hge
      have hodd : (2 * R + 1) * (2 * R + 1) * 4 ^ k = 4 * (R * R * 4 ^ k) + 4 * (R * 4 ^ k) + 4 ^ k := by ring
      have htop : (2 * R + 1 + 1) * (2 * R + 1 + 1) * 4 ^ k = (R + 1) * (R + 1) * 4 ^ (k + 1) := by rw [hpow]; ring
      have hdouble : 2 * R * 4 ^ k = 2 * (R * 4 ^ k) := by ring
      apply sqrtLoop_spec hx k fuel (2 * R + 1) _ _ _ (by omega) (by omega) hnext
      · rw [BitVec.toNat_add_of_lt (by rw [hhalf, hbit']; omega), hhalf, hbit']
        ring
      · rw [BitVec.toNat_sub_of_le (by rw [BitVec.le_def, hsumNat]; omega), hsumNat, hodd]
        omega
      · rw [htop]
        exact hlt
    · -- the digit is zero: the root is `2 * R`
      rename_i hlt'
      rw [ge_iff_le, BitVec.le_def, hsumNat] at hlt'
      have heven : 2 * R * (2 * R) * 4 ^ k = 4 * (R * R * 4 ^ k) := by ring
      have hodd : (2 * R + 1) * (2 * R + 1) * 4 ^ k = 4 * (R * R * 4 ^ k) + 4 * (R * 4 ^ k) + 4 ^ k := by ring
      apply sqrtLoop_spec hx k fuel (2 * R) _ _ _ (by omega) (by omega) hnext hhalf
      · rw [heven]
        omega
      · rw [hodd]
        omega

/-- A nonzero `u128` has between one and 128 bits. -/
theorem size_mem {n : BitVec 128} (hn : n ≠ 0) : 0 < n.toNat.size ∧ n.toNat.size ≤ 128 :=
  ⟨Nat.size_pos.2 (Nat.pos_of_ne_zero fun h => hn (BitVec.eq_of_toNat_eq (by simpa using h))),
    Nat.size_le.2 n.isLt⟩

/-- `x & !1` on a `u32` below `128` clears its lowest bit. -/
theorem and_not_one_toNat : ∀ v : Fin 128, (BitVec.ofNat 32 v.val &&& ~~~1#32).toNat = v.val / 2 * 2 := by
  decide

/-- The shift of the first `bit` is the bit length of a nonzero `n` less one, made even. -/
theorem shift_toNat {n : BitVec 128} (hn : n ≠ 0) :
    ((BitVec.ofNat 32 (leadingZeros 0) - 1 - BitVec.ofNat 32 (leadingZeros n)) &&& ~~~1).toNat =
      (n.toNat.size - 1) / 2 * 2 := by
  obtain ⟨hpos, hle⟩ := size_mem hn
  have hmax : (BitVec.ofNat 32 (leadingZeros 0) - 1 : BitVec 32) = 127 := by
    decide
  have hsub : (127 - BitVec.ofNat 32 (leadingZeros n) : BitVec 32) =
      BitVec.ofNat 32 (n.toNat.size - 1) := by
    apply BitVec.eq_of_toNat_eq
    rw [BitVec.toNat_sub_of_le (by rw [BitVec.le_def, leadingZeros, BitVec.toNat_ofNat]; simp; omega)]
    simp [leadingZeros]
    omega
  rw [hmax, hsub]
  exact and_not_one_toNat ⟨n.toNat.size - 1, by omega⟩

/-- `sqrt` returns the floor of the square root of every `u128`, and its loop never overflows in
`result + bit`: it ends with `some`. -/
theorem sqrt_is_floor_of_root (n : BitVec 128) :
    ∃ r, sqrt n = some r ∧
      r.toNat * r.toNat ≤ n.toNat ∧ n.toNat < (r.toNat + 1) * (r.toNat + 1) := by
  by_cases hn : n = 0
  · exact ⟨0, by rw [sqrt, if_pos hn], by simp [hn], by simp [hn]⟩
  · rw [sqrt, if_neg hn]
    dsimp only
    rw [shift_toNat hn]
    obtain ⟨hpos, hle⟩ := size_mem hn
    set j := (n.toNat.size - 1) / 2 with hj
    have hfour : 4 ^ (j + 1) = 2 ^ (j * 2) * 4 := by
      rw [pow_succ, Nat.mul_comm j 2, Nat.pow_mul]
    have hbit : ((1 : BitVec 128) <<< (j * 2)).toNat = 4 ^ (j + 1) / 4 := by
      rw [BitVec.toNat_shiftLeft, show (1 : BitVec 128).toNat = 1 from rfl, Nat.one_shiftLeft,
        Nat.mod_eq_of_lt (Nat.pow_lt_pow_right (by norm_num) (by omega)), hfour,
        Nat.mul_div_cancel _ (by norm_num)]
    -- `n` is below the power of four past its bit length
    have htop : n.toNat < 1 * 1 * 4 ^ (j + 1) := by
      calc n.toNat < 2 ^ n.toNat.size := Nat.lt_size_self _
        _ ≤ 2 ^ (j * 2) * 4 := by
          rw [show 2 ^ (j * 2) * 4 = 2 ^ (j * 2 + 2) by ring]
          exact Nat.pow_le_pow_right (by norm_num) (by omega)
        _ = 1 * 1 * 4 ^ (j + 1) := by rw [hfour]; ring
    exact sqrtLoop_spec n.isLt (j + 1) 65 0 n 0 _ (by omega) (by omega) hbit (by simp) (by simp) htop

end Sqrt

/-! ## `gcd` -/

/-- `gcd`, binary: an even argument is halved, two odd ones give half their difference. -/
def gcd (a b : BitVec 128) : BitVec 128 :=
  if a = b then b
  else if a = 0 then b
  else if b = 0 then a
  else if a &&& 1 = 0 then
    if b &&& 1 = 0 then gcd (a >>> 1) (b >>> 1) <<< 1 else gcd (a >>> 1) b
  else if b &&& 1 = 0 then gcd (b >>> 1) a
  -- both odd: the smaller one and half the difference
  else if a ≤ b then gcd ((b - a) >>> 1) a
  else gcd ((a - b) >>> 1) b
termination_by a.toNat + b.toNat
decreasing_by all_goals bv_omega

/-- Halving an even argument beside an odd one keeps the gcd. -/
theorem gcd_half_of_odd {m n : Nat} (hm : m % 2 = 0) (hn : n % 2 = 1) :
    Nat.gcd (m / 2) n = Nat.gcd m n := by
  have htwo : Nat.Coprime 2 n := Nat.coprime_two_left.mpr (Nat.odd_iff.mpr hn)
  rw [← Nat.Coprime.gcd_mul_left_cancel (m / 2) htwo,
    Nat.mul_div_cancel' (Nat.dvd_of_mod_eq_zero hm)]

theorem and_one_eq_zero_iff (a : BitVec 128) : a &&& 1 = 0 ↔ a.toNat % 2 = 0 := by
  rw [BitVec.toNat_eq, BitVec.toNat_and]
  simp [Nat.and_one_is_mod]

theorem ushiftRight_one_toNat (a : BitVec 128) : (a >>> 1).toNat = a.toNat / 2 := by
  simp [BitVec.toNat_ushiftRight, Nat.shiftRight_eq_div_pow]

/-- `gcd` is the greatest common divisor of the two numbers. -/
theorem gcd_toNat (a b : BitVec 128) : (gcd a b).toNat = Nat.gcd a.toNat b.toNat := by
  fun_induction gcd a b with
  | case1 => rw [Nat.gcd_self]
  | case2 => simp
  | case3 => simp
  | case4 a b _ ha _ hae hbe ih =>
    -- both even: twice the gcd of the halves, which does not wrap
    rw [and_one_eq_zero_iff] at hae hbe
    have hpos : 0 < a.toNat / 2 := by bv_omega
    have hle := Nat.gcd_le_left (b.toNat / 2) hpos
    have htwice : Nat.gcd a.toNat b.toNat = 2 * Nat.gcd (a.toNat / 2) (b.toNat / 2) := by
      rw [← Nat.gcd_mul_left, Nat.mul_div_cancel' (Nat.dvd_of_mod_eq_zero hae),
        Nat.mul_div_cancel' (Nat.dvd_of_mod_eq_zero hbe)]
    rw [BitVec.toNat_shiftLeft, ih, ushiftRight_one_toNat, ushiftRight_one_toNat, Nat.shiftLeft_eq,
      htwice, Nat.mod_eq_of_lt (by omega)]
    omega
  | case5 a b _ _ _ hae hbe ih =>
    rw [and_one_eq_zero_iff] at hae hbe
    rw [ih, ushiftRight_one_toNat, gcd_half_of_odd hae (by omega)]
  | case6 a b _ _ _ hae hbe ih =>
    rw [and_one_eq_zero_iff] at hae hbe
    rw [ih, ushiftRight_one_toNat, gcd_half_of_odd hbe (by omega), Nat.gcd_comm]
  | case7 a b _ _ _ hae hbe hle ih =>
    -- both odd: the difference is even, and subtracting keeps the gcd
    rw [and_one_eq_zero_iff] at hae hbe
    rw [BitVec.le_def] at hle
    rw [ih, ushiftRight_one_toNat, BitVec.toNat_sub_of_le (BitVec.le_def.mpr hle),
      gcd_half_of_odd (by omega) (by omega), Nat.gcd_sub_self_left hle, Nat.gcd_comm]
  | case8 a b _ _ _ hae hbe hlt ih =>
    rw [and_one_eq_zero_iff] at hae hbe
    rw [BitVec.le_def] at hlt
    rw [ih, ushiftRight_one_toNat, BitVec.toNat_sub_of_le (BitVec.le_def.mpr (by omega)),
      gcd_half_of_odd (by omega) (by omega), Nat.gcd_sub_self_left (by omega)]

end Helpers128bit

end Substrate.Arithmetic
