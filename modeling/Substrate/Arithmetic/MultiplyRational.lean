import Substrate.Arithmetic.Helpers128bit
import Mathlib

/-! # `MultiplyRational`: the exact quotient, rounded

`src/primitives/arithmetic/src/rational.rs`: `self * n / d` rounded as asked, `none` when `d` is
zero or the result overflows; `u8` to `u64` compute in twice the width, `u128` in
`helpers_128bit`.
-/

namespace Substrate.Arithmetic

/-- The rational `x` rounded as `r` asks: down, up, or to the nearest integer, a tie going up or
down. -/
def Rounding.round (r : Rounding) (x : ℚ) : ℤ :=
  match r with
  | .down => ⌊x⌋
  | .up => ⌈x⌉
  | .nearestPrefUp => ⌊x + 1 / 2⌋
  | .nearestPrefDown => ⌈x - 1 / 2⌉

def roundedQuotient (r : Rounding) (n d : Nat) : Nat :=
  n / d + if roundsUp r (n % d) d then 1 else 0

/-- What `multiply_rational` on a `w`-bit type is to return: none on a zero divisor or when the
rounded quotient leaves the type. -/
def exactRounded (w : Nat) (a b c : Nat) (r : Rounding) : Option Nat :=
  if c = 0 then none
  else
    let v := r.round ((a * b : Nat) / (c : ℚ))
    if v < 2 ^ w then some v.toNat else none

/-! ## Rounding a quotient of natural numbers -/

section RoundDiv

variable {m d : Nat}

theorem half_le_div_iff (hd : 0 < d) : (1 / 2 : ℚ) ≤ m / d ↔ d ≤ 2 * m := by
  rw [div_le_div_iff₀ (by norm_num) (by exact_mod_cast hd)]
  norm_cast
  omega

theorem half_lt_div_iff (hd : 0 < d) : (1 / 2 : ℚ) < m / d ↔ d < 2 * m := by
  rw [div_lt_div_iff₀ (by norm_num) (by exact_mod_cast hd)]
  norm_cast
  omega

/-- The exact quotient, rounded, is the quotient of natural numbers plus the source's test on the
remainder. -/
theorem round_div (r : Rounding) {n : Nat} (hd : 0 < d) :
    r.round ((n : ℚ) / d) = (roundedQuotient r n d : ℤ) := by
  have hdQ : (0 : ℚ) < d := by exact_mod_cast hd
  -- `n / d` is the quotient plus the remainder's fraction of `d`, which is below one
  have hn : (n : ℚ) = d * (n / d : Nat) + (n % d : Nat) := by exact_mod_cast (Nat.div_add_mod n d).symm
  have hsplit : (n : ℚ) / d = (n / d : Nat) + ((n % d : Nat) : ℚ) / d := by
    rw [hn, add_div, mul_div_cancel_left₀ _ hdQ.ne']
  have hm := Nat.mod_lt n hd
  rw [hsplit, roundedQuotient]
  generalize n / d = q
  generalize n % d = m at hm ⊢
  have ht0 : (0 : ℚ) ≤ (m : ℚ) / d := by positivity
  have ht1 : (m : ℚ) / d < 1 := (div_lt_one hdQ).mpr (by exact_mod_cast hm)
  cases r with
  | down =>
    rw [Rounding.round, Int.floor_eq_iff]
    simp only [roundsUp, Bool.false_eq_true, if_false, Nat.add_zero]
    push_cast
    constructor <;> linarith
  | up =>
    rw [Rounding.round, Int.ceil_eq_iff]
    by_cases hpos : 0 < m
    · have htpos : (0 : ℚ) < (m : ℚ) / d := div_pos (by exact_mod_cast hpos) hdQ
      simp only [roundsUp, decide_eq_true hpos, if_true]
      push_cast
      constructor <;> linarith
    · have hzero : m = 0 := by omega
      simp only [roundsUp, hzero, Nat.lt_irrefl, decide_false, Bool.false_eq_true, if_false,
        Nat.cast_zero, zero_div, add_zero]
      push_cast
      constructor <;> linarith
  | nearestPrefUp =>
    rw [Rounding.round, Int.floor_eq_iff]
    have hhalf := half_le_div_iff (m := m) hd
    by_cases hup : d ≤ 2 * m
    · simp only [roundsUp, decide_eq_true (show d / 2 + d % 2 ≤ m by omega), if_true]
      push_cast
      constructor <;> linarith [hhalf.mpr hup]
    · simp only [roundsUp, decide_eq_false (show ¬(d / 2 + d % 2 ≤ m) by omega),
        Bool.false_eq_true, if_false, Nat.add_zero]
      have hlt : (m : ℚ) / d < 1 / 2 := lt_of_not_ge (fun h => hup (hhalf.mp h))
      push_cast
      constructor <;> linarith
  | nearestPrefDown =>
    rw [Rounding.round, Int.ceil_eq_iff]
    have hhalf := half_lt_div_iff (m := m) hd
    by_cases hup : d < 2 * m
    · simp only [roundsUp, decide_eq_true (show d / 2 < m by omega), if_true]
      push_cast
      constructor <;> linarith [hhalf.mpr hup]
    · simp only [roundsUp, decide_eq_false (show ¬(d / 2 < m) by omega), Bool.false_eq_true,
        if_false, Nat.add_zero]
      have hle : (m : ℚ) / d ≤ 1 / 2 := le_of_not_gt (fun h => hup (hhalf.mp h))
      push_cast
      constructor <;> linarith

end RoundDiv

/-- The law on natural numbers: the rounded quotient when it fits in `w` bits. -/
theorem exactRounded_eq (w : Nat) (a b c : Nat) (r : Rounding) :
    exactRounded w a b c r =
      if c = 0 then none
      else if roundedQuotient r (a * b) c < 2 ^ w then some (roundedQuotient r (a * b) c)
      else none := by
  rw [exactRounded]
  split
  · rfl
  · next hc =>
    dsimp only
    rw [round_div r (Nat.pos_of_ne_zero hc), Int.toNat_natCast]
    congr 1
    exact propext (by norm_cast)

/-! ## `multiply_by_rational_with_rounding` -/

/-- Checking the quotient first and the quotient plus one after is checking the rounded
quotient. -/
theorem fits_rounded (w q : Nat) (up : Bool) :
    (if 2 ^ w ≤ q then none
      else if up then (if q + 1 < 2 ^ w then some (q + 1) else none) else some q) =
      if (q + if up then 1 else 0) < 2 ^ w then some (q + if up then 1 else 0) else none := by
  cases up
  · simp only [Bool.false_eq_true, if_false, Nat.add_zero]
    split <;> split <;> first | rfl | omega
  · simp only [if_true]
    split
    · rw [if_neg (by omega)]
    · rfl

/-- The model `FixedPoint` uses follows the law for 128 bits. -/
theorem multiplyByRationalWithRounding_eq_exactRounded (a b c : Nat) (r : Rounding) :
    multiplyByRationalWithRounding a b c r = exactRounded 128 a b c r := by
  rw [multiplyByRationalWithRounding, exactRounded_eq]
  split
  · rfl
  · -- its rounding test is `roundsUp`
    exact fits_rounded 128 (a * b / c) (roundsUp r (a * b % c) c)

/-! ## `impl_rrm!` -/

/-- `multiply_rational` of `impl_rrm!($ulow, $uhi)`, `$ulow` of `w` bits: the product and quotient
in `$uhi`, of `2 * w` bits. -/
def multiplyRational {w : Nat} (self n d : BitVec w) (r : Rounding) : Option (BitVec w) :=
  if d = 0 then none
  else
    let sn := self.setWidth (2 * w) * n.setWidth (2 * w)
    let result := sn / d.setWidth (2 * w)
    let remainder := (sn % d.setWidth (2 * w)).setWidth w
    let roundUp := Helpers128bit.roundUp r remainder d
    let rounded := if roundUp then Helpers128bit.checkedAdd result 1 else some result
    match rounded with
    | none => none
    | some result =>
        if result > (BitVec.allOnes w).setWidth (2 * w) then none else some (result.setWidth w)

def multiplyRationalU8 (self n d : BitVec 8) (r : Rounding) : Option (BitVec 8) :=
  multiplyRational self n d r

def multiplyRationalU16 (self n d : BitVec 16) (r : Rounding) : Option (BitVec 16) :=
  multiplyRational self n d r

def multiplyRationalU32 (self n d : BitVec 32) (r : Rounding) : Option (BitVec 32) :=
  multiplyRational self n d r

def multiplyRationalU64 (self n d : BitVec 64) (r : Rounding) : Option (BitVec 64) :=
  multiplyRational self n d r

example : multiplyRationalU8 200 3 7 .nearestPrefUp = some 86 := by decide
example : multiplyRationalU8 200 9 7 .down = none := by decide

section Rrm

variable {w : Nat}

theorem setWidth_double_toNat (x : BitVec w) : (x.setWidth (2 * w)).toNat = x.toNat :=
  BitVec.toNat_setWidth_of_le (by omega)

/-- The last test of `impl_rrm!`: a quotient above the largest `w`-bit value is none, any other is
narrowed without loss. -/
theorem map_toNat_narrow {v : BitVec (2 * w)} :
    (if v > (BitVec.allOnes w).setWidth (2 * w) then none else some (v.setWidth w)).map
        BitVec.toNat =
      if v.toNat < 2 ^ w then some v.toNat else none := by
  have hpos : 0 < 2 ^ w := Nat.two_pow_pos w
  have hmax : v > (BitVec.allOnes w).setWidth (2 * w) ↔ ¬v.toNat < 2 ^ w := by
    rw [gt_iff_lt, BitVec.lt_def, setWidth_double_toNat, BitVec.toNat_allOnes]
    omega
  by_cases hfits : v.toNat < 2 ^ w
  · rw [if_neg (fun h => hmax.mp h hfits), if_pos hfits, Option.map_some, BitVec.toNat_setWidth,
      Nat.mod_eq_of_lt hfits]
  · rw [if_pos (hmax.mpr hfits), if_neg hfits]
    rfl

theorem mul_lt_two_pow_double (x y : BitVec w) : x.toNat * y.toNat < 2 ^ (2 * w) :=
  calc x.toNat * y.toNat < 2 ^ w * 2 ^ w := Nat.mul_lt_mul'' x.isLt y.isLt
    _ = 2 ^ (2 * w) := by rw [← Nat.pow_add, Nat.two_mul]

/-- `impl_rrm!` follows the law for its width. -/
theorem multiplyRational_toNat (hw : 2 ≤ w) (a b c : BitVec w) (r : Rounding) :
    (multiplyRational a b c r).map BitVec.toNat = exactRounded w a.toNat b.toNat c.toNat r := by
  have hprod := mul_lt_two_pow_double a b
  have hone : (1 : BitVec (2 * w)).toNat = 1 := by
    change (BitVec.ofNat (2 * w) 1).toNat = 1
    rw [BitVec.toNat_ofNat, Nat.mod_eq_of_lt (Nat.one_lt_two_pow (by omega))]
  rw [multiplyRational, exactRounded_eq]
  by_cases hc : c = 0
  · rw [if_pos hc, if_pos (by rw [hc]; rfl)]
    rfl
  · have hcNat : c.toNat ≠ 0 := fun h => hc (BitVec.eq_of_toNat_eq (by rw [h]; rfl))
    have hcpos := Nat.pos_of_ne_zero hcNat
    rw [if_neg hc, if_neg hcNat]
    -- the product, quotient and remainder in `2 * w` bits are exact
    have hsn : (a.setWidth (2 * w) * b.setWidth (2 * w)).toNat = a.toNat * b.toNat := by
      rw [BitVec.toNat_mul, setWidth_double_toNat, setWidth_double_toNat, Nat.mod_eq_of_lt hprod]
    have hresult : (a.setWidth (2 * w) * b.setWidth (2 * w) / c.setWidth (2 * w)).toNat =
        a.toNat * b.toNat / c.toNat := by
      rw [BitVec.toNat_udiv, hsn, setWidth_double_toNat]
    have hremainder : ((a.setWidth (2 * w) * b.setWidth (2 * w) %
        c.setWidth (2 * w)).setWidth w).toNat = a.toNat * b.toNat % c.toNat := by
      rw [BitVec.toNat_setWidth, BitVec.toNat_umod, hsn, setWidth_double_toNat,
        Nat.mod_eq_of_lt (lt_trans (Nat.mod_lt _ hcpos) c.isLt)]
    dsimp only
    rw [Helpers128bit.roundUp_toNat hw, hremainder, roundedQuotient]
    -- adding one never leaves `2 * w` bits: the quotient is at most `(2 ^ w - 1) ^ 2`
    have hquotLe : a.toNat * b.toNat / c.toNat ≤ a.toNat * b.toNat := Nat.div_le_self _ _
    have hsquare : a.toNat * b.toNat + 1 < 2 ^ (2 * w) := by
      have ha := a.isLt
      have hb := b.isLt
      have hle : a.toNat * b.toNat ≤ (2 ^ w - 1) * (2 ^ w - 1) :=
        Nat.mul_le_mul (by omega) (by omega)
      have hpow : 2 ^ (2 * w) = 2 ^ w * 2 ^ w := by rw [← Nat.pow_add, Nat.two_mul]
      have hpos : 2 ≤ 2 ^ w := Nat.le_self_pow (by omega) 2 |>.trans' (by norm_num)
      rw [hpow]
      nlinarith
    have hadd : Helpers128bit.checkedAdd (a.setWidth (2 * w) * b.setWidth (2 * w) /
        c.setWidth (2 * w)) 1 = some (a.setWidth (2 * w) * b.setWidth (2 * w) /
          c.setWidth (2 * w) + 1) := by
      rw [Helpers128bit.checkedAdd, if_pos (by rw [hresult, hone]; omega)]
    rw [hadd]
    -- the quotient, rounded, then compared with the largest `w`-bit value
    generalize roundsUp r (a.toNat * b.toNat % c.toNat) c.toNat = up
    cases up
    · simp only [Bool.false_eq_true, if_false, Nat.add_zero]
      rw [map_toNat_narrow, hresult]
    · simp only [if_true]
      rw [map_toNat_narrow, BitVec.toNat_add, hresult, hone, Nat.mod_eq_of_lt (by omega)]

end Rrm

theorem multiplyRational_rounds_exact_quotient :
    (∀ (a b c : BitVec 128) (r : Rounding),
      (Helpers128bit.multiplyByRationalWithRounding a b c r).map BitVec.toNat =
        exactRounded 128 a.toNat b.toNat c.toNat r) ∧
    (∀ (a b c : BitVec 8) (r : Rounding),
      (multiplyRationalU8 a b c r).map BitVec.toNat = exactRounded 8 a.toNat b.toNat c.toNat r) ∧
    (∀ (a b c : BitVec 16) (r : Rounding),
      (multiplyRationalU16 a b c r).map BitVec.toNat = exactRounded 16 a.toNat b.toNat c.toNat r) ∧
    (∀ (a b c : BitVec 32) (r : Rounding),
      (multiplyRationalU32 a b c r).map BitVec.toNat = exactRounded 32 a.toNat b.toNat c.toNat r) ∧
    (∀ (a b c : BitVec 64) (r : Rounding),
      (multiplyRationalU64 a b c r).map BitVec.toNat = exactRounded 64 a.toNat b.toNat c.toNat r) := by
  refine ⟨fun a b c r => ?_, fun a b c r => multiplyRational_toNat (by norm_num) a b c r,
    fun a b c r => multiplyRational_toNat (by norm_num) a b c r,
    fun a b c r => multiplyRational_toNat (by norm_num) a b c r,
    fun a b c r => multiplyRational_toNat (by norm_num) a b c r⟩
  rw [Helpers128bit.multiplyByRationalWithRounding_toNat,
    multiplyByRationalWithRounding_eq_exactRounded]

end Substrate.Arithmetic
