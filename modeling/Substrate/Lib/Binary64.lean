import Mathlib

/-! # Binary64 arithmetic

IEEE 754 binary64 at the level of its data: NaN, signed infinity, signed zero, or `±m · 2 ^ e`
with `m < 2 ^ 53` and `-1074 ≤ e ≤ 971`. The bounds below use only that rounding lands within
half a unit of the last place.
-/

namespace Binary64

/-- The magnitude `m · 2 ^ e` of a nonzero finite number: a significand of at most 53 bits, an
exponent in range, normalised so each number has one form. -/
@[ext] structure Magnitude where
  m : Nat
  e : Int
  m_pos : 0 < m
  m_lt : m < 2 ^ 53
  e_ge : -1074 ≤ e
  e_le : e ≤ 971
  normal : e = -1074 ∨ 2 ^ 52 ≤ m
  deriving DecidableEq

namespace Magnitude

def value (x : Magnitude) : ℚ := x.m * 2 ^ x.e

def one : Magnitude := ⟨2 ^ 52, -52, by norm_num, by norm_num, by norm_num, by norm_num, .inr le_rfl⟩

@[simp] theorem value_one : one.value = 1 := by
  norm_num [value, one]

end Magnitude

end Binary64

/-- A binary64 datum. -/
inductive Binary64 where
  | nan
  | inf (neg : Bool)
  | zero (neg : Bool)
  | finite (neg : Bool) (x : Binary64.Magnitude)
  deriving DecidableEq

namespace Binary64

/-! ## Rounding -/

/-- Round half to even: the natural number nearest a nonnegative rational, the even one of two
equally near. -/
def roundHalfEven (x : ℚ) : Nat :=
  let f := ⌊x⌋₊
  if x - f < 1 / 2 then f
  else if 1 / 2 < x - f then f + 1
  else if f % 2 = 0 then f else f + 1

/-- The exponent of the last significand bit of a result of magnitude `a`: 52 bits below the leading
bit, never below the subnormals' `-1074`. -/
def quantumExponent (a : ℚ) : Int := max (Int.log 2 a - 52) (-1074)

theorem abs_roundHalfEven_sub_le {x : ℚ} (hx : 0 ≤ x) : |(roundHalfEven x : ℚ) - x| ≤ 1 / 2 := by
  have hfloor : (⌊x⌋₊ : ℚ) ≤ x := Nat.floor_le hx
  have hlt : x < ⌊x⌋₊ + 1 := Nat.lt_floor_add_one x
  rw [abs_le]
  unfold roundHalfEven
  dsimp only
  -- below the midpoint the floor is nearest, above it the ceiling, and at it both are
  split_ifs with hbelow habove
  · constructor <;> linarith
  · push_cast
    constructor <;> linarith
  · constructor <;> linarith
  · push_cast
    constructor <;> linarith

theorem roundHalfEven_le_of_lt {x : ℚ} {n : Nat} (hx : 0 ≤ x) (h : x < n) : roundHalfEven x ≤ n := by
  have hnear := (abs_le.mp (abs_roundHalfEven_sub_le hx)).2
  have hlt : (roundHalfEven x : ℚ) < n + 1 := by linarith
  exact_mod_cast Nat.lt_succ_iff.mp (by exact_mod_cast hlt)

theorem le_roundHalfEven_of_le {x : ℚ} {n : Nat} (h : (n : ℚ) ≤ x) : n ≤ roundHalfEven x := by
  have hx : 0 ≤ x := le_trans (Nat.cast_nonneg n) h
  have hnear := (abs_le.mp (abs_roundHalfEven_sub_le hx)).1
  have hlt : (n : ℚ) < roundHalfEven x + 1 := by linarith
  exact Nat.lt_succ_iff.mp (by exact_mod_cast hlt)

@[simp] theorem roundHalfEven_natCast (n : Nat) : roundHalfEven n = n := by
  simp [roundHalfEven]

section Quantum

variable {a : ℚ}

theorem div_quantumExponent_lt (a : ℚ) : a / 2 ^ quantumExponent a < 2 ^ 53 := by
  have hlog : a < 2 ^ (Int.log 2 a + 1) := by
    exact_mod_cast Int.lt_zpow_succ_log_self (by norm_num : 1 < 2) a
  have hle : Int.log 2 a + 1 ≤ 53 + quantumExponent a := by
    unfold quantumExponent
    omega
  rw [div_lt_iff₀ (zpow_pos two_pos _)]
  calc a < 2 ^ (Int.log 2 a + 1) := hlog
    _ ≤ 2 ^ (53 + quantumExponent a) := zpow_le_zpow_right₀ one_le_two hle
    _ = 2 ^ 53 * 2 ^ quantumExponent a := by
      rw [zpow_add₀ two_ne_zero]
      norm_cast

theorem le_div_quantumExponent (ha : 0 < a) (hnormal : quantumExponent a ≠ -1074) :
    2 ^ 52 ≤ a / 2 ^ quantumExponent a := by
  have hlog : (2 : ℚ) ^ Int.log 2 a ≤ a := by
    exact_mod_cast Int.zpow_log_le_self (by norm_num : 1 < 2) ha
  have heq : quantumExponent a = Int.log 2 a - 52 := by
    unfold quantumExponent at hnormal ⊢
    omega
  rw [le_div_iff₀ (zpow_pos two_pos _)]
  calc 2 ^ 52 * 2 ^ quantumExponent a = (2 : ℚ) ^ (52 + quantumExponent a) := by
        rw [zpow_add₀ two_ne_zero]
        norm_cast
    _ = 2 ^ Int.log 2 a := by rw [heq, add_sub_cancel]
    _ ≤ a := hlog

end Quantum

/-- The datum of sign `neg` nearest the positive `a`. A significand rounded up to `2 ^ 53` carries
into the exponent; zero underflows, an exponent past `971` overflows. -/
def roundMagnitude (neg : Bool) (a : ℚ) : Binary64 :=
  if ha : 0 < a then
    if hm : roundHalfEven (a / 2 ^ quantumExponent a) = 0 then zero neg
    else if hcarry : roundHalfEven (a / 2 ^ quantumExponent a) = 2 ^ 53 then
      if he : quantumExponent a + 1 ≤ 971 then
        finite neg ⟨2 ^ 52, quantumExponent a + 1, by norm_num, by norm_num,
          by unfold quantumExponent; omega, he, .inr le_rfl⟩
      else inf neg
    else if he : quantumExponent a ≤ 971 then
      finite neg ⟨roundHalfEven (a / 2 ^ quantumExponent a), quantumExponent a,
        Nat.pos_of_ne_zero hm,
        lt_of_le_of_ne (roundHalfEven_le_of_lt (div_nonneg ha.le (zpow_pos two_pos _).le)
          (by exact_mod_cast div_quantumExponent_lt a)) hcarry,
        le_max_right _ _, he,
        (em (quantumExponent a = -1074)).imp_right fun hnormal =>
          le_roundHalfEven_of_le (by exact_mod_cast le_div_quantumExponent ha hnormal)⟩
    else inf neg
  else zero neg

/-- The value `a` rounds to where the exponent range has no top: the rounded significand at the
quantum exponent. -/
def unboundedRound (a : ℚ) : ℚ := roundHalfEven (a / 2 ^ quantumExponent a) * 2 ^ quantumExponent a

/-- The datum nearest the rational `q`. An exact zero is `+0`, as the sum of two numbers of
opposite signs is when rounding to nearest. -/
def round (q : ℚ) : Binary64 :=
  if q = 0 then zero false else roundMagnitude (decide (q < 0)) |q|

def ofNat (n : Nat) : Binary64 := round n

def one : Binary64 := finite false Magnitude.one

/-! ## Operations -/

def signed (neg : Bool) (v : ℚ) : ℚ := if neg then -v else v

def neg : Binary64 → Binary64
  | nan => nan
  | inf s => inf !s
  | zero s => zero !s
  | finite s x => finite (!s) x

/-- Addition: a NaN or the sum of opposite infinities is a NaN, an infinity wins over a number,
and a zero leaves the other operand exact. -/
def add : Binary64 → Binary64 → Binary64
  | nan, _ => nan
  | _, nan => nan
  | inf s, inf t => if s = t then inf s else nan
  | inf s, _ => inf s
  | _, inf t => inf t
  | zero s, zero t => zero (s && t)
  | zero _, y => y
  | x, zero _ => x
  | finite s x, finite t y => round (signed s x.value + signed t y.value)

def sub (x y : Binary64) : Binary64 := add x (neg y)

/-- Division: `0 / 0` and `∞ / ∞` are NaNs, a number over zero an infinity, and the sign of the
result is the exclusive or of the operands' signs. -/
def div : Binary64 → Binary64 → Binary64
  | nan, _ => nan
  | _, nan => nan
  | inf _, inf _ => nan
  | inf s, zero t => inf (s ^^ t)
  | inf s, finite t _ => inf (s ^^ t)
  | zero _, zero _ => nan
  | zero s, inf t => zero (s ^^ t)
  | zero s, finite t _ => zero (s ^^ t)
  | finite s _, inf t => zero (s ^^ t)
  | finite s _, zero t => inf (s ^^ t)
  | finite s x, finite t y => roundMagnitude (s ^^ t) (x.value / y.value)

/-- `x > 0.0`: a positive number or `+∞`. A NaN is unordered, so never greater. -/
def gtZero : Binary64 → Bool
  | inf false => true
  | finite false _ => true
  | _ => false

def exactValue : Binary64 → Option ℚ
  | zero _ => some 0
  | finite s x => some (signed s x.value)
  | _ => none

end Binary64
