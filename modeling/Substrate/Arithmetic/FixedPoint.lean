import Substrate.Arithmetic.PerThing

/-! # Fixed-point numbers: trunc, frac, ceil, floor and round

`FixedPointNumber` of `src/primitives/arithmetic/src/fixed_point.rs` for the four types of
`implement_fixed!`: an inner `Int` within its type's bounds, read as a multiple of `1 / DIV`.
Against the specs, `ceil` is exact, `floor` is one too low at a negative integer, and `round` gives
zero on all of `(-1, 0)`.
-/

namespace Substrate.Arithmetic

/-! ## Multiples of a positive integer -/

section Spec

variable {d : Int}

/-- The greatest multiple of `d` not above `a`. -/
def floorSpec (d a : Int) : Int := a / d * d

/-- The least multiple of `d` not below `a`. -/
def ceilSpec (d a : Int) : Int := -((-a) / d * d)

/-- The multiple of `d` nearest to `a`, away from zero when `a` is half-way. -/
def roundSpec (d a : Int) : Int :=
  if 0 ≤ a then (if 2 * (a % d) < d then a / d * d else a / d * d + d)
  else -(if 2 * ((-a) % d) < d then (-a) / d * d else (-a) / d * d + d)

theorem ediv_eq_of_le_of_lt (hd : 0 < d) {a q : Int} (hle : q * d ≤ a) (hlt : a < q * d + d) :
    a / d = q := by
  have hunique := (Int.ediv_emod_unique (a := a) (q := q) (r := a - d * q) hd).mpr
  exact (hunique ⟨by ring, by linarith [mul_comm d q], by linarith [mul_comm d q]⟩).1

theorem floorSpec_le (hd : 0 < d) (a : Int) : floorSpec d a ≤ a :=
  Int.ediv_mul_le a (ne_of_gt hd)

theorem lt_floorSpec_add (hd : 0 < d) (a : Int) : a < floorSpec d a + d := by
  have hmod := Int.emod_lt_of_pos a hd
  have hdecomp := Int.emod_add_mul_ediv a d
  rw [floorSpec]
  linarith [mul_comm d (a / d)]

theorem le_floorSpec (hd : 0 < d) {a q : Int} (hle : q * d ≤ a) : q * d ≤ floorSpec d a := by
  have hq : q ≤ a / d := by
    by_contra hlt
    have hsucc : a / d + 1 ≤ q := by omega
    have hnext := Int.mul_le_mul_of_nonneg_right hsucc hd.le
    linarith [lt_floorSpec_add hd a, show floorSpec d a = a / d * d from rfl]
  exact Int.mul_le_mul_of_nonneg_right hq hd.le

theorem le_ceilSpec (hd : 0 < d) (a : Int) : a ≤ ceilSpec d a := by
  have h := floorSpec_le hd (-a)
  rw [floorSpec] at h
  rw [ceilSpec]
  linarith

theorem ceilSpec_lt_add (hd : 0 < d) (a : Int) : ceilSpec d a < a + d := by
  have h := lt_floorSpec_add hd (-a)
  rw [floorSpec] at h
  rw [ceilSpec]
  linarith

theorem ceilSpec_le (hd : 0 < d) {a q : Int} (hle : a ≤ q * d) : ceilSpec d a ≤ q * d := by
  have h := le_floorSpec hd (q := -q) (a := -a) (by linarith [neg_mul q d])
  rw [floorSpec] at h
  rw [ceilSpec]
  linarith [neg_mul q d]

theorem dvd_floorSpec (a : Int) : d ∣ floorSpec d a := ⟨a / d, by rw [floorSpec, mul_comm]⟩

theorem dvd_ceilSpec (a : Int) : d ∣ ceilSpec d a := ⟨-((-a) / d), by rw [ceilSpec]; ring⟩

theorem eq_of_dvd_of_window (hd : 0 < d) {low u v : Int} (hu : d ∣ u) (hv : d ∣ v)
    (hu₁ : low ≤ u) (hu₂ : u < low + d) (hv₁ : low ≤ v) (hv₂ : v < low + d) : u = v := by
  obtain ⟨q, rfl⟩ := hu
  obtain ⟨r, rfl⟩ := hv
  rcases lt_trichotomy q r with hlt | rfl | hgt
  · have hstep := Int.mul_le_mul_of_nonneg_left (show q + 1 ≤ r by omega) hd.le
    linarith
  · rfl
  · have hstep := Int.mul_le_mul_of_nonneg_left (show r + 1 ≤ q by omega) hd.le
    linarith

theorem floorSpec_eq_self_iff (a : Int) : floorSpec d a = a ↔ a % d = 0 := by
  have hdecomp := Int.emod_add_mul_ediv a d
  rw [floorSpec]
  constructor <;> intro h <;> linarith [mul_comm d (a / d)]

theorem ceilSpec_eq_self (hd : 0 < d) {a : Int} (h : a % d = 0) : ceilSpec d a = a := by
  have hself : a / d * d = a := (floorSpec_eq_self_iff a).mpr h
  have hle := ceilSpec_le hd (le_of_eq hself.symm)
  linarith [le_ceilSpec hd a]

theorem floorSpec_add_self (hd : 0 < d) (a : Int) : floorSpec d (a + d) = floorSpec d a + d := by
  have hle := floorSpec_le hd a
  have hlt := lt_floorSpec_add hd a
  unfold floorSpec at hle hlt ⊢
  rw [ediv_eq_of_le_of_lt hd (q := a / d + 1) (by linarith) (by linarith)]
  ring

theorem tdiv_mul_of_nonneg {a : Int} (ha : 0 ≤ a) : a.tdiv d * d = floorSpec d a := by
  rw [Int.tdiv_eq_ediv_of_nonneg ha, floorSpec]

theorem tdiv_mul_of_nonpos {a : Int} (ha : a ≤ 0) : a.tdiv d * d = ceilSpec d a := by
  have h : a.tdiv d = -((-a).tdiv d) := by rw [Int.neg_tdiv, neg_neg]
  rw [h, Int.tdiv_eq_ediv_of_nonneg (neg_nonneg.mpr ha), ceilSpec, neg_mul]

theorem tdiv_mul_mem (hd : 0 < d) (a : Int) : min a 0 ≤ a.tdiv d * d ∧ a.tdiv d * d ≤ max a 0 := by
  rcases le_total 0 a with ha | ha
  · have hq : 0 ≤ a / d := Int.ediv_nonneg ha hd.le
    rw [tdiv_mul_of_nonneg ha, min_eq_right ha, max_eq_left ha]
    exact ⟨mul_nonneg hq hd.le, floorSpec_le hd a⟩
  · have hq : 0 ≤ (-a) / d := Int.ediv_nonneg (neg_nonneg.mpr ha) hd.le
    rw [tdiv_mul_of_nonpos ha, min_eq_left ha, max_eq_right ha]
    exact ⟨le_ceilSpec hd a, by rw [ceilSpec]; linarith [mul_nonneg hq hd.le]⟩

theorem two_mul_abs_sub_roundSpec_le (hd : 0 < d) (a : Int) :
    2 * |a - roundSpec d a| ≤ d := by
  -- on either side of zero, `a` lies between two consecutive multiples
  have hwindow : ∀ b : Int, 0 ≤ b → 2 * |b - (if 2 * (b % d) < d then b / d * d else b / d * d + d)|
      ≤ d := fun b _ => by
    have hdecomp := Int.emod_add_mul_ediv b d
    have hmod := Int.emod_nonneg b (ne_of_gt hd)
    have hlt := Int.emod_lt_of_pos b hd
    split
    · rw [abs_of_nonneg (by linarith [mul_comm d (b / d)])]
      linarith [mul_comm d (b / d)]
    · rw [abs_of_nonpos (by linarith [mul_comm d (b / d)])]
      linarith [mul_comm d (b / d)]
  rw [roundSpec]
  split
  · exact hwindow a ‹_›
  · have h := hwindow (-a) (by linarith)
    rw [show a - -(if 2 * (-a % d) < d then -a / d * d else -a / d * d + d) =
      -(-a - (if 2 * (-a % d) < d then -a / d * d else -a / d * d + d)) by ring, abs_neg]
    exact h

end Spec

/-! ## Fixed-point types -/

def innerMin (bits : Nat) (signed : Bool) : Int := if signed then -2 ^ (bits - 1) else 0

def innerMax (bits : Nat) (signed : Bool) : Int :=
  if signed then 2 ^ (bits - 1) - 1 else 2 ^ bits - 1

/-- A fixed-point type: its inner integer type, of at most 128 bits, and `DIV`, a positive value of
it. -/
structure FixedType where
  bits : Nat
  signed : Bool
  div : Nat
  bits_pos : 0 < bits
  bits_le : bits ≤ 128
  div_pos : 0 < div
  div_le_max : (div : Int) ≤ innerMax bits signed

namespace FixedType

variable (T : FixedType)

def minInner : Int := innerMin T.bits T.signed

def maxInner : Int := innerMax T.bits T.signed

theorem minInner_nonpos : T.minInner ≤ 0 := by
  unfold minInner innerMin
  split
  · exact neg_nonpos.mpr (pow_nonneg (by norm_num) _)
  · exact le_rfl

theorem div_le_maxInner : (T.div : Int) ≤ T.maxInner := T.div_le_max

theorem div_pos' : (0 : Int) < T.div := by exact_mod_cast T.div_pos

theorem maxInner_pos : 0 < T.maxInner := lt_of_lt_of_le T.div_pos' T.div_le_maxInner

theorem maxInner_lt : T.maxInner < 2 ^ 128 := by
  have hbits := T.bits_le
  have hle : (2 : Int) ^ T.bits ≤ 2 ^ 128 := pow_le_pow_right₀ (by norm_num) hbits
  have hle' : (2 : Int) ^ (T.bits - 1) ≤ 2 ^ T.bits := pow_le_pow_right₀ (by norm_num) (Nat.sub_le _ _)
  unfold maxInner innerMax
  split <;> linarith

theorem minInner_eq_of_neg (h : T.minInner < 0) : T.minInner = -T.maxInner - 1 := by
  unfold minInner maxInner innerMin innerMax at *
  split at h
  · next hsigned => rw [if_pos hsigned, if_pos hsigned]; ring
  · exact absurd h (lt_irrefl 0)

end FixedType

def fixedI64 : FixedType := ⟨64, true, 1000000000, by decide, by decide, by decide, by decide⟩

def fixedU64 : FixedType := ⟨64, false, 1000000000, by decide, by decide, by decide, by decide⟩

def fixedI128 : FixedType :=
  ⟨128, true, 1000000000000000000, by decide, by decide, by decide, by decide⟩

def fixedU128 : FixedType :=
  ⟨128, false, 1000000000000000000, by decide, by decide, by decide, by decide⟩

/-- A value of a fixed-point type: its inner integer, within the bounds of the inner type. -/
structure Fixed (T : FixedType) where
  inner : Int
  min_le : T.minInner ≤ inner
  le_max : inner ≤ T.maxInner

/-! ## The 128-bit helpers -/

/-- `multiply_by_rational_with_rounding`: `a * b / c` rounded, none when `c` is zero or the result
leaves `u128`. -/
def multiplyByRationalWithRounding (a b c : Nat) (r : Rounding) : Option Nat :=
  if c = 0 then none
  else
    let result := a * b / c
    let remainder := a * b % c
    if 2 ^ 128 ≤ result then none
    else
      let roundUp := match r with
        | .up => decide (0 < remainder)
        | .nearestPrefUp => decide (c / 2 + c % 2 ≤ remainder)
        | .nearestPrefDown => decide (c / 2 < remainder)
        | .down => false
      if roundUp then (if result + 1 < 2 ^ 128 then some (result + 1) else none) else some result

namespace Fixed

variable {T : FixedType}

def minValue : Fixed T := ⟨T.minInner, le_rfl, by
  have := T.minInner_nonpos
  have := T.div_le_maxInner
  omega⟩

def maxValue : Fixed T := ⟨T.maxInner, by
  have := T.minInner_nonpos
  have := T.div_le_maxInner
  omega, le_rfl⟩

def saturate (z : Int) : Fixed T :=
  ⟨max T.minInner (min z T.maxInner), le_max_left _ _, by
    have := T.minInner_nonpos
    have := T.div_le_maxInner
    omega⟩

def zero : Fixed T := ⟨0, T.minInner_nonpos, by have := T.div_le_maxInner; omega⟩

def one : Fixed T := ⟨T.div, by have := T.minInner_nonpos; omega, T.div_le_maxInner⟩

def saturatingAdd (x y : Fixed T) : Fixed T := saturate (x.inner + y.inner)

def saturatingSub (x y : Fixed T) : Fixed T := saturate (x.inner - y.inner)

def checkedNeg (x : Fixed T) : Option (Fixed T) :=
  if h : T.minInner ≤ -x.inner ∧ -x.inner ≤ T.maxInner then some ⟨-x.inner, h.1, h.2⟩ else none

def isPositive (x : Fixed T) : Bool := decide (0 < x.inner)

def isNegative (x : Fixed T) : Bool := decide (x.inner < 0)

/-- `saturating_abs`: the negation, or the greatest value when the negation overflows. -/
def saturatingAbs (x : Fixed T) : Fixed T :=
  if 0 ≤ x.inner then x else (checkedNeg x).getD maxValue

/-- `from_i129`: a magnitude and a sign as a value of the inner type, the least value included. -/
def fromI129 (value : Nat) (negative : Bool) : Option (Fixed T) :=
  if negative ∧ T.signed ∧ (value : Int) = T.maxInner + 1 then some minValue
  else if h : (value : Int) ≤ T.maxInner then
    if negative then checkedNeg ⟨value, by have := T.minInner_nonpos; omega, h⟩
    else some ⟨value, by have := T.minInner_nonpos; omega, h⟩
  else none

/-- `to_bound`: the least value when the signs of the two factors differ, the greatest otherwise. -/
def toBound (n m : Int) : Fixed T := if decide (n < 0) != decide (m < 0) then minValue else maxValue

def saturatingFromInteger (int : Int) : Fixed T :=
  (fromI129 (min (int.natAbs * T.div) (2 ^ 128 - 1)) (decide (int < 0))).getD (toBound int 0)

/-- `CheckedMul`: the product of the magnitudes over `DIV`, rounded toward zero, with the sign of
the product. -/
def checkedMul (x y : Fixed T) : Option (Fixed T) :=
  let negative := decide (x.inner < 0) != decide (y.inner < 0)
  (multiplyByRationalWithRounding x.inner.natAbs y.inner.natAbs T.div .down).bind fun value =>
    fromI129 value negative

def saturatingMul (x y : Fixed T) : Fixed T := (checkedMul x y).getD (toBound x.inner y.inner)

def trunc (x : Fixed T) : Fixed T :=
  ⟨x.inner.tdiv T.div * T.div,
    (le_min x.min_le T.minInner_nonpos).trans (tdiv_mul_mem T.div_pos' x.inner).1,
    (tdiv_mul_mem T.div_pos' x.inner).2.trans (max_le x.le_max T.maxInner_pos.le)⟩

/-- `frac`: the value less its integer part, made non-negative unless the integer part is zero. -/
def frac (x : Fixed T) : Fixed T :=
  let integer := trunc x
  let fractional := saturatingSub x integer
  if integer.inner = 0 then fractional else saturatingAbs fractional

def ceil (x : Fixed T) : Fixed T :=
  if isNegative x then trunc x
  else if (frac x).inner = 0 then x
  else trunc (saturatingAdd x one)

def floor (x : Fixed T) : Fixed T :=
  if isNegative x then trunc (saturatingSub x one) else trunc x

/-- `round`: the fraction times ten against five, then away from zero or toward it. -/
def round (x : Fixed T) : Fixed T :=
  let n := saturatingMul (frac x) (saturatingFromInteger 10)
  if n.inner < (saturatingFromInteger 5 : Fixed T).inner then trunc x
  else if isPositive x then trunc (saturatingAdd x one)
  else trunc (saturatingSub x one)

/-! ## What each operation computes -/

section Lemmas

variable {x : Fixed T}

@[simp] theorem trunc_inner (x : Fixed T) : (trunc x).inner = x.inner.tdiv T.div * T.div := rfl

@[simp] theorem one_inner : (one : Fixed T).inner = T.div := rfl

theorem saturate_inner {z : Int} (hmin : T.minInner ≤ z) (hmax : z ≤ T.maxInner) :
    (saturate z : Fixed T).inner = z := by
  show max T.minInner (min z T.maxInner) = z
  rw [min_eq_left hmax, max_eq_right hmin]

theorem saturatingAdd_inner {y : Fixed T} (hmax : x.inner + y.inner ≤ T.maxInner)
    (hmin : T.minInner ≤ x.inner + y.inner) : (saturatingAdd x y).inner = x.inner + y.inner :=
  saturate_inner hmin hmax

theorem saturatingSub_inner {y : Fixed T} (hmin : T.minInner ≤ x.inner - y.inner)
    (hmax : x.inner - y.inner ≤ T.maxInner) : (saturatingSub x y).inner = x.inner - y.inner :=
  saturate_inner hmin hmax

theorem saturatingAbs_of_nonneg (h : 0 ≤ x.inner) : saturatingAbs x = x := if_pos h

theorem saturatingAbs_inner_of_neg (h : x.inner < 0) (hmax : -x.inner ≤ T.maxInner) :
    (saturatingAbs x).inner = -x.inner := by
  have hmin : T.minInner ≤ -x.inner := by linarith [T.minInner_nonpos]
  rw [saturatingAbs, if_neg (not_le.mpr h), checkedNeg, dif_pos ⟨hmin, hmax⟩, Option.getD_some]

theorem trunc_inner_of_nonneg (h : 0 ≤ x.inner) : (trunc x).inner = floorSpec T.div x.inner :=
  tdiv_mul_of_nonneg h

theorem trunc_inner_of_nonpos (h : x.inner ≤ 0) : (trunc x).inner = ceilSpec T.div x.inner :=
  tdiv_mul_of_nonpos h

theorem frac_inner_of_nonneg (h : 0 ≤ x.inner) : (frac x).inner = x.inner % T.div := by
  have hd := T.div_pos'
  have hmod := Int.emod_nonneg x.inner (ne_of_gt hd)
  have htrunc := trunc_inner_of_nonneg h
  have hbounds := tdiv_mul_mem hd x.inner
  rw [min_eq_right h, max_eq_left h] at hbounds
  -- the value less its integer part is its remainder, which the inner type holds
  have hsub : (saturatingSub x (trunc x)).inner = x.inner % T.div := by
    have hrem : x.inner - floorSpec T.div x.inner = x.inner % T.div := by
      rw [Int.emod_def, floorSpec, mul_comm]
    rw [saturatingSub_inner (by linarith [T.minInner_nonpos, trunc_inner x])
      (by linarith [x.le_max, trunc_inner x]), htrunc, hrem]
  rw [frac]
  split
  · exact hsub
  · rw [saturatingAbs_of_nonneg (hsub ▸ hmod)]
    exact hsub

/-- The fraction of a negative value: the value itself when its integer part is zero, else the
distance up to its integer part. -/
theorem frac_inner_of_neg (h : x.inner < 0) :
    (frac x).inner = if -(T.div : Int) < x.inner then x.inner else (-x.inner) % T.div := by
  have hd := T.div_pos'
  have hmod := Int.emod_nonneg (-x.inner) (ne_of_gt hd)
  have hmodlt := Int.emod_lt_of_pos (-x.inner) hd
  have htrunc := trunc_inner_of_nonpos h.le
  have hbounds := tdiv_mul_mem hd x.inner
  rw [min_eq_left h.le, max_eq_right h.le] at hbounds
  have hrem : x.inner - ceilSpec T.div x.inner = -((-x.inner) % T.div) := by
    rw [Int.emod_def, ceilSpec, mul_comm]
    ring
  have hsub : (saturatingSub x (trunc x)).inner = -((-x.inner) % T.div) := by
    rw [saturatingSub_inner (by linarith [x.min_le, trunc_inner x])
      (by linarith [T.maxInner_pos, trunc_inner x]), htrunc, hrem]
  rw [frac]
  split
  · next hzero =>
    -- a zero integer part leaves the value whole, which is within one of zero
    have hsmall : -(T.div : Int) < x.inner := by
      rw [htrunc] at hzero
      have hle := ceilSpec_lt_add hd x.inner
      linarith
    rw [if_pos hsmall, hsub, ← hrem, ← htrunc, hzero, sub_zero]
  · next hzero =>
    have hbig : ¬-(T.div : Int) < x.inner := fun hsmall => hzero (by
      rw [htrunc, ceilSpec, Int.ediv_eq_zero_of_lt (by linarith) (by linarith), zero_mul, neg_zero])
    rw [if_neg hbig]
    rcases eq_or_lt_of_le hmod with hmul | hpos
    · rw [saturatingAbs_of_nonneg (by rw [hsub, ← hmul, neg_zero]), hsub, ← hmul, neg_zero]
    · have hmax : -(saturatingSub x (trunc x)).inner ≤ T.maxInner := by
        rw [hsub, neg_neg]
        linarith [T.div_le_maxInner]
      rw [saturatingAbs_inner_of_neg (by rw [hsub]; linarith) hmax, hsub, neg_neg]

/-- `ceil` is the least integer not below the value, when one more does not saturate. -/
theorem ceil_inner (hadd : x.inner + T.div ≤ T.maxInner) :
    (ceil x).inner = ceilSpec T.div x.inner := by
  have hd := T.div_pos'
  rw [ceil]
  split
  · next hneg => exact trunc_inner_of_nonpos (of_decide_eq_true hneg).le
  · next hneg =>
    have hnonneg : 0 ≤ x.inner := not_lt.mp fun hlt => hneg (decide_eq_true hlt)
    rw [frac_inner_of_nonneg hnonneg]
    split
    · next hmul => exact (ceilSpec_eq_self hd hmul).symm
    · next hmul =>
      have hsum : (saturatingAdd x one).inner = x.inner + T.div := by
        rw [saturatingAdd_inner (by rw [one_inner]; exact hadd)
          (by rw [one_inner]; linarith [T.minInner_nonpos]), one_inner]
      have hbelow : floorSpec T.div x.inner < x.inner := lt_of_le_of_ne (floorSpec_le hd _)
        fun heq => hmul ((floorSpec_eq_self_iff _).mp heq)
      rw [trunc_inner_of_nonneg (by linarith), hsum, floorSpec_add_self hd]
      -- the multiple below `x + 1` and the multiple above `x` both lie in `[x, x + 1)`
      exact eq_of_dvd_of_window hd (dvd_add (dvd_floorSpec _) dvd_rfl) (dvd_ceilSpec _)
        (lt_floorSpec_add hd x.inner).le (by linarith) (le_ceilSpec hd x.inner)
        (ceilSpec_lt_add hd x.inner)

/-- `floor` is the greatest integer not above the value, except that it moves a negative integer
down by one (when that does not saturate). -/
theorem floor_inner (hsub : T.minInner ≤ x.inner - T.div) :
    (floor x).inner = if x.inner < 0 ∧ x.inner % T.div = 0 then x.inner - T.div
      else floorSpec T.div x.inner := by
  have hd := T.div_pos'
  rw [floor]
  split
  · next hneg =>
    have hlt : x.inner < 0 := of_decide_eq_true hneg
    have hdiff : (saturatingSub x one).inner = x.inner - T.div := by
      rw [saturatingSub_inner (by rw [one_inner]; exact hsub)
        (by rw [one_inner]; linarith [T.maxInner_pos]), one_inner]
    -- the negative value moved down by one truncates up to the multiple in `[x - 1, x)`
    rw [trunc_inner_of_nonpos (by rw [hdiff]; linarith), hdiff]
    split
    · next hmul =>
      have hself : (x.inner - T.div) % T.div = 0 := by
        rw [Int.sub_emod, hmul.2, Int.emod_self, sub_zero, Int.zero_emod]
      exact ceilSpec_eq_self hd hself
    · next hmul =>
      have hnotmul : x.inner % T.div ≠ 0 := fun h => hmul ⟨hlt, h⟩
      have hbelow : floorSpec T.div x.inner < x.inner := lt_of_le_of_ne (floorSpec_le hd _)
        fun heq => hnotmul ((floorSpec_eq_self_iff _).mp heq)
      exact eq_of_dvd_of_window hd (dvd_ceilSpec _) (dvd_floorSpec _)
        (le_ceilSpec hd _) (by linarith [ceilSpec_lt_add hd (x.inner - T.div)])
        (by linarith [lt_floorSpec_add hd x.inner]) (by linarith)
  · next hneg =>
    have hnonneg : 0 ≤ x.inner := not_lt.mp fun hlt => hneg (decide_eq_true hlt)
    rw [if_neg fun h => absurd h.1 (not_lt.mpr hnonneg)]
    exact trunc_inner_of_nonneg hnonneg

theorem saturatingFromInteger_inner (n : Nat) (h : (n : Int) * T.div ≤ T.maxInner) :
    (saturatingFromInteger (n : Int) : Fixed T).inner = n * T.div := by
  have hlt := T.maxInner_lt
  have hvalue : min (((n : Int).natAbs * T.div : Nat)) (2 ^ 128 - 1) = n * T.div := by
    rw [Int.natAbs_natCast]
    refine min_eq_left ?_
    have : ((n * T.div : Nat) : Int) < 2 ^ 128 := by push_cast; linarith
    omega
  have hfits : ((n * T.div : Nat) : Int) ≤ T.maxInner := by push_cast; exact h
  rw [saturatingFromInteger, hvalue, decide_eq_false (not_lt.mpr (Int.natCast_nonneg n)), fromI129,
    if_neg (by simp), dif_pos hfits, if_neg Bool.false_ne_true, Option.getD_some]
  push_cast
  rfl

theorem multiplyByRationalWithRounding_mul_div {a k c : Nat} (hc : 0 < c) (h : a * k < 2 ^ 128) :
    multiplyByRationalWithRounding a (k * c) c .down = some (a * k) := by
  have hdiv : a * (k * c) / c = a * k := by rw [← Nat.mul_assoc, Nat.mul_div_cancel _ hc]
  rw [multiplyByRationalWithRounding, if_neg (Nat.pos_iff_ne_zero.mp hc)]
  dsimp only
  rw [hdiv, if_neg (not_le.mpr h)]
  rfl

/-- A value below one in size, times ten: exact, when ten times `DIV` fits the inner type. -/
theorem saturatingMul_ten {f : Fixed T} (hf : |f.inner| < T.div)
    (hten : 10 * (T.div : Int) ≤ T.maxInner) :
    (saturatingMul f (saturatingFromInteger 10)).inner = 10 * f.inner := by
  have hd := T.div_pos'
  have hten' : ((10 : Nat) : Int) * T.div ≤ T.maxInner := by push_cast; exact hten
  have htenInner := saturatingFromInteger_inner (T := T) 10 hten'
  push_cast at htenInner
  have hlt := T.maxInner_lt
  have habs : ((f.inner.natAbs : Nat) : Int) = |f.inner| := Int.natCast_natAbs f.inner
  -- the product of the magnitudes over `DIV` is ten times the magnitude, which fits
  have hsmall : (f.inner.natAbs * 10 : Nat) < 2 ^ 128 := by
    have : ((f.inner.natAbs * 10 : Nat) : Int) < 2 ^ 128 := by push_cast; linarith
    exact_mod_cast this
  have hmagnitude : ((saturatingFromInteger 10 : Fixed T).inner).natAbs = 10 * T.div := by
    rw [htenInner]
    omega
  have hfits : ((f.inner.natAbs * 10 : Nat) : Int) ≤ T.maxInner := by
    push_cast; linarith
  rw [saturatingMul, checkedMul, hmagnitude, Nat.mul_comm 10 T.div, ← Nat.mul_comm 10,
    multiplyByRationalWithRounding_mul_div T.div_pos hsmall, Option.bind_some]
  simp only [htenInner, show ¬(10 * (T.div : Int) < 0) by linarith, decide_false, Bool.bne_false]
  rcases lt_or_ge f.inner 0 with hneg | hnonneg
  · -- a negative fraction: the type is signed, and the negated magnitude fits
    have hmin := T.minInner_eq_of_neg (lt_of_le_of_lt f.min_le hneg)
    have hnot : ¬(((f.inner.natAbs * 10 : Nat) : Int) = T.maxInner + 1) := by
      push_cast; linarith
    have hnegfits : T.minInner ≤ -((f.inner.natAbs * 10 : Nat) : Int) := by
      push_cast; linarith
    rw [decide_eq_true hneg, fromI129, if_neg (fun h => hnot h.2.2), dif_pos hfits, if_pos rfl,
      checkedNeg, dif_pos ⟨hnegfits, by push_cast; linarith [abs_nonneg f.inner]⟩,
      Option.getD_some]
    push_cast
    rw [abs_of_neg hneg]
    ring
  · rw [decide_eq_false (not_lt.mpr hnonneg), fromI129, if_neg (by simp), dif_pos hfits,
      if_neg Bool.false_ne_true, Option.getD_some]
    push_cast
    rw [abs_of_nonneg hnonneg]
    ring

/-- `round` is the nearest integer, away from zero on a tie, except on `(-1, 0)`, where it is zero;
when ten fits and nothing saturates. -/
theorem round_inner (hsub : T.minInner ≤ x.inner - T.div) (hadd : x.inner + T.div ≤ T.maxInner)
    (hten : 10 * (T.div : Int) ≤ T.maxInner) :
    (round x).inner = if -(T.div : Int) < x.inner ∧ x.inner < 0 then 0
      else roundSpec T.div x.inner := by
  have hd := T.div_pos'
  have hfive := saturatingFromInteger_inner (T := T) 5 (by push_cast; linarith)
  push_cast at hfive
  have hsum : (saturatingAdd x one).inner = x.inner + T.div := by
    rw [saturatingAdd_inner (by rw [one_inner]; exact hadd)
      (by rw [one_inner]; linarith [T.minInner_nonpos, x.min_le]), one_inner]
  have hdiff : (saturatingSub x one).inner = x.inner - T.div := by
    rw [saturatingSub_inner (by rw [one_inner]; exact hsub)
      (by rw [one_inner]; linarith [x.le_max]), one_inner]
  rw [round]
  rcases le_or_gt 0 x.inner with hnonneg | hneg
  · -- a non-negative value: the fraction is the remainder
    have hmod := Int.emod_nonneg x.inner (ne_of_gt hd)
    have hmodlt := Int.emod_lt_of_pos x.inner hd
    have hfrac := frac_inner_of_nonneg hnonneg
    have hn := saturatingMul_ten (f := frac x) (by rw [hfrac, abs_of_nonneg hmod]; exact hmodlt) hten
    rw [hn, hfrac, hfive,
      if_neg (show ¬(-(T.div : Int) < x.inner ∧ x.inner < 0) from fun h => absurd h.2
        (not_lt.mpr hnonneg)), roundSpec, if_pos hnonneg]
    by_cases hlow : 2 * (x.inner % T.div) < T.div
    · rw [if_pos (by omega), if_pos hlow, trunc_inner_of_nonneg hnonneg, floorSpec]
    · have hpos : 0 < x.inner := lt_of_le_of_ne hnonneg fun hzero => hlow (by
        rw [← hzero, Int.zero_emod]; omega)
      rw [if_neg (by omega), if_neg hlow, isPositive, decide_eq_true hpos, if_pos rfl,
        trunc_inner_of_nonneg (by rw [hsum]; linarith), hsum, floorSpec_add_self hd, floorSpec]
  · by_cases hsmall : -(T.div : Int) < x.inner
    · -- on `(-1, 0)` the fraction is the value itself, below one half
      have hfrac : (frac x).inner = x.inner := by rw [frac_inner_of_neg hneg, if_pos hsmall]
      have hn := saturatingMul_ten (f := frac x) (by rw [hfrac, abs_of_neg hneg]; linarith) hten
      rw [hn, hfrac, hfive, if_pos (show 10 * x.inner < 5 * (T.div : Int) by linarith),
        if_pos ⟨hsmall, hneg⟩, trunc_inner_of_nonpos hneg.le, ceilSpec,
        Int.ediv_eq_zero_of_lt (by linarith) (by linarith), zero_mul, neg_zero]
    · -- below `-1` the fraction is the distance up to the integer part
      have hmod := Int.emod_nonneg (-x.inner) (ne_of_gt hd)
      have hmodlt := Int.emod_lt_of_pos (-x.inner) hd
      have hfrac : (frac x).inner = (-x.inner) % T.div := by
        rw [frac_inner_of_neg hneg, if_neg hsmall]
      have hn := saturatingMul_ten (f := frac x) (by rw [hfrac, abs_of_nonneg hmod]; exact hmodlt)
        hten
      rw [hn, hfrac, hfive, if_neg (show ¬(-(T.div : Int) < x.inner ∧ x.inner < 0) from
        fun h => hsmall h.1), roundSpec, if_neg (not_le.mpr hneg)]
      by_cases hlow : 2 * ((-x.inner) % T.div) < T.div
      · rw [if_pos (by omega), if_pos hlow, trunc_inner_of_nonpos hneg.le, ceilSpec]
      · have hstep := floorSpec_add_self hd (-x.inner)
        rw [floorSpec, floorSpec] at hstep
        rw [if_neg (by omega), if_neg hlow, isPositive, decide_eq_false (not_lt.mpr hneg.le),
          if_neg Bool.false_ne_true, trunc_inner_of_nonpos (by rw [hdiff]; linarith), hdiff,
          ceilSpec, show -(x.inner - T.div) = -x.inner + T.div by ring, hstep]

end Lemmas

/-! ## Against the integers around a value -/

/-- `ceil` is the least integer not below a value; `floor` the greatest not above it, except that it
moves a negative integer down: `-2` floors to `-3`. -/
theorem floor_moves_negative_integers_down :
    (∀ (T : FixedType) (x : Fixed T), x.inner + T.div ≤ T.maxInner →
      (T.div : Int) ∣ (ceil x).inner ∧ x.inner ≤ (ceil x).inner ∧
        (ceil x).inner < x.inner + T.div) ∧
    (∀ (T : FixedType) (x : Fixed T), T.minInner ≤ x.inner - T.div →
      ¬(x.inner < 0 ∧ (T.div : Int) ∣ x.inner) →
      (T.div : Int) ∣ (floor x).inner ∧ (floor x).inner ≤ x.inner ∧
        x.inner < (floor x).inner + T.div) ∧
    (∀ (T : FixedType) (x : Fixed T), T.minInner ≤ x.inner - T.div → x.inner < 0 →
      (T.div : Int) ∣ x.inner → (floor x).inner = x.inner - T.div) ∧
    (floor (⟨-2000000000, by decide, by decide⟩ : Fixed fixedI64)).inner = -3000000000 := by
  refine ⟨fun T x hadd => ?_, fun T x hsub hnot => ?_, fun T x hsub hneg hmul => ?_, by decide⟩
  · rw [ceil_inner hadd]
    exact ⟨dvd_ceilSpec _, le_ceilSpec T.div_pos' _, ceilSpec_lt_add T.div_pos' _⟩
  · rw [floor_inner hsub, if_neg fun h => hnot ⟨h.1, Int.dvd_of_emod_eq_zero h.2⟩]
    exact ⟨dvd_floorSpec _, floorSpec_le T.div_pos' _, lt_floorSpec_add T.div_pos' _⟩
  · rw [floor_inner hsub, if_pos ⟨hneg, Int.emod_eq_zero_of_dvd hmul⟩]

/-- `round` is the nearest integer, ties away from zero, except on `(-1, 0)`, where it is zero:
`-0.7` rounds to `0`. -/
theorem round_is_zero_between_minus_one_and_zero :
    (∀ T ∈ [fixedI64, fixedU64, fixedI128, fixedU128], ∀ x : Fixed T,
      T.minInner ≤ x.inner - T.div → x.inner + T.div ≤ T.maxInner →
      ¬(-(T.div : Int) < x.inner ∧ x.inner < 0) →
      (round x).inner = roundSpec T.div x.inner ∧ 2 * |x.inner - (round x).inner| ≤ T.div) ∧
    (∀ T ∈ [fixedI64, fixedU64, fixedI128, fixedU128], ∀ x : Fixed T,
      T.minInner ≤ x.inner - T.div → x.inner + T.div ≤ T.maxInner →
      -(T.div : Int) < x.inner → x.inner < 0 → (round x).inner = 0) ∧
    (round (⟨-700000000, by decide, by decide⟩ : Fixed fixedI64)).inner = 0 ∧
      roundSpec fixedI64.div (-700000000) = -1000000000 := by
  -- ten units fit in each of the four inner types
  have hten : ∀ T ∈ [fixedI64, fixedU64, fixedI128, fixedU128], 10 * (T.div : Int) ≤ T.maxInner := by
    intro T hT
    simp only [List.mem_cons, List.not_mem_nil, or_false] at hT
    rcases hT with rfl | rfl | rfl | rfl <;> decide
  refine ⟨fun T hT x hsub hadd hnot => ?_, fun T hT x hsub hadd hlow hneg => ?_, by decide, by decide⟩
  · rw [round_inner hsub hadd (hten T hT), if_neg hnot]
    exact ⟨rfl, two_mul_abs_sub_roundSpec_le T.div_pos' _⟩
  · rw [round_inner hsub hadd (hten T hT), if_pos ⟨hlow, hneg⟩]


end Fixed

end Substrate.Arithmetic
