import Substrate.Lib.Unsigned
import Mathlib

/-! # The exchange rate between stake and pool points

`balance_to_point`, `point_to_balance`, and `issue` and `dissolve` of an `UnbondPool`, of
`src/frame/nomination-pools/src/lib.rs`. Both multiply in `U256`, saturating; `T::U256ToBalance`
narrows to a `u128` as the runtime chooses.
-/

namespace Substrate.NominationPools

/-- `T::U256ToBalance`, `none` where it panics: it returns every balance unchanged, and never more
than `Balance::MAX`. -/
structure U256ToBalance where
  convert : Nat → Option Nat
  convert_of_le : ∀ n ≤ Unsigned.maxValue 128, convert n = some n
  le_of_convert : ∀ n v, convert n = some v → v ≤ Unsigned.maxValue 128

def pointsToBalanceInitRatio : Nat := 1

variable (conv : U256ToBalance)

def balanceToPoint (currentBalance currentPoints newFunds : Nat) : Option Nat :=
  if currentPoints = 0 then some (Unsigned.saturatingMul 128 newFunds pointsToBalanceInitRatio)
  -- the pool was totally slashed
  else if currentBalance = 0 then some (Unsigned.saturatingMul 128 newFunds currentPoints)
  else conv.convert (Unsigned.saturatingMul 256 currentPoints newFunds / currentBalance)

/-- `Pallet::point_to_balance`: the balance of `points` in a pool of `current_balance` and
`current_points`. -/
def pointToBalance (currentBalance currentPoints points : Nat) : Option Nat :=
  if currentBalance = 0 ∨ currentPoints = 0 ∨ points = 0 then some 0
  else (conv.convert (Unsigned.saturatingMul 256 currentBalance points)).map (· / currentPoints)

structure UnbondPool where
  points : Nat
  balance : Nat
  deriving DecidableEq, Repr

namespace UnbondPool

def issue (pool : UnbondPool) (newFunds : Nat) : Option (Nat × UnbondPool) := do
  let newPoints ← balanceToPoint conv pool.balance pool.points newFunds
  return (newPoints, ⟨Unsigned.saturatingAdd 128 pool.points newPoints,
    Unsigned.saturatingAdd 128 pool.balance newFunds⟩)

/-- `UnbondPool::dissolve`: the balance removed for `points`, and the pool without both. -/
def dissolve (pool : UnbondPool) (points : Nat) : Option (Nat × UnbondPool) := do
  let balanceToUnbond ← pointToBalance conv pool.balance pool.points points
  return (balanceToUnbond, ⟨pool.points - points, pool.balance - balanceToUnbond⟩)

end UnbondPool

/-! ## The two conversions -/

section Conversions

variable {b p x : Nat}

theorem saturatingMul_balances (hb : b ≤ Unsigned.maxValue 128) (hx : x ≤ Unsigned.maxValue 128) :
    Unsigned.saturatingMul 256 b x = b * x :=
  Unsigned.saturatingMul_of_le (Unsigned.mul_le_maxValue_add hb hx)

/-- Points are the exact quotient `⌊p · f / b⌋` wherever it is a balance. -/
theorem balanceToPoint_eq_div {f : Nat} (hb : 0 < b) (hp : 0 < p) (hpmax : p ≤ Unsigned.maxValue 128)
    (hf : f ≤ Unsigned.maxValue 128) (hfits : p * f / b ≤ Unsigned.maxValue 128) :
    balanceToPoint conv b p f = some (p * f / b) := by
  rw [balanceToPoint, if_neg (Nat.pos_iff_ne_zero.mp hp), if_neg (Nat.pos_iff_ne_zero.mp hb),
    saturatingMul_balances hpmax hf]
  exact conv.convert_of_le _ hfits

/-- The balance of points is the exact quotient `⌊b · x / p⌋` wherever the product `b · x` is a
balance. -/
theorem pointToBalance_eq_div (hp : 0 < p) (hbmax : b ≤ Unsigned.maxValue 128)
    (hxmax : x ≤ Unsigned.maxValue 128) (hfits : b * x ≤ Unsigned.maxValue 128) :
    pointToBalance conv b p x = some (b * x / p) := by
  rw [pointToBalance]
  split_ifs with hzero
  · -- a zero balance or zero points give zero, as the quotient does
    rcases hzero with hb | hp' | hx
    · simp [hb]
    · omega
    · simp [hx]
  · rw [saturatingMul_balances hbmax hxmax, conv.convert_of_le _ hfits, Option.map_some]

/-- Past `Balance::MAX` the conversion returns some balance, so divided by `p` it falls short of `⌊b
· x / p⌋` once the product exceeds `Balance::MAX` by `p`. -/
theorem pointToBalance_ne_div (hb : 0 < b) (hp : 0 < p) (hx : 0 < x)
    (hbmax : b ≤ Unsigned.maxValue 128) (hxmax : x ≤ Unsigned.maxValue 128)
    (hpast : Unsigned.maxValue 128 + p ≤ b * x) :
    pointToBalance conv b p x ≠ some (b * x / p) := by
  rw [pointToBalance, if_neg (by omega), saturatingMul_balances hbmax hxmax]
  intro hconv
  obtain ⟨v, hv, hdiv⟩ := Option.map_eq_some_iff.mp hconv
  have hvmax := conv.le_of_convert _ _ hv
  -- `v / p < (v + p) / p ≤ b · x / p`
  have hlt : v / p < b * x / p :=
    calc v / p < v / p + 1 := Nat.lt_succ_self _
      _ = (v + p) / p := (Nat.add_div_right v hp).symm
      _ ≤ b * x / p := Nat.div_le_div_right (by omega)
  omega

/-- The balance of points never exceeds their share `⌊b · x / p⌋`, whatever the conversion does
past `Balance::MAX`. -/
theorem pointToBalance_le_div {out : Nat} (hbmax : b ≤ Unsigned.maxValue 128)
    (hxmax : x ≤ Unsigned.maxValue 128) (h : pointToBalance conv b p x = some out) :
    out ≤ b * x / p := by
  rw [pointToBalance] at h
  split_ifs at h with hzero
  · cases h
    exact Nat.zero_le _
  · rw [saturatingMul_balances hbmax hxmax] at h
    obtain ⟨v, hv, rfl⟩ := Option.map_eq_some_iff.mp h
    by_cases hfits : b * x ≤ Unsigned.maxValue 128
    · rw [conv.convert_of_le _ hfits] at hv
      cases hv
      exact le_rfl
    · exact Nat.div_le_div_right (le_trans (conv.le_of_convert _ _ hv) (by omega))

end Conversions

/-! ## Issuing and dissolving -/

namespace UnbondPool

variable {pool pool' : UnbondPool}

/-- Dissolving points removes at most their share of the pool's balance. -/
theorem dissolve_le_share {points out : Nat} (hbalance : pool.balance ≤ Unsigned.maxValue 128)
    (hpoints : points ≤ Unsigned.maxValue 128) (h : pool.dissolve conv points = some (out, pool')) :
    out ≤ pool.balance * points / pool.points := by
  simp only [dissolve, Option.bind_eq_bind, Option.bind_eq_some_iff, Option.pure_def,
    Option.some.injEq, Prod.mk.injEq] at h
  obtain ⟨unbond, hunbond, rfl, -⟩ := h
  exact pointToBalance_le_div conv hbalance hpoints hunbond

/-- Points issued for `f` into a pool with balance and points, with nothing saturating, are
dissolved back into at most `f`. -/
theorem dissolve_issue_le {f newPoints out : Nat} (hb : 0 < pool.balance) (hp : 0 < pool.points)
    (hf : f ≤ Unsigned.maxValue 128) (hpmax : pool.points ≤ Unsigned.maxValue 128)
    (hfits : pool.points * f / pool.balance ≤ Unsigned.maxValue 128)
    (hpoints : pool.points + pool.points * f / pool.balance ≤ Unsigned.maxValue 128)
    (hbalance : pool.balance + f ≤ Unsigned.maxValue 128)
    (hissue : pool.issue conv f = some (newPoints, pool'))
    {pool'' : UnbondPool} (hdissolve : pool'.dissolve conv newPoints = some (out, pool'')) :
    out ≤ f := by
  rw [issue, balanceToPoint_eq_div conv hb hp hpmax hf hfits] at hissue
  simp only [Option.bind_eq_bind, Option.bind_some, Option.pure_def, Option.some.injEq,
    Prod.mk.injEq] at hissue
  obtain ⟨rfl, rfl⟩ := hissue
  have hshare := dissolve_le_share conv (by rw [Unsigned.saturatingAdd_of_le hbalance]; exact hbalance)
    (le_trans (Nat.le_add_left _ _) hpoints) hdissolve
  rw [Unsigned.saturatingAdd_of_le hbalance, Unsigned.saturatingAdd_of_le hpoints] at hshare
  -- `n ≤ p f / b` gives `(b + f) n ≤ f (p + n)`
  have hn : pool.points * f / pool.balance * pool.balance ≤ pool.points * f :=
    Nat.div_mul_le_self _ _
  refine le_trans hshare (Nat.div_le_of_le_mul ?_)
  nlinarith

end UnbondPool

/-- Points are priced exactly, and a balance is paid exactly where the pool's balance times the
points fits; past that `point_to_balance` narrows before dividing. The pool never pays more than the
share, and issuing then dissolving never profits. -/
theorem pointToBalance_narrows_before_dividing :
    (∀ b p f, 0 < b → 0 < p → p ≤ Unsigned.maxValue 128 → f ≤ Unsigned.maxValue 128 →
      p * f / b ≤ Unsigned.maxValue 128 → balanceToPoint conv b p f = some (p * f / b)) ∧
    (∀ b p x, 0 < p → b ≤ Unsigned.maxValue 128 → x ≤ Unsigned.maxValue 128 →
      b * x ≤ Unsigned.maxValue 128 → pointToBalance conv b p x = some (b * x / p)) ∧
    (∀ b p x, 0 < b → 0 < p → 0 < x → b ≤ Unsigned.maxValue 128 → x ≤ Unsigned.maxValue 128 →
      Unsigned.maxValue 128 + p ≤ b * x → pointToBalance conv b p x ≠ some (b * x / p)) ∧
    (∀ (pool pool' : UnbondPool) points out, pool.balance ≤ Unsigned.maxValue 128 →
      points ≤ Unsigned.maxValue 128 → pool.dissolve conv points = some (out, pool') →
        out ≤ pool.balance * points / pool.points) ∧
    (∀ (pool pool' pool'' : UnbondPool) f newPoints out, 0 < pool.balance → 0 < pool.points →
      f ≤ Unsigned.maxValue 128 → pool.points ≤ Unsigned.maxValue 128 →
      pool.points * f / pool.balance ≤ Unsigned.maxValue 128 →
      pool.points + pool.points * f / pool.balance ≤ Unsigned.maxValue 128 →
      pool.balance + f ≤ Unsigned.maxValue 128 → pool.issue conv f = some (newPoints, pool') →
        pool'.dissolve conv newPoints = some (out, pool'') → out ≤ f) :=
  ⟨fun _ _ _ hb hp hpmax hf hfits => balanceToPoint_eq_div conv hb hp hpmax hf hfits,
    fun _ _ _ hp hbmax hxmax hfits => pointToBalance_eq_div conv hp hbmax hxmax hfits,
    fun _ _ _ hb hp hx hbmax hxmax hpast => pointToBalance_ne_div conv hb hp hx hbmax hxmax hpast,
    fun _ _ _ _ hbalance hpoints h => UnbondPool.dissolve_le_share conv hbalance hpoints h,
    fun _ _ _ _ _ _ hb hp hf hpmax hfits hpoints hbalance hissue hdissolve =>
      UnbondPool.dissolve_issue_le conv hb hp hf hpmax hfits hpoints hbalance hissue hdissolve⟩

/-- The mock's `U256ToBalance`, `n.try_into().unwrap()`. -/
def mockU256ToBalance : U256ToBalance where
  convert n := if n ≤ Unsigned.maxValue 128 then some n else none
  convert_of_le n hn := if_pos hn
  le_of_convert n v h := by
    rw [Option.ite_none_right_eq_some] at h
    obtain ⟨hn, hv⟩ := h
    cases hv
    exact hn

/-- A pool of `2 ^ 100` points worth `2 ^ 100` misses the share of all its points, `2 ^ 100`, which is
a balance: the mock's conversion panics on the product. -/
theorem mock_pointToBalance_panics_on_a_balance_share :
    2 ^ 100 * 2 ^ 100 / 2 ^ 100 ≤ Unsigned.maxValue 128 ∧
      pointToBalance mockU256ToBalance (2 ^ 100) (2 ^ 100) (2 ^ 100) ≠
        some (2 ^ 100 * 2 ^ 100 / 2 ^ 100) ∧
      pointToBalance mockU256ToBalance (2 ^ 100) (2 ^ 100) (2 ^ 100) = none :=
  ⟨by decide, (pointToBalance_narrows_before_dividing mockU256ToBalance).2.2.1 _ _ _ (by decide)
    (by decide) (by decide) (by decide) (by decide) (by decide), by decide⟩

end Substrate.NominationPools
