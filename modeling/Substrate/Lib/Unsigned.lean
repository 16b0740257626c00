import Mathlib

/-! # Unsigned machine arithmetic

A `w`-bit unsigned type on naturals below `2 ^ w`: checked operations return `none` where the
result leaves the range, saturating ones clamp, and an overflow-checked `+` or `-` panics there.
-/

namespace Unsigned

def maxValue (w : Nat) : Nat := 2 ^ w - 1

def checkedAdd (w a b : Nat) : Option Nat := if a + b ≤ maxValue w then some (a + b) else none

def checkedSub (a b : Nat) : Option Nat := if b ≤ a then some (a - b) else none

def checkedMul (w a b : Nat) : Option Nat := if a * b ≤ maxValue w then some (a * b) else none

def saturatingAdd (w a b : Nat) : Nat := min (a + b) (maxValue w)

def saturatingMul (w a b : Nat) : Nat := min (a * b) (maxValue w)

@[simp] theorem checkedAdd_eq_some {w a b c : Nat} :
    checkedAdd w a b = some c ↔ a + b ≤ maxValue w ∧ a + b = c := by
  rw [checkedAdd]
  split
  · rename_i hle
    simp [hle]
  · rename_i hgt
    simp [hgt]

variable {w a b : Nat}

@[simp] theorem checkedAdd_eq_none : checkedAdd w a b = none ↔ maxValue w < a + b := by
  unfold checkedAdd
  split <;> simp_all

@[simp] theorem checkedSub_eq_some {a b c : Nat} :
    checkedSub a b = some c ↔ b ≤ a ∧ a - b = c := by
  rw [checkedSub]
  split
  · rename_i hle
    simp [hle]
  · rename_i hgt
    simp [hgt]

@[simp] theorem checkedSub_eq_none {a b : Nat} : checkedSub a b = none ↔ a < b := by
  unfold checkedSub
  split <;> simp_all

theorem checkedAdd_of_le (h : a + b ≤ maxValue w) : checkedAdd w a b = some (a + b) := by
  simp [h]

theorem checkedSub_of_le {a b : Nat} (h : b ≤ a) : checkedSub a b = some (a - b) := by
  simp [h]

theorem checkedMul_of_le (h : a * b ≤ maxValue w) : checkedMul w a b = some (a * b) :=
  if_pos h

theorem checkedMul_of_lt (h : maxValue w < a * b) : checkedMul w a b = none :=
  if_neg (Nat.not_le_of_lt h)

theorem checkedAdd_of_lt (h : maxValue w < a + b) : checkedAdd w a b = none :=
  checkedAdd_eq_none.mpr h

theorem saturatingAdd_of_le (h : a + b ≤ maxValue w) : saturatingAdd w a b = a + b :=
  Nat.min_eq_left h

theorem saturatingMul_of_le (h : a * b ≤ maxValue w) : saturatingMul w a b = a * b :=
  Nat.min_eq_left h

theorem mul_le_maxValue_add {w w' a b : Nat} (ha : a ≤ maxValue w) (hb : b ≤ maxValue w') :
    a * b ≤ maxValue (w + w') := by
  obtain ⟨x, hx⟩ := Nat.exists_eq_add_of_lt (Nat.two_pow_pos w)
  obtain ⟨y, hy⟩ := Nat.exists_eq_add_of_lt (Nat.two_pow_pos w')
  have hlt : (2 ^ w - 1) * (2 ^ w' - 1) < 2 ^ (w + w') := by
    rw [Nat.pow_add, hx, hy]
    simp only [Nat.zero_add, Nat.add_sub_cancel]
    nlinarith
  calc a * b ≤ (2 ^ w - 1) * (2 ^ w' - 1) := Nat.mul_le_mul ha hb
    _ ≤ maxValue (w + w') := Nat.le_sub_one_of_lt hlt

/-- A saturating sum is the exact sum, clamped once at the end. -/
theorem foldl_saturatingAdd (w : Nat) :
    ∀ (l : List Nat) (a : Nat), a ≤ maxValue w → l.foldl (saturatingAdd w) a = min (a + l.sum) (maxValue w)
  | [], a, ha => by
    rw [List.foldl_nil, List.sum_nil, Nat.add_zero]
    exact (Nat.min_eq_left ha).symm
  | x :: xs, a, _ => by
    rw [List.foldl_cons, foldl_saturatingAdd w xs (saturatingAdd w a x) (Nat.min_le_right _ _),
      List.sum_cons]
    show min (min (a + x) (maxValue w) + xs.sum) (maxValue w) = _
    omega

end Unsigned
