import Substrate.Lib.Unsigned

/-! # Weights and the weight meter

`sp_weights`: a weight is a reference time and a proof size, each a `u64`. `try_consume` consumes
only when the sum stays within the limit in both; `can_consume` asks without consuming.
-/

namespace Substrate.Weights

structure Weight where
  refTime : Nat
  proofSize : Nat
  deriving DecidableEq, Repr

def Weight.zero : Weight := ⟨0, 0⟩

/-- `Weight::checked_add`: `none` when either part overflows its `u64`. -/
def Weight.checkedAdd (a b : Weight) : Option Weight := do
  let refTime ← Unsigned.checkedAdd 64 a.refTime b.refTime
  let proofSize ← Unsigned.checkedAdd 64 a.proofSize b.proofSize
  pure ⟨refTime, proofSize⟩

def Weight.saturatingAdd (a b : Weight) : Weight :=
  ⟨Unsigned.saturatingAdd 64 a.refTime b.refTime, Unsigned.saturatingAdd 64 a.proofSize b.proofSize⟩

def Weight.anyGt (a b : Weight) : Bool := b.refTime < a.refTime || b.proofSize < a.proofSize

def Weight.allLte (a b : Weight) : Bool := a.refTime ≤ b.refTime && a.proofSize ≤ b.proofSize

def Weight.allLt (a b : Weight) : Bool := a.refTime < b.refTime && a.proofSize < b.proofSize

def Weight.MAX : Weight := ⟨Unsigned.maxValue 64, Unsigned.maxValue 64⟩

def Weight.max (a b : Weight) : Weight := ⟨Nat.max a.refTime b.refTime, Nat.max a.proofSize b.proofSize⟩

def Weight.saturatingSub (a b : Weight) : Weight := ⟨a.refTime - b.refTime, a.proofSize - b.proofSize⟩

theorem Weight.anyGt_eq_not_allLte (a b : Weight) : a.anyGt b = !a.allLte b := by
  simp only [Weight.anyGt, Weight.allLte, Bool.not_and]
  by_cases href : b.refTime < a.refTime <;> by_cases hproof : b.proofSize < a.proofSize <;>
    simp [href, hproof, Nat.not_lt.mp, Nat.not_le.mpr]

theorem Weight.allLte_of_allLt {a b : Weight} (h : a.allLt b = true) : a.allLte b = true := by
  simp only [Weight.allLte, Weight.allLt, Bool.and_eq_true, decide_eq_true_eq] at h ⊢
  exact ⟨Nat.le_of_lt h.1, Nat.le_of_lt h.2⟩

theorem Weight.allLt_of_allLte_of_allLt {a b c : Weight} (hab : a.allLte b = true)
    (hbc : b.allLt c = true) : a.allLt c = true := by
  simp only [Weight.allLte, Weight.allLt, Bool.and_eq_true, decide_eq_true_eq] at hab hbc ⊢
  exact ⟨Nat.lt_of_le_of_lt hab.1 hbc.1, Nat.lt_of_le_of_lt hab.2 hbc.2⟩

structure WeightMeter where
  consumed : Weight
  limit : Weight

def WeightMeter.fromLimit (limit : Weight) : WeightMeter := ⟨Weight.zero, limit⟩

@[simp] theorem Weight.saturatingAdd_zero : Weight.zero.saturatingAdd Weight.zero = Weight.zero := by
  simp [Weight.saturatingAdd, Weight.zero, Unsigned.saturatingAdd]

def WeightMeter.remaining (m : WeightMeter) : Weight := m.limit.saturatingSub m.consumed

def WeightMeter.canConsume (m : WeightMeter) (w : Weight) : Bool :=
  match m.consumed.checkedAdd w with
  | none => false
  | some total => total.allLte m.limit

/-- `try_consume`: the meter after consuming `w`; `none` stands for `Err(())`,
which leaves the meter as it was. -/
def WeightMeter.tryConsume (m : WeightMeter) (w : Weight) : Option WeightMeter :=
  match m.consumed.checkedAdd w with
  | none => none
  | some test => if test.anyGt m.limit then none else some { m with consumed := test }

theorem WeightMeter.tryConsume_isSome (m : WeightMeter) (w : Weight) :
    (m.tryConsume w).isSome = m.canConsume w := by
  unfold WeightMeter.tryConsume WeightMeter.canConsume
  cases m.consumed.checkedAdd w with
  | none => rfl
  | some total =>
    dsimp only
    rw [Weight.anyGt_eq_not_allLte]
    cases total.allLte m.limit <;> rfl

theorem WeightMeter.tryConsume_of_canConsume {m : WeightMeter} {w : Weight}
    (h : m.canConsume w = true) : ∃ m', m.tryConsume w = some m' :=
  Option.isSome_iff_exists.mp (by rw [WeightMeter.tryConsume_isSome]; exact h)

/-- Consuming nothing keeps a meter within its limit, whose parts fit a `u64`. -/
theorem WeightMeter.tryConsume_zero {m : WeightMeter} (hle : m.consumed.allLte m.limit = true)
    (hfits : m.limit.allLte Weight.MAX = true) :
    m.tryConsume Weight.zero = some m := by
  simp only [Weight.allLte, Bool.and_eq_true, decide_eq_true_eq] at hle
  simp only [Weight.allLte, Weight.MAX, Bool.and_eq_true] at hfits
  replace hfits := And.intro (of_decide_eq_true hfits.1) (of_decide_eq_true hfits.2)
  have hadd : m.consumed.checkedAdd Weight.zero = some m.consumed := by
    simp [Weight.checkedAdd, Weight.zero, Unsigned.checkedAdd, Nat.le_trans hle.1 hfits.1,
      Nat.le_trans hle.2 hfits.2]
  have hgt : m.consumed.anyGt m.limit = false := by
    simp [Weight.anyGt, Nat.not_lt.mpr hle.1, Nat.not_lt.mpr hle.2]
  simp only [WeightMeter.tryConsume, hadd, hgt, Bool.false_eq_true, if_false]

end Substrate.Weights
