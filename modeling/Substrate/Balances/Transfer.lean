import Mathlib
import Substrate.Balances.Fungible

/-! # Transfers through `fungible::Mutate`

`Mutate::transfer` checks both sides, debits with `decrease_balance` and credits with
`increase_balance`. When source and destination are one account and the debit reaps it, the
credit meets an empty account: it re-creates it with the amount alone, or leaves it empty.
-/

namespace Substrate.Balances

open Substrate.System

variable {AccountId : Type} [DecidableEq AccountId] {cfg : Config} {s : State AccountId}
  {who : AccountId} {amount : Nat}

structure PlainAccount (s : State AccountId) (who : AccountId) : Prop where
  newLogic : (s.account who).data.newLogic = true
  reserved : (s.account who).data.reserved = 0
  frozen : (s.account who).data.frozen = 0
  canDec : canDecProvider s.account who = true

/-- A debit leaving a plain account below the existential deposit reaps it: the rest of its free
balance goes to `handle_dust`. -/
theorem decreaseBalance_reaps (hplain : PlainAccount s who) (hed : cfg.existentialDeposit ≤ balance s who)
    (hle : amount ≤ balance s who) (hbelow : balance s who - amount < cfg.existentialDeposit)
    (hrest : amount < balance s who) :
    ∃ s', decreaseBalance cfg s who amount .bestEffort .expendable .polite = (s', .ok amount) ∧
      (s'.account who).data = default ∧ s'.totalIssuance = s.totalIssuance ∧
      s'.dustRemoval = s.dustRemoval ++ [balance s who - amount] := by
  obtain ⟨account', hwrite, hdata⟩ := writeBalance_of_below hplain.newLogic hplain.reserved
    hplain.frozen hplain.canDec hed hbelow (by omega)
  have hred : amount ≤ reducibleBalance cfg s who .expendable .polite := by
    rw [reducibleBalance_of_canDecProvider hplain.frozen hplain.canDec]
    exact hle
  refine ⟨_, decreaseBalance_of_writeBalance hred hle hwrite, ?_, rfl, ?_⟩
  · simpa using hdata
  · simp

/-- A credit of at least the existential deposit to an account with default data creates it
with exactly that free balance. -/
theorem increaseBalance_of_default (hd : (s.account who).data = default)
    (hed0 : 0 < cfg.existentialDeposit) (hed : cfg.existentialDeposit ≤ amount)
    (hfits : amount ≤ Unsigned.maxValue cfg.balanceBits) :
    ∃ s', increaseBalance cfg s who amount .bestEffort = (s', .ok amount) ∧ balance s' who = amount ∧
      s'.totalIssuance = s.totalIssuance ∧ s'.dustRemoval = s.dustRemoval := by
  have hzero : balance s who = 0 := by simp [balance, hd]
  obtain ⟨account', hwrite, hdata⟩ := writeBalance_of_default (s := s) hd hed0 hed
  rw [← Nat.zero_add amount, ← hzero] at hwrite
  refine ⟨_, increaseBalance_of_writeBalance (by omega) (by omega) (by omega) hwrite, ?_, rfl, ?_⟩
  · simp [balance, hdata]
  · simp

/-- A self-transfer taking a plain account below the existential deposit returns `Ok(amount)`, but
the account keeps only the amount, or nothing. -/
theorem transfer_self_reaps (a : AccountId) (amount : Nat) (hplain : PlainAccount s a)
    (hed : cfg.existentialDeposit ≤ balance s a) (hrest : amount < balance s a)
    (hbelow : balance s a - amount < cfg.existentialDeposit) (hissuance : amount ≤ s.totalIssuance)
    (hfits : balance s a + amount ≤ Unsigned.maxValue cfg.balanceBits) :
    (transfer cfg s a a amount .expendable).2 = .ok amount ∧
      balance (transfer cfg s a a amount .expendable).1 a =
        (if cfg.existentialDeposit ≤ amount then amount else 0) ∧
      (transfer cfg s a a amount .expendable).1.dustRemoval = s.dustRemoval ++ [balance s a - amount] ∧
      (transfer cfg s a a amount .expendable).1.totalIssuance = s.totalIssuance := by
  have hpos : 0 < amount := by omega
  -- both checks read the state before the debit, and both pass
  have hwithdraw : canWithdraw cfg s a amount = .reducedToZero (balance s a - amount) :=
    canWithdraw_of_below hpos hissuance hrest.le hplain.frozen hplain.canDec hbelow
  have hdeposit : canDeposit cfg s a amount .extant = .success :=
    canDeposit_of_fits (by omega) (by omega) (by rw [hplain.reserved]; omega)
  obtain ⟨s₁, hdec, hdata₁, hissuance₁, hdust₁⟩ := decreaseBalance_reaps hplain hed hrest.le hbelow hrest
  have hcredit : transfer cfg s a a amount .expendable =
      ((increaseBalance cfg s₁ a amount .bestEffort).1, .ok amount) := by
    simp [transfer, hwithdraw, hdeposit, WithdrawConsequence.intoResult,
      DepositConsequence.intoResult, hdec]
  rw [hcredit]
  by_cases hmin : cfg.existentialDeposit ≤ amount
  · obtain ⟨s₂, hinc, hbalance₂, hissuance₂, hdust₂⟩ :=
      increaseBalance_of_default hdata₁ (by omega) hmin (by omega)
    simp [hinc, hbalance₂, hissuance₂, hdust₂, hmin, hissuance₁, hdust₁]
  · -- the credit would stay below the existential deposit: nothing is written
    have hzero : balance s₁ a = 0 := by simp [balance, hdata₁]
    rw [increaseBalance_of_lt_minimum (by omega) (by omega)]
    simp [hmin, hzero, hissuance₁, hdust₁]

def selfTransferConfig : Config := ⟨10, 16, 128⟩

def selfTransferState : State Unit := ⟨fun _ => ⟨0, 1, 0, ⟨15, 0, 0, true⟩⟩, 15, []⟩

theorem transfer_self_fifteen_leaves_ten :
    (transfer selfTransferConfig selfTransferState () () 10 .expendable).2 = .ok 10 ∧
      balance (transfer selfTransferConfig selfTransferState () () 10 .expendable).1 () = 10 ∧
      (transfer selfTransferConfig selfTransferState () () 10 .expendable).1.dustRemoval = [5] ∧
      (transfer selfTransferConfig selfTransferState () () 10 .expendable).1.totalIssuance = 15 := by
  have h := @transfer_self_reaps Unit _ selfTransferConfig selfTransferState () 10
    ⟨rfl, rfl, rfl, rfl⟩ (by decide) (by decide) (by decide) (by decide) (by decide)
  exact ⟨h.1, h.2.1.trans (by decide), h.2.2.1.trans (by decide), h.2.2.2.trans (by decide)⟩

end Substrate.Balances
