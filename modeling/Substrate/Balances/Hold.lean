import Mathlib
import Substrate.Balances.Fungible

/-! # Reserved balance moved to another account

`do_transfer_reserved` of `src/frame/balances/src/lib.rs` runs `try_mutate_account` on the slashed
account inside the closure of the beneficiary's, so when the beneficiary's references fail, the
call errs with the slashed account already debited.
-/

set_option linter.constructorNameAsVariable false

namespace Substrate.Balances

open Substrate.System

/-- `BalanceStatus`: where the moved funds land. -/
inductive Status where
  | free
  | reserved
  deriving DecidableEq, Repr

variable {AccountId : Type} {cfg : Config} {s : State AccountId} {who : AccountId}

def reducibleTotalBalanceOnHold (s : State AccountId) (who : AccountId) (force : Fortitude) : Nat :=
  let a := (s.account who).data
  -- the freeze applies to the total, so the free balance counts towards it
  let unavailable := if force = .force then 0 else a.frozen - a.free
  a.reserved - unavailable

theorem reducibleTotalBalanceOnHold_le_reserved (force : Fortitude) :
    reducibleTotalBalanceOnHold s who force ≤ (s.account who).data.reserved :=
  Nat.sub_le _ _

/-- Taking at most the `Polite` reducible hold from an account whose total covers its freezes
keeps them covered. -/
theorem frozen_le_of_le_reducibleTotalBalanceOnHold {moved : Nat}
    (hcover : (s.account who).data.frozen ≤ (s.account who).data.free + (s.account who).data.reserved)
    (hle : moved ≤ reducibleTotalBalanceOnHold s who .polite) :
    (s.account who).data.frozen ≤ (s.account who).data.free + ((s.account who).data.reserved - moved) := by
  unfold reducibleTotalBalanceOnHold at hle
  dsimp only at hle
  rw [if_neg (by decide)] at hle
  omega

/-- `Currency::total_balance`: `AccountData::total`, free and reserved together. -/
def totalBalance (cfg : Config) (s : State AccountId) (who : AccountId) : Nat :=
  Unsigned.saturatingAdd cfg.balanceBits (s.account who).data.free (s.account who).data.reserved

/-- `Unbalanced::handle_raw_dust`: the dust, at most one less than the existential deposit. -/
def handleRawDust (cfg : Config) (s : State AccountId) (amount : Nat) : State AccountId :=
  handleDust s (min amount (cfg.existentialDeposit - 1))

/-- The `if let Some(dust)` of `mutate_account_handling_dust` and `do_transfer_reserved`. -/
def handleMaybeRawDust (cfg : Config) (s : State AccountId) : Option Nat → State AccountId
  | some dust => handleRawDust cfg s dust
  | none => s

@[simp] theorem handleMaybeRawDust_account (maybeDust : Option Nat) :
    (handleMaybeRawDust cfg s maybeDust).account = s.account := by
  cases maybeDust <;> rfl

variable [DecidableEq AccountId]

def mutateAccountHandlingDust {R : Type} (cfg : Config) (s : State AccountId) (who : AccountId)
    (f : AccountData → AccountData × R) : State AccountId × Except (DispatchError Error) R :=
  match mutateAccount cfg s.account who f with
  | (account, .error e) => ({ s with account }, .error e)
  | (account, .ok (result, maybeDust)) => (handleMaybeRawDust cfg { s with account } maybeDust, .ok result)

/-- `ReservableCurrency::unreserve`: the part of `value` that was not unreserved. -/
def unreserve (cfg : Config) (s : State AccountId) (who : AccountId) (value : Nat) :
    State AccountId × Nat :=
  if value = 0 then (s, 0)
  else if totalBalance cfg s who = 0 then (s, value)
  else
    let unreserved := mutateAccountHandlingDust cfg s who fun account =>
      let actual := min account.reserved value
      -- `defensive_saturating_add`
      ({ account with
          reserved := account.reserved - actual,
          free := Unsigned.saturatingAdd cfg.balanceBits account.free actual }, actual)
    match unreserved with
    | (s, .ok actual) => (s, value - actual)
    | (s, .error _) => (s, value)

/-- `do_transfer_reserved`: the amount moved. -/
def doTransferReserved (cfg : Config) (s : State AccountId) (slashed beneficiary : AccountId)
    (value : Nat) (precision : Precision) (fortitude : Fortitude) (status : Status) :
    State AccountId × Except (DispatchError Error) Nat :=
  if value = 0 then (s, .ok 0)
  else
    let max := reducibleTotalBalanceOnHold s slashed fortitude
    let actual := match precision with
      | .bestEffort => min value max
      | .exact => value
    if max < actual then (s, .error (.token .fundsUnavailable))
    else if slashed = beneficiary then
      match status with
      | .free =>
        let (s, remaining) := unreserve cfg s slashed actual
        (s, .ok (actual - remaining))
      | .reserved => (s, .ok actual)
    else
      let (account, result) := tryMutateAccountWith cfg s.account beneficiary
        fun toAccount isNew account =>
          if isNew then (account, .error (.module .deadAccount))
          else
            -- the closure on the slashed account credits the beneficiary's data it captured
            tryMutateAccount cfg account slashed fun fromAccount _ =>
              let credited : Except (DispatchError Error) AccountData :=
                match status with
                | .free =>
                  match Unsigned.checkedAdd cfg.balanceBits toAccount.free actual with
                  | none => .error (.arithmetic .overflow)
                  | some free => .ok { toAccount with free }
                | .reserved =>
                  match Unsigned.checkedAdd cfg.balanceBits toAccount.reserved actual with
                  | none => .error (.arithmetic .overflow)
                  | some reserved => .ok { toAccount with reserved }
              credited.map fun toAccount =>
                ({ fromAccount with reserved := fromAccount.reserved - actual }, toAccount)
      let s := { s with account }
      match result with
      | .error e => (s, .error e)
      | .ok (maybeDust₁, maybeDust₂) =>
        (handleMaybeRawDust cfg (handleMaybeRawDust cfg s maybeDust₁) maybeDust₂, .ok actual)

/-- `ReservableCurrency::repatriate_reserved`: the part of `value` that was not moved. -/
def repatriateReserved (cfg : Config) (s : State AccountId) (slashed beneficiary : AccountId)
    (value : Nat) (status : Status) : State AccountId × Except (DispatchError Error) Nat :=
  match doTransferReserved cfg s slashed beneficiary value .bestEffort .polite status with
  | (s, .error e) => (s, .error e)
  | (s, .ok actual) => (s, .ok (value - actual))

/-- What `do_transfer_reserved` may leave of the slashed data after moving `moved`: unchanged, less
reserved, made free, or settled away. -/
inductive SlashedAfter (bits : Nat) (a : AccountData) (moved : Nat) : AccountData → Prop
  | unchanged : SlashedAfter bits a moved a
  | debited : SlashedAfter bits a moved { a with reserved := a.reserved - moved }
  | unreserved :
      SlashedAfter bits a moved
        { a with reserved := a.reserved - moved, free := Unsigned.saturatingAdd bits a.free moved }
  | removed : SlashedAfter bits a moved default

/-- Each outcome keeps the freezes covered by the total when the debit alone does. -/
theorem SlashedAfter.frozen_le {bits moved : Nat} {a a' : AccountData}
    (hafter : SlashedAfter bits a moved a') (hfits : a.Fits bits) (hcover : a.frozen ≤ a.free + a.reserved)
    (hdebit : a.frozen ≤ a.free + (a.reserved - moved)) :
    a'.frozen ≤ a'.free + a'.reserved := by
  cases hafter with
  | unchanged => exact hcover
  | debited => exact hdebit
  | unreserved =>
    -- the sum only changes where the free balance saturates, and then it is the maximum
    have := hfits.frozen
    dsimp only
    unfold Unsigned.saturatingAdd
    omega
  | removed => simp

theorem map_pair_eq_ok {ε α β : Type} {credited : Except ε α} {x y : β} {t : α}
    (h : credited.map (fun a => (x, a)) = .ok (y, t)) : y = x := by
  cases credited with
  | error e => cases h
  | ok a =>
    simp only [Except.map, Except.ok.injEq, Prod.mk.injEq] at h
    exact h.1.symm

section Lemmas

variable {slashed beneficiary : AccountId}

/-- Unreserving at most the reserve of an upgraded account: free only grows and reserved only
shrinks, so the counters cannot fail. -/
theorem unreserve_of_le {value : Nat} (hnew : (s.account who).data.newLogic = true)
    (hfits : (s.account who).data.Fits cfg.balanceBits) (hpos : 0 < value)
    (hle : value ≤ (s.account who).data.reserved) :
    (unreserve cfg s who value).2 = 0 ∧
      (((unreserve cfg s who value).1.account who).data =
          { (s.account who).data with
            reserved := (s.account who).data.reserved - value,
            free := Unsigned.saturatingAdd cfg.balanceBits (s.account who).data.free value } ∨
        ((unreserve cfg s who value).1.account who).data = default) := by
  -- something is reserved, so the total is not zero
  have htotal : totalBalance cfg s who ≠ 0 := by
    have := hfits.reserved
    unfold totalBalance Unsigned.saturatingAdd
    omega
  have hfree : (s.account who).data.free ≤
      Unsigned.saturatingAdd cfg.balanceBits (s.account who).data.free value := by
    have := hfits.free
    unfold Unsigned.saturatingAdd
    omega
  obtain ⟨account', hrefs⟩ : ∃ account', updateRefs cfg.maxConsumers s.account who
      (decide (cfg.existentialDeposit ≤ (s.account who).data.free)) (s.account who).data.consumes
      (decide (cfg.existentialDeposit ≤
        Unsigned.saturatingAdd cfg.balanceBits (s.account who).data.free value))
      ({ (s.account who).data with
          reserved := (s.account who).data.reserved - value,
          free := Unsigned.saturatingAdd cfg.balanceBits (s.account who).data.free value } :
        AccountData).consumes = (account', .ok ()) := by
    apply updateRefs_ok_of_le
    · simp only [decide_eq_true_eq]
      omega
    · simp only [AccountData.consumes, Bool.or_eq_true, bne_iff_ne]
      omega
  unfold unreserve mutateAccountHandlingDust mutateAccount
  rw [if_neg hpos.ne', if_neg htotal]
  dsimp only
  rw [tryMutateAccount_of_ok hnew _ value ?_ hrefs]
  · simp only [handleMaybeRawDust_account, Nat.sub_self, true_and]
    exact writeBack_settle_data _
  · simp [min_eq_right hle]

/-- A successful `do_transfer_reserved` on an upgraded slashed account moved at most the reducible
hold, `min value max` with `BestEffort`. -/
theorem doTransferReserved_eq_ok {value : Nat} {precision : Precision} {fortitude : Fortitude}
    {status : Status} (hnew : (s.account slashed).data.newLogic = true)
    (hfits : (s.account slashed).data.Fits cfg.balanceBits) {s' : State AccountId} {moved : Nat}
    (h : doTransferReserved cfg s slashed beneficiary value precision fortitude status = (s', .ok moved)) :
    moved ≤ reducibleTotalBalanceOnHold s slashed fortitude ∧
      (precision = .bestEffort → moved = min value (reducibleTotalBalanceOnHold s slashed fortitude)) ∧
      SlashedAfter cfg.balanceBits (s.account slashed).data moved (s'.account slashed).data := by
  unfold doTransferReserved at h
  split at h
  · next hzero =>
    -- nothing to move
    obtain ⟨rfl, rfl⟩ : s = s' ∧ 0 = moved := by simpa using h
    exact ⟨Nat.zero_le _, fun _ => by simp [hzero], .unchanged⟩
  extract_lets max actual at h
  have hbest : precision = .bestEffort → actual = min value max := by
    rintro rfl
    rfl
  split at h
  · cases h
  next hwithin =>
  have hactual : actual ≤ max := Nat.not_lt.mp hwithin
  split at h
  · next hself =>
    subst hself
    split at h
    · -- the moved balance turns free on the same account
      split at h
      next s₁ remaining hunreserve =>
      obtain ⟨rfl, rfl⟩ : s₁ = s' ∧ actual - remaining = moved := by simpa using h
      rcases Nat.eq_zero_or_pos actual with hzero | hpos
      · -- nothing left to unreserve
        rw [hzero] at hunreserve hbest ⊢
        simp only [unreserve, if_true, Prod.mk.injEq] at hunreserve
        obtain ⟨rfl, rfl⟩ := hunreserve
        exact ⟨Nat.zero_le _, hbest, .unchanged⟩
      · obtain ⟨hremaining, hdata⟩ := unreserve_of_le hnew hfits hpos
          (hactual.trans (reducibleTotalBalanceOnHold_le_reserved _))
        rw [hunreserve] at hremaining hdata
        dsimp only at hremaining hdata
        rw [hremaining, Nat.sub_zero]
        refine ⟨hactual, hbest, ?_⟩
        rcases hdata with hdata | hdata <;> rw [hdata]
        · exact .unreserved
        · exact .removed
    · -- from reserved to reserved on one account nothing changes
      obtain ⟨rfl, rfl⟩ : s = s' ∧ actual = moved := by simpa using h
      exact ⟨hactual, hbest, .unchanged⟩
  · next hne =>
    split at h
    next account result hmutate =>
    split at h
    · cases h
    next maybeDust₁ maybeDust₂ =>
    obtain ⟨rfl, rfl⟩ : _ = s' ∧ actual = moved := by simpa using h
    refine ⟨hactual, hbest, ?_⟩
    simp only [handleMaybeRawDust_account]
    -- the slashed account is left as the closure on the beneficiary left it
    obtain ⟨account₁, toData, hclosure, hslashed⟩ := tryMutateAccountWith_ne hne hmutate
    rw [hslashed]
    dsimp only at hclosure
    split at hclosure
    · cases hclosure
    have hupgraded : (ensureUpgraded cfg s.account beneficiary).1 slashed = s.account slashed :=
      ensureUpgraded_ne hne
    rw [← hupgraded] at hnew
    obtain ⟨fromData, account₂, hfrom, -, rfl, -⟩ := tryMutateAccount_eq_ok hnew hclosure
    -- the slashed account's data is its data with `actual` less reserved
    have hdebit := map_pair_eq_ok hfrom
    rw [hupgraded] at hdebit
    have hsettled : (writeBack account₂ slashed (settle cfg.existentialDeposit fromData).1 slashed).data =
        fromData ∨
        (writeBack account₂ slashed (settle cfg.existentialDeposit fromData).1 slashed).data = default :=
      writeBack_settle_data fromData
    rcases hsettled with hdata | hdata <;> rw [hdata]
    · rw [hdebit]
      exact .debited
    · exact .removed

/-- With `BestEffort`, a successful call moved exactly `min value max`. -/
theorem doTransferReserved_bestEffort_eq_min {value : Nat} {fortitude : Fortitude} {status : Status}
    (hnew : (s.account slashed).data.newLogic = true)
    (hfits : (s.account slashed).data.Fits cfg.balanceBits) {s' : State AccountId} {moved : Nat}
    (h : doTransferReserved cfg s slashed beneficiary value .bestEffort fortitude status = (s', .ok moved)) :
    moved = min value (reducibleTotalBalanceOnHold s slashed fortitude) :=
  (doTransferReserved_eq_ok hnew hfits h).2.1 rfl

/-- A successful `Polite` call keeps the slashed account's freezes covered by its total. -/
theorem doTransferReserved_polite_frozen_le {value : Nat} {precision : Precision} {status : Status}
    (hnew : (s.account slashed).data.newLogic = true)
    (hfits : (s.account slashed).data.Fits cfg.balanceBits)
    (hcover : (s.account slashed).data.frozen ≤
      (s.account slashed).data.free + (s.account slashed).data.reserved)
    {s' : State AccountId} {moved : Nat}
    (h : doTransferReserved cfg s slashed beneficiary value precision .polite status = (s', .ok moved)) :
    (s'.account slashed).data.frozen ≤ (s'.account slashed).data.free + (s'.account slashed).data.reserved := by
  obtain ⟨hmoved, -, hafter⟩ := doTransferReserved_eq_ok hnew hfits h
  exact hafter.frozen_le hfits hcover (frozen_le_of_le_reducibleTotalBalanceOnHold hcover hmoved)

end Lemmas

def holdConfig : Config := ⟨10, 16, 128⟩

def holdState : State Nat :=
  ⟨fun who =>
    if who = 0 then ⟨1, 1, 0, ⟨10, 20, 0, true⟩⟩
    else if who = 1 then ⟨16, 1, 0, ⟨10, 0, 0, true⟩⟩
    else default, 40, []⟩

theorem doTransferReserved_debits_before_crediting :
    (∀ (AccountId : Type) (cfg : Config) (s : State AccountId) (who : AccountId) (amount : Nat),
      amount ≤ s.totalIssuance → (s.account who).data.frozen ≤ Unsigned.maxValue cfg.balanceBits →
      ((canWithdraw cfg s who amount = .success ∨
          ∃ rest, canWithdraw cfg s who amount = .reducedToZero rest) ↔
        amount ≤ reducibleBalance cfg s who .expendable .polite)) ∧
    (∀ (AccountId : Type) (cfg : Config) (s : State AccountId) (who : AccountId) (force : Fortitude),
      reducibleBalance cfg s who .preserve force ≤ reducibleBalance cfg s who .protect force ∧
      ((0 < (s.account who).data.free → 0 < (s.account who).providers) →
        reducibleBalance cfg s who .protect force ≤ reducibleBalance cfg s who .expendable force)) ∧
    (∀ (AccountId : Type) (cfg : Config) (s : State AccountId) (who : AccountId)
      (preservation : Preservation),
      reducibleBalance cfg s who preservation .polite ≤ reducibleBalance cfg s who preservation .force) ∧
    (∀ (AccountId : Type) [DecidableEq AccountId] (cfg : Config) (s s' : State AccountId)
      (slashed beneficiary : AccountId) (value moved : Nat) (fortitude : Fortitude) (status : Status),
      (s.account slashed).data.newLogic = true → (s.account slashed).data.Fits cfg.balanceBits →
      doTransferReserved cfg s slashed beneficiary value .bestEffort fortitude status = (s', .ok moved) →
      moved = min value (reducibleTotalBalanceOnHold s slashed fortitude) ∧
      (fortitude = .polite →
        (s.account slashed).data.frozen ≤ (s.account slashed).data.free + (s.account slashed).data.reserved →
        (s'.account slashed).data.frozen ≤
          (s'.account slashed).data.free + (s'.account slashed).data.reserved)) ∧
    reducibleTotalBalanceOnHold holdState 0 .polite = 20 ∧
    (doTransferReserved holdConfig holdState 0 1 20 .bestEffort .polite .reserved).2 =
      .error .tooManyConsumers ∧
    ((doTransferReserved holdConfig holdState 0 1 20 .bestEffort .polite .reserved).1.account 0).data =
      ⟨10, 0, 0, true⟩ ∧
    ((doTransferReserved holdConfig holdState 0 1 20 .bestEffort .polite .reserved).1.account 1).data =
      (holdState.account 1).data ∧
    (doTransferReserved holdConfig holdState 0 1 20 .bestEffort .polite .reserved).1.totalIssuance = 40 ∧
    (repatriateReserved holdConfig holdState 0 1 20 .reserved).2 = .error .tooManyConsumers := by
  refine ⟨?_, ?_, ?_, ?_, by decide, by decide, by decide, by decide, by decide, by decide⟩
  · intro AccountId cfg s who amount hissuance hfrozen
    exact canWithdraw_allowed_iff hissuance hfrozen
  · intro AccountId cfg s who force
    exact ⟨reducibleBalance_preserve_le_protect force,
      fun hprovider => reducibleBalance_protect_le_expendable hprovider force⟩
  · intro AccountId cfg s who preservation
    exact reducibleBalance_polite_le_force preservation
  · intro AccountId _ cfg s s' slashed beneficiary value moved fortitude status hnew hfits h
    refine ⟨doTransferReserved_bestEffort_eq_min hnew hfits h, ?_⟩
    rintro rfl hcover
    exact doTransferReserved_polite_frozen_le hnew hfits hcover h

end Substrate.Balances
