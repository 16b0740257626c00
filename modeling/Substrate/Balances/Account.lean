import Mathlib
import Substrate.System.Account

/-! # pallet-balances: accounts and the existential deposit

`src/frame/balances/src/lib.rs`. `try_mutate_account` runs a closure and brings the provider and
consumer references and the entry in line: an account below the deposit with nothing reserved is
removed and its free balance returned as dust. `insecure_zero_ed` is off; events are not modelled.
-/

namespace Substrate.Balances

open Substrate.System

structure AccountData where
  free : Nat
  reserved : Nat
  frozen : Nat
  /-- The `IS_NEW_LOGIC` bit of `ExtraFlags`; no other bit is read. -/
  newLogic : Bool
  deriving DecidableEq, Repr

/-- The default `ExtraFlags` carry the new-logic bit. -/
instance : Inhabited AccountData := ⟨⟨0, 0, 0, true⟩⟩

/-- The data needs a consumer reference while something is reserved or frozen. -/
def AccountData.consumes (a : AccountData) : Bool := a.reserved != 0 || a.frozen != 0

@[simp] theorem AccountData.default_free : (default : AccountData).free = 0 := rfl
@[simp] theorem AccountData.default_reserved : (default : AccountData).reserved = 0 := rfl
@[simp] theorem AccountData.default_frozen : (default : AccountData).frozen = 0 := rfl
@[simp] theorem AccountData.default_newLogic : (default : AccountData).newLogic = true := rfl
@[simp] theorem AccountData.consumes_default : (default : AccountData).consumes = false := rfl

@[simp] theorem AccountData.consumes_setFree (a : AccountData) (free : Nat) :
    ({ a with free } : AccountData).consumes = a.consumes := rfl

/-- The balances of the data are values of a `bits`-bit `T::Balance`. -/
structure AccountData.Fits (bits : Nat) (a : AccountData) : Prop where
  free : a.free ≤ Unsigned.maxValue bits
  reserved : a.reserved ≤ Unsigned.maxValue bits
  frozen : a.frozen ≤ Unsigned.maxValue bits

/-- The errors of the pallet that the modelled functions raise. -/
inductive Error where
  | insufficientBalance
  | deadAccount
  deriving DecidableEq, Repr

structure Config where
  existentialDeposit : Nat
  /-- `frame_system`'s `MaxConsumers::max_consumers()`. -/
  maxConsumers : Nat
  /-- The width of `T::Balance`. -/
  balanceBits : Nat

variable {AccountId : Type} [DecidableEq AccountId]

/-- `ensure_upgraded`: moves an account to the new reference-counting logic. -/
def ensureUpgraded (cfg : Config) (account : AccountId → AccountInfo AccountData) (who : AccountId) :
    (AccountId → AccountInfo AccountData) × Bool :=
  let a := (account who).data
  if a.newLogic then (account, false)
  else
    let a := { a with newLogic := true }
    let (account, a) :=
      if a.reserved ≠ 0 ∧ a.frozen = 0 then
        let (account, a) :=
          if (account who).providers = 0 then
            -- a reserved balance without any provider: endow it with an existential deposit
            ((incProviders account who).1, { a with free := max a.free cfg.existentialDeposit })
          else (account, a)
        ((incConsumersWithoutLimit account who : Except (DispatchError Error) _).toOption.getD account, a)
      else (account, a)
    ((tryMutateExists account who fun _ account =>
      (account, (.ok (some a, ()) : Except (DispatchError Error) _))).1, true)

/-- The reference-counter steps of `try_mutate_account`, once the closure has succeeded. -/
def updateRefs (maxConsumers : Nat) (account : AccountId → AccountInfo AccountData) (who : AccountId)
    (didProvide didConsume doesProvide doesConsume : Bool) :
    (AccountId → AccountInfo AccountData) × Except (DispatchError Error) Unit :=
  let account := if !didProvide && doesProvide then (incProviders account who).1 else account
  let account := if didConsume && !doesConsume then decConsumers account who else account
  let consumed : Except (DispatchError Error) _ :=
    if !didConsume && doesConsume then incConsumers maxConsumers account who else .ok account
  match consumed with
  | .error e => (account, .error e)
  | .ok account =>
    if didProvide && !doesProvide then
      match decProviders account who with
      | .error r =>
        -- the best-effort revert of the consumer change
        let account :=
          if didConsume && !doesConsume then
            (incConsumers maxConsumers account who : Except (DispatchError Error) _).toOption.getD account
          else account
        let account := if !didConsume && doesConsume then decConsumers account who else account
        (account, .error r)
      | .ok (account, _) => (account, .ok ())
    else (account, .ok ())

/-- The end of `try_mutate_account`: an account below the existential deposit with nothing reserved
is not stored; its nonzero free balance is dust. -/
def settle (ed : Nat) (account : AccountData) : Option AccountData × Option Nat :=
  if account.free < ed ∧ account.reserved = 0 then
    (none, if account.free = 0 then none else some account.free)
  else
    -- the `assert!` of the source holds here by the condition just tested
    (some account, none)

/-- `try_mutate_account`: the closure's result and the dust. What the reference counters did
before an error stays. -/
def tryMutateAccount {R : Type} (cfg : Config) (account : AccountId → AccountInfo AccountData)
    (who : AccountId) (f : AccountData → Bool → Except (DispatchError Error) (AccountData × R)) :
    (AccountId → AccountInfo AccountData) × Except (DispatchError Error) (R × Option Nat) :=
  let account := (ensureUpgraded cfg account who).1
  tryMutateExists account who fun maybeAccount account =>
    let isNew := maybeAccount.isNone
    let data := maybeAccount.getD default
    let didProvide := decide (cfg.existentialDeposit ≤ data.free)
    let didConsume := !isNew && data.consumes
    match f data isNew with
    | .error e => (account, .error e)
    | .ok (data, result) =>
      match updateRefs cfg.maxConsumers account who didProvide didConsume
          (decide (cfg.existentialDeposit ≤ data.free)) data.consumes with
      | (account, .error e) => (account, .error e)
      | (account, .ok ()) =>
        let (maybeAccount, maybeDust) := settle cfg.existentialDeposit data
        (account, .ok (maybeAccount, result, maybeDust))

/-- `try_mutate_account` whose closure may change the account map too, as the one of
`do_transfer_reserved` on the beneficiary does. -/
def tryMutateAccountWith {R : Type} (cfg : Config) (account : AccountId → AccountInfo AccountData)
    (who : AccountId)
    (f : AccountData → Bool → (AccountId → AccountInfo AccountData) →
      (AccountId → AccountInfo AccountData) × Except (DispatchError Error) (AccountData × R)) :
    (AccountId → AccountInfo AccountData) × Except (DispatchError Error) (R × Option Nat) :=
  let account := (ensureUpgraded cfg account who).1
  tryMutateExists account who fun maybeAccount account =>
    let isNew := maybeAccount.isNone
    let data := maybeAccount.getD default
    let didProvide := decide (cfg.existentialDeposit ≤ data.free)
    let didConsume := !isNew && data.consumes
    match f data isNew account with
    | (account, .error e) => (account, .error e)
    | (account, .ok (data, result)) =>
      match updateRefs cfg.maxConsumers account who didProvide didConsume
          (decide (cfg.existentialDeposit ≤ data.free)) data.consumes with
      | (account, .error e) => (account, .error e)
      | (account, .ok ()) =>
        let (maybeAccount, maybeDust) := settle cfg.existentialDeposit data
        (account, .ok (maybeAccount, result, maybeDust))

def mutateAccount {R : Type} (cfg : Config) (account : AccountId → AccountInfo AccountData)
    (who : AccountId) (f : AccountData → AccountData × R) :
    (AccountId → AccountInfo AccountData) × Except (DispatchError Error) (R × Option Nat) :=
  tryMutateAccount cfg account who fun a _ => .ok (f a)

section Lemmas

variable {cfg : Config} {account : AccountId → AccountInfo AccountData} {who : AccountId}
  {account' : AccountId → AccountInfo AccountData} {e : DispatchError Error} {other : AccountId}
  {maybeDust : Option Nat}

theorem ensureUpgraded_of_newLogic (h : (account who).data.newLogic = true) :
    ensureUpgraded cfg account who = (account, false) := by
  simp [ensureUpgraded, h]

theorem ensureUpgraded_ne (hother : other ≠ who) :
    (ensureUpgraded cfg account who).1 other = account other := by
  unfold ensureUpgraded
  dsimp only
  split
  · rfl
  · simp only [tryMutateExists, writeBack_ne hother]
    split_ifs <;> simp [incConsumersWithoutLimit_ne hother, incProviders_ne hother]

theorem ensureUpgraded_newLogic : ((ensureUpgraded cfg account who).1 who).data.newLogic = true := by
  unfold ensureUpgraded
  dsimp only
  split
  · assumption
  · simp only [tryMutateExists]
    unfold writeBack
    -- the data written back carries the bit, and so does the default of a removed entry
    split_ifs <;> simp

variable (maxConsumers : Nat)

@[simp] theorem updateRefs_of_eq (provide consume : Bool) :
    updateRefs maxConsumers account who provide consume provide consume = (account, .ok ()) := by
  cases provide <;> cases consume <;> rfl

theorem updateRefs_provide (consume : Bool) :
    updateRefs maxConsumers account who false consume true consume = ((incProviders account who).1, .ok ()) := by
  cases consume <;> rfl

/-- The data stops providing: `dec_providers`, which reaps the entry or fails. -/
theorem updateRefs_unprovide (consume : Bool)
    {status : DecRefStatus}
    (h : (decProviders account who : Except (DispatchError Error) _) = .ok (account', status)) :
    updateRefs maxConsumers account who true consume false consume = (account', .ok ()) := by
  cases consume <;> simp [updateRefs, h]

/-- The data starts to provide and to consume, and `inc_consumers` fails: the provider
reference taken just before stays. -/
theorem updateRefs_provide_consume_error
    (h : incConsumers maxConsumers (incProviders account who).1 who = .error e) :
    updateRefs maxConsumers account who false false true true = ((incProviders account who).1, .error e) := by
  simp [updateRefs, h]

/-- A change that provides no less and consumes no more moves the counters without error: neither
`inc_consumers` nor `dec_providers` runs. -/
theorem updateRefs_ok_of_le {didProvide didConsume doesProvide doesConsume : Bool}
    (hprovide : didProvide = true → doesProvide = true)
    (hconsume : doesConsume = true → didConsume = true) :
    ∃ account', updateRefs maxConsumers account who didProvide didConsume doesProvide doesConsume =
      (account', .ok ()) := by
  have hinc : (!didConsume && doesConsume) = false := by
    cases didConsume <;> cases doesConsume <;> simp_all
  have hdec : (didProvide && !doesProvide) = false := by
    cases didProvide <;> cases doesProvide <;> simp_all
  simp [updateRefs, hinc, hdec]

theorem updateRefs_ne (hother : other ≠ who) (maxConsumers : Nat)
    (didProvide didConsume doesProvide doesConsume : Bool) :
    (updateRefs maxConsumers account who didProvide didConsume doesProvide doesConsume).1 other =
      account other := by
  unfold updateRefs
  dsimp only
  split
  · -- `inc_consumers` failed after the provider taken and the consumer given back, both at `who`
    simp [ite_apply, decConsumers_ne hother, incProviders_ne hother]
  · next account₁ hinc =>
    have h₁ : account₁ other = account other := by
      split at hinc
      · rw [incConsumers_ne hother hinc]
        simp [ite_apply, decConsumers_ne hother, incProviders_ne hother]
      · cases hinc
        simp [ite_apply, decConsumers_ne hother, incProviders_ne hother]
    split
    · split
      · -- `dec_providers` failed: the best-effort revert of the consumer change is at `who` too
        simp [ite_apply, incConsumers_getD_ne hother, decConsumers_ne hother, h₁]
      · next account₂ status hdec => exact (decProviders_ne hother hdec).trans h₁
    · exact h₁

/-- After a successful `try_mutate_account` the account holds the data its closure left, or the
default when settled away or removed. -/
theorem writeBack_settle_data (data : AccountData) :
    (writeBack account who (settle cfg.existentialDeposit data).1 who).data = data ∨
      (writeBack account who (settle cfg.existentialDeposit data).1 who).data = default := by
  unfold settle
  split
  · exact .inr writeBack_none_data
  · unfold writeBack
    split <;> simp

variable {R : Type}
  {g : AccountData → Bool → (AccountId → AccountInfo AccountData) →
    (AccountId → AccountInfo AccountData) × Except (DispatchError Error) (AccountData × R)}

/-- `try_mutate_account` on an upgraded account reads the stored data, new exactly when it is the
default, and hands the closure the map. -/
theorem tryMutateAccountWith_of_error (hnew : (account who).data.newLogic = true)
    {account₁ : AccountId → AccountInfo AccountData}
    (hg : g (account who).data (decide ((account who).data = default)) account = (account₁, .error e)) :
    tryMutateAccountWith cfg account who g = (account₁, .error e) := by
  rw [tryMutateAccountWith, ensureUpgraded_of_newLogic hnew]
  by_cases hd : (account who).data = default
  · simp only [hd, decide_true] at hg
    simp [tryMutateExists, hd, hg]
  · simp only [hd, decide_false] at hg
    simp [tryMutateExists, hd, hg]

theorem tryMutateAccountWith_of_refs_error (hnew : (account who).data.newLogic = true)
    (data : AccountData) (result : R) {account₁ account' : AccountId → AccountInfo AccountData}
    (hg : g (account who).data (decide ((account who).data = default)) account =
      (account₁, .ok (data, result)))
    (hrefs : updateRefs cfg.maxConsumers account₁ who
      (decide (cfg.existentialDeposit ≤ (account who).data.free)) (account who).data.consumes
      (decide (cfg.existentialDeposit ≤ data.free)) data.consumes = (account', .error e)) :
    tryMutateAccountWith cfg account who g = (account', .error e) := by
  rw [tryMutateAccountWith, ensureUpgraded_of_newLogic hnew]
  by_cases hd : (account who).data = default
  · simp only [hd, decide_true, AccountData.consumes_default, AccountData.default_free,
      Nat.le_zero_eq] at hg hrefs
    simp [tryMutateExists, hd, hg, hrefs]
  · simp only [hd, decide_false] at hg
    simp [tryMutateExists, hd, hg, hrefs]

theorem tryMutateAccountWith_of_ok (hnew : (account who).data.newLogic = true)
    (data : AccountData) (result : R) {account₁ account' : AccountId → AccountInfo AccountData}
    (hg : g (account who).data (decide ((account who).data = default)) account =
      (account₁, .ok (data, result)))
    (hrefs : updateRefs cfg.maxConsumers account₁ who
      (decide (cfg.existentialDeposit ≤ (account who).data.free)) (account who).data.consumes
      (decide (cfg.existentialDeposit ≤ data.free)) data.consumes = (account', .ok ())) :
    tryMutateAccountWith cfg account who g =
      (writeBack account' who (settle cfg.existentialDeposit data).1,
        .ok (result, (settle cfg.existentialDeposit data).2)) := by
  rw [tryMutateAccountWith, ensureUpgraded_of_newLogic hnew]
  by_cases hd : (account who).data = default
  · simp only [hd, decide_true, AccountData.consumes_default, AccountData.default_free,
      Nat.le_zero_eq] at hg hrefs
    simp [tryMutateExists, hd, hg, hrefs]
  · simp only [hd, decide_false] at hg
    simp [tryMutateExists, hd, hg, hrefs]

theorem tryMutateAccountWith_upgraded :
    tryMutateAccountWith cfg account who g =
      tryMutateAccountWith cfg (ensureUpgraded cfg account who).1 who g := by
  conv_rhs => rw [tryMutateAccountWith, ensureUpgraded_of_newLogic ensureUpgraded_newLogic]
  rfl

/-- A successful `try_mutate_account` on an upgraded account: the closure succeeded, the counters
moved, the data was settled and written back. -/
theorem tryMutateAccountWith_eq_ok (hnew : (account who).data.newLogic = true)
    {result : R}
    (h : tryMutateAccountWith cfg account who g = (account', .ok (result, maybeDust))) :
    ∃ account₁ data account₂,
      g (account who).data (decide ((account who).data = default)) account =
        (account₁, .ok (data, result)) ∧
      updateRefs cfg.maxConsumers account₁ who
        (decide (cfg.existentialDeposit ≤ (account who).data.free)) (account who).data.consumes
        (decide (cfg.existentialDeposit ≤ data.free)) data.consumes = (account₂, .ok ()) ∧
      account' = writeBack account₂ who (settle cfg.existentialDeposit data).1 ∧
      maybeDust = (settle cfg.existentialDeposit data).2 := by
  rcases hg : g (account who).data (decide ((account who).data = default)) account with
    ⟨account₁, _ | ⟨data, result'⟩⟩
  · rw [tryMutateAccountWith_of_error hnew hg] at h
    cases h
  rcases hrefs : updateRefs cfg.maxConsumers account₁ who
      (decide (cfg.existentialDeposit ≤ (account who).data.free)) (account who).data.consumes
      (decide (cfg.existentialDeposit ≤ data.free)) data.consumes with ⟨account₂, _ | ⟨⟩⟩
  · rw [tryMutateAccountWith_of_refs_error hnew data result' hg hrefs] at h
    cases h
  · rw [tryMutateAccountWith_of_ok hnew data result' hg hrefs] at h
    simp only [Prod.mk.injEq, Except.ok.injEq] at h
    obtain ⟨rfl, rfl, rfl⟩ := h
    exact ⟨account₁, data, account₂, rfl, hrefs, rfl, rfl⟩

/-- Off `who`, a successful `try_mutate_account` leaves the map as its closure left it. -/
theorem tryMutateAccountWith_ne (hother : other ≠ who)
    {result : R}
    (h : tryMutateAccountWith cfg account who g = (account', .ok (result, maybeDust))) :
    ∃ account₁ data,
      g ((ensureUpgraded cfg account who).1 who).data
          (decide (((ensureUpgraded cfg account who).1 who).data = default))
          (ensureUpgraded cfg account who).1 = (account₁, .ok (data, result)) ∧
        account' other = account₁ other := by
  rw [tryMutateAccountWith_upgraded] at h
  obtain ⟨account₁, data, account₂, hg, hrefs, rfl, -⟩ := tryMutateAccountWith_eq_ok ensureUpgraded_newLogic h
  refine ⟨account₁, data, hg, ?_⟩
  -- the counters and the write-back after the closure are at `who` alone
  have hframe : (updateRefs cfg.maxConsumers account₁ who
      (decide (cfg.existentialDeposit ≤ ((ensureUpgraded cfg account who).1 who).data.free))
      ((ensureUpgraded cfg account who).1 who).data.consumes
      (decide (cfg.existentialDeposit ≤ data.free)) data.consumes).1 other = account₁ other :=
    updateRefs_ne hother _ _ _ _ _
  rw [hrefs] at hframe
  rw [writeBack_ne hother]
  exact hframe

variable {f : AccountData → Bool → Except (DispatchError Error) (AccountData × R)}

theorem tryMutateAccount_eq_with :
    tryMutateAccount cfg account who f =
      tryMutateAccountWith cfg account who fun data isNew account => (account, f data isNew) := by
  unfold tryMutateAccount tryMutateAccountWith
  dsimp only
  congr 1
  funext maybeAccount account
  cases f (maybeAccount.getD default) maybeAccount.isNone <;> rfl

theorem tryMutateAccount_of_error (hnew : (account who).data.newLogic = true)
    (hf : f (account who).data (decide ((account who).data = default)) = .error e) :
    tryMutateAccount cfg account who f = (account, .error e) := by
  rw [tryMutateAccount_eq_with]
  exact tryMutateAccountWith_of_error hnew (by rw [hf])

theorem tryMutateAccount_of_refs_error (hnew : (account who).data.newLogic = true)
    (data : AccountData) (result : R)
    (hf : f (account who).data (decide ((account who).data = default)) = .ok (data, result))
    (hrefs : updateRefs cfg.maxConsumers account who
      (decide (cfg.existentialDeposit ≤ (account who).data.free)) (account who).data.consumes
      (decide (cfg.existentialDeposit ≤ data.free)) data.consumes = (account', .error e)) :
    tryMutateAccount cfg account who f = (account', .error e) := by
  rw [tryMutateAccount_eq_with]
  exact tryMutateAccountWith_of_refs_error hnew data result (by rw [hf]) hrefs

/-- What a successful `try_mutate_account` with a closure on the data alone did. -/
theorem tryMutateAccount_eq_ok (hnew : (account who).data.newLogic = true)
    {result : R}
    (h : tryMutateAccount cfg account who f = (account', .ok (result, maybeDust))) :
    ∃ data account₂,
      f (account who).data (decide ((account who).data = default)) = .ok (data, result) ∧
      updateRefs cfg.maxConsumers account who
        (decide (cfg.existentialDeposit ≤ (account who).data.free)) (account who).data.consumes
        (decide (cfg.existentialDeposit ≤ data.free)) data.consumes = (account₂, .ok ()) ∧
      account' = writeBack account₂ who (settle cfg.existentialDeposit data).1 ∧
      maybeDust = (settle cfg.existentialDeposit data).2 := by
  rw [tryMutateAccount_eq_with] at h
  obtain ⟨account₁, data, account₂, hg, hrefs, rfl, rfl⟩ := tryMutateAccountWith_eq_ok hnew h
  simp only [Prod.mk.injEq] at hg
  obtain ⟨rfl, hf⟩ := hg
  exact ⟨data, account₂, hf, hrefs, rfl, rfl⟩

theorem tryMutateAccount_of_ok (hnew : (account who).data.newLogic = true)
    (data : AccountData) (result : R)
    (hf : f (account who).data (decide ((account who).data = default)) = .ok (data, result))
    (hrefs : updateRefs cfg.maxConsumers account who
      (decide (cfg.existentialDeposit ≤ (account who).data.free)) (account who).data.consumes
      (decide (cfg.existentialDeposit ≤ data.free)) data.consumes = (account', .ok ())) :
    tryMutateAccount cfg account who f =
      (writeBack account' who (settle cfg.existentialDeposit data).1,
        .ok (result, (settle cfg.existentialDeposit data).2)) := by
  rw [tryMutateAccount_eq_with]
  exact tryMutateAccountWith_of_ok hnew data result (by rw [hf]) hrefs

end Lemmas

end Substrate.Balances
