import Mathlib
import Substrate.Lib.Unsigned

/-! # frame_system: accounts and their reference counters

`src/frame/system/src/lib.rs`: each account's consumers, providers and sufficients; the account is
reaped when its last provider goes while nothing else holds it. The nonce, the hooks and the
events are left out.
-/

namespace Substrate.System

inductive TokenError where
  | fundsUnavailable
  | onlyProvider
  | belowMinimum
  | cannotCreate
  | unknownAsset
  | frozen
  | notExpendable
  | blocked
  deriving DecidableEq, Repr

inductive ArithmeticError where
  | underflow
  | overflow
  deriving DecidableEq, Repr

/-- `sp_runtime::DispatchError`, with the errors of the calling pallet as `module`. -/
inductive DispatchError (ModuleError : Type) where
  | module (error : ModuleError)
  | consumerRemaining
  | noProviders
  | tooManyConsumers
  | token (error : TokenError)
  | arithmetic (error : ArithmeticError)
  deriving DecidableEq, Repr

structure AccountInfo (Data : Type) where
  consumers : Nat
  providers : Nat
  sufficients : Nat
  data : Data
  deriving DecidableEq, Repr

instance {Data : Type} [Inhabited Data] : Inhabited (AccountInfo Data) := ⟨⟨0, 0, 0, default⟩⟩

@[simp] theorem AccountInfo.default_data {Data : Type} [Inhabited Data] :
    (default : AccountInfo Data).data = default := rfl

inductive IncRefStatus where
  | created
  | existed
  deriving DecidableEq, Repr

inductive DecRefStatus where
  | reaped
  | «exists»
  deriving DecidableEq, Repr

variable {AccountId Data E : Type} [DecidableEq AccountId]
variable {account : AccountId → AccountInfo Data} {who other : AccountId}

/-- `inc_providers`. A `RefCount` is a `u32`. -/
def incProviders (account : AccountId → AccountInfo Data) (who : AccountId) :
    (AccountId → AccountInfo Data) × IncRefStatus :=
  let a := account who
  if a.providers = 0 ∧ a.sufficients = 0 then
    (Function.update account who { a with providers := 1 }, .created)
  else
    (Function.update account who { a with providers := Unsigned.saturatingAdd 32 a.providers 1 },
      .existed)

@[simp] theorem incProviders_ne (h : other ≠ who) : (incProviders account who).1 other = account other := by
  unfold incProviders
  dsimp only
  split <;> exact Function.update_of_ne h _ _

/-- Below the `u32` limit, `inc_providers` adds one provider and changes nothing else. -/
theorem incProviders_self (h : (account who).providers < Unsigned.maxValue 32) :
    (incProviders account who).1 who = { account who with providers := (account who).providers + 1 } := by
  unfold incProviders
  dsimp only
  split
  · next hzero => simp [hzero.1]
  · simp [Unsigned.saturatingAdd_of_le (show (account who).providers + 1 ≤ Unsigned.maxValue 32 by omega)]

theorem incProviders_eq (h : (account who).providers < Unsigned.maxValue 32) :
    (incProviders account who).1 =
      Function.update account who { account who with providers := (account who).providers + 1 } := by
  funext other
  by_cases hother : other = who
  · subst hother
    rw [incProviders_self h, Function.update_self]
  · rw [incProviders_ne hother, Function.update_of_ne hother]

theorem incProviders_providers_pos : 0 < ((incProviders account who).1 who).providers := by
  unfold incProviders
  dsimp only
  split
  · simp
  · simp [Unsigned.saturatingAdd, Unsigned.maxValue]

/-- `inc_consumers`, with `MaxConsumers::max_consumers()` as `maxConsumers`. -/
def incConsumers (maxConsumers : Nat) (account : AccountId → AccountInfo Data) (who : AccountId) :
    Except (DispatchError E) (AccountId → AccountInfo Data) :=
  let a := account who
  if 0 < a.providers then
    if a.consumers < maxConsumers then
      .ok (Function.update account who { a with consumers := Unsigned.saturatingAdd 32 a.consumers 1 })
    else .error .tooManyConsumers
  else .error .noProviders

variable {account' : AccountId → AccountInfo Data} {maxConsumers : Nat}

/-- `inc_consumers` fails exactly without a provider or at the limit, and otherwise adds one
consumer to `who` alone. -/
theorem incConsumers_eq_ok
    (h : (incConsumers maxConsumers account who : Except (DispatchError E) _) = .ok account') :
    0 < (account who).providers ∧ (account who).consumers < maxConsumers ∧
      account' = Function.update account who
        { account who with consumers := Unsigned.saturatingAdd 32 (account who).consumers 1 } := by
  unfold incConsumers at h
  dsimp only at h
  split at h
  · split at h
    · next hprov hcons =>
      cases h
      exact ⟨hprov, hcons, rfl⟩
    · cases h
  · cases h

theorem incConsumers_ne (hother : other ≠ who)
    (h : (incConsumers maxConsumers account who : Except (DispatchError E) _) = .ok account') :
    account' other = account other := by
  rw [(incConsumers_eq_ok h).2.2]
  exact Function.update_of_ne hother _ _

/-- Whatever `inc_consumers` does, it does at `who`: the map it leaves, or the one it was given
when it fails, agrees elsewhere. -/
theorem incConsumers_getD_ne (hother : other ≠ who) :
    (incConsumers maxConsumers account who : Except (DispatchError E) _).toOption.getD account other =
      account other := by
  rcases h : (incConsumers maxConsumers account who : Except (DispatchError E) _) with _ | account'
  · rfl
  · exact incConsumers_ne hother h

theorem incConsumers_of_max (hprov : 0 < (account who).providers)
    (hmax : maxConsumers ≤ (account who).consumers) :
    (incConsumers maxConsumers account who : Except (DispatchError E) _) = .error .tooManyConsumers := by
  unfold incConsumers
  simp [hprov, Nat.not_lt.mpr hmax]

def incConsumersWithoutLimit (account : AccountId → AccountInfo Data) (who : AccountId) :
    Except (DispatchError E) (AccountId → AccountInfo Data) :=
  let a := account who
  if 0 < a.providers then
    .ok (Function.update account who { a with consumers := Unsigned.saturatingAdd 32 a.consumers 1 })
  else .error .noProviders

theorem incConsumersWithoutLimit_ne (hother : other ≠ who) :
    (incConsumersWithoutLimit account who : Except (DispatchError E) _).toOption.getD account other =
      account other := by
  unfold incConsumersWithoutLimit
  dsimp only
  split
  · exact Function.update_of_ne hother _ _
  · rfl

/-- `dec_consumers`: an underflow is only logged. -/
def decConsumers (account : AccountId → AccountInfo Data) (who : AccountId) :
    AccountId → AccountInfo Data :=
  let a := account who
  if 0 < a.consumers then Function.update account who { a with consumers := a.consumers - 1 }
  else account

@[simp] theorem decConsumers_ne (h : other ≠ who) : decConsumers account who other = account other := by
  unfold decConsumers
  split
  · exact Function.update_of_ne h _ _
  · rfl

def canDecProvider (account : AccountId → AccountInfo Data) (who : AccountId) : Bool :=
  (account who).consumers = 0 || 1 < (account who).providers

/-- The count `dec_providers` works with: zero is read as one. -/
theorem decProviders_count (a : AccountInfo Data) :
    (if a.providers = 0 then 1 else a.providers) = max a.providers 1 := by
  split <;> omega

variable [Inhabited Data]

/-- `dec_providers`. A count of zero is a logic error of the caller and is read as one. -/
def decProviders (account : AccountId → AccountInfo Data) (who : AccountId) :
    Except (DispatchError E) ((AccountId → AccountInfo Data) × DecRefStatus) :=
  let a := account who
  let providers := if a.providers = 0 then 1 else a.providers
  if providers = 1 ∧ a.consumers = 0 ∧ a.sufficients = 0 then
    .ok (Function.update account who default, .reaped)
  else if providers = 1 ∧ 0 < a.consumers then
    .error .consumerRemaining
  else
    .ok (Function.update account who { a with providers := providers - 1 }, .exists)

/-- The two outcomes of `dec_providers` that succeed: the entry is reaped when this was the
only reference of any kind, and the count drops by one otherwise. -/
theorem decProviders_eq_ok {status : DecRefStatus}
    (h : (decProviders account who : Except (DispatchError E) _) = .ok (account', status)) :
    ((account who).providers ≤ 1 ∧ (account who).consumers = 0 ∧ (account who).sufficients = 0 ∧
        account' = Function.update account who default) ∨
      (account' = Function.update account who
        { account who with providers := (account who).providers - 1 } ∧
        (1 < (account who).providers ∨ 0 < (account who).sufficients)) := by
  simp only [decProviders, decProviders_count] at h
  split at h
  · next hreap =>
    cases h
    exact .inl ⟨by omega, hreap.2.1, hreap.2.2, rfl⟩
  · split at h
    · cases h
    · next hreap hremain =>
      cases h
      refine .inr ⟨?_, by omega⟩
      congr 2
      omega

theorem decProviders_ne {status : DecRefStatus}
    (hother : other ≠ who)
    (h : (decProviders account who : Except (DispatchError E) _) = .ok (account', status)) :
    account' other = account other := by
  rcases decProviders_eq_ok h with ⟨-, -, -, rfl⟩ | ⟨rfl, -⟩ <;> exact Function.update_of_ne hother _ _

/-- With no consumer or another provider, `dec_providers` succeeds. -/
theorem decProviders_ok_of_canDecProvider (h : canDecProvider account who = true) :
    ∃ account' status, (decProviders account who : Except (DispatchError E) _) = .ok (account', status) := by
  simp only [canDecProvider, Bool.or_eq_true, decide_eq_true_eq] at h
  simp only [decProviders, decProviders_count]
  split
  · exact ⟨_, _, rfl⟩
  · split
    · next hconsumer => omega
    · exact ⟨_, _, rfl⟩

/-- The end of `StoredMap::try_mutate_exists`: the data is kept while a provider or a
sufficient reference remains, and the whole entry is removed otherwise. -/
def writeBack (account : AccountId → AccountInfo Data) (k : AccountId) (someData : Option Data) :
    AccountId → AccountInfo Data :=
  let a := account k
  if 0 < a.providers ∨ 0 < a.sufficients then Function.update account k { a with data := someData.getD default }
  else Function.update account k default

@[simp] theorem writeBack_ne (h : other ≠ who) (someData : Option Data) :
    writeBack account who someData other = account other := by
  unfold writeBack
  split <;> exact Function.update_of_ne h _ _

/-- With a provider or a sufficient left, `try_mutate_exists` stores the new data. -/
theorem writeBack_of_alive (h : 0 < (account who).providers ∨ 0 < (account who).sufficients)
    (someData : Option Data) :
    writeBack account who someData who = { account who with data := someData.getD default } := by
  simp [writeBack, h]

@[simp] theorem writeBack_none_data : (writeBack account who none who).data = default := by
  unfold writeBack
  split <;> simp [Function.update_self]

/-- `StoredMap::try_mutate_exists` of `frame_system`: the closure sees default data as `None` and
may change the counters, which stay changed when it fails. -/
def tryMutateExists [DecidableEq Data] {R : Type} (account : AccountId → AccountInfo Data) (k : AccountId)
    (f : Option Data → (AccountId → AccountInfo Data) →
      (AccountId → AccountInfo Data) × Except E (Option Data × R)) :
    (AccountId → AccountInfo Data) × Except E R :=
  let someData := if (account k).data = default then none else some (account k).data
  match f someData account with
  | (account, .error e) => (account, .error e)
  | (account, .ok (someData, r)) => (writeBack account k someData, .ok r)

end Substrate.System
