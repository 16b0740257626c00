import Mathlib
import Substrate.Balances.Account

/-! # The references `try_mutate_account` takes and gives back

A new provider first, then a consumer given back or taken, then the provider given back. When
taking the consumer fails the error returns at once: the provider just taken is not given back,
though the data is not written.
-/

namespace Substrate.Balances

open Substrate.System

variable {AccountId : Type} [DecidableEq AccountId] {cfg : Config}
  {account : AccountId → AccountInfo AccountData} {who : AccountId}
  {R : Type} {f : AccountData → Bool → Except (DispatchError Error) (AccountData × R)}

/-- The dust of a successful `try_mutate_account`: the new free balance, exactly when nonzero and
below the existential deposit, nothing reserved. -/
theorem settle_dust_eq_some {ed dust : Nat} {data : AccountData} :
    (settle ed data).2 = some dust ↔
      data.free < ed ∧ data.reserved = 0 ∧ data.free ≠ 0 ∧ dust = data.free := by
  unfold settle
  split
  · next hbelow =>
    split
    · next hzero => simp [hzero]
    · next hzero => simp [hbelow.1, hbelow.2, hzero, eq_comm]
  · next hkeep =>
    simp only [reduceCtorEq, false_iff]
    omega

/-- A closure making an account without the pallet's provider provide and consume at `MaxConsumers`:
`TooManyConsumers`, yet the provider reference stays. -/
theorem tryMutateAccount_consumer_error_keeps_provider (hnew : (account who).data.newLogic = true)
    {data : AccountData} {result : R}
    (hf : f (account who).data (decide ((account who).data = default)) = .ok (data, result))
    (hbelow : (account who).data.free < cfg.existentialDeposit)
    (hconsumes : (account who).data.consumes = false)
    (hprovide : cfg.existentialDeposit ≤ data.free) (hconsume : data.consumes = true)
    (hmax : cfg.maxConsumers ≤ (account who).consumers)
    (hlimit : (account who).providers < Unsigned.maxValue 32) :
    tryMutateAccount cfg account who f =
      (Function.update account who { account who with providers := (account who).providers + 1 },
        .error .tooManyConsumers) := by
  -- after `inc_providers` the account has a provider, so only the limit stops `inc_consumers`
  have hinc : (incConsumers cfg.maxConsumers (incProviders account who).1 who :
      Except (DispatchError Error) _) = .error .tooManyConsumers :=
    incConsumers_of_max incProviders_providers_pos (by rw [incProviders_self hlimit]; exact hmax)
  have hrefs := updateRefs_provide_consume_error cfg.maxConsumers hinc
  rw [tryMutateAccount_of_refs_error hnew data result hf
    (by simpa [hconsumes, hconsume, Nat.not_le.mpr hbelow, hprovide] using hrefs), incProviders_eq hlimit]

def referencesConfig : Config := ⟨10, 1, 128⟩

def referencesAccount : Unit → AccountInfo AccountData := fun _ => ⟨1, 1, 0, default⟩

def endowAndReserve : AccountData → Bool → Except (DispatchError Error) (AccountData × Unit) :=
  fun a _ => .ok ({ a with free := 10, reserved := 1 }, ())

theorem tryMutateAccount_consumer_error_two_providers :
    (tryMutateAccount referencesConfig referencesAccount () endowAndReserve).2 = .error .tooManyConsumers ∧
      ((tryMutateAccount referencesConfig referencesAccount () endowAndReserve).1 ()).providers = 2 ∧
      ((tryMutateAccount referencesConfig referencesAccount () endowAndReserve).1 ()).data = default := by
  rw [tryMutateAccount_consumer_error_keeps_provider rfl rfl (by decide) rfl (by decide) rfl
    (by decide) (by decide)]
  exact ⟨rfl, rfl, rfl⟩

end Substrate.Balances
