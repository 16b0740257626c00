import Mathlib
import Substrate.Balances.Account

/-! # pallet-balances through the fungible traits

`fungible::Inspect` and `fungible::Unbalanced` of `src/frame/balances/src/impl_fungible.rs`, with
the defaults of `fungible/regular.rs`, over the accounts, `TotalIssuance` and the dust credits.
`InactiveIssuance`, the hooks and the events are not modelled.
-/

set_option linter.constructorNameAsVariable false

namespace Substrate.Balances

open Substrate.System

inductive Preservation where
  | expendable
  | protect
  | preserve
  deriving DecidableEq, Repr

inductive Fortitude where
  | polite
  | force
  deriving DecidableEq, Repr

inductive Precision where
  | exact
  | bestEffort
  deriving DecidableEq, Repr

inductive Provenance where
  | minted
  | extant
  deriving DecidableEq, Repr

inductive DepositConsequence where
  | belowMinimum
  | cannotCreate
  | unknownAsset
  | overflow
  | success
  | blocked
  deriving DecidableEq, Repr

inductive WithdrawConsequence where
  | balanceLow
  | wouldDie
  | unknownAsset
  | underflow
  | overflow
  | frozen
  | reducedToZero (amount : Nat)
  | success
  deriving DecidableEq, Repr

def DepositConsequence.intoResult : DepositConsequence → Except (DispatchError Error) Unit
  | .belowMinimum => .error (.token .belowMinimum)
  | .cannotCreate => .error (.token .cannotCreate)
  | .unknownAsset => .error (.token .unknownAsset)
  | .overflow => .error (.arithmetic .overflow)
  | .blocked => .error (.token .blocked)
  | .success => .ok ()

/-- `WithdrawConsequence::into_result`: the amount by which the account would be reduced
beyond the request. -/
def WithdrawConsequence.intoResult (keepNonzero : Bool) :
    WithdrawConsequence → Except (DispatchError Error) Nat
  | .balanceLow => .error (.token .fundsUnavailable)
  | .wouldDie => .error (.token .onlyProvider)
  | .unknownAsset => .error (.token .unknownAsset)
  | .underflow => .error (.arithmetic .underflow)
  | .overflow => .error (.arithmetic .overflow)
  | .frozen => .error (.token .frozen)
  | .reducedToZero result => if keepNonzero then .error (.token .notExpendable) else .ok result
  | .success => .ok 0

structure State (AccountId : Type) where
  account : AccountId → AccountInfo AccountData
  totalIssuance : Nat
  /-- The credits handed to `T::DustRemoval`, oldest first. -/
  dustRemoval : List Nat

variable {AccountId : Type} {cfg : Config} {s : State AccountId} {who : AccountId} {amount : Nat}

def balance (s : State AccountId) (who : AccountId) : Nat := (s.account who).data.free

def reducibleBalance (cfg : Config) (s : State AccountId) (who : AccountId)
    (preservation : Preservation) (force : Fortitude) : Nat :=
  let a := (s.account who).data
  -- what is frozen applies to the total, so a hold counts against it
  let untouchable := if force = .polite then a.frozen - a.reserved else 0
  let untouchable :=
    if preservation = .preserve ∨
        (preservation = .protect ∧ a.free ≠ 0 ∧ (s.account who).providers = 1) ∨
        (preservation = .expendable ∧ a.free ≠ 0 ∧ canDecProvider s.account who = false) then
      max untouchable cfg.existentialDeposit
    else untouchable
  a.free - untouchable

/-- Without freezes and with the provider reference to spare, all the free balance is
reducible when the account may die. -/
theorem reducibleBalance_of_canDecProvider (hfrozen : (s.account who).data.frozen = 0)
    (hcan : canDecProvider s.account who = true) (force : Fortitude) :
    reducibleBalance cfg s who .expendable force = balance s who := by
  cases force <;> simp [reducibleBalance, balance, hfrozen, hcan]

theorem sub_untouchable_le {free base base' ed : Nat} {keep keep' : Prop} [Decidable keep]
    [Decidable keep'] (hbase : base ≤ base') (hkeep : keep → keep') :
    free - (if keep' then max base' ed else base') ≤ free - (if keep then max base ed else base) := by
  split_ifs with hkeep' hkeep''
  · omega
  · omega
  · exact absurd (hkeep ‹keep›) hkeep'
  · omega

/-- `Preserve` always keeps the existential deposit, so it leaves no more than `Protect`. -/
theorem reducibleBalance_preserve_le_protect (force : Fortitude) :
    reducibleBalance cfg s who .preserve force ≤ reducibleBalance cfg s who .protect force := by
  unfold reducibleBalance
  dsimp only
  exact sub_untouchable_le le_rfl fun _ => .inl rfl

/-- `Protect` leaves no more than `Expendable` when an account with a free balance has a provider.
-/
theorem reducibleBalance_protect_le_expendable
    (hprovider : 0 < (s.account who).data.free → 0 < (s.account who).providers) (force : Fortitude) :
    reducibleBalance cfg s who .protect force ≤ reducibleBalance cfg s who .expendable force := by
  unfold reducibleBalance
  dsimp only
  apply sub_untouchable_le le_rfl
  rintro (h | h | ⟨-, hfree, hcan⟩)
  · cases h
  · cases h.1
  · have hone : (s.account who).providers = 1 := by
      simp only [canDecProvider, Bool.or_eq_false_iff, decide_eq_false_iff_not] at hcan
      have := hprovider (Nat.pos_of_ne_zero hfree)
      omega
    exact .inr (.inl ⟨rfl, hfree, hone⟩)

/-- `Polite` discounts the freezes and `Force` does not, so `Polite` leaves no more. -/
theorem reducibleBalance_polite_le_force (preservation : Preservation) :
    reducibleBalance cfg s who preservation .polite ≤ reducibleBalance cfg s who preservation .force := by
  unfold reducibleBalance
  dsimp only
  exact sub_untouchable_le (by simp) id

/-- What a positive amount within the liquid balance leaves free: what freezes need beyond holds,
and the existential deposit if the provider cannot go. -/
theorem le_reducibleBalance_expendable (hpos : 0 < amount)
    (hle : amount ≤ reducibleBalance cfg s who .expendable .polite) :
    amount ≤ balance s who ∧
      (s.account who).data.frozen - (s.account who).data.reserved ≤ balance s who - amount ∧
      (canDecProvider s.account who = false → cfg.existentialDeposit ≤ balance s who - amount) := by
  unfold reducibleBalance at hle
  dsimp only at hle
  rw [if_pos rfl] at hle
  unfold balance
  split at hle
  · exact ⟨by omega, by omega, fun _ => by omega⟩
  · next hkeep =>
    refine ⟨by omega, by omega, fun hcan => ?_⟩
    -- with a free balance and the provider reference needed, the deposit is kept after all
    exact absurd (Or.inr (Or.inr ⟨rfl, by omega, hcan⟩)) hkeep

def canDeposit (cfg : Config) (s : State AccountId) (who : AccountId) (amount : Nat)
    (provenance : Provenance) : DepositConsequence :=
  if amount = 0 then .success
  else if provenance = .minted ∧ Unsigned.checkedAdd cfg.balanceBits s.totalIssuance amount = none then
    .overflow
  else
    let account := (s.account who).data
    match Unsigned.checkedAdd cfg.balanceBits account.free amount with
    | none => .overflow
    | some newFree =>
      if newFree < cfg.existentialDeposit then .belowMinimum
      else match Unsigned.checkedAdd cfg.balanceBits account.reserved newFree with
        | none => .overflow
        | some _ => .success

/-- A deposit that fits the balance type and reaches the existential deposit is accepted. -/
theorem canDeposit_of_fits (hpos : amount ≠ 0)
    (hed : cfg.existentialDeposit ≤ balance s who + amount)
    (htotal : (s.account who).data.reserved + (balance s who + amount) ≤
      Unsigned.maxValue cfg.balanceBits) :
    canDeposit cfg s who amount .extant = .success := by
  simp only [balance] at hed htotal
  simp [canDeposit, hpos, Unsigned.checkedAdd_of_le (show (s.account who).data.free + amount ≤
    Unsigned.maxValue cfg.balanceBits by omega), Unsigned.checkedAdd_of_le htotal, Nat.not_lt.mpr hed]

def canWithdraw (cfg : Config) (s : State AccountId) (who : AccountId) (amount : Nat) :
    WithdrawConsequence :=
  if amount = 0 then .success
  else if Unsigned.checkedSub s.totalIssuance amount = none then .underflow
  else
    let account := (s.account who).data
    match Unsigned.checkedSub account.free amount with
    | none => .balanceLow
    | some newFreeBalance =>
      if reducibleBalance cfg s who .expendable .polite < amount then .frozen
      else
        -- the provider reference is the pallet's own
        let success :=
          if newFreeBalance < cfg.existentialDeposit then
            if canDecProvider s.account who then some (.reducedToZero newFreeBalance) else none
          else some .success
        match success with
        | none => .wouldDie
        | some success =>
          if Unsigned.saturatingAdd cfg.balanceBits newFreeBalance account.reserved < account.frozen then
            .frozen
          else success

/-- A withdrawal taking an account without freezes below the existential deposit is allowed when the
account may die. -/
theorem canWithdraw_of_below (hpos : 0 < amount) (hissuance : amount ≤ s.totalIssuance)
    (hle : amount ≤ balance s who) (hfrozen : (s.account who).data.frozen = 0)
    (hcan : canDecProvider s.account who = true)
    (hbelow : balance s who - amount < cfg.existentialDeposit) :
    canWithdraw cfg s who amount = .reducedToZero (balance s who - amount) := by
  have hred : reducibleBalance cfg s who .expendable .polite = balance s who :=
    reducibleBalance_of_canDecProvider hfrozen hcan .polite
  simp only [balance] at hle hbelow hred
  simp [canWithdraw, Nat.pos_iff_ne_zero.mp hpos, Unsigned.checkedSub_of_le hissuance,
    Unsigned.checkedSub_of_le hle, hred, hle, hbelow, hcan, hfrozen, balance]

/-- A positive withdrawal within the liquid balance is allowed, reducing the account to zero when it
leaves less than the existential deposit. -/
theorem canWithdraw_of_le (hpos : 0 < amount) (hissuance : amount ≤ s.totalIssuance)
    (hfrozen : (s.account who).data.frozen ≤ Unsigned.maxValue cfg.balanceBits)
    (hle : amount ≤ reducibleBalance cfg s who .expendable .polite) :
    canWithdraw cfg s who amount =
      if balance s who - amount < cfg.existentialDeposit then .reducedToZero (balance s who - amount)
      else .success := by
  obtain ⟨hfree, hbase, hed⟩ := le_reducibleBalance_expendable hpos hle
  -- what is left with the holds still covers the freezes, also when the sum saturates
  have hsat : (s.account who).data.frozen ≤
      Unsigned.saturatingAdd cfg.balanceBits (balance s who - amount) (s.account who).data.reserved := by
    unfold Unsigned.saturatingAdd
    omega
  simp only [balance] at hfree hsat hed ⊢
  by_cases hbelow : (s.account who).data.free - amount < cfg.existentialDeposit
  · have hcan : canDecProvider s.account who = true := by
      by_contra hcan
      have := hed (by simpa using hcan)
      omega
    simp [canWithdraw, hpos.ne', Unsigned.checkedSub_of_le hissuance, Unsigned.checkedSub_of_le hfree,
      Nat.not_lt.mpr hle, hbelow, hcan, Nat.not_lt.mpr hsat]
  · simp [canWithdraw, hpos.ne', Unsigned.checkedSub_of_le hissuance, Unsigned.checkedSub_of_le hfree,
      Nat.not_lt.mpr hle, hbelow, Nat.not_lt.mpr hsat]

/-- Beyond the liquid balance a withdrawal is refused: the issuance, the free balance or the
freezes stop it. -/
theorem canWithdraw_of_lt (hlt : reducibleBalance cfg s who .expendable .polite < amount) :
    canWithdraw cfg s who amount = .underflow ∨ canWithdraw cfg s who amount = .balanceLow ∨
      canWithdraw cfg s who amount = .frozen := by
  unfold canWithdraw
  rw [if_neg (by omega)]
  split
  · exact .inl rfl
  · dsimp only
    split
    · exact .inr (.inl rfl)
    · -- the liquidity check refuses it
      exact .inr (.inr rfl)

/-- Within the issuance, a withdrawal is allowed exactly when it is within the liquid balance
`reducible_balance(Expendable, Polite)`. -/
theorem canWithdraw_allowed_iff (hissuance : amount ≤ s.totalIssuance)
    (hfrozen : (s.account who).data.frozen ≤ Unsigned.maxValue cfg.balanceBits) :
    (canWithdraw cfg s who amount = .success ∨ ∃ rest, canWithdraw cfg s who amount = .reducedToZero rest) ↔
      amount ≤ reducibleBalance cfg s who .expendable .polite := by
  constructor
  · intro hallowed
    by_contra hlt
    rcases canWithdraw_of_lt (Nat.lt_of_not_le hlt) with h | h | h <;>
      rcases hallowed with hallowed | ⟨rest, hallowed⟩ <;> rw [h] at hallowed <;> cases hallowed
  · intro hle
    rcases Nat.eq_zero_or_pos amount with rfl | hpos
    · exact .inl (by simp [canWithdraw])
    · rw [canWithdraw_of_le hpos hissuance hfrozen hle]
      split
      · exact .inr ⟨_, rfl⟩
      · exact .inl rfl

/-- `Unbalanced::handle_dust` of pallet-balances: the dust goes to `T::DustRemoval`. -/
def handleDust (s : State AccountId) (dust : Nat) : State AccountId :=
  { s with dustRemoval := s.dustRemoval ++ [dust] }

def setTotalIssuance (s : State AccountId) (amount : Nat) : State AccountId :=
  { s with totalIssuance := amount }

/-- The `if let Some(dust)` of `decrease_balance` and `increase_balance`. -/
def handleMaybeDust (s : State AccountId) : Option Nat → State AccountId
  | some dust => handleDust s dust
  | none => s

variable (maybeDust : Option Nat)

@[simp] theorem handleMaybeDust_account :
    (handleMaybeDust s maybeDust).account = s.account := by
  cases maybeDust <;> rfl

@[simp] theorem handleMaybeDust_totalIssuance :
    (handleMaybeDust s maybeDust).totalIssuance = s.totalIssuance := by
  cases maybeDust <;> rfl

@[simp] theorem handleMaybeDust_dustRemoval :
    (handleMaybeDust s maybeDust).dustRemoval = s.dustRemoval ++ maybeDust.toList := by
  cases maybeDust <;> simp [handleMaybeDust, handleDust]

variable [DecidableEq AccountId]

/-- `Unbalanced::write_balance`: the dust of the write, if any; the reduction is bounded by what
`Expendable` and `Force` could take. -/
def writeBalance (cfg : Config) (s : State AccountId) (who : AccountId) (amount : Nat) :
    State AccountId × Except (DispatchError Error) (Option Nat) :=
  let maxReduction := reducibleBalance cfg s who .expendable .force
  let (account, result) := mutateAccount cfg s.account who fun account =>
    if account.free - amount ≤ maxReduction then
      (({ account with free := amount } : AccountData), (.ok () : Except (DispatchError Error) Unit))
    else (account, .error (.module .insufficientBalance))
  let s := { s with account }
  match result with
  | .error e => (s, .error e)
  | .ok (.error e, _) => (s, .error e)
  | .ok (.ok (), maybeDust) => (s, .ok maybeDust)

/-- `write_balance` on an upgraded account within its reducible balance, once the reference
counters moved without error. -/
theorem writeBalance_of_ok (hnew : (s.account who).data.newLogic = true)
    (hred : (s.account who).data.free - amount ≤ reducibleBalance cfg s who .expendable .force)
    {account' : AccountId → AccountInfo AccountData}
    (hrefs : updateRefs cfg.maxConsumers s.account who
      (decide (cfg.existentialDeposit ≤ (s.account who).data.free)) (s.account who).data.consumes
      (decide (cfg.existentialDeposit ≤ amount)) (s.account who).data.consumes = (account', .ok ())) :
    writeBalance cfg s who amount =
      ({ s with
          account := writeBack account' who
            (settle cfg.existentialDeposit { (s.account who).data with free := amount }).1 },
        .ok (settle cfg.existentialDeposit { (s.account who).data with free := amount }).2) := by
  dsimp only [writeBalance, mutateAccount]
  rw [tryMutateAccount_of_ok hnew { (s.account who).data with free := amount } (.ok ()) (by simp [hred])
    (by simpa using hrefs)]

/-- Writing a balance below the existential deposit to an account with nothing reserved or frozen
removes its data; the balance is dust. -/
theorem writeBalance_of_below (hnew : (s.account who).data.newLogic = true)
    (hreserved : (s.account who).data.reserved = 0) (hfrozen : (s.account who).data.frozen = 0)
    (hcan : canDecProvider s.account who = true) (hed : cfg.existentialDeposit ≤ balance s who)
    (hbelow : amount < cfg.existentialDeposit) (hpos : amount ≠ 0) :
    ∃ account', writeBalance cfg s who amount = ({ s with account := account' }, .ok (some amount)) ∧
      (account' who).data = default := by
  obtain ⟨account', status, hdec⟩ := decProviders_ok_of_canDecProvider (E := Error) hcan
  have hconsumes : (s.account who).data.consumes = false := by
    simp [AccountData.consumes, hreserved, hfrozen]
  have hrefs := updateRefs_unprovide cfg.maxConsumers false hdec
  simp only [balance] at hed
  have hsettle : settle cfg.existentialDeposit { (s.account who).data with free := amount } =
      (none, some amount) := by
    simp [settle, hbelow, hreserved, hpos]
  rw [writeBalance_of_ok hnew (by rw [reducibleBalance_of_canDecProvider hfrozen hcan]; simp [balance])
    (by simpa [hconsumes, hed, Nat.not_le.mpr hbelow] using hrefs), hsettle]
  exact ⟨_, rfl, writeBack_none_data⟩

/-- Writing at least the existential deposit to an account with default data creates it with that
free balance, without dust. -/
theorem writeBalance_of_default (hd : (s.account who).data = default)
    (hed0 : 0 < cfg.existentialDeposit) (hed : cfg.existentialDeposit ≤ amount) :
    ∃ account', writeBalance cfg s who amount = ({ s with account := account' }, .ok none) ∧
      (account' who).data = { (default : AccountData) with free := amount } := by
  have hrefs : updateRefs cfg.maxConsumers s.account who false false true false =
      ((incProviders s.account who).1, .ok ()) := updateRefs_provide cfg.maxConsumers false
  have hsettle : settle cfg.existentialDeposit { (s.account who).data with free := amount } =
      (some { (default : AccountData) with free := amount }, none) := by
    simp [settle, hd, Nat.not_lt.mpr hed]
  rw [writeBalance_of_ok (by simp [hd]) (by simp [hd]) (by simpa [hd, hed, Nat.not_le.mpr hed0] using hrefs),
    hsettle]
  refine ⟨_, rfl, ?_⟩
  rw [writeBack_of_alive (.inl incProviders_providers_pos)]
  simp

/-- `Unbalanced::decrease_balance`: the amount by which the free balance went down. -/
def decreaseBalance (cfg : Config) (s : State AccountId) (who : AccountId) (amount : Nat)
    (precision : Precision) (preservation : Preservation) (force : Fortitude) :
    State AccountId × Except (DispatchError Error) Nat :=
  let oldBalance := balance s who
  let free := reducibleBalance cfg s who preservation force
  let amount := if precision = .bestEffort then min amount free else amount
  match Unsigned.checkedSub oldBalance amount with
  | none => (s, .error (.token .fundsUnavailable))
  | some newBalance =>
    match writeBalance cfg s who newBalance with
    | (s, .error e) => (s, .error e)
    | (s, .ok maybeDust) => (handleMaybeDust s maybeDust, .ok (oldBalance - newBalance))

/-- `decrease_balance` with `BestEffort` within the reducible balance takes exactly the amount; the
write's dust goes to `handle_dust`. -/
theorem decreaseBalance_of_writeBalance {preservation : Preservation} {force : Fortitude}
    (hred : amount ≤ reducibleBalance cfg s who preservation force) (hle : amount ≤ balance s who)
    {s' : State AccountId} {maybeDust : Option Nat}
    (hwrite : writeBalance cfg s who (balance s who - amount) = (s', .ok maybeDust)) :
    decreaseBalance cfg s who amount .bestEffort preservation force =
      (handleMaybeDust s' maybeDust, .ok amount) := by
  simp [decreaseBalance, min_eq_left hred, Unsigned.checkedSub_of_le hle, hwrite, Nat.sub_sub_self hle]

/-- `Unbalanced::increase_balance`: the amount by which the free balance went up. -/
def increaseBalance (cfg : Config) (s : State AccountId) (who : AccountId) (amount : Nat)
    (precision : Precision) : State AccountId × Except (DispatchError Error) Nat :=
  let oldBalance := balance s who
  let newBalance :=
    if precision = .bestEffort then some (Unsigned.saturatingAdd cfg.balanceBits oldBalance amount)
    else Unsigned.checkedAdd cfg.balanceBits oldBalance amount
  match newBalance with
  | none => (s, .error (.arithmetic .overflow))
  | some newBalance =>
    if newBalance < cfg.existentialDeposit then
      -- from zero to below the minimum: the balance stays at zero
      if precision = .bestEffort then (s, .ok 0) else (s, .error (.token .belowMinimum))
    else if newBalance = oldBalance then (s, .ok 0)
    else
      match writeBalance cfg s who newBalance with
      | (s, .error e) => (s, .error e)
      | (s, .ok maybeDust) => (handleMaybeDust s maybeDust, .ok (newBalance - oldBalance))

/-- `increase_balance` with `BestEffort` to at least the existential deposit adds exactly the
amount asked. -/
theorem increaseBalance_of_writeBalance (hpos : amount ≠ 0)
    (hfits : balance s who + amount ≤ Unsigned.maxValue cfg.balanceBits)
    (hed : cfg.existentialDeposit ≤ balance s who + amount)
    {s' : State AccountId} {maybeDust : Option Nat}
    (hwrite : writeBalance cfg s who (balance s who + amount) = (s', .ok maybeDust)) :
    increaseBalance cfg s who amount .bestEffort = (handleMaybeDust s' maybeDust, .ok amount) := by
  simp [increaseBalance, Unsigned.saturatingAdd_of_le hfits, Nat.not_lt.mpr hed, hpos, hwrite]

/-- `increase_balance` with `BestEffort` that would stay below the existential deposit does
nothing and reports success. -/
theorem increaseBalance_of_lt_minimum
    (hfits : balance s who + amount ≤ Unsigned.maxValue cfg.balanceBits)
    (hlt : balance s who + amount < cfg.existentialDeposit) :
    increaseBalance cfg s who amount .bestEffort = (s, .ok 0) := by
  simp [increaseBalance, Unsigned.saturatingAdd_of_le hfits, hlt]

def mintInto (cfg : Config) (s : State AccountId) (who : AccountId) (amount : Nat) :
    State AccountId × Except (DispatchError Error) Nat :=
  match Unsigned.checkedAdd cfg.balanceBits s.totalIssuance amount with
  | none => (s, .error (.arithmetic .overflow))
  | some _ =>
    match increaseBalance cfg s who amount .exact with
    | (s, .error e) => (s, .error e)
    | (s, .ok actual) =>
      (setTotalIssuance s (Unsigned.saturatingAdd cfg.balanceBits s.totalIssuance actual), .ok actual)

def burnFrom (cfg : Config) (s : State AccountId) (who : AccountId) (amount : Nat)
    (precision : Precision) (force : Fortitude) : State AccountId × Except (DispatchError Error) Nat :=
  let actual := min (reducibleBalance cfg s who .expendable force) amount
  if ¬(actual = amount ∨ precision = .bestEffort) then (s, .error (.token .fundsUnavailable))
  else
    match Unsigned.checkedSub s.totalIssuance actual with
    | none => (s, .error (.arithmetic .overflow))
    | some _ =>
      match decreaseBalance cfg s who actual .bestEffort .expendable force with
      | (s, .error e) => (s, .error e)
      | (s, .ok actual) => (setTotalIssuance s (s.totalIssuance - actual), .ok actual)

def shelve (cfg : Config) (s : State AccountId) (who : AccountId) (amount : Nat) :
    State AccountId × Except (DispatchError Error) Nat :=
  let actual := min (reducibleBalance cfg s who .expendable .polite) amount
  if actual ≠ amount then (s, .error (.token .fundsUnavailable))
  else
    match Unsigned.checkedSub s.totalIssuance actual with
    | none => (s, .error (.arithmetic .overflow))
    | some _ =>
      match decreaseBalance cfg s who actual .bestEffort .expendable .polite with
      | (s, .error e) => (s, .error e)
      | (s, .ok actual) => (setTotalIssuance s (s.totalIssuance - actual), .ok actual)

def restore (cfg : Config) (s : State AccountId) (who : AccountId) (amount : Nat) :
    State AccountId × Except (DispatchError Error) Nat :=
  match Unsigned.checkedAdd cfg.balanceBits s.totalIssuance amount with
  | none => (s, .error (.arithmetic .overflow))
  | some _ =>
    match increaseBalance cfg s who amount .exact with
    | (s, .error e) => (s, .error e)
    | (s, .ok actual) =>
      (setTotalIssuance s (Unsigned.saturatingAdd cfg.balanceBits s.totalIssuance actual), .ok actual)

/-- `Mutate::transfer`. Both checks read the state before the debit, and the deposit's result is
discarded. -/
def transfer (cfg : Config) (s : State AccountId) (source dest : AccountId) (amount : Nat)
    (preservation : Preservation) : State AccountId × Except (DispatchError Error) Nat :=
  match (canWithdraw cfg s source amount).intoResult (preservation ≠ .expendable) with
  | .error e => (s, .error e)
  | .ok _ =>
    match (canDeposit cfg s dest amount .extant).intoResult with
    | .error e => (s, .error e)
    | .ok () =>
      match decreaseBalance cfg s source amount .bestEffort preservation .polite with
      | (s, .error e) => (s, .error e)
      | (s, .ok _) => ((increaseBalance cfg s dest amount .bestEffort).1, .ok amount)

/-- `Mutate::set_balance`: the new balance, or the old one when the change failed. -/
def setBalance (cfg : Config) (s : State AccountId) (who : AccountId) (amount : Nat) :
    State AccountId × Nat :=
  let b := balance s who
  if amount < b then
    match burnFrom cfg s who (b - amount) .bestEffort .force with
    | (s, .ok d) => (s, b - d)
    | (s, .error _) => (s, b)
  else
    match mintInto cfg s who (amount - b) with
    | (s, .ok d) => (s, Unsigned.saturatingAdd cfg.balanceBits b d)
    | (s, .error _) => (s, b)

end Substrate.Balances
