import Substrate.Arithmetic.PerThing
import Substrate.Lib.BinarySearch
import Mathlib

/-! # Paying out the stakers of an era

`do_payout_stakers` and `make_payout` of `src/frame/staking/src/pallet/impls.rs`. Ratios are
`Perbill::from_rational`, rounding down; products with a balance round to the nearest. The era is
marked claimed before anything is paid; the currency is a parameter.
-/

namespace Substrate.Staking

open Substrate.Arithmetic BinarySearch

abbrev Perbill := PerThing 1000000000

inductive RewardDestination (AccountId : Type) where
  | staked
  | stash
  | controller
  | account (dest : AccountId)
  | none
  deriving DecidableEq

/-- The part of `StakingLedger` a payout reads and writes. -/
structure StakingLedger (AccountId : Type) where
  stash : AccountId
  total : Nat
  active : Nat
  claimedRewards : List Nat
  deriving DecidableEq

structure IndividualExposure (AccountId : Type) where
  who : AccountId
  value : Nat
  deriving DecidableEq

structure Exposure (AccountId : Type) where
  total : Nat
  own : Nat
  others : List (IndividualExposure AccountId)
  deriving DecidableEq

def Exposure.default {AccountId : Type} : Exposure AccountId := ⟨0, 0, []⟩

/-- `EraRewardPoints`: the total, and the points of each validator as a map. -/
structure EraRewardPoints (AccountId : Type) where
  total : Nat
  individual : List (AccountId × Nat)
  deriving DecidableEq

inductive PayoutError where
  | invalidEraToReward
  | notStash
  | notController
  | alreadyClaimed
  | boundNotMet
  deriving DecidableEq

inductive Event (AccountId : Type) where
  | payoutStarted (eraIndex : Nat) (validatorStash : AccountId)
  | rewarded (stash : AccountId) (amount : Nat)
  deriving DecidableEq

/-- The currency, over its own state: a deposit returns what it created. -/
structure Currency (AccountId Balances : Type) where
  depositCreating : Balances → AccountId → Nat → Balances × Nat
  depositIntoExisting : Balances → AccountId → Nat → Option (Balances × Nat)
  setLock : Balances → AccountId → Nat → Balances

structure Config (AccountId Balances : Type) where
  historyDepth : Nat
  currency : Currency AccountId Balances

/-- The storage a payout reads and writes. -/
structure State (AccountId Balances : Type) where
  currentEra : Option Nat
  erasValidatorReward : Nat → Option Nat
  bonded : AccountId → Option AccountId
  ledger : AccountId → Option (StakingLedger AccountId)
  payee : AccountId → RewardDestination AccountId
  erasStakersClipped : Nat → AccountId → Exposure AccountId
  erasRewardPoints : Nat → EraRewardPoints AccountId
  /-- The commission of `ErasValidatorPrefs`. -/
  erasValidatorPrefs : Nat → AccountId → Perbill
  balances : Balances
  events : List (Event AccountId)

variable {AccountId Balances : Type} [DecidableEq AccountId]
  (cfg : Config AccountId Balances)

def State.deposit (s : State AccountId Balances) (event : Event AccountId) :
    State AccountId Balances :=
  { s with events := s.events ++ [event] }

def State.insertLedger (s : State AccountId Balances) (controller : AccountId)
    (ledger : StakingLedger AccountId) : State AccountId Balances :=
  { s with ledger := Function.update s.ledger controller (some ledger) }

def State.updateLedger (s : State AccountId Balances) (controller : AccountId)
    (ledger : StakingLedger AccountId) : State AccountId Balances :=
  { s.insertLedger controller ledger with
    balances := cfg.currency.setLock s.balances ledger.stash ledger.total }

def State.depositCreating (s : State AccountId Balances) (who : AccountId) (amount : Nat) :
    State AccountId Balances × Nat :=
  let (balances, imbalance) := cfg.currency.depositCreating s.balances who amount
  ({ s with balances }, imbalance)

def State.depositIntoExisting (s : State AccountId Balances) (who : AccountId) (amount : Nat) :
    State AccountId Balances × Option Nat :=
  match cfg.currency.depositIntoExisting s.balances who amount with
  | some (balances, imbalance) => ({ s with balances }, some imbalance)
  | none => (s, none)

/-- `make_payout`: the amount goes where the stash's payee says; `Staked` also adds it to the
stash's ledger, whether or not the deposit succeeds. -/
def makePayout (s : State AccountId Balances) (stash : AccountId) (amount : Nat) :
    State AccountId Balances × Option Nat :=
  match s.payee stash with
  | .controller =>
      match s.bonded stash with
      | some controller =>
          let (s, imbalance) := s.depositCreating cfg controller amount
          (s, some imbalance)
      | none => (s, none)
  | .stash => s.depositIntoExisting cfg stash amount
  | .staked =>
      match s.bonded stash with
      | none => (s, none)
      | some controller =>
          match s.ledger controller with
          | none => (s, none)
          | some l =>
              let l := { l with active := l.active + amount, total := l.total + amount }
              let (s, r) := s.depositIntoExisting cfg stash amount
              (s.updateLedger cfg controller l, r)
  | .account dest =>
      let (s, imbalance) := s.depositCreating cfg dest amount
      (s, some imbalance)
  | .none => (s, none)

def payAndReport (s : State AccountId Balances) (stash : AccountId) (amount : Nat) :
    State AccountId Balances :=
  match makePayout cfg s stash amount with
  | (s, some imbalance) => s.deposit (.rewarded stash imbalance)
  | (s, none) => s

/-- The loop over the clipped exposures of the nominators: each gets its exposure's share of the
leftover. -/
def payNominators (leftover total : Nat) (s : State AccountId Balances) :
    List (IndividualExposure AccountId) → State AccountId Balances
  | [] => s
  | nominator :: rest =>
      let nominatorExposurePart : Perbill := PerThing.fromRational nominator.value total
      let nominatorReward := nominatorExposurePart.mul leftover
      payNominators leftover total (payAndReport cfg s nominator.who nominatorReward) rest

/-- The split of a validator's share of the era payout: the commission, the validator's staking
payout, and the leftover the nominators' shares are taken from. -/
structure PayoutSplit where
  validatorTotalPayout : Nat
  validatorCommissionPayout : Nat
  validatorLeftoverPayout : Nat
  validatorStakingPayout : Nat

/-- The arithmetic of `do_payout_stakers`, from the era payout, the points, the commission and the
exposure. -/
def payoutSplit (eraPayout validatorRewardPoints totalRewardPoints : Nat) (commission : Perbill)
    (exposure : Exposure AccountId) : PayoutSplit :=
  let validatorTotalRewardPart : Perbill :=
    PerThing.fromRational validatorRewardPoints totalRewardPoints
  let validatorTotalPayout := validatorTotalRewardPart.mul eraPayout
  let validatorCommissionPayout := commission.mul validatorTotalPayout
  let validatorLeftoverPayout := validatorTotalPayout - validatorCommissionPayout
  let validatorExposurePart : Perbill := PerThing.fromRational exposure.own exposure.total
  ⟨validatorTotalPayout, validatorCommissionPayout, validatorLeftoverPayout,
    validatorExposurePart.mul validatorLeftoverPayout⟩

def EraRewardPoints.pointsOf (points : EraRewardPoints AccountId) (v : AccountId) : Nat :=
  (points.individual.lookup v).getD 0

/-- The claimed eras after `retain`, and the answer of `binary_search` with the bound of the
`BoundedVec`: the list with the era inserted, or the error. -/
def claimEra (currentEra era : Nat) (claimedRewards : List Nat) : Except PayoutError (List Nat) :=
  let claimed := claimedRewards.filter fun x => currentEra - cfg.historyDepth ≤ x
  match binarySearchByKey claimed era id with
  | .ok _ => .error .alreadyClaimed
  | .error pos =>
      -- `try_insert` fails on a full `BoundedVec`
      if cfg.historyDepth ≤ claimed.length then .error .boundNotMet
      else .ok (claimed.insertIdx pos era)

def doPayoutStakers (s : State AccountId Balances) (validatorStash : AccountId) (era : Nat) :
    State AccountId Balances × Except PayoutError Unit :=
  match s.currentEra with
  | none => (s, .error .invalidEraToReward)
  | some currentEra =>
      if ¬(era ≤ currentEra ∧ currentEra - cfg.historyDepth ≤ era) then
        (s, .error .invalidEraToReward)
      else
        match s.erasValidatorReward era, s.bonded validatorStash with
        | none, _ => (s, .error .invalidEraToReward)
        | some _, none => (s, .error .notStash)
        | some eraPayout, some controller =>
            match s.ledger controller with
            | none => (s, .error .notController)
            | some ledger =>
                match claimEra cfg currentEra era ledger.claimedRewards with
                | .error e => (s, .error e)
                | .ok claimedRewards =>
                    let ledger := { ledger with claimedRewards }
                    let exposure := s.erasStakersClipped era ledger.stash
                    -- no errors allowed after this point
                    let s := s.insertLedger controller ledger
                    let points := s.erasRewardPoints era
                    let validatorRewardPoints := points.pointsOf ledger.stash
                    if validatorRewardPoints = 0 then (s, .ok ())
                    else
                      let split := payoutSplit eraPayout validatorRewardPoints points.total
                        (s.erasValidatorPrefs era validatorStash) exposure
                      let s := s.deposit (.payoutStarted era ledger.stash)
                      let s := payAndReport cfg s ledger.stash
                        (split.validatorStakingPayout + split.validatorCommissionPayout)
                      (payNominators cfg split.validatorLeftoverPayout exposure.total s
                        exposure.others, .ok ())

/-- `payout_stakers` called one after the other: each call in its own storage layer, so that a
failed call leaves the storage as it was. -/
def payoutRun (s : State AccountId Balances) : List (AccountId × Nat) → State AccountId Balances
  | [] => s
  | (v, era) :: rest =>
      match doPayoutStakers cfg s v era with
      | (s', .ok ()) => payoutRun s' rest
      | (_, .error _) => payoutRun s rest

end Substrate.Staking
