import Substrate.Staking.Payout
import Mathlib

/-! # What a payout pays, and how often

A validator is paid at most once for an era while it is within `HistoryDepth`. What a payout pays
is bounded by the validator's share of the era payout up to rounding: each product of a `Perbill`
and a balance may be half a unit above its exact value.
-/

namespace Substrate.Staking

open Substrate.Arithmetic BinarySearch

variable {AccountId Balances : Type} (cfg : Config AccountId Balances)
  {s s' : State AccountId Balances}

/-! ## What every payment keeps -/

/-- The stash and the claimed eras of a ledger, which payments do not change. -/
def StakingLedger.claims (l : StakingLedger AccountId) : AccountId × List Nat :=
  (l.stash, l.claimedRewards)

structure Keeps (s s' : State AccountId Balances) : Prop where
  currentEra : s'.currentEra = s.currentEra
  erasValidatorReward : s'.erasValidatorReward = s.erasValidatorReward
  bonded : s'.bonded = s.bonded
  payee : s'.payee = s.payee
  erasStakersClipped : s'.erasStakersClipped = s.erasStakersClipped
  erasRewardPoints : s'.erasRewardPoints = s.erasRewardPoints
  erasValidatorPrefs : s'.erasValidatorPrefs = s.erasValidatorPrefs
  ledger : ∀ c, (s'.ledger c).map StakingLedger.claims = (s.ledger c).map StakingLedger.claims

theorem Keeps.refl (s : State AccountId Balances) : Keeps s s :=
  ⟨rfl, rfl, rfl, rfl, rfl, rfl, rfl, fun _ => rfl⟩

theorem Keeps.trans {s₁ s₂ s₃ : State AccountId Balances} (h₁ : Keeps s₁ s₂) (h₂ : Keeps s₂ s₃) :
    Keeps s₁ s₃ where
  currentEra := h₂.currentEra.trans h₁.currentEra
  erasValidatorReward := h₂.erasValidatorReward.trans h₁.erasValidatorReward
  bonded := h₂.bonded.trans h₁.bonded
  payee := h₂.payee.trans h₁.payee
  erasStakersClipped := h₂.erasStakersClipped.trans h₁.erasStakersClipped
  erasRewardPoints := h₂.erasRewardPoints.trans h₁.erasRewardPoints
  erasValidatorPrefs := h₂.erasValidatorPrefs.trans h₁.erasValidatorPrefs
  ledger c := (h₂.ledger c).trans (h₁.ledger c)

/-- A state that differs only in its balances and events keeps everything. -/
theorem Keeps.of_balances (balances : Balances)
    (events : List (Event AccountId)) : Keeps s { s with balances, events } :=
  ⟨rfl, rfl, rfl, rfl, rfl, rfl, rfl, fun _ => rfl⟩

theorem Keeps.ledger_some (h : Keeps s s') {controller : AccountId}
    {ledger' : StakingLedger AccountId} (hledger : s'.ledger controller = some ledger') :
    ∃ ledger, s.ledger controller = some ledger ∧ ledger.stash = ledger'.stash ∧
      ledger.claimedRewards = ledger'.claimedRewards := by
  have hclaims := h.ledger controller
  rw [hledger, Option.map_some, eq_comm, Option.map_eq_some_iff] at hclaims
  obtain ⟨ledger, hsome, heq⟩ := hclaims
  simp only [StakingLedger.claims, Prod.mk.injEq] at heq
  exact ⟨ledger, hsome, heq⟩

theorem Keeps.ledger_some_of (h : Keeps s s')
    {controller : AccountId} {ledger : StakingLedger AccountId}
    (hledger : s.ledger controller = some ledger) :
    ∃ ledger', s'.ledger controller = some ledger' ∧ ledger'.stash = ledger.stash ∧
      ledger'.claimedRewards = ledger.claimedRewards := by
  have hclaims := h.ledger controller
  rw [hledger, Option.map_some, Option.map_eq_some_iff] at hclaims
  obtain ⟨ledger', hsome, heq⟩ := hclaims
  simp only [StakingLedger.claims, Prod.mk.injEq] at heq
  exact ⟨ledger', hsome, heq⟩

/-- A deposit is paid to a currency whose deposits create at most what they are asked for. -/
structure Currency.Lawful (currency : Currency AccountId Balances) : Prop where
  depositCreating_le : ∀ balances who amount, (currency.depositCreating balances who amount).2 ≤ amount
  depositIntoExisting_le : ∀ balances who amount balances' imbalance,
    currency.depositIntoExisting balances who amount = some (balances', imbalance) →
      imbalance ≤ amount

section Pay

variable {stash : AccountId} {amount : Nat}

theorem depositIntoExisting_keeps (s : State AccountId Balances) (stash : AccountId) (amount : Nat) :
    Keeps s (s.depositIntoExisting cfg stash amount).1 ∧
      (s.depositIntoExisting cfg stash amount).1.events = s.events := by
  rw [State.depositIntoExisting]
  split
  · exact ⟨Keeps.of_balances _ _, rfl⟩
  · exact ⟨Keeps.refl s, rfl⟩

theorem depositIntoExisting_le (hlawful : cfg.currency.Lawful) {imbalance : Nat}
    (h : (s.depositIntoExisting cfg stash amount).2 = some imbalance) : imbalance ≤ amount := by
  rw [State.depositIntoExisting] at h
  split at h
  · rename_i balances imbalance' hdeposit
    cases h
    exact hlawful.depositIntoExisting_le _ _ _ _ _ hdeposit
  · cases h

variable [DecidableEq AccountId]

/-- `make_payout` keeps what paying keeps, deposits no event and creates at most the amount. -/
theorem makePayout_keeps (hlawful : cfg.currency.Lawful) (s : State AccountId Balances)
    (stash : AccountId) (amount : Nat) :
    Keeps s (makePayout cfg s stash amount).1 ∧ (makePayout cfg s stash amount).1.events = s.events ∧
      ∀ imbalance, (makePayout cfg s stash amount).2 = some imbalance → imbalance ≤ amount := by
  rw [makePayout]
  split
  · -- to the controller
    split
    · exact ⟨Keeps.of_balances _ _, rfl, fun _ h => by
        cases h
        exact hlawful.depositCreating_le _ _ _⟩
    · exact ⟨Keeps.refl s, rfl, fun _ h => by cases h⟩
  · -- to the stash
    exact ⟨(depositIntoExisting_keeps cfg s stash amount).1,
      (depositIntoExisting_keeps cfg s stash amount).2,
      fun _ h => depositIntoExisting_le cfg hlawful h⟩
  · -- staked: the ledger grows, with the same stash and claimed eras
    split
    · exact ⟨Keeps.refl s, rfl, fun _ h => by cases h⟩
    · rename_i controller hbonded
      split
      · exact ⟨Keeps.refl s, rfl, fun _ h => by cases h⟩
      · rename_i l hledger
        obtain ⟨hkeeps, hevents⟩ := depositIntoExisting_keeps cfg s stash amount
        refine ⟨⟨hkeeps.currentEra, hkeeps.erasValidatorReward, hkeeps.bonded, hkeeps.payee,
          hkeeps.erasStakersClipped, hkeeps.erasRewardPoints, hkeeps.erasValidatorPrefs,
          fun c => ?_⟩, hevents, fun _ h => depositIntoExisting_le cfg hlawful h⟩
        by_cases hc : c = controller
        · subst hc
          simp [State.updateLedger, State.insertLedger, hledger, StakingLedger.claims]
        · simp only [State.updateLedger, State.insertLedger, Function.update_of_ne hc]
          exact hkeeps.ledger c
  · exact ⟨Keeps.of_balances _ _, rfl, fun _ h => by
      cases h
      exact hlawful.depositCreating_le _ _ _⟩
  · exact ⟨Keeps.refl s, rfl, fun _ h => by cases h⟩

def rewardedEvents (rs : List (AccountId × Nat)) : List (Event AccountId) :=
  rs.map fun r => .rewarded r.1 r.2

/-- A payment keeps what paying keeps and reports at most the amount in `Rewarded` events. -/
theorem payAndReport_keeps (hlawful : cfg.currency.Lawful) (s : State AccountId Balances)
    (stash : AccountId) (amount : Nat) :
    Keeps s (payAndReport cfg s stash amount) ∧ ∃ rs : List (AccountId × Nat),
      (payAndReport cfg s stash amount).events = s.events ++ rewardedEvents rs ∧
        (rs.map Prod.snd).sum ≤ amount := by
  obtain ⟨hkeeps, hevents, hle⟩ := makePayout_keeps cfg hlawful s stash amount
  rw [payAndReport]
  split
  · rename_i s₁ imbalance hpay
    rw [hpay] at hkeeps hevents hle
    refine ⟨hkeeps.trans (Keeps.of_balances _ _), [(stash, imbalance)], ?_, ?_⟩
    · rw [State.deposit, hevents]
      rfl
    · simpa using hle imbalance rfl
  · rename_i s₁ hpay
    rw [hpay] at hkeeps hevents
    exact ⟨hkeeps, [], by simpa [rewardedEvents] using hevents, Nat.zero_le _⟩

def nominatorRewards (leftover total : Nat) (others : List (IndividualExposure AccountId)) :
    List Nat :=
  others.map fun nominator => (PerThing.fromRational nominator.value total : Perbill).mul leftover

/-- The run lemma of the nominators' loop: it keeps what paying keeps and reports at most the
nominators' shares. -/
theorem payNominators_keeps (hlawful : cfg.currency.Lawful) (leftover total : Nat) :
    ∀ (others : List (IndividualExposure AccountId)) (s : State AccountId Balances),
      Keeps s (payNominators cfg leftover total s others) ∧ ∃ rs : List (AccountId × Nat),
        (payNominators cfg leftover total s others).events = s.events ++ rewardedEvents rs ∧
          (rs.map Prod.snd).sum ≤ (nominatorRewards leftover total others).sum
  | [], s => ⟨Keeps.refl s, [], by simp [payNominators, rewardedEvents], Nat.zero_le _⟩
  | nominator :: rest, s => by
    obtain ⟨hkeeps₁, rs₁, hevents₁, hle₁⟩ := payAndReport_keeps cfg hlawful s nominator.who
      ((PerThing.fromRational nominator.value total : Perbill).mul leftover)
    obtain ⟨hkeeps₂, rs₂, hevents₂, hle₂⟩ := payNominators_keeps hlawful leftover total rest
      (payAndReport cfg s nominator.who
        ((PerThing.fromRational nominator.value total : Perbill).mul leftover))
    refine ⟨hkeeps₁.trans hkeeps₂, rs₁ ++ rs₂, ?_, ?_⟩
    · rw [payNominators, hevents₂, hevents₁, rewardedEvents, rewardedEvents, rewardedEvents,
        List.map_append, List.append_assoc]
    · rw [nominatorRewards, List.map_cons, List.sum_cons, List.map_append, List.sum_append]
      exact Nat.add_le_add hle₁ hle₂

end Pay

/-! ## The arithmetic of one payout -/

section Split

/-- What `do_payout_stakers` asks to be paid: the validator's staking payout and commission, and
each nominator's share of the leftover. -/
def PayoutSplit.asked (split : PayoutSplit) (exposure : Exposure AccountId) : Nat :=
  split.validatorStakingPayout + split.validatorCommissionPayout +
    (nominatorRewards split.validatorLeftoverPayout exposure.total exposure.others).sum

/-- An exposure whose parts add up to at most its total, which is not zero. -/
structure Exposure.Clipped (exposure : Exposure AccountId) : Prop where
  total_pos : 0 < exposure.total
  parts_le : exposure.own + (exposure.others.map IndividualExposure.value).sum ≤ exposure.total

/-- A validator with `p` of the `T` points is asked for its share of the era payout, plus half a
unit for each product that rounds. -/
theorem payoutSplit_asked_le {eraPayout p T : Nat} (commission : Perbill)
    {exposure : Exposure AccountId} (hT : 0 < T) (hp : p ≤ T) (hclipped : exposure.Clipped) :
    2 * T * (payoutSplit eraPayout p T commission exposure).asked exposure ≤
      2 * eraPayout * p + T * (exposure.others.length + 2) := by
  set split := payoutSplit eraPayout p T commission exposure
  have htotal : 2 * T * split.validatorTotalPayout ≤ 2 * eraPayout * p + T :=
    PerThing.mul_fromRational_le (by norm_num) hT hp eraPayout
  have hcommission : split.validatorCommissionPayout ≤ split.validatorTotalPayout :=
    PerThing.mul_le_self (by norm_num) _ _
  have hleftover : split.validatorLeftoverPayout + split.validatorCommissionPayout =
      split.validatorTotalPayout :=
    Nat.sub_add_cancel hcommission
  -- the validator's own stake is one more share of the leftover, beside the nominators'
  have hshares : 2 * (split.validatorStakingPayout +
      (nominatorRewards split.validatorLeftoverPayout exposure.total exposure.others).sum) ≤
      2 * split.validatorLeftoverPayout + (exposure.others.length + 1) := by
    have hsum := PerThing.sum_mul_fromRational_le (by norm_num : 0 < 1000000000)
      hclipped.total_pos (exposure.own :: exposure.others.map IndividualExposure.value)
      (by simpa using hclipped.parts_le) split.validatorLeftoverPayout
    simpa [nominatorRewards, Function.comp_def, split, payoutSplit] using hsum
  have hasked : 2 * split.asked exposure ≤
      2 * split.validatorTotalPayout + (exposure.others.length + 1) := by
    rw [PayoutSplit.asked]
    omega
  calc 2 * T * split.asked exposure = T * (2 * split.asked exposure) := by ring
    _ ≤ T * (2 * split.validatorTotalPayout + (exposure.others.length + 1)) :=
        Nat.mul_le_mul_left _ hasked
    _ = 2 * T * split.validatorTotalPayout + T * (exposure.others.length + 1) := by ring
    _ ≤ 2 * eraPayout * p + T + T * (exposure.others.length + 1) :=
        Nat.add_le_add_right htotal _
    _ = 2 * eraPayout * p + T * (exposure.others.length + 2) := by ring

end Split

/-! ## Claiming an era -/

section Claim

@[simp] theorem State.insertLedger_ledger (s : State AccountId Balances) [DecidableEq AccountId]
    (controller : AccountId) (ledger : StakingLedger AccountId) :
    (s.insertLedger controller ledger).ledger = Function.update s.ledger controller (some ledger) :=
  rfl

variable {currentEra era : Nat}

/-- An era that `claimEra` accepts is claimed after it, and so is every claimed era that is not
pruned. -/
theorem mem_of_claimEra_ok {claimedRewards claimed : List Nat}
    (h : claimEra cfg currentEra era claimedRewards = .ok claimed) :
    era ∈ claimed ∧ ∀ x ∈ claimedRewards, currentEra - cfg.historyDepth ≤ x → x ∈ claimed := by
  rw [claimEra] at h
  split at h
  · cases h
  · rename_i pos hsearch
    split at h
    · cases h
    · cases h
      have hpos : pos ≤ (claimedRewards.filter fun x => currentEra - cfg.historyDepth ≤ x).length := by
        rw [(binarySearchByKey_eq_error hsearch).1]
        exact lowerBound_le_length
      refine ⟨(List.mem_insertIdx hpos).mpr (.inl rfl), fun x hx hle => ?_⟩
      exact (List.mem_insertIdx hpos).mpr (.inr (List.mem_filter.mpr ⟨hx, decide_eq_true hle⟩))

/-- `claimEra` keeps the claimed eras sorted. -/
theorem sorted_of_claimEra_ok {claimedRewards claimed : List Nat}
    (hsorted : StrictlySorted claimedRewards id)
    (h : claimEra cfg currentEra era claimedRewards = .ok claimed) : StrictlySorted claimed id := by
  rw [claimEra] at h
  split at h
  · cases h
  · rename_i pos hsearch
    split at h
    · cases h
    · cases h
      exact strictlySorted_insertIdx (hsorted.filter _) hsearch rfl

/-- An era already claimed, and not pruned, is found by the binary search. -/
theorem claimEra_of_mem {claimedRewards : List Nat}
    (hsorted : StrictlySorted claimedRewards id) (hmem : era ∈ claimedRewards)
    (hera : currentEra - cfg.historyDepth ≤ era) :
    claimEra cfg currentEra era claimedRewards = .error .alreadyClaimed := by
  set claimed := claimedRewards.filter fun x => decide (currentEra - cfg.historyDepth ≤ x)
  have hfound : binarySearchByKey claimed era id = .ok (lowerBound claimed id era) :=
    binarySearchByKey_of_mem (hsorted.filter _) (List.mem_filter.mpr ⟨hmem, decide_eq_true hera⟩)
      rfl
  rw [claimEra, hfound]

variable [DecidableEq AccountId]

/-- What a successful `do_payout_stakers` did: the checks it passed, the ledger it stored, and
what it paid when the validator has points. -/
theorem doPayoutStakers_ok (hlawful : cfg.currency.Lawful)
    {v : AccountId} {era : Nat} (h : doPayoutStakers cfg s v era = (s', .ok ())) :
    ∃ currentEra eraPayout controller ledger claimed,
      s.currentEra = some currentEra ∧ era ≤ currentEra ∧ currentEra - cfg.historyDepth ≤ era ∧
      s.erasValidatorReward era = some eraPayout ∧ s.bonded v = some controller ∧
      s.ledger controller = some ledger ∧
      claimEra cfg currentEra era ledger.claimedRewards = .ok claimed ∧
      Keeps (s.insertLedger controller { ledger with claimedRewards := claimed }) s' ∧
      (s'.events = s.events ∨
        (s.erasRewardPoints era).pointsOf ledger.stash ≠ 0 ∧ ∃ rs : List (AccountId × Nat),
          s'.events = s.events ++ .payoutStarted era ledger.stash :: rewardedEvents rs ∧
          (rs.map Prod.snd).sum ≤
            (payoutSplit eraPayout ((s.erasRewardPoints era).pointsOf ledger.stash)
              (s.erasRewardPoints era).total (s.erasValidatorPrefs era v)
              (s.erasStakersClipped era ledger.stash)).asked
              (s.erasStakersClipped era ledger.stash)) := by
  rw [doPayoutStakers] at h
  split at h
  · cases h
  · rename_i currentEra hcurrent
    split at h
    · cases h
    · rename_i hrange
      rw [not_not] at hrange
      split at h
      · cases h
      · cases h
      · rename_i eraPayout controller hreward hbonded
        split at h
        · cases h
        · rename_i ledger hledger
          split at h
          · cases h
          · rename_i claimed hclaim
            refine ⟨currentEra, eraPayout, controller, ledger, claimed, hcurrent, hrange.1,
              hrange.2, hreward, hbonded, hledger, hclaim, ?_⟩
            dsimp only at h
            split at h
            · -- no points: the ledger is stored and nothing is paid
              cases h
              exact ⟨Keeps.refl _, .inl rfl⟩
            · rename_i hpoints
              cases h
              set s₁ := s.insertLedger controller { ledger with claimedRewards := claimed }
              set split := payoutSplit eraPayout ((s₁.erasRewardPoints era).pointsOf ledger.stash)
                (s₁.erasRewardPoints era).total (s₁.erasValidatorPrefs era v)
                (s.erasStakersClipped era ledger.stash)
              obtain ⟨hkeeps₁, rs₁, hevents₁, hle₁⟩ := payAndReport_keeps cfg hlawful
                (s₁.deposit (.payoutStarted era ledger.stash)) ledger.stash
                (split.validatorStakingPayout + split.validatorCommissionPayout)
              obtain ⟨hkeeps₂, rs₂, hevents₂, hle₂⟩ := payNominators_keeps cfg hlawful
                split.validatorLeftoverPayout (s.erasStakersClipped era ledger.stash).total
                (s.erasStakersClipped era ledger.stash).others
                (payAndReport cfg (s₁.deposit (.payoutStarted era ledger.stash)) ledger.stash
                  (split.validatorStakingPayout + split.validatorCommissionPayout))
              refine ⟨(Keeps.of_balances s₁.balances _).trans (hkeeps₁.trans hkeeps₂),
                .inr ⟨hpoints, rs₁ ++ rs₂, ?_, ?_⟩⟩
              · rw [hevents₂, hevents₁, rewardedEvents, rewardedEvents, rewardedEvents,
                  List.map_append]
                simp [State.deposit, s₁, State.insertLedger]
              · rw [PayoutSplit.asked, List.map_append, List.sum_append]
                exact Nat.add_le_add hle₁ hle₂

end Claim

/-! ## Each era is paid at most once -/

section Once

/-- Every ledger is the ledger of the stash bonded to its controller, and its claimed eras are
sorted, as the binary search over them requires. -/
structure WellFormed (s : State AccountId Balances) : Prop where
  stash : ∀ v controller ledger, s.bonded v = some controller → s.ledger controller = some ledger →
    ledger.stash = v
  sorted : ∀ controller ledger, s.ledger controller = some ledger →
    StrictlySorted ledger.claimedRewards id

def Claimed (s : State AccountId Balances) (v : AccountId) (era : Nat) : Prop :=
  ∃ controller ledger, s.bonded v = some controller ∧ s.ledger controller = some ledger ∧
    era ∈ ledger.claimedRewards

/-- The era can no longer be paid for the validator: within the history it is claimed. -/
def Settled (s : State AccountId Balances) (v : AccountId) (era : Nat) : Prop :=
  ∀ currentEra, s.currentEra = some currentEra → era ≤ currentEra →
    currentEra - cfg.historyDepth ≤ era → Claimed s v era

theorem WellFormed.of_keeps (hwf : WellFormed s)
    (h : Keeps s s') : WellFormed s' where
  stash v controller ledger' hbonded hledger := by
    obtain ⟨ledger, hsome, hstash, -⟩ := h.ledger_some hledger
    rw [← hstash]
    exact hwf.stash v controller ledger (h.bonded ▸ hbonded) hsome
  sorted controller ledger' hledger := by
    obtain ⟨ledger, hsome, -, hclaimed⟩ := h.ledger_some hledger
    rw [← hclaimed]
    exact hwf.sorted controller ledger hsome

variable {v : AccountId} {era : Nat}

theorem Claimed.of_keeps (hclaimed : Claimed s v era) (h : Keeps s s') : Claimed s' v era := by
  obtain ⟨controller, ledger, hbonded, hledger, hmem⟩ := hclaimed
  obtain ⟨ledger', hsome, -, hclaims⟩ := h.ledger_some_of hledger
  exact ⟨controller, ledger', h.bonded ▸ hbonded, hsome, hclaims ▸ hmem⟩

variable [DecidableEq AccountId]

/-- Storing a ledger of the same stash with sorted claimed eras keeps the state well formed. -/
theorem WellFormed.insertLedger (hwf : WellFormed s)
    {controller : AccountId} {ledger : StakingLedger AccountId}
    (hledger : s.ledger controller = some ledger) {claimed : List Nat}
    (hsorted : StrictlySorted claimed id) :
    WellFormed (s.insertLedger controller { ledger with claimedRewards := claimed }) where
  stash v controller' ledger' hbonded hledger' := by
    by_cases hc : controller' = controller
    · subst hc
      simp only [State.insertLedger_ledger, Function.update_self, Option.some.injEq] at hledger'
      subst hledger'
      exact hwf.stash v controller' ledger hbonded hledger
    · rw [State.insertLedger_ledger, Function.update_of_ne hc] at hledger'
      exact hwf.stash v controller' ledger' hbonded hledger'
  sorted controller' ledger' hledger' := by
    by_cases hc : controller' = controller
    · subst hc
      simp only [State.insertLedger_ledger, Function.update_self, Option.some.injEq] at hledger'
      subst hledger'
      exact hsorted
    · rw [State.insertLedger_ledger, Function.update_of_ne hc] at hledger'
      exact hwf.sorted controller' ledger' hledger'

/-- Storing a ledger that keeps a claimed era claimed keeps it claimed. -/
theorem Claimed.insertLedger
    (hclaimed : Claimed s v era) {controller : AccountId} {ledger : StakingLedger AccountId}
    (hledger : s.ledger controller = some ledger) {claimed : List Nat}
    (hkept : era ∈ ledger.claimedRewards → era ∈ claimed) :
    Claimed (s.insertLedger controller { ledger with claimedRewards := claimed }) v era := by
  obtain ⟨controller', ledger', hbonded, hledger', hmem⟩ := hclaimed
  by_cases hc : controller' = controller
  · subst hc
    rw [hledger, Option.some.injEq] at hledger'
    subst hledger'
    exact ⟨controller', { ledger with claimedRewards := claimed }, hbonded, by simp, hkept hmem⟩
  · exact ⟨controller', ledger', hbonded, by simp [Function.update_of_ne hc, hledger'], hmem⟩

/-- A claimed era of the history, whose payout is recorded, is refused as claimed, and the call
changes nothing. -/
theorem doPayoutStakers_alreadyClaimed
    {era currentEra eraPayout : Nat} (hwf : WellFormed s) (hclaimed : Claimed s v era)
    (hcurrent : s.currentEra = some currentEra) (hle : era ≤ currentEra)
    (hhistory : currentEra - cfg.historyDepth ≤ era)
    (hreward : s.erasValidatorReward era = some eraPayout) :
    doPayoutStakers cfg s v era = (s, .error .alreadyClaimed) := by
  obtain ⟨controller, ledger, hbonded, hledger, hmem⟩ := hclaimed
  have hclaim := claimEra_of_mem cfg (hwf.sorted controller ledger hledger) hmem hhistory
  rw [doPayoutStakers, hcurrent]
  simp only [hle, hhistory, and_self, not_true_eq_false, if_false, hreward, hbonded, hledger,
    hclaim]

variable (hlawful : cfg.currency.Lawful)
include hlawful

/-- `do_payout_stakers` keeps the state well formed. -/
theorem doPayoutStakers_wellFormed
    (hwf : WellFormed s) (h : doPayoutStakers cfg s v era = (s', .ok ())) : WellFormed s' := by
  obtain ⟨currentEra, -, controller, ledger, claimed, -, -, -, -, -, hledger, hclaim, hkeeps, -⟩ :=
    doPayoutStakers_ok cfg hlawful h
  have hsorted := sorted_of_claimEra_ok cfg (hwf.sorted controller ledger hledger) hclaim
  exact (hwf.insertLedger hledger hsorted).of_keeps hkeeps

/-- A paid era is claimed. -/
theorem claimed_of_doPayoutStakers
    (h : doPayoutStakers cfg s v era = (s', .ok ())) : Claimed s' v era := by
  obtain ⟨currentEra, -, controller, ledger, claimed, -, -, -, -, hbonded, hledger, hclaim, hkeeps,
    -⟩ := doPayoutStakers_ok cfg hlawful h
  have hstored : Claimed (s.insertLedger controller { ledger with claimedRewards := claimed }) v era :=
    ⟨controller, { ledger with claimedRewards := claimed }, hbonded, by simp,
      (mem_of_claimEra_ok cfg hclaim).1⟩
  exact hstored.of_keeps hkeeps

/-- Paying keeps every claimed era of the history claimed. -/
theorem Settled.doPayoutStakers {v w : AccountId}
    {era era' : Nat} (hsettled : Settled cfg s v era)
    (h : doPayoutStakers cfg s w era' = (s', .ok ())) : Settled cfg s' v era := by
  obtain ⟨currentEra, -, controller, ledger, claimed, hcurrent, -, -, -, -, hledger, hclaim, hkeeps,
    -⟩ := doPayoutStakers_ok cfg hlawful h
  intro currentEra' hcurrent' hle hhistory
  have hsame : s'.currentEra = s.currentEra := hkeeps.currentEra
  rw [hsame, hcurrent, Option.some.injEq] at hcurrent'
  subst hcurrent'
  have hstored := (hsettled currentEra hcurrent hle hhistory).insertLedger hledger
    fun hmem => (mem_of_claimEra_ok cfg hclaim).2 era hmem hhistory
  exact hstored.of_keeps hkeeps

/-- An era that is settled is not paid again. -/
theorem doPayoutStakers_not_ok_of_settled (hwf : WellFormed s) (hsettled : Settled cfg s v era) :
    (doPayoutStakers cfg s v era).2 ≠ .ok () := by
  intro hok
  have hcall : doPayoutStakers cfg s v era = ((doPayoutStakers cfg s v era).1, .ok ()) :=
    Prod.ext rfl hok
  obtain ⟨currentEra, -, controller, ledger, claimed, hcurrent, hle, hhistory, -, hbonded, hledger,
    hclaim, -⟩ := doPayoutStakers_ok cfg hlawful hcall
  obtain ⟨controller', ledger', hbonded', hledger', hmem⟩ :=
    hsettled currentEra hcurrent hle hhistory
  rw [hbonded, Option.some.injEq] at hbonded'
  subst hbonded'
  rw [hledger, Option.some.injEq] at hledger'
  subst hledger'
  rw [claimEra_of_mem cfg (hwf.sorted controller ledger hledger) hmem hhistory] at hclaim
  cases hclaim

/-- The events one payment deposits: none, or a `PayoutStarted` for the validator and era and the
`Rewarded` events of what it paid. -/
theorem doPayoutStakers_events {w : AccountId}
    (hwf : WellFormed s) (h : doPayoutStakers cfg s w era = (s', .ok ())) :
    s'.events = s.events ∨
      (s.erasRewardPoints era).pointsOf w ≠ 0 ∧ ∃ eraPayout, ∃ rs : List (AccountId × Nat),
        s.erasValidatorReward era = some eraPayout ∧
        s'.events = s.events ++ .payoutStarted era w :: rewardedEvents rs ∧
        (rs.map Prod.snd).sum ≤
          (payoutSplit eraPayout ((s.erasRewardPoints era).pointsOf w) (s.erasRewardPoints era).total
            (s.erasValidatorPrefs era w) (s.erasStakersClipped era w)).asked
            (s.erasStakersClipped era w) := by
  obtain ⟨currentEra, eraPayout, controller, ledger, claimed, -, -, -, hreward, hbonded, hledger,
    -, -, hevents⟩ := doPayoutStakers_ok cfg hlawful h
  rw [hwf.stash w controller ledger hbonded hledger] at hevents
  obtain hsame | ⟨hpoints, rs, hstep, hle⟩ := hevents
  · exact .inl hsame
  · exact .inr ⟨hpoints, eraPayout, rs, hreward, hstep, hle⟩

omit hlawful in
@[simp] theorem count_payoutStarted_rewardedEvents (rs : List (AccountId × Nat)) (era : Nat)
    (v : AccountId) : (rewardedEvents rs).count (.payoutStarted era v) = 0 := by
  rw [List.count_eq_zero, rewardedEvents]
  simp

/-- The run lemma: a run of payouts pays each validator at most once for an era, and not at all
for an era that is settled when it starts. -/
theorem payoutRun_paid_once (v : AccountId) (era : Nat) :
    ∀ (calls : List (AccountId × Nat)) (s : State AccountId Balances), WellFormed s →
      ∃ new, (payoutRun cfg s calls).events = s.events ++ new ∧
        new.count (.payoutStarted era v) ≤ 1 ∧
        (Settled cfg s v era → new.count (.payoutStarted era v) = 0)
  | [], s, _ => ⟨[], by simp [payoutRun], by simp, fun _ => by simp⟩
  | (w, era') :: rest, s, hwf => by
    rw [payoutRun]
    split
    · rename_i s' hcall
      obtain ⟨new, hrun, honce, hsettled⟩ :=
        payoutRun_paid_once v era rest s' (doPayoutStakers_wellFormed cfg hlawful hwf hcall)
      have hkept : Settled cfg s v era → Settled cfg s' v era :=
        fun hs => hs.doPayoutStakers cfg hlawful hcall
      obtain hsame | ⟨-, eraPayout, rs, -, hstep, -⟩ := doPayoutStakers_events cfg hlawful hwf hcall
      · -- nothing was paid
        exact ⟨new, by rw [hrun, hsame], honce, fun hs => hsettled (hkept hs)⟩
      · refine ⟨(.payoutStarted era' w :: rewardedEvents rs) ++ new,
          by rw [hrun, hstep, List.append_assoc], ?_⟩
        by_cases hpair : era' = era ∧ w = v
        · -- the pair is paid here, and so settled for the rest of the run
          obtain ⟨rfl, rfl⟩ := hpair
          have hnew : new.count (.payoutStarted era' w) = 0 :=
            hsettled fun _ _ _ _ => claimed_of_doPayoutStakers cfg hlawful hcall
          refine ⟨by simp [hnew], fun hs => ?_⟩
          exact absurd (congrArg Prod.snd hcall)
            (doPayoutStakers_not_ok_of_settled cfg hlawful hwf hs)
        · have hzero : (Event.payoutStarted era' w :: rewardedEvents rs).count
              (.payoutStarted era v) = 0 := by
            rw [List.count_cons, count_payoutStarted_rewardedEvents]
            simp only [beq_iff_eq, Event.payoutStarted.injEq]
            rw [if_neg hpair]
          rw [List.count_append, hzero, Nat.zero_add]
          exact ⟨honce, fun hs => hsettled (hkept hs)⟩
    · exact payoutRun_paid_once v era rest s hwf

end Once

/-! ## What an era mints -/

section Lookup

/-! The reward points of an era are a map from validators to points, as a list of entries. -/

variable {α : Type} [DecidableEq α]

theorem lookup_cons_of_ne {v w : α} (hvw : v ≠ w) (p : Nat) (rest : List (α × Nat)) :
    ((w, p) :: rest).lookup v = rest.lookup v := by
  simp [List.lookup_cons, beq_eq_false_iff_ne.mpr hvw]

theorem mem_of_lookup_getD_ne_zero :
    ∀ {l : List (α × Nat)} {v : α}, (l.lookup v).getD 0 ≠ 0 → v ∈ l.map Prod.fst
  | [], _, h => by simp at h
  | (w, _) :: rest, v, h => by
    by_cases hvw : v = w
    · simp [hvw]
    · rw [lookup_cons_of_ne hvw] at h
      exact List.mem_cons_of_mem w (mem_of_lookup_getD_ne_zero h)

theorem lookup_getD_le_sum :
    ∀ (l : List (α × Nat)) (v : α), (l.lookup v).getD 0 ≤ (l.map Prod.snd).sum
  | [], _ => by simp
  | (w, p) :: rest, v => by
    by_cases hvw : v = w
    · simp [hvw]
    · rw [lookup_cons_of_ne hvw, List.map_cons, List.sum_cons]
      exact Nat.le_add_left_of_le (lookup_getD_le_sum rest v)

/-- Over keys listed once, the values looked up add up to the values of the entries. -/
theorem sum_lookup_getD : ∀ l : List (α × Nat), (l.map Prod.fst).Nodup →
    ((l.map Prod.fst).map fun v => (l.lookup v).getD 0).sum = (l.map Prod.snd).sum
  | [], _ => by simp
  | (w, p) :: rest, hnodup => by
    rw [List.map_cons, List.nodup_cons] at hnodup
    -- every later key is not `w`, so its lookup skips the first entry
    have hrest : ∀ v ∈ rest.map Prod.fst,
        (((w, p) :: rest).lookup v).getD 0 = (rest.lookup v).getD 0 := by
      intro v hv
      rw [lookup_cons_of_ne fun heq => hnodup.1 (by simpa [heq] using hv)]
    rw [List.map_cons, List.map_cons, List.map_cons, List.sum_cons, List.sum_cons,
      List.map_congr_left hrest, sum_lookup_getD rest hnodup.2]
    simp

end Lookup

theorem sum_map_le_of_nodup_subset {α : Type} (f : α → Nat) {l₁ l₂ : List α} (hnodup : l₁.Nodup)
    (hsub : l₁ ⊆ l₂) : (l₁.map f).sum ≤ (l₂.map f).sum := by
  obtain ⟨l, hperm, hsublist⟩ := List.subperm_of_subset hnodup hsub
  rw [← (hperm.map f).sum_eq]
  exact (hsublist.map f).sum_le_sum fun _ _ => Nat.zero_le _

section Minted

/-- What the `Rewarded` events report for an era: each belongs to the payout whose
`PayoutStarted` comes last before it. -/
def rewardsOfEra (era : Nat) : Option Nat → List (Event AccountId) → Nat
  | _, [] => 0
  | _, .payoutStarted era' _ :: rest => rewardsOfEra era (some era') rest
  | current, .rewarded _ amount :: rest =>
      (if current = some era then amount else 0) + rewardsOfEra era current rest

theorem rewardsOfEra_rewardedEvents (era : Nat) (current : Option Nat)
    (rest : List (Event AccountId)) :
    ∀ rs : List (AccountId × Nat), rewardsOfEra era current (rewardedEvents rs ++ rest) =
      (if current = some era then (rs.map Prod.snd).sum else 0) + rewardsOfEra era current rest
  | [] => by simp [rewardedEvents]
  | r :: rs => by
    rw [rewardedEvents, List.map_cons, List.cons_append, rewardsOfEra, ← rewardedEvents,
      rewardsOfEra_rewardedEvents era current rest rs]
    split <;> simp [Nat.add_assoc]

/-- A payout's events add what it paid to its era, and no other. -/
theorem rewardsOfEra_payout (era era' : Nat) (current : Option Nat) (w : AccountId)
    (rs : List (AccountId × Nat)) (rest : List (Event AccountId)) :
    rewardsOfEra era current ((.payoutStarted era' w :: rewardedEvents rs) ++ rest) =
      (if era' = era then (rs.map Prod.snd).sum else 0) + rewardsOfEra era (some era') rest := by
  rw [List.cons_append, rewardsOfEra, rewardsOfEra_rewardedEvents]
  simp

end Minted

/-! ## The budget of an era -/

section Budget

/-- Reward points whose total is the sum of the individual points, over validators listed once,
with at least one point. -/
structure EraRewardPoints.Consistent (points : EraRewardPoints AccountId) : Prop where
  total_pos : 0 < points.total
  total_eq : points.total = (points.individual.map Prod.snd).sum
  nodup : (points.individual.map Prod.fst).Nodup

/-- The data of an era that payouts read, and keep. -/
structure EraData (s : State AccountId Balances) (era eraPayout : Nat)
    (points : EraRewardPoints AccountId) (exposures : AccountId → Exposure AccountId) : Prop where
  reward : s.erasValidatorReward era = some eraPayout
  points : s.erasRewardPoints era = points
  exposures : s.erasStakersClipped era = exposures

theorem EraData.of_keeps {era eraPayout : Nat}
    {points : EraRewardPoints AccountId} {exposures : AccountId → Exposure AccountId}
    (hdata : EraData s era eraPayout points exposures) (h : Keeps s s') :
    EraData s' era eraPayout points exposures :=
  ⟨h.erasValidatorReward ▸ hdata.reward, h.erasRewardPoints ▸ hdata.points,
    h.erasStakersClipped ▸ hdata.exposures⟩

variable [DecidableEq AccountId]

/-- Twice the total points times what the validator's payout may pay: twice its share of the era
payout, and a point for each product that rounds. -/
def payoutBudget (eraPayout : Nat) (points : EraRewardPoints AccountId)
    (exposures : AccountId → Exposure AccountId) (v : AccountId) : Nat :=
  2 * eraPayout * points.pointsOf v + points.total * ((exposures v).others.length + 2)

variable {era eraPayout : Nat} {points : EraRewardPoints AccountId}
  {exposures : AccountId → Exposure AccountId}

/-- The budgets of validators with points, each counted once, are within the era payout and half a
unit for each product that rounds. -/
theorem sum_payoutBudget_le (hpoints : points.Consistent) {paid : List AccountId}
    (hnodup : paid.Nodup) (hpaid : ∀ v ∈ paid, points.pointsOf v ≠ 0) :
    (paid.map (payoutBudget eraPayout points exposures)).sum ≤
      points.total * (2 * eraPayout +
        ((points.individual.map Prod.fst).map fun v => (exposures v).others.length + 2).sum) := by
  have hsub : paid ⊆ points.individual.map Prod.fst :=
    fun v hv => mem_of_lookup_getD_ne_zero (hpaid v hv)
  have hpoints_sum : ((points.individual.map Prod.fst).map points.pointsOf).sum = points.total := by
    rw [hpoints.total_eq]
    exact sum_lookup_getD points.individual hpoints.nodup
  calc (paid.map (payoutBudget eraPayout points exposures)).sum
      ≤ ((points.individual.map Prod.fst).map (payoutBudget eraPayout points exposures)).sum :=
        sum_map_le_of_nodup_subset _ hnodup hsub
    _ = 2 * eraPayout * ((points.individual.map Prod.fst).map points.pointsOf).sum +
        points.total *
          ((points.individual.map Prod.fst).map fun v => (exposures v).others.length + 2).sum := by
        have hbudget : payoutBudget eraPayout points exposures = fun v =>
            2 * eraPayout * points.pointsOf v + points.total * ((exposures v).others.length + 2) :=
          rfl
        rw [hbudget, List.sum_map_add, List.sum_map_mul_left, List.sum_map_mul_left]
    _ = points.total * (2 * eraPayout +
        ((points.individual.map Prod.fst).map fun v => (exposures v).others.length + 2).sum) := by
        rw [hpoints_sum]
        ring

variable (hlawful : cfg.currency.Lawful)
include hlawful

theorem doPayoutStakers_eraData {w : AccountId} {era' : Nat}
    (hdata : EraData s era eraPayout points exposures)
    (h : doPayoutStakers cfg s w era' = (s', .ok ())) : EraData s' era eraPayout points exposures := by
  obtain ⟨-, -, controller, ledger, claimed, -, -, -, -, -, -, -, hkeeps, -⟩ :=
    doPayoutStakers_ok cfg hlawful h
  -- storing the ledger changes no era data
  have hstored : EraData (s.insertLedger controller { ledger with claimedRewards := claimed }) era
      eraPayout points exposures := ⟨hdata.reward, hdata.points, hdata.exposures⟩
  exact hstored.of_keeps hkeeps

/-- One payout for the era pays at most its budget. -/
theorem doPayoutStakers_paid_le (hpoints : points.Consistent)
    (hclipped : ∀ v, points.pointsOf v ≠ 0 → (exposures v).Clipped)
    {w : AccountId} (hwf : WellFormed s)
    (hdata : EraData s era eraPayout points exposures)
    (h : doPayoutStakers cfg s w era = (s', .ok ())) :
    s'.events = s.events ∨ points.pointsOf w ≠ 0 ∧ ∃ rs : List (AccountId × Nat),
      s'.events = s.events ++ .payoutStarted era w :: rewardedEvents rs ∧
      2 * points.total * (rs.map Prod.snd).sum ≤ payoutBudget eraPayout points exposures w := by
  obtain hsame | ⟨hnonzero, eraPayout', rs, hreward, hstep, hle⟩ :=
    doPayoutStakers_events cfg hlawful hwf h
  · exact .inl hsame
  · rw [hdata.reward, Option.some.injEq] at hreward
    subst hreward
    rw [hdata.points, hdata.exposures] at hle
    rw [hdata.points] at hnonzero
    have hshare : points.pointsOf w ≤ points.total :=
      hpoints.total_eq ▸ lookup_getD_le_sum points.individual w
    refine .inr ⟨hnonzero, rs, hstep, ?_⟩
    calc 2 * points.total * (rs.map Prod.snd).sum
        ≤ 2 * points.total * (payoutSplit eraPayout (points.pointsOf w) points.total
            (s.erasValidatorPrefs era w) (exposures w)).asked (exposures w) :=
          Nat.mul_le_mul_left _ hle
      _ ≤ payoutBudget eraPayout points exposures w :=
          payoutSplit_asked_le _ hpoints.total_pos hshare (hclipped w hnonzero)

/-- The run lemma of the budget: a run mints for the era within the budgets of the validators it
paid, each once, with points, and not settled at the start. -/
theorem payoutRun_rewardsOfEra_le (hpoints : points.Consistent)
    (hclipped : ∀ v, points.pointsOf v ≠ 0 → (exposures v).Clipped) :
    ∀ (calls : List (AccountId × Nat)) (s : State AccountId Balances), WellFormed s →
      EraData s era eraPayout points exposures →
      ∃ new, ∃ paid : List AccountId, (payoutRun cfg s calls).events = s.events ++ new ∧
        paid.Nodup ∧ (∀ v ∈ paid, points.pointsOf v ≠ 0 ∧ ¬Settled cfg s v era) ∧
        ∀ current, 2 * points.total * rewardsOfEra era current new ≤
          (paid.map (payoutBudget eraPayout points exposures)).sum
  | [], s, _, _ => ⟨[], [], by simp [payoutRun], List.nodup_nil, by simp, fun _ => by
    simp [rewardsOfEra]⟩
  | (w, era') :: rest, s, hwf, hdata => by
    rw [payoutRun]
    split
    · rename_i s' hcall
      obtain ⟨new, paid, hrun, hnodup, hpaid, hbound⟩ := payoutRun_rewardsOfEra_le hpoints
        hclipped rest s' (doPayoutStakers_wellFormed cfg hlawful hwf hcall)
        (doPayoutStakers_eraData cfg hlawful hdata hcall)
      -- a validator unsettled after the call was unsettled before it
      have hunsettled : ∀ v ∈ paid, points.pointsOf v ≠ 0 ∧ ¬Settled cfg s v era :=
        fun v hv => ⟨(hpaid v hv).1, fun hs => (hpaid v hv).2 (hs.doPayoutStakers cfg hlawful hcall)⟩
      by_cases hera : era' = era
      · -- a payout of the era: the validator joins the paid ones
        subst hera
        obtain hsame | ⟨hnonzero, rs, hstep, hle⟩ :=
          doPayoutStakers_paid_le cfg hlawful hpoints hclipped hwf hdata hcall
        · exact ⟨new, paid, by rw [hrun, hsame], hnodup, hunsettled, hbound⟩
        · have hfresh : w ∉ paid := fun hw =>
            (hpaid w hw).2 fun _ _ _ _ => claimed_of_doPayoutStakers cfg hlawful hcall
          have hnot : ¬Settled cfg s w era' := fun hs =>
            doPayoutStakers_not_ok_of_settled cfg hlawful hwf hs (congrArg Prod.snd hcall)
          refine ⟨(.payoutStarted era' w :: rewardedEvents rs) ++ new, w :: paid,
            by rw [hrun, hstep, List.append_assoc], List.nodup_cons.mpr ⟨hfresh, hnodup⟩,
            ?_, fun current => ?_⟩
          · intro v hv
            rcases List.mem_cons.mp hv with rfl | hv
            · exact ⟨hnonzero, hnot⟩
            · exact hunsettled v hv
          · rw [rewardsOfEra_payout, if_pos rfl, List.map_cons, List.sum_cons, Nat.mul_add]
            exact Nat.add_le_add hle (hbound (some era'))
      · -- a payout of another era adds nothing to this one
        obtain hsame | ⟨-, -, rs, -, hstep, -⟩ := doPayoutStakers_events cfg hlawful hwf hcall
        · exact ⟨new, paid, by rw [hrun, hsame], hnodup, hunsettled, hbound⟩
        · refine ⟨(.payoutStarted era' w :: rewardedEvents rs) ++ new, paid,
            by rw [hrun, hstep, List.append_assoc], hnodup, hunsettled, fun current => ?_⟩
          rw [rewardsOfEra_payout, if_neg hera, Nat.zero_add]
          exact hbound (some era')
    · exact payoutRun_rewardsOfEra_le hpoints hclipped rest s hwf hdata

/-- What a run of payouts mints for an era is at most the era payout, and half a unit for each
product that rounds in each validator's payout. -/
theorem payoutRun_minted_le (hpoints : points.Consistent)
    (hclipped : ∀ v, points.pointsOf v ≠ 0 → (exposures v).Clipped)
    (calls : List (AccountId × Nat)) (hwf : WellFormed s)
    (hdata : EraData s era eraPayout points exposures) :
    ∃ new, (payoutRun cfg s calls).events = s.events ++ new ∧
      2 * rewardsOfEra era none new ≤ 2 * eraPayout +
        ((points.individual.map Prod.fst).map fun v => (exposures v).others.length + 2).sum := by
  obtain ⟨new, paid, hrun, hnodup, hpaid, hbound⟩ :=
    payoutRun_rewardsOfEra_le cfg hlawful hpoints hclipped calls s hwf hdata
  refine ⟨new, hrun, Nat.le_of_mul_le_mul_left ?_ hpoints.total_pos⟩
  calc points.total * (2 * rewardsOfEra era none new)
      = 2 * points.total * rewardsOfEra era none new := by ring
    _ ≤ (paid.map (payoutBudget eraPayout points exposures)).sum := hbound none
    _ ≤ _ := sum_payoutBudget_le hpoints hnodup fun v hv => (hpaid v hv).1

end Budget

/-! ## The payouts of an era -/

section Era

variable [DecidableEq AccountId]

/-- Each validator is paid at most once an era, at most its share plus half a unit a rounded
product; the era mints at most its payout and these halves. -/
theorem payouts_once_within_rounded_share (hlawful : cfg.currency.Lawful) {era eraPayout : Nat}
    {points : EraRewardPoints AccountId} {exposures : AccountId → Exposure AccountId}
    (hpoints : points.Consistent)
    (hclipped : ∀ v, points.pointsOf v ≠ 0 → (exposures v).Clipped) :
    (∀ (calls : List (AccountId × Nat)) (s : State AccountId Balances) (v : AccountId),
      WellFormed s → ∃ new, (payoutRun cfg s calls).events = s.events ++ new ∧
        new.count (.payoutStarted era v) ≤ 1) ∧
    (∀ (s : State AccountId Balances) (v : AccountId) (currentEra : Nat), WellFormed s →
      Claimed s v era → s.currentEra = some currentEra → era ≤ currentEra →
      currentEra - cfg.historyDepth ≤ era → s.erasValidatorReward era = some eraPayout →
      doPayoutStakers cfg s v era = (s, .error .alreadyClaimed)) ∧
    (∀ (s s' : State AccountId Balances) (v : AccountId), WellFormed s →
      EraData s era eraPayout points exposures → doPayoutStakers cfg s v era = (s', .ok ()) →
      s'.events = s.events ∨ ∃ rs : List (AccountId × Nat),
        s'.events = s.events ++ .payoutStarted era v :: rewardedEvents rs ∧
        2 * points.total * (rs.map Prod.snd).sum ≤
          2 * eraPayout * points.pointsOf v + points.total * ((exposures v).others.length + 2)) ∧
    ∀ (calls : List (AccountId × Nat)) (s : State AccountId Balances), WellFormed s →
      EraData s era eraPayout points exposures →
      ∃ new, (payoutRun cfg s calls).events = s.events ++ new ∧
        2 * rewardsOfEra era none new ≤ 2 * eraPayout +
          ((points.individual.map Prod.fst).map fun v => (exposures v).others.length + 2).sum := by
  refine ⟨fun calls s v hwf => ?_,
    fun s v currentEra hwf hclaimed hcurrent hle hhistory hreward =>
      doPayoutStakers_alreadyClaimed cfg hwf hclaimed hcurrent hle hhistory hreward,
    fun s s' v hwf hdata h => ?_,
    fun calls s hwf hdata => payoutRun_minted_le cfg hlawful hpoints hclipped calls hwf hdata⟩
  · obtain ⟨new, hrun, honce, -⟩ := payoutRun_paid_once cfg hlawful v era calls s hwf
    exact ⟨new, hrun, honce⟩
  · obtain hsame | ⟨-, rs, hstep, hle⟩ :=
      doPayoutStakers_paid_le cfg hlawful hpoints hclipped hwf hdata h
    · exact .inl hsame
    · exact .inr ⟨rs, hstep, hle⟩

end Era

def freeBalances : Currency Nat (Nat → Nat) where
  depositCreating balances who amount :=
    (Function.update balances who (balances who + amount), amount)
  depositIntoExisting balances who amount :=
    some (Function.update balances who (balances who + amount), amount)
  setLock balances _ _ := balances

theorem freeBalances_lawful : freeBalances.Lawful where
  depositCreating_le _ _ _ := le_rfl
  depositIntoExisting_le _ _ _ _ _ h := by
    simp only [freeBalances, Option.some.injEq, Prod.mk.injEq] at h
    exact h.2.ge

def freeBalancesConfig : Config Nat (Nat → Nat) := ⟨84, freeBalances⟩

def threePoints : EraRewardPoints Nat := ⟨3, [(0, 1), (1, 1), (2, 1)]⟩

def threeValidators : State Nat (Nat → Nat) where
  currentEra := some 0
  erasValidatorReward _ := some 2
  bonded v := if v < 3 then some v else none
  ledger controller := if controller < 3 then some ⟨controller, 1, 1, []⟩ else none
  payee _ := .stash
  erasStakersClipped _ _ := ⟨1, 1, []⟩
  erasRewardPoints _ := threePoints
  erasValidatorPrefs _ _ := PerThing.zero
  balances _ := 1
  events := []

theorem threeValidators_wellFormed : WellFormed threeValidators where
  stash v controller ledger hbonded hledger := by
    by_cases hv : v < 3
    · simp only [threeValidators, hv, if_true, Option.some.injEq] at hbonded
      subst hbonded
      simp only [threeValidators, hv, if_true, Option.some.injEq] at hledger
      rw [← hledger]
    · simp [threeValidators, hv] at hbonded
  sorted controller ledger hledger := by
    by_cases hc : controller < 3
    · simp only [threeValidators, hc, if_true, Option.some.injEq] at hledger
      rw [← hledger]
      exact List.Pairwise.nil
    · simp [threeValidators, hc] at hledger

/-- The three validators' era mints at most its payout and the halves of its six rounded products. -/
theorem three_validators_within_rounded_share :
    threePoints.Consistent ∧ ∃ new,
      (payoutRun freeBalancesConfig threeValidators [(0, 0), (1, 0), (2, 0)]).events =
        threeValidators.events ++ new ∧
      2 * rewardsOfEra 0 none new ≤ 2 * 2 + ((threePoints.individual.map Prod.fst).map fun v =>
        (threeValidators.erasStakersClipped 0 v).others.length + 2).sum := by
  have hpoints : threePoints.Consistent := ⟨by decide, by decide, by decide⟩
  have hclipped : ∀ v, threePoints.pointsOf v ≠ 0 →
      (threeValidators.erasStakersClipped 0 v).Clipped :=
    fun _ _ => ⟨Nat.one_pos, le_rfl⟩
  exact ⟨hpoints, (payouts_once_within_rounded_share freeBalancesConfig freeBalances_lawful hpoints
    hclipped).2.2.2 _ _ threeValidators_wellFormed ⟨rfl, rfl, rfl⟩⟩

/-- Each validator's share of the payout `2` is `2/3`, but each is paid `1`: the era mints `3`. -/
theorem three_validators_mint_three :
    threeValidators.erasValidatorReward 0 = some 2 ∧
      (payoutRun freeBalancesConfig threeValidators [(0, 0), (1, 0), (2, 0)]).events =
        [.payoutStarted 0 0, .rewarded 0 1, .payoutStarted 0 1, .rewarded 1 1,
          .payoutStarted 0 2, .rewarded 2 1] ∧
      rewardsOfEra 0 none
        (payoutRun freeBalancesConfig threeValidators [(0, 0), (1, 0), (2, 0)]).events = 3 := by
  decide

end Substrate.Staking
