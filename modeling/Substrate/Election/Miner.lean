import Substrate.Weights.WeightMeter

/-! # The miner's trimming searches

`Miner::trim_assignments_weight` and `Miner::trim_assignments_length` of
`src/frame/election-provider-multi-phase/src/unsigned.rs` search for a number of voters whose
assignments fit a block.
-/

namespace Substrate.Election

open Substrate.Weights

/-- `SolutionOrSnapshotSize`: the number of voters and targets of a snapshot. -/
structure SolutionOrSnapshotSize where
  voters : Nat
  targets : Nat
  deriving DecidableEq, Repr

namespace Miner

section MaximumVoterForWeight

variable (weightWith : Nat → Weight) (maxWeight : Weight) (maxVoters : Nat)

/-- The closure `next_voters`; `none` is its `Err(())`. -/
def nextVoters (currentWeight : Weight) (voters step : Nat) : Option Nat :=
  if currentWeight.allLt maxWeight then
    match Unsigned.checkedAdd 32 voters step with
    | some voters => if voters < maxVoters then some voters else none
    | none => none
  else if currentWeight.anyGt maxWeight then Unsigned.checkedSub voters step
  -- one part of the weight is at the limit and none is above it
  else some voters

/-- The `while step > 0` loop of the binary search: `.inl` the early `return next`, `.inr` the final
count. The fuel bounds `step`, which halves. -/
def searchVoters : (fuel voters step : Nat) → Nat ⊕ Nat
  | 0, voters, _ => .inr voters
  | fuel + 1, voters, step =>
    if 0 < step then
      match nextVoters maxWeight maxVoters (weightWith voters) voters step with
      | some next => if next ≠ voters then searchVoters fuel next (step / 2) else .inl next
      | none => .inr voters
    else .inr voters

/-- `while voters < max_voters && weight_with(voters + 1).all_lt(max_weight) { voters += 1 }`; the
fuel bounds `max_voters - voters`. -/
def raiseVoters : (fuel voters : Nat) → Nat
  | 0, voters => voters
  | fuel + 1, voters =>
    if voters < maxVoters ∧ (weightWith (voters + 1)).allLt maxWeight = true then
      raiseVoters fuel (voters + 1)
    else voters

/-- `while voters.checked_sub(1).is_some() && weight_with(voters).any_gt(max_weight)`
`{ voters -= 1 }`. -/
def lowerVoters : Nat → Nat
  | 0 => 0
  | voters + 1 =>
    if (weightWith (voters + 1)).anyGt maxWeight then lowerVoters voters else voters + 1

end MaximumVoterForWeight

section SearchLemmas

variable {weightWith : Nat → Weight} {maxWeight : Weight} {maxVoters : Nat}

/-- One round of the search moves up by `step` below `max_voters`, moves down by `step`, or stays
where one part of the weight is at the limit. -/
theorem nextVoters_eq_some {w : Weight} {voters step next : Nat} :
    nextVoters maxWeight maxVoters w voters step = some next ↔
      (w.allLt maxWeight = true ∧ voters + step ≤ Unsigned.maxValue 32 ∧ voters + step < maxVoters ∧
        next = voters + step) ∨
      (w.allLt maxWeight = false ∧ w.anyGt maxWeight = true ∧ step ≤ voters ∧ next = voters - step) ∨
      (w.allLt maxWeight = false ∧ w.anyGt maxWeight = false ∧ next = voters) := by
  unfold nextVoters
  cases hlt : w.allLt maxWeight
  · cases hgt : w.anyGt maxWeight
    · simp [eq_comm]
    · simp
      omega
  · cases hadd : Unsigned.checkedAdd 32 voters step with
    | none =>
      rw [Unsigned.checkedAdd_eq_none] at hadd
      simp
      omega
    | some sum =>
      obtain ⟨hle, rfl⟩ := Unsigned.checkedAdd_eq_some.mp hadd
      by_cases hlt' : voters + step < maxVoters
      · simp only [if_true, hlt', hle]
        simp
        omega
      · simp [hlt']

theorem nextVoters_le {w : Weight} {voters step next : Nat} (hle : voters ≤ maxVoters)
    (h : nextVoters maxWeight maxVoters w voters step = some next) : next ≤ maxVoters := by
  rcases nextVoters_eq_some.mp h with ⟨-, -, hlt, rfl⟩ | ⟨-, -, -, rfl⟩ | ⟨-, -, rfl⟩ <;> omega

/-- A round that stays with a positive step has found a count whose weight is at the limit. -/
theorem nextVoters_self {w : Weight} {voters step : Nat} (hstep : 0 < step)
    (h : nextVoters maxWeight maxVoters w voters step = some voters) :
    w.allLte maxWeight = true ∧ w.allLt maxWeight = false := by
  rcases nextVoters_eq_some.mp h with ⟨-, -, -, hnext⟩ | ⟨-, -, hle, hnext⟩ | ⟨hlt, hgt, -⟩
  · omega
  · omega
  · rw [Weight.anyGt_eq_not_allLte, Bool.not_eq_false'] at hgt
    exact ⟨hgt, hlt⟩

/-- The fuel of the binary search never runs out: `step` halves every round. -/
theorem searchVoters_fuel : ∀ {fuel step : Nat}, step ≤ fuel → ∀ voters,
    searchVoters weightWith maxWeight maxVoters (fuel + 1) voters step =
      searchVoters weightWith maxWeight maxVoters fuel voters step
  | 0, step, hstep, voters => by
    obtain rfl : step = 0 := Nat.le_zero.mp hstep
    simp [searchVoters]
  | fuel + 1, step, hstep, voters => by
    have hhalf : step / 2 ≤ fuel := by omega
    conv_lhs => rw [searchVoters]
    conv_rhs => rw [searchVoters]
    simp only [searchVoters_fuel hhalf]

/-- An early return of the search is a count whose weight is at the limit. -/
theorem searchVoters_inl : ∀ {fuel voters step next : Nat}, voters ≤ maxVoters →
    searchVoters weightWith maxWeight maxVoters fuel voters step = .inl next →
      next ≤ maxVoters ∧ (weightWith next).allLte maxWeight = true ∧
        (weightWith next).allLt maxWeight = false
  | 0, _, _, _, _, h => by simp [searchVoters] at h
  | fuel + 1, voters, step, next, hle, h => by
    rw [searchVoters] at h
    split at h
    · next hstep =>
      split at h
      · next next' hnext =>
        split at h
        · exact searchVoters_inl (nextVoters_le hle hnext) h
        · next hsame =>
          cases h
          obtain rfl : next = voters := Decidable.of_not_not hsame
          exact ⟨hle, nextVoters_self hstep hnext⟩
      · cases h
    · cases h

theorem searchVoters_inr : ∀ {fuel voters step voters' : Nat}, voters ≤ maxVoters →
    searchVoters weightWith maxWeight maxVoters fuel voters step = .inr voters' → voters' ≤ maxVoters
  | 0, _, _, _, hle, h => by
    cases h
    exact hle
  | fuel + 1, voters, step, voters', hle, h => by
    rw [searchVoters] at h
    split at h
    · split at h
      · next next' hnext =>
        split at h
        · exact searchVoters_inr (nextVoters_le hle hnext) h
        · cases h
      · cases h
        exact hle
    · cases h
      exact hle

/-- The fuel of the last raise never runs out: each round moves `voters` one closer to
`max_voters`. -/
theorem raiseVoters_fuel : ∀ {fuel voters : Nat}, maxVoters - voters ≤ fuel →
    raiseVoters weightWith maxWeight maxVoters (fuel + 1) voters =
      raiseVoters weightWith maxWeight maxVoters fuel voters
  | 0, voters, hroom => by
    have hstop : ¬voters < maxVoters := by omega
    simp [raiseVoters, hstop]
  | fuel + 1, voters, hroom => by
    conv_lhs => rw [raiseVoters]
    conv_rhs => rw [raiseVoters]
    split
    · next hraise => exact raiseVoters_fuel (by omega)
    · rfl

theorem raiseVoters_le : ∀ {fuel voters : Nat}, voters ≤ maxVoters →
    raiseVoters weightWith maxWeight maxVoters fuel voters ≤ maxVoters
  | 0, _, hle => hle
  | fuel + 1, voters, hle => by
    rw [raiseVoters]
    split
    · next hraise => exact raiseVoters_le hraise.1
    · exact hle

/-- The last raise passes every count below `v` whose successor is strictly below the limit. -/
theorem le_raiseVoters {v : Nat} (hv : v ≤ maxVoters)
    (hbelow : ∀ u < v, (weightWith (u + 1)).allLt maxWeight = true) :
    ∀ {fuel voters : Nat}, maxVoters - voters ≤ fuel →
      v ≤ raiseVoters weightWith maxWeight maxVoters fuel voters
  | 0, voters, hroom => by
    rw [raiseVoters]
    omega
  | fuel + 1, voters, hroom => by
    rw [raiseVoters]
    split
    · exact le_raiseVoters hv hbelow (by omega)
    · next hstop =>
      -- stopping below `v` would leave a successor strictly below the limit
      by_contra hlt
      exact hstop ⟨by omega, hbelow voters (by omega)⟩

theorem lowerVoters_le : ∀ voters, lowerVoters weightWith maxWeight voters ≤ voters
  | 0 => le_rfl
  | voters + 1 => by
    rw [lowerVoters]
    split
    · exact (lowerVoters_le voters).trans (Nat.le_succ voters)
    · exact le_rfl

/-- The lowering ends at zero or at a count whose weight is within the limit. -/
theorem lowerVoters_fits : ∀ voters, lowerVoters weightWith maxWeight voters = 0 ∨
    (weightWith (lowerVoters weightWith maxWeight voters)).allLte maxWeight = true
  | 0 => .inl rfl
  | voters + 1 => by
    rw [lowerVoters]
    split
    · exact lowerVoters_fits voters
    · next hgt =>
      rw [Weight.anyGt_eq_not_allLte, Bool.not_eq_true'] at hgt
      exact .inr (by simpa using hgt)

/-- The lowering stops at the latest at a count whose weight is not above the limit. -/
theorem le_lowerVoters {v : Nat} (hv : (weightWith v).anyGt maxWeight = false) :
    ∀ {voters : Nat}, v ≤ voters → v ≤ lowerVoters weightWith maxWeight voters
  | 0, hle => hle
  | voters + 1, hle => by
    rw [lowerVoters]
    split
    · next hgt =>
      have hne : v ≠ voters + 1 := by
        rintro rfl
        rw [hv] at hgt
        cases hgt
      exact le_lowerVoters hv (by omega)
    · exact hle

/-- After a search that did not return early, the last raise and the lowering keep the count at
most `max_voters`. -/
theorem lowerVoters_raiseVoters_le {fuel voters : Nat} (hle : voters ≤ maxVoters) :
    lowerVoters weightWith maxWeight (raiseVoters weightWith maxWeight maxVoters fuel voters) ≤
      maxVoters :=
  (lowerVoters_le _).trans (raiseVoters_le hle)

/-- Under a monotone weight, an early return of the search is at least every count strictly below
the limit. -/
theorem le_of_searchVoters_inl (hmono : ∀ u v, u ≤ v → (weightWith u).allLte (weightWith v) = true)
    {fuel voters step next v : Nat} (hle : voters ≤ maxVoters)
    (hsearch : searchVoters weightWith maxWeight maxVoters fuel voters step = .inl next)
    (hlt : (weightWith v).allLt maxWeight = true) : v ≤ next := by
  obtain ⟨-, -, hnext⟩ := searchVoters_inl hle hsearch
  by_contra hgt
  have hbelow := Weight.allLt_of_allLte_of_allLt (hmono next v (by omega)) hlt
  rw [hnext] at hbelow
  cases hbelow

/-- Under a monotone weight, the last raise and the lowering end at least at every count up to
`max_voters` strictly below the limit. -/
theorem le_lowerVoters_raiseVoters
    (hmono : ∀ u v, u ≤ v → (weightWith u).allLte (weightWith v) = true) {fuel voters v : Nat}
    (hv : v ≤ maxVoters) (hroom : maxVoters - voters ≤ fuel)
    (hlt : (weightWith v).allLt maxWeight = true) :
    v ≤ lowerVoters weightWith maxWeight (raiseVoters weightWith maxWeight maxVoters fuel voters) := by
  have hfits : (weightWith v).anyGt maxWeight = false := by
    rw [Weight.anyGt_eq_not_allLte, Weight.allLte_of_allLt hlt]
    rfl
  refine le_lowerVoters hfits (le_raiseVoters hv (fun u hu => ?_) hroom)
  exact Weight.allLt_of_allLte_of_allLt (hmono (u + 1) v hu) hlt

end SearchLemmas

def maximumVoterForWeight (solutionWeight : Nat → Nat → Nat → Nat → Weight) (desiredWinners : Nat)
    (size : SolutionOrSnapshotSize) (maxWeight : Weight) : Nat :=
  if size.voters < 1 then size.voters
  else
    let maxVoters := max size.voters 1
    let weightWith := fun activeVoters =>
      solutionWeight size.voters size.targets activeVoters desiredWinners
    match searchVoters weightWith maxWeight maxVoters maxVoters maxVoters (maxVoters / 2) with
    | .inl next => next
    | .inr voters =>
      -- the last raise, then the lowering until the weight is within the limit
      min (lowerVoters weightWith maxWeight (raiseVoters weightWith maxWeight maxVoters maxVoters voters))
        size.voters

section MaximumVoterForWeightLemmas

variable {solutionWeight : Nat → Nat → Nat → Nat → Weight} {desiredWinners : Nat}
  {size : SolutionOrSnapshotSize} {maxWeight : Weight}

theorem maximumVoterForWeight_le :
    maximumVoterForWeight solutionWeight desiredWinners size maxWeight ≤ size.voters := by
  rw [maximumVoterForWeight]
  split
  · exact le_rfl
  · next hpos =>
    have hmax : max size.voters 1 = size.voters := max_eq_left (by omega)
    dsimp only
    split
    · next next hsearch => exact hmax ▸ (searchVoters_inl (le_refl _) hsearch).1
    · exact min_le_right _ _

/-- The result fits: it is zero or its weight is within the limit in both parts. -/
theorem maximumVoterForWeight_fits :
    maximumVoterForWeight solutionWeight desiredWinners size maxWeight = 0 ∨
      (solutionWeight size.voters size.targets
        (maximumVoterForWeight solutionWeight desiredWinners size maxWeight)
          desiredWinners).allLte maxWeight = true := by
  rw [maximumVoterForWeight]
  split
  · next hzero => exact .inl (by omega)
  · next hpos =>
    have hmax : max size.voters 1 = size.voters := max_eq_left (by omega)
    dsimp only
    split
    · next next hsearch => exact .inr (searchVoters_inl (le_refl _) hsearch).2.1
    · next voters hsearch =>
      -- the lowering leaves the count at most `max_voters`, which is `size.voters`
      rw [min_eq_left ((lowerVoters_raiseVoters_le (searchVoters_inr (le_refl _) hsearch)).trans_eq hmax)]
      exact lowerVoters_fits _

/-- Under a weight monotone in the active voters, the result is at least every count strictly below
the limit in both parts. -/
theorem le_maximumVoterForWeight
    (hmono : ∀ u v, u ≤ v → (solutionWeight size.voters size.targets u desiredWinners).allLte
      (solutionWeight size.voters size.targets v desiredWinners) = true)
    {v : Nat} (hv : v ≤ size.voters)
    (hlt : (solutionWeight size.voters size.targets v desiredWinners).allLt maxWeight = true) :
    v ≤ maximumVoterForWeight solutionWeight desiredWinners size maxWeight := by
  rw [maximumVoterForWeight]
  split
  · exact hv
  · dsimp only
    split
    · next next hsearch => exact le_of_searchVoters_inl hmono (le_refl _) hsearch hlt
    · next voters hsearch =>
      exact le_min (le_lowerVoters_raiseVoters hmono (hv.trans (le_max_left _ _)) (Nat.sub_le _ _)
        hlt) hv

end MaximumVoterForWeightLemmas

section TrimAssignmentsLength

variable {α ε : Type} (maxAllowedLength : Nat) (assignments : List α)
  (encodedSizeOf : List α → Except ε Nat)

/-- The `while high - low > 1` loop of `trim_assignments_length`; an error of `encoded_size_of`
leaves through `?`. The fuel bounds `high - low`. -/
def lengthSearch : (fuel low high : Nat) → Except ε Nat
  | 0, low, _ => .ok low
  | fuel + 1, low, high =>
    if 1 < high - low then
      match encodedSizeOf (assignments.take ((high + low) / 2)) with
      | .error e => .error e
      | .ok size =>
        if size ≤ maxAllowedLength then lengthSearch fuel ((high + low) / 2) high
        else lengthSearch fuel low ((high + low) / 2)
    else .ok low

/-- `Miner::trim_assignments_length`, returning the truncated assignments; the errors of
`encoded_size_of` are passed on. -/
def trimAssignmentsLength : Except ε (List α) :=
  -- not much to do if the assignments are already empty
  if assignments.length = 0 then .ok assignments
  else
    match lengthSearch maxAllowedLength assignments encodedSizeOf assignments.length 0
        assignments.length with
    | .error e => .error e
    | .ok low =>
      -- `low < len && encoded_size_of(..)? <= max` encodes only when `low < len`
      if low < assignments.length then
        match encodedSizeOf (assignments.take (low + 1)) with
        | .error e => .error e
        | .ok size => .ok (assignments.take (if size ≤ maxAllowedLength then low + 1 else low))
      else .ok (assignments.take low)

end TrimAssignmentsLength

section TrimLemmas

variable {α ε : Type} {maxAllowedLength : Nat} {assignments : List α}
  {encodedSizeOf : List α → Except ε Nat}

/-- The bounds the length search keeps: the prefix of length `low` fits or is empty, the one of
length `high` does not fit or is all. -/
structure LengthBounds (encodedLength : Nat → Nat) (maxAllowedLength len low high : Nat) : Prop where
  lt : low < high
  le : high ≤ len
  fits : low = 0 ∨ encodedLength low ≤ maxAllowedLength
  exceeds : high = len ∨ maxAllowedLength < encodedLength high

/-- One round of the length search keeps the bounds. -/
theorem LengthBounds.halve {encodedLength : Nat → Nat} {len low high : Nat}
    (h : LengthBounds encodedLength maxAllowedLength len low high) (hgap : 1 < high - low) :
    if encodedLength ((high + low) / 2) ≤ maxAllowedLength then
      LengthBounds encodedLength maxAllowedLength len ((high + low) / 2) high
    else LengthBounds encodedLength maxAllowedLength len low ((high + low) / 2) := by
  have hle := h.le
  split
  · next hfit => exact ⟨by omega, h.le, .inr hfit, h.exceeds⟩
  · next hfit => exact ⟨by omega, by omega, h.fits, .inr (Nat.lt_of_not_le hfit)⟩

/-- With enough fuel the length search ends with adjacent bounds. -/
theorem lengthSearch_ok {encodedLength : Nat → Nat}
    (hsize : ∀ i, encodedSizeOf (assignments.take i) = .ok (encodedLength i)) :
    ∀ (fuel : Nat) {low high : Nat},
      LengthBounds encodedLength maxAllowedLength assignments.length low high →
      high - low ≤ fuel + 1 →
        ∃ low', lengthSearch maxAllowedLength assignments encodedSizeOf fuel low high = .ok low' ∧
          LengthBounds encodedLength maxAllowedLength assignments.length low' (low' + 1)
  | 0, low, high, h, hgap => by
    obtain rfl : high = low + 1 := by
      have := h.lt
      omega
    exact ⟨low, rfl, h⟩
  | fuel + 1, low, high, h, hgap => by
    rw [lengthSearch]
    split
    · next hgap' =>
      rw [hsize]
      dsimp only
      have hnext := h.halve hgap'
      split
      · next hfit =>
        rw [if_pos hfit] at hnext
        exact lengthSearch_ok hsize fuel hnext (by omega)
      · next hfit =>
        rw [if_neg hfit] at hnext
        exact lengthSearch_ok hsize fuel hnext (by omega)
    · next hgap' =>
      obtain rfl : high = low + 1 := by
        have := h.lt
        omega
      exact ⟨low, rfl, h⟩

/-- Every error of the length search is an error of the encoder on some prefix. -/
theorem lengthSearch_error : ∀ {fuel low high : Nat} {e : ε},
    lengthSearch maxAllowedLength assignments encodedSizeOf fuel low high = .error e →
      ∃ i, encodedSizeOf (assignments.take i) = .error e
  | 0, _, _, _, h => by cases h
  | fuel + 1, low, high, e, h => by
    rw [lengthSearch] at h
    split at h
    · split at h
      · next e' herr =>
        cases h
        exact ⟨_, herr⟩
      · split at h
        · exact lengthSearch_error h
        · exact lengthSearch_error h
    · cases h

/-- Under a monotone encoded size, `trim_assignments_length` keeps the longest prefix within the
limit, or none when not one assignment fits. -/
theorem trimAssignmentsLength_longest {encodedLength : Nat → Nat}
    (hsize : ∀ i, encodedSizeOf (assignments.take i) = .ok (encodedLength i))
    (hmono : Monotone encodedLength) :
    ∃ k ≤ assignments.length,
      trimAssignmentsLength maxAllowedLength assignments encodedSizeOf = .ok (assignments.take k) ∧
      (k = 0 ∨ encodedLength k ≤ maxAllowedLength) ∧
      ∀ j ≤ assignments.length, encodedLength j ≤ maxAllowedLength → j ≤ k := by
  rw [trimAssignmentsLength]
  split
  · next hempty =>
    refine ⟨0, Nat.zero_le _, ?_, .inl rfl, fun j hj _ => by omega⟩
    rw [List.take_zero, List.eq_nil_of_length_eq_zero hempty]
  · next hne =>
    have hstart : LengthBounds encodedLength maxAllowedLength assignments.length 0
        assignments.length := ⟨by omega, le_rfl, .inl rfl, .inl rfl⟩
    obtain ⟨low, hsearch, hbounds⟩ := lengthSearch_ok hsize assignments.length hstart (by omega)
    have hlow : low < assignments.length := hbounds.le
    rw [hsearch]
    dsimp only
    rw [if_pos hlow, hsize]
    dsimp only
    by_cases hfit : encodedLength (low + 1) ≤ maxAllowedLength
    · -- the prefix one longer fits, so the upper bound is the whole list
      have hall : low + 1 = assignments.length := hbounds.exceeds.resolve_right (by omega)
      refine ⟨low + 1, hbounds.le, by rw [if_pos hfit], .inr hfit, fun j hj _ => by omega⟩
    · refine ⟨low, hlow.le, by rw [if_neg hfit], hbounds.fits, fun j _ hj => ?_⟩
      by_contra hgt
      exact hfit ((hmono (show low + 1 ≤ j by omega)).trans hj)

example : trimAssignmentsLength 3 [1, 2, 3, 4, 5]
    (fun assignments => (.ok assignments.length : Except Unit Nat)) = .ok [1, 2, 3] := by
  decide

/-- Every error of `trim_assignments_length` is an error of the encoder on some prefix. -/
theorem trimAssignmentsLength_error {e : ε}
    (h : trimAssignmentsLength maxAllowedLength assignments encodedSizeOf = .error e) :
    ∃ i, encodedSizeOf (assignments.take i) = .error e := by
  rw [trimAssignmentsLength] at h
  split at h
  · cases h
  · split at h
    · next e' hsearch =>
      cases h
      exact lengthSearch_error hsearch
    · split at h
      · split at h
        · next e' herr =>
          cases h
          exact ⟨_, herr⟩
        · cases h
      · cases h

end TrimLemmas

/-- `maximum_voter_for_weight` returns a fitting count, under a monotone weight at least every count
below the limit, but not the largest (six voters, limit `(5, 10)`: `4`, though `5` fits);
`trim_assignments_length` keeps the longest fitting prefix. -/
theorem miner_trim_is_exact_for_length_not_for_weight :
    (∀ (solutionWeight : Nat → Nat → Nat → Nat → Weight) (desiredWinners : Nat)
        (size : SolutionOrSnapshotSize) (maxWeight : Weight),
      maximumVoterForWeight solutionWeight desiredWinners size maxWeight ≤ size.voters ∧
      (maximumVoterForWeight solutionWeight desiredWinners size maxWeight = 0 ∨
        (solutionWeight size.voters size.targets
          (maximumVoterForWeight solutionWeight desiredWinners size maxWeight)
            desiredWinners).allLte maxWeight = true) ∧
      ((∀ u v, u ≤ v → (solutionWeight size.voters size.targets u desiredWinners).allLte
          (solutionWeight size.voters size.targets v desiredWinners) = true) →
        ∀ v ≤ size.voters,
          (solutionWeight size.voters size.targets v desiredWinners).allLt maxWeight = true →
            v ≤ maximumVoterForWeight solutionWeight desiredWinners size maxWeight)) ∧
    ((∀ u v : Nat, u ≤ v → Weight.allLte ⟨u, 0⟩ ⟨v, 0⟩ = true) ∧
      Weight.allLte ⟨5, 0⟩ ⟨5, 10⟩ = true ∧
      maximumVoterForWeight (fun _ _ activeVoters _ => ⟨activeVoters, 0⟩) 0 ⟨6, 0⟩ ⟨5, 10⟩ = 4) ∧
    (∀ {α ε : Type} (maxAllowedLength : Nat) (assignments : List α)
        (encodedSizeOf : List α → Except ε Nat) (encodedLength : Nat → Nat),
      (∀ i, encodedSizeOf (assignments.take i) = .ok (encodedLength i)) → Monotone encodedLength →
        ∃ k ≤ assignments.length,
          trimAssignmentsLength maxAllowedLength assignments encodedSizeOf =
            .ok (assignments.take k) ∧
          (k = 0 ∨ encodedLength k ≤ maxAllowedLength) ∧
          ∀ j ≤ assignments.length, encodedLength j ≤ maxAllowedLength → j ≤ k) ∧
    (∀ {α ε : Type} (maxAllowedLength : Nat) (assignments : List α)
        (encodedSizeOf : List α → Except ε Nat) (e : ε),
      trimAssignmentsLength maxAllowedLength assignments encodedSizeOf = .error e →
        ∃ i, encodedSizeOf (assignments.take i) = .error e) := by
  refine ⟨fun solutionWeight desiredWinners size maxWeight =>
      ⟨maximumVoterForWeight_le, maximumVoterForWeight_fits,
        fun hmono v hv hlt => le_maximumVoterForWeight hmono hv hlt⟩,
    ⟨fun u v huv => ?_, by decide, by decide⟩,
    fun _ _ _ _ hsize hmono => trimAssignmentsLength_longest hsize hmono,
    fun _ _ _ _ h => trimAssignmentsLength_error h⟩
  simpa [Weight.allLte] using huv

end Miner

end Substrate.Election
