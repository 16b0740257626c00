import Mathlib
import Substrate.Election.Npos

/-! # The feasibility check of a submitted election solution

`Miner::feasibility_check` of `src/frame/election-provider-multi-phase/src/unsigned.rs`: voters and
targets by snapshot index, `votes1` with one target per voter and each `votesN` with ratios for all
but the last target. Nothing checks that a voter appears once: a repeated voter's stake counts once
per appearance.
-/

namespace Substrate.Election

open Substrate.Arithmetic Substrate.Npos Collections

inductive FeasibilityError where
  | wrongWinnerCount
  | nposElection (error : Npos.Error)
  | invalidVote
  | invalidVoter
  | invalidScore
  | invalidRound
  | untrustedScoreTooLow
  | tooManyDesiredTargets
  | boundedConversionFailed
  deriving DecidableEq, Repr

inductive ElectionCompute where
  | onChain
  | signed
  | unsigned
  | fallback
  | emergency
  deriving DecidableEq, Repr

/-- The generated solution type; `votesRest` holds the fields `votes2`, `votes3`, ... in order. -/
structure Solution (accuracy : Nat) where
  votes1 : List (Nat × Nat)
  votesRest : List (List (Nat × List (Nat × PerThing accuracy) × Nat))
  deriving DecidableEq

structure RawSolution (accuracy : Nat) where
  solution : Solution accuracy
  score : ElectionScore
  round : Nat

/-- The voters, each with its stake and the targets it lists, and the targets. -/
structure RoundSnapshot (A : Type) where
  voters : List (A × Nat × List A)
  targets : List A

structure ReadySolution (A : Type) where
  supports : List (A × Support A)
  compute : ElectionCompute
  score : ElectionScore

def perbillAccuracy : Nat := 1000000000

variable {A : Type} {accuracy : Nat}

def Solution.uniqueTargets (solution : Solution accuracy) : List Nat :=
  let inserted := solution.votes1.foldl (fun set vote => BTreeSet.insert compare vote.2 set) []
  solution.votesRest.foldl (fun set field =>
    field.foldl (fun set vote =>
      BTreeSet.insert compare vote.2.2
        (vote.2.1.foldl (fun set inner => BTreeSet.insert compare inner.1 set) set)) set) inserted

def orInvalidIndex {α : Type} : Option α → Except Npos.Error α
  | some a => .ok a
  | none => .error .solutionInvalidIndex

/-- One entry of a field `votes2`, `votes3`, ...: the last target takes what the others leave. -/
def intoAssignmentRest (voterAt targetAt : Nat → Option A)
    (vote : Nat × List (Nat × PerThing accuracy) × Nat) : Except Npos.Error (Assignment A accuracy) := do
  let inners ← vote.2.1.mapM fun inner => do
    let target ← orInvalidIndex (targetAt inner.1)
    pure (target, inner.2)
  let sum := vote.2.1.foldl (fun sum inner => sum.saturatingAdd inner.2) PerThing.zero
  if (PerThing.one : PerThing accuracy).parts ≤ sum.parts then throw .solutionWeightOverflow
  let pLast := (PerThing.one : PerThing accuracy).saturatingSub sum
  let last ← orInvalidIndex (targetAt vote.2.2)
  let who ← orInvalidIndex (voterAt vote.1)
  pure ⟨who, inners ++ [(last, pLast)]⟩

def Solution.intoAssignment (solution : Solution accuracy) (voterAt targetAt : Nat → Option A) :
    Except Npos.Error (List (Assignment A accuracy)) := do
  let single ← solution.votes1.mapM fun vote => do
    let who ← orInvalidIndex (voterAt vote.1)
    let target ← orInvalidIndex (targetAt vote.2)
    pure ⟨who, [(target, PerThing.one)]⟩
  let rest ← solution.votesRest.flatten.mapM (intoAssignmentRest voterAt targetAt)
  pure (single ++ rest)

/-- `generate_voter_cache`: the index of each voter in the snapshot; of a voter listed twice,
the last index. -/
def generateVoterCache [DecidableEq A] (voters : List (A × Nat × List A)) : A → Option Nat :=
  ((List.range voters.length).zip voters).foldl
    (fun cache entry => fun who => if who = entry.2.1 then some entry.1 else cache who) fun _ => none

def stakeOf (voters : List (A × Nat × List A)) (cache : A → Option Nat) (who : A) : Nat :=
  match cache who with
  | some index => (voters[index]?.map fun voter => voter.2.1).getD 0
  | none => 0

/-- The check of one assignment: its voter is in the snapshot and votes only for targets it
listed there. -/
def checkAssignment [DecidableEq A] (voters : List (A × Nat × List A)) (cache : A → Option Nat)
    (assignment : Assignment A accuracy) : Except FeasibilityError Unit :=
  match cache assignment.who with
  | none => .error .invalidVoter
  | some snapshotIndex =>
    match voters[snapshotIndex]? with
    | none => .error .invalidVoter
    | some voter =>
      if assignment.distribution.any fun edge => !voter.2.2.contains edge.1 then .error .invalidVote
      else .ok ()

def feasibilityCheck [LinearOrder A] (maxWinners : Nat) (rawSolution : RawSolution accuracy)
    (compute : ElectionCompute) (desiredTargets : Nat) (snapshot : RoundSnapshot A)
    (currentRound : Nat) (minimumUntrustedScore : Option ElectionScore) :
    Option (Except FeasibilityError (ReadySolution A)) :=
  let score := rawSolution.score
  if currentRound ≠ rawSolution.round then some (.error .invalidRound)
  else if rawSolution.solution.uniqueTargets.length ≠ desiredTargets then some (.error .wrongWinnerCount)
  else if maxWinners < desiredTargets then some (.error .tooManyDesiredTargets)
  else if !(minimumUntrustedScore.all fun minScore =>
      score.strictThresholdBetter minScore (PerThing.zero : PerThing perbillAccuracy)) then
    some (.error .untrustedScoreTooLow)
  else
    let cache := generateVoterCache snapshot.voters
    let voterAt := fun i => snapshot.voters[i]?.map Prod.fst
    let targetAt := fun i => snapshot.targets[i]?
    match rawSolution.solution.intoAssignment voterAt targetAt with
    | .error e => some (.error (.nposElection e))
    | .ok assignments =>
      match assignments.forM (checkAssignment snapshot.voters cache) with
      | .error e => some (.error e)
      | .ok () =>
        (assignmentRatioToStakedNormalized assignments (stakeOf snapshot.voters cache)).map fun
          | .error e => .error (.nposElection e)
          | .ok staked =>
            let supports := toSupports compare staked
            if evaluate supports ≠ score then .error .invalidScore
            else if maxWinners < supports.length then .error .boundedConversionFailed
            else .ok ⟨supports, compute, score⟩

section DuplicateVoter

/-! The path of a solution that lists one voter twice in `votes1`, for two targets. -/

variable {i ia ib stake : Nat} {v a b : A}

theorem uniqueTargets_pair (j : Nat) (hne : ia ≠ ib) :
    (⟨[(i, ia), (j, ib)], []⟩ : Solution accuracy).uniqueTargets.length = 2 := by
  simp [Solution.uniqueTargets, BTreeSet.insert, Ne.symm hne]

theorem intoAssignment_pair {voterAt targetAt : Nat → Option A} (hv : voterAt i = some v)
    (ha : targetAt ia = some a) (hb : targetAt ib = some b) :
    (⟨[(i, ia), (i, ib)], []⟩ : Solution accuracy).intoAssignment voterAt targetAt =
      .ok [⟨v, [(a, PerThing.one)]⟩, ⟨v, [(b, PerThing.one)]⟩] := by
  simp [Solution.intoAssignment, orInvalidIndex, hv, ha, hb]
  rfl

/-- An assignment passes the check when its voter's cached index holds it and every target it votes
for is listed. -/
theorem checkAssignment_of_listed [DecidableEq A] {voters : List (A × Nat × List A)}
    {cache : A → Option Nat} {distribution : List (A × PerThing accuracy)} {targets : List A}
    (hcache : cache v = some i) (hvoter : voters[i]? = some (v, stake, targets))
    (hlisted : ∀ edge ∈ distribution, edge.1 ∈ targets) :
    checkAssignment voters cache ⟨v, distribution⟩ = .ok () := by
  have hall : (distribution.any fun edge => !targets.contains edge.1) = false := by
    simpa using hlisted
  simp only [checkAssignment, hcache, hvoter]
  rw [if_neg (by simp only [hall]; decide)]

/-- A whole stake on one target stays whole through staking and normalization. -/
theorem tryNormalize_intoStaked_one (hacc : 0 < accuracy) (hstake : stake ≤ Unsigned.maxValue extendedBits)
    (who target : A) :
    ((⟨who, [(target, PerThing.one)]⟩ : Assignment A accuracy).intoStaked stake).tryNormalize stake =
      some (.ok ⟨who, [(target, stake)]⟩) := by
  have hnormal : normalize extendedBits [stake] stake = some (.ok [stake]) :=
    normalize_of_sum_eq (checkedSum_singleton hstake) (by simp [Unsigned.maxValue, extendedBits])
  simp [Assignment.intoStaked, hacc.ne', PerThing.one_mul hacc, StakedAssignment.tryNormalize, hnormal]
  rfl

theorem toSupports_pair [LinearOrder A] (hab : a ≠ b) (hstake : stake ≤ Unsigned.maxValue extendedBits) :
    toSupports compare [⟨v, [(a, stake)]⟩, ⟨v, [(b, stake)]⟩] =
      if compare b a = .lt then [(b, ⟨stake, [(v, stake)]⟩), (a, ⟨stake, [(v, stake)]⟩)]
      else [(a, ⟨stake, [(v, stake)]⟩), (b, ⟨stake, [(v, stake)]⟩)] := by
  have hpush : (default : Support A).push v stake = ⟨stake, [(v, stake)]⟩ := by
    simp [Support.push, default, Unsigned.saturatingAdd_of_le (show 0 + stake ≤ Unsigned.maxValue extendedBits by omega)]
  have hne : compare b a ≠ .eq := by
    rw [Ne, compare_eq_iff_eq]
    exact Ne.symm hab
  simp only [toSupports, List.foldl_cons, List.foldl_nil, BTreeMap.alter, hpush]
  split
  · next hlt => simp [hlt]
  · next heq => exact absurd heq hne
  · next hgt => simp [hgt]

theorem backing_pair [DecidableEq A] (x y : A) :
    backing [(x, ⟨stake, [(v, stake)]⟩), (y, ⟨stake, [(v, stake)]⟩)] v = 2 * stake := by
  simp [backing]
  omega

/-- A solution listing a voter twice in `votes1`, for two targets, passes the feasibility check:
both targets get the voter's whole stake. -/
theorem feasibilityCheck_counts_duplicate_voter [LinearOrder A] (maxWinners round : Nat)
    (compute : ElectionCompute) (snapshot : RoundSnapshot A) {targets : List A} {score : ElectionScore}
    (hvoter : snapshot.voters[i]? = some (v, stake, targets))
    (hcache : generateVoterCache snapshot.voters v = some i)
    (ha : snapshot.targets[ia]? = some a) (hb : snapshot.targets[ib]? = some b) (hab : a ≠ b)
    (hlisted : a ∈ targets ∧ b ∈ targets) (hwinners : 2 ≤ maxWinners) (hacc : 0 < accuracy)
    (hstake : stake ≤ Unsigned.maxValue extendedBits)
    (hscore : score = evaluate [(a, ⟨stake, [(v, stake)]⟩), (b, ⟨stake, [(v, stake)]⟩)]) :
    ∃ ready, feasibilityCheck maxWinners (⟨⟨[(i, ia), (i, ib)], []⟩, score, round⟩ : RawSolution accuracy)
        compute 2 snapshot round none = some (.ok ready) ∧
      List.Perm ready.supports [(a, ⟨stake, [(v, stake)]⟩), (b, ⟨stake, [(v, stake)]⟩)] ∧
      backing ready.supports v = 2 * stake := by
  have hindex : ia ≠ ib := by
    rintro rfl
    exact hab (Option.some.inj (ha.symm.trans hb))
  have hassign : (⟨[(i, ia), (i, ib)], []⟩ : Solution accuracy).intoAssignment
      (fun j => snapshot.voters[j]?.map Prod.fst) (fun j => snapshot.targets[j]?) =
        .ok [⟨v, [(a, PerThing.one)]⟩, ⟨v, [(b, PerThing.one)]⟩] :=
    intoAssignment_pair (by simp [hvoter]) ha hb
  -- both assignments name a voter of the snapshot and targets it listed
  have hcheck : ∀ t ∈ targets, checkAssignment snapshot.voters (generateVoterCache snapshot.voters)
      (⟨v, [(t, PerThing.one)]⟩ : Assignment A accuracy) = .ok () := by
    intro t ht
    exact checkAssignment_of_listed hcache hvoter (by simpa using ht)
  have hstakeOf : stakeOf snapshot.voters (generateVoterCache snapshot.voters) v = stake := by
    simp [stakeOf, hcache, hvoter]
  have hstaked : assignmentRatioToStakedNormalized
      [(⟨v, [(a, PerThing.one)]⟩ : Assignment A accuracy), ⟨v, [(b, PerThing.one)]⟩]
      (stakeOf snapshot.voters (generateVoterCache snapshot.voters)) =
        some (.ok [⟨v, [(a, stake)]⟩, ⟨v, [(b, stake)]⟩]) := by
    simp [assignmentRatioToStakedNormalized, assignmentRatioToStaked, normalizeAll, hstakeOf,
      tryNormalize_intoStaked_one hacc hstake]
    rfl
  have hforM : [(⟨v, [(a, PerThing.one)]⟩ : Assignment A accuracy), ⟨v, [(b, PerThing.one)]⟩].forM
      (checkAssignment snapshot.voters (generateVoterCache snapshot.voters)) = .ok () := by
    simp only [List.forM, hcheck a hlisted.1, hcheck b hlisted.2]
    rfl
  have hevaluate : evaluate [(b, (⟨stake, [(v, stake)]⟩ : Support A)), (a, ⟨stake, [(v, stake)]⟩)] =
      evaluate [(a, (⟨stake, [(v, stake)]⟩ : Support A)), (b, ⟨stake, [(v, stake)]⟩)] := by
    simp [evaluate]
  simp only [feasibilityCheck, ne_eq, not_true_eq_false, if_false, uniqueTargets_pair i hindex,
    Nat.not_lt.mpr hwinners, Option.all_none, Bool.not_true, Bool.false_eq_true, hassign, hforM,
    hstaked, Option.map_some, toSupports_pair hab hstake]
  split
  · -- `b` comes first in key order
    refine ⟨⟨_, compute, score⟩, ?_, List.Perm.swap _ _ _, backing_pair b a⟩
    simp [hevaluate, hscore, Nat.not_lt.mpr hwinners]
  · refine ⟨⟨_, compute, score⟩, ?_, List.Perm.refl _, backing_pair a b⟩
    simp [hscore, Nat.not_lt.mpr hwinners]

def duplicateVoterSnapshot : RoundSnapshot Nat := ⟨[(1, 100, [10, 11])], [10, 11]⟩

theorem feasibilityCheck_backs_voter_twice :
    ∃ ready, feasibilityCheck 2
        (⟨⟨[(0, 0), (0, 1)], []⟩, evaluate [(10, ⟨100, [(1, 100)]⟩), (11, ⟨100, [(1, 100)]⟩)], 0⟩ :
          RawSolution perbillAccuracy) .signed 2 duplicateVoterSnapshot 0 none = some (.ok ready) ∧
      List.Perm ready.supports [(10, ⟨100, [(1, 100)]⟩), (11, ⟨100, [(1, 100)]⟩)] ∧
      backing ready.supports 1 = 2 * 100 :=
  feasibilityCheck_counts_duplicate_voter 2 0 .signed duplicateVoterSnapshot rfl (by decide) rfl rfl
    (by decide) ⟨by decide, by decide⟩ le_rfl (by decide) (by decide) rfl

end DuplicateVoter

end Substrate.Election
