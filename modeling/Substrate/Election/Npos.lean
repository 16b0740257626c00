import Mathlib
import Substrate.Lib.Collections
import Substrate.Arithmetic.PerThing
import Substrate.Arithmetic.Normalize

/-! # NPoS assignments, supports and scores

`src/primitives/npos-elections/src`: assignments by ratios, staked and normalized to the voter's
stake; supports collecting the edges of each target in a `BTreeMap`; and the score, the smallest
backing, the sum and the sum of squares, in `u128`.
-/

namespace Substrate.Npos

open Substrate.Arithmetic Collections

def extendedBits : Nat := 128

/-- The errors of `sp_npos_elections` that the modelled functions raise. -/
inductive Error where
  | solutionWeightOverflow
  | solutionInvalidIndex
  | arithmeticError (error : NormalizeError)
  deriving DecidableEq, Repr

variable {A : Type} {accuracy : Nat}

structure Assignment (A : Type) (accuracy : Nat) where
  who : A
  distribution : List (A × PerThing accuracy)
  deriving DecidableEq

structure StakedAssignment (A : Type) where
  who : A
  distribution : List (A × Nat)
  deriving DecidableEq

/-- `Assignment::into_staked`: an edge of zero ratio is dropped, the others weigh their share
of the stake. -/
def Assignment.intoStaked (a : Assignment A accuracy) (stake : Nat) : StakedAssignment A :=
  ⟨a.who, a.distribution.filterMap fun (target, p) =>
    if p.isZero then none else some (target, p.mul stake)⟩

@[simp] theorem Assignment.intoStaked_who (a : Assignment A accuracy) (stake : Nat) :
    (a.intoStaked stake).who = a.who := rfl

def StakedAssignment.tryNormalize (a : StakedAssignment A) (stake : Nat) :
    Option (Except NormalizeError (StakedAssignment A)) :=
  (normalize extendedBits (a.distribution.map Prod.snd) stake).map fun result =>
    result.map fun weights => ⟨a.who, (a.distribution.zip weights).map fun (edge, w) => (edge.1, w)⟩

def assignmentRatioToStaked (ratios : List (Assignment A accuracy)) (stakeOf : A → Nat) :
    List (StakedAssignment A) :=
  ratios.map fun a => a.intoStaked (stakeOf a.who)

/-- The `try_for_each` of `assignment_ratio_to_staked_normalized`: stops at the first error. -/
def normalizeAll (stakeOf : A → Nat) :
    List (StakedAssignment A) → Option (Except Error (List (StakedAssignment A)))
  | [] => some (.ok [])
  | a :: rest =>
    match a.tryNormalize (stakeOf a.who) with
    | none => none
    | some (.error e) => some (.error (.arithmeticError e))
    | some (.ok a) => (normalizeAll stakeOf rest).map fun result => result.map (a :: ·)

def assignmentRatioToStakedNormalized (ratios : List (Assignment A accuracy)) (stakeOf : A → Nat) :
    Option (Except Error (List (StakedAssignment A))) :=
  normalizeAll stakeOf (assignmentRatioToStaked ratios stakeOf)

structure Support (A : Type) where
  total : Nat
  voters : List (A × Nat)
  deriving DecidableEq

instance : Inhabited (Support A) := ⟨⟨0, []⟩⟩

def Support.push (support : Support A) (who : A) (weight : Nat) : Support A :=
  ⟨Unsigned.saturatingAdd extendedBits support.total weight, support.voters ++ [(who, weight)]⟩

/-- `to_support_map`, in key order as `to_supports` returns it. -/
def toSupports (cmp : A → A → Ordering) (assignments : List (StakedAssignment A)) :
    List (A × Support A) :=
  assignments.foldl (fun supports a =>
    a.distribution.foldl (fun supports edge =>
      BTreeMap.alter cmp edge.1 default (·.push a.who edge.2) supports) supports) []

structure ElectionScore where
  minimalStake : Nat
  sumStake : Nat
  sumStakeSquared : Nat
  deriving DecidableEq, Repr

def evaluate (supports : List (A × Support A)) : ElectionScore :=
  supports.foldl (fun score entry =>
    let total := entry.2.total
    ⟨if total < score.minimalStake then total else score.minimalStake,
      Unsigned.saturatingAdd extendedBits score.sumStake total,
      Unsigned.saturatingAdd extendedBits score.sumStakeSquared
        (Unsigned.saturatingMul extendedBits total total)⟩)
    ⟨Unsigned.maxValue extendedBits, 0, 0⟩

/-- `ThresholdOrd::tcmp`: equal within the threshold. -/
def tcmp (a b threshold : Nat) : Ordering :=
  if threshold = 0 then compare a b
  else
    let upper := Unsigned.saturatingAdd extendedBits b threshold
    let lower := b - threshold
    if upper ≤ lower then compare a b
    else match compare a lower, compare a upper with
      | .gt, .gt => .gt
      | .lt, .lt => .lt
      | _, _ => .eq

/-- `ElectionScore::strict_threshold_better`: a greater minimal stake, then a greater sum, then a
smaller sum of squares. -/
def ElectionScore.strictThresholdBetter (self other : ElectionScore) (threshold : PerThing accuracy) :
    Bool :=
  let compareBy (this that : Nat) := (decide (that ≤ this), tcmp this that (threshold.mulCeil that))
  match compareBy self.minimalStake other.minimalStake, compareBy self.sumStake other.sumStake,
      compareBy self.sumStakeSquared other.sumStakeSquared with
  | (_, .gt), _, _ => true
  | (true, .eq), (_, .gt), _ => true
  | (true, .eq), (true, .eq), (_, .lt) => true
  | _, _, _ => false

/-- `Ord for ElectionScore`: `[minimal_stake, sum_stake, other.sum_stake_squared]` against
`[other.minimal_stake, other.sum_stake, sum_stake_squared]`, lexicographically. -/
def ElectionScore.cmp (self other : ElectionScore) : Ordering :=
  (compare self.minimalStake other.minimalStake).then
    ((compare self.sumStake other.sumStake).then (compare other.sumStakeSquared self.sumStakeSquared))

/-! ## Threshold comparison against the order of scores -/

variable {a b : ElectionScore}

/-- A score is better exactly when it is lexicographically better, field by field. -/
theorem ElectionScore.cmp_eq_gt :
    a.cmp b = .gt ↔ b.minimalStake < a.minimalStake ∨ a.minimalStake = b.minimalStake ∧
      (b.sumStake < a.sumStake ∨ a.sumStake = b.sumStake ∧ a.sumStakeSquared < b.sumStakeSquared) := by
  simp [ElectionScore.cmp, Ordering.then_eq_gt, compare_gt_iff_gt]

@[simp] theorem tcmp_zero (a b : Nat) : tcmp a b 0 = compare a b := by
  simp [tcmp]

/-- `tcmp` says less only below the lower bound, which is at most `b`. -/
theorem tcmp_lt {a b threshold : Nat} (h : tcmp a b threshold = .lt) : a < b := by
  unfold tcmp at h
  split at h
  · exact compare_lt_iff_lt.mp h
  dsimp only at h
  split at h
  · exact compare_lt_iff_lt.mp h
  split at h
  · cases h
  · next hlower _ =>
    have := compare_lt_iff_lt.mp hlower
    omega
  · cases h

/-- `tcmp` says greater only above the upper bound, which saturates no lower than a `u128` `b`. -/
theorem tcmp_gt {a b threshold : Nat} (hb : b ≤ Unsigned.maxValue extendedBits)
    (h : tcmp a b threshold = .gt) : b < a := by
  unfold tcmp at h
  split at h
  · exact compare_gt_iff_gt.mp h
  dsimp only at h
  split at h
  · exact compare_gt_iff_gt.mp h
  split at h
  · next hupper =>
    have := compare_gt_iff_gt.mp hupper
    unfold Unsigned.saturatingAdd at this
    omega
  · cases h
  · cases h

/-- The three ways `strict_threshold_better` accepts: by the minimal stake, the sum, or the sum of
squares, the earlier ones no worse within the threshold. -/
theorem strictThresholdBetter_cases {t : PerThing accuracy}
    (h : a.strictThresholdBetter b t = true) :
    tcmp a.minimalStake b.minimalStake (t.mulCeil b.minimalStake) = .gt ∨
      b.minimalStake ≤ a.minimalStake ∧ tcmp a.sumStake b.sumStake (t.mulCeil b.sumStake) = .gt ∨
      b.minimalStake ≤ a.minimalStake ∧ b.sumStake ≤ a.sumStake ∧
        tcmp a.sumStakeSquared b.sumStakeSquared (t.mulCeil b.sumStakeSquared) = .lt := by
  unfold ElectionScore.strictThresholdBetter at h
  dsimp only at h
  split at h
  · next hmin =>
    exact .inl (Prod.mk.inj hmin).2
  · next hmin hsum =>
    simp only [Prod.mk.injEq, decide_eq_true_eq] at hmin hsum
    exact .inr (.inl ⟨hmin.1, hsum.2⟩)
  · next hmin hsum hsquares =>
    simp only [Prod.mk.injEq, decide_eq_true_eq] at hmin hsum hsquares
    exact .inr (.inr ⟨hmin.1, hsum.1, hsquares.2⟩)
  · cases h

/-- A score threshold-better than one of `u128` fields is better in the order of scores. -/
theorem strictThresholdBetter_gt {t : PerThing accuracy}
    (hmin : b.minimalStake ≤ Unsigned.maxValue extendedBits)
    (hsum : b.sumStake ≤ Unsigned.maxValue extendedBits)
    (h : a.strictThresholdBetter b t = true) : a.cmp b = .gt := by
  rw [ElectionScore.cmp_eq_gt]
  rcases strictThresholdBetter_cases h with hgt | ⟨hle, hgt⟩ | ⟨hle₁, hle₂, hlt⟩
  · exact .inl (tcmp_gt hmin hgt)
  · have := tcmp_gt hsum hgt
    omega
  · have := tcmp_lt hlt
    omega

/-- With a zero threshold, `strict_threshold_better` is the order of scores. -/
theorem strictThresholdBetter_zero (a b : ElectionScore) :
    a.strictThresholdBetter b (PerThing.zero : PerThing accuracy) = true ↔ a.cmp b = .gt := by
  -- each field is compared exactly
  have hexact : ∀ x y : Nat, tcmp x y ((PerThing.zero : PerThing accuracy).mulCeil y) = compare x y :=
    fun x y => by rw [PerThing.mulCeil_zero, tcmp_zero]
  rw [ElectionScore.cmp_eq_gt]
  constructor
  · intro h
    rcases strictThresholdBetter_cases h with hgt | ⟨hle, hgt⟩ | ⟨hle₁, hle₂, hlt⟩
    · rw [hexact] at hgt
      exact .inl (compare_gt_iff_gt.mp hgt)
    · rw [hexact] at hgt
      have := compare_gt_iff_gt.mp hgt
      omega
    · rw [hexact] at hlt
      have := compare_lt_iff_lt.mp hlt
      omega
  · unfold ElectionScore.strictThresholdBetter
    simp only [hexact]
    rintro (hgt | ⟨heq, hgt | ⟨heq', hlt⟩⟩)
    · simp [compare_gt_iff_gt.mpr hgt]
    · simp [heq, compare_gt_iff_gt.mpr hgt]
    · simp [heq, heq', compare_lt_iff_lt.mpr hlt]

/-- For any threshold, threshold-better implies better in the order of scores; with a zero threshold
they agree. -/
theorem strictThresholdBetter_agrees_with_ord :
    (∀ (accuracy : Nat) (a b : ElectionScore) (t : PerThing accuracy),
      b.minimalStake ≤ Unsigned.maxValue extendedBits → b.sumStake ≤ Unsigned.maxValue extendedBits →
      a.strictThresholdBetter b t = true → a.cmp b = .gt) ∧
    (∀ (accuracy : Nat) (a b : ElectionScore),
      a.strictThresholdBetter b (PerThing.zero : PerThing accuracy) = true ↔ a.cmp b = .gt) := by
  refine ⟨?_, ?_⟩
  · intro accuracy a b t hmin hsum h
    exact strictThresholdBetter_gt hmin hsum h
  · intro accuracy a b
    exact strictThresholdBetter_zero a b

/-- The stake `voter` puts behind the supports, all targets together. -/
def backing [DecidableEq A] (supports : List (A × Support A)) (voter : A) : Nat :=
  (supports.map fun entry => ((entry.2.voters.filter fun edge => edge.1 = voter).map Prod.snd).sum).sum

end Substrate.Npos
