import Mathlib
import Substrate.Lib.Unsigned
import Substrate.Lib.Fold
import Substrate.Arithmetic.PerThing
import Substrate.Election.Npos
import Substrate.Election.Feasibility

/-! # The PJR check

`src/primitives/npos-elections/src/pjr.rs`: t-PJR checked by the pre-score test. The share
`min(1, t / backing)` is a `Perbill` rounded down and the products round to the nearest, so the
test is sound for groups with one common candidate, while for larger groups edges rounded up by
less than a unit each can hide an under-represented group.
-/

namespace Substrate.Election

open Substrate.Arithmetic Substrate.Npos

variable {A : Type}

/-- `Candidate`, with the fields the check reads. -/
structure Candidate (A : Type) where
  who : A
  elected : Bool
  backedStake : Nat
  deriving DecidableEq, Repr

/-- `Edge`: the candidate it points to and the weight the solution gives it. -/
structure Edge (A : Type) where
  who : A
  candidate : Candidate A
  weight : Nat

/-- `Voter`, with the fields the check reads. -/
structure Voter (A : Type) where
  who : A
  budget : Nat
  edges : List (Edge A)

/-- `standard_threshold`: the saturating sum of the stakes over the committee size. -/
def standardThreshold (committeeSize : Nat) (weights : List Nat) : Nat :=
  weights.foldl (Unsigned.saturatingAdd extendedBits) 0 / max committeeSize 1

section Prepare

variable [DecidableEq A]

def assignmentsOf (supports : List (A × Support A)) (voter : A) : List (A × Nat) :=
  supports.flatMap fun (winner, support) =>
    support.voters.filterMap fun (who, weight) => if who = voter then some (winner, weight) else none

def supportStep (who : A) (found : Option (Support A)) (entry : A × Support A) : Option (Support A) :=
  if entry.1 = who then some entry.2 else found

def supportOf (supports : List (A × Support A)) (who : A) : Option (Support A) :=
  supports.foldl (supportStep who) none

def candidateOf (supports : List (A × Support A)) (who : A) : Candidate A :=
  ⟨who, (supportOf supports who).isSome, ((supportOf supports who).map (·.total)).getD 0⟩

def edgeStep (supports : List (A × Support A)) (allCandidates : List A) (voter : A)
    (edges : List (Edge A)) (t : A) : List (Edge A) :=
  if edges.any fun e => decide (e.who = t) then edges
  else if t ∈ allCandidates then
    edges ++ [⟨t, candidateOf supports t,
      (((assignmentsOf supports voter).find? fun x => decide (x.1 = t)).map (·.2)).getD 0⟩]
  else edges

/-- The edges of a voter: each target once, when it is a candidate. -/
def voterEdges (supports : List (A × Support A)) (allCandidates : List A) (voter : A)
    (targets : List A) : List (Edge A) :=
  targets.foldl (edgeStep supports allCandidates voter) []

/-- A voter of `all_voters` as `prepare_pjr_input` converts it. -/
def prepareVoter (supports : List (A × Support A)) (allCandidates : List A) :
    A × Nat × List A → Voter A
  | (v, w, ts) => ⟨v, w, voterEdges supports allCandidates v ts⟩

def preparePjrInput (supports : List (A × Support A)) (allCandidates : List A)
    (allVoters : List (A × Nat × List A)) : List (Candidate A) × List (Voter A) :=
  (allCandidates.map (candidateOf supports), allVoters.map (prepareVoter supports allCandidates))

def Voter.votesFor (voter : Voter A) (target : A) : Bool :=
  voter.edges.any fun e => decide (e.who = target)

end Prepare

/-- The share of an edge that an elected candidate keeps: `min(1, t / backing)`. -/
def keptShare (t backedStake : Nat) : PerThing perbillAccuracy :=
  PerThing.one.min (PerThing.fromRational t backedStake)

def leftover (voter : Voter A) (t : Nat) : Nat :=
  voter.edges.foldl (fun acc edge =>
    if edge.candidate.elected then
      Unsigned.saturatingAdd extendedBits acc ((keptShare t edge.candidate.backedStake).mul edge.weight)
    else acc) 0

def slack (voter : Voter A) (t : Nat) : Nat := voter.budget - leftover voter t

def preScore [DecidableEq A] (unelected : Candidate A) (voters : List (Voter A)) (t : Nat) : Nat :=
  (voters.filter (·.votesFor unelected.who)).foldl
    (fun acc voter => Unsigned.saturatingAdd extendedBits acc (slack voter t)) 0

/-- One step of `Iterator::max`: a later pair wins a tie. -/
def maxStep [LinearOrder A] (m y : Nat × A) : Nat × A :=
  if toLex m ≤ toLex y then y else m

/-- `Iterator::max` on pairs, compared lexicographically: the last of the largest. -/
def lexMax [LinearOrder A] : List (Nat × A) → Option (Nat × A)
  | [] => none
  | x :: xs => some (xs.foldl maxStep x)

/-- `pjr_check_core`: the counterexample is the unelected candidate of the largest pre-score,
when that reaches `t`. -/
def pjrCheckCore [LinearOrder A] (candidates : List (Candidate A)) (voters : List (Voter A))
    (t : Nat) : Except A Unit :=
  match lexMax ((candidates.filter fun c => !c.elected).map fun c => (preScore c voters t, c.who)) with
  | some (maxPreScore, counterExample) => if t ≤ maxPreScore then .error counterExample else .ok ()
  | none => .ok ()

def tPjrCheck [LinearOrder A] (supports : List (A × Support A)) (allCandidates : List A)
    (allVoters : List (A × Nat × List A)) (t : Nat) : Except A Unit :=
  let (candidates, voters) := preparePjrInput supports allCandidates allVoters
  pjrCheckCore candidates voters t

def pjrCheck [LinearOrder A] (supports : List (A × Support A)) (allCandidates : List A)
    (allVoters : List (A × Nat × List A)) : Except A Unit :=
  tPjrCheck supports allCandidates allVoters
    (standardThreshold supports.length (allVoters.map (·.2.1)))

/-- `validate_pjr_challenge_core`: the first candidate of that id, if any, has a pre-score reaching
the threshold. -/
def validatePjrChallengeCore [DecidableEq A] (counterExample : A) (candidates : List (Candidate A))
    (voters : List (Voter A)) (threshold : Nat) : Bool :=
  match candidates.find? fun c => decide (c.who = counterExample) with
  | none => false
  | some candidate => decide (threshold ≤ preScore candidate voters threshold)

def validateTPjrChallenge [DecidableEq A] (counterExample : A) (supports : List (A × Support A))
    (allCandidates : List A) (allVoters : List (A × Nat × List A)) (threshold : Nat) : Bool :=
  let (candidates, voters) := preparePjrInput supports allCandidates allVoters
  validatePjrChallengeCore counterExample candidates voters threshold

def validatePjrChallenge [DecidableEq A] (counterExample : A) (supports : List (A × Support A))
    (allCandidates : List A) (allVoters : List (A × Nat × List A)) : Bool :=
  validateTPjrChallenge counterExample supports allCandidates allVoters
    (standardThreshold supports.length (allVoters.map (·.2.1)))

/-! ## What the check decides -/

section Decides

variable [LinearOrder A]

/-- The fold of `Iterator::max` ends on one of the pairs it saw, and no pair seen has a larger first
component. -/
theorem foldl_maxStep (ys : List (Nat × A)) (acc : Nat × A) :
    ys.foldl maxStep acc ∈ acc :: ys ∧ ∀ y ∈ acc :: ys, y.1 ≤ (ys.foldl maxStep acc).1 := by
  induction ys generalizing acc with
  | nil => simp
  | cons y ys ih =>
    rw [List.foldl_cons, maxStep]
    split
    · next hle =>
        obtain ⟨hmem, hmax⟩ := ih y
        refine ⟨List.mem_cons_of_mem _ hmem, ?_⟩
        intro z hz
        rcases List.mem_cons.mp hz with rfl | hz
        · exact le_trans (Prod.Lex.monotone_fst _ _ hle) (hmax y List.mem_cons_self)
        · exact hmax z hz
    · next hgt =>
        obtain ⟨hmem, hmax⟩ := ih acc
        refine ⟨?_, ?_⟩
        · rcases List.mem_cons.mp hmem with h | h
          · rw [h]
            exact List.mem_cons_self
          · exact List.mem_cons_of_mem _ (List.mem_cons_of_mem _ h)
        · intro z hz
          rcases List.mem_cons.mp hz with rfl | hz
          · exact hmax z List.mem_cons_self
          · rcases List.mem_cons.mp hz with rfl | hz
            · exact le_trans (Prod.Lex.monotone_fst _ _ (le_of_lt (not_le.mp hgt)))
                (hmax acc List.mem_cons_self)
            · exact hmax z (List.mem_cons_of_mem _ hz)

theorem lexMax_eq_some : ∀ {l : List (Nat × A)} {m : Nat × A}, lexMax l = some m →
    m ∈ l ∧ ∀ y ∈ l, y.1 ≤ m.1
  | [], _, h => by cases h
  | x :: xs, m, h => by
    rw [lexMax, Option.some.injEq] at h
    subst h
    exact foldl_maxStep xs x

theorem lexMax_eq_none {l : List (Nat × A)} : lexMax l = none ↔ l = [] := by
  cases l <;> simp [lexMax]

/-- `pjr_check_core` accepts exactly when every unelected candidate's pre-score is below `t`. -/
theorem pjrCheckCore_eq_ok_iff (candidates : List (Candidate A)) (voters : List (Voter A))
    (t : Nat) : pjrCheckCore candidates voters t = .ok () ↔
      ∀ c ∈ candidates, c.elected = false → preScore c voters t < t := by
  rw [pjrCheckCore]
  split
  · next maxPreScore counterExample hmax =>
      obtain ⟨hmem, hbound⟩ := lexMax_eq_some hmax
      constructor
      · intro hok c hc hunelected
        have hle := hbound (preScore c voters t, c.who)
          (List.mem_map.mpr ⟨c, List.mem_filter.mpr ⟨hc, by simp [hunelected]⟩, rfl⟩)
        split at hok
        · cases hok
        · next hlt => exact lt_of_le_of_lt hle (not_le.mp hlt)
      · intro hall
        obtain ⟨c, hc, hpair⟩ := List.mem_map.mp hmem
        obtain ⟨hc, hunelected⟩ := List.mem_filter.mp hc
        have hlt := hall c hc (by simpa using hunelected)
        rw [Prod.mk.injEq] at hpair
        rw [if_neg (by omega)]
  · next hnone =>
      simp only [true_iff]
      intro c hc hunelected
      have hempty := (lexMax_eq_none.mp hnone)
      simp only [List.map_eq_nil_iff, List.filter_eq_nil_iff] at hempty
      exact absurd hunelected (by simpa using hempty c hc)

/-- What `pjr_check_core` reports: an unelected candidate whose pre-score reaches `t`. -/
theorem pjrCheckCore_eq_error {candidates : List (Candidate A)} {voters : List (Voter A)} {t : Nat}
    {counterExample : A} (h : pjrCheckCore candidates voters t = .error counterExample) :
    ∃ c ∈ candidates, c.elected = false ∧ c.who = counterExample ∧ t ≤ preScore c voters t := by
  rw [pjrCheckCore] at h
  split at h
  · next maxPreScore found hmax =>
      split at h
      · next hle =>
          cases h
          obtain ⟨hmem, -⟩ := lexMax_eq_some hmax
          obtain ⟨c, hc, hpair⟩ := List.mem_map.mp hmem
          obtain ⟨hc, hunelected⟩ := List.mem_filter.mp hc
          rw [Prod.mk.injEq] at hpair
          refine ⟨c, hc, by simpa using hunelected, hpair.2, ?_⟩
          rw [hpair.1]
          exact hle
      · cases h
  · cases h

end Decides

/-! ## Groups of one common candidate

A voter none of whose targets won keeps its whole budget as slack, so a passing check rules out
a group with no winner among its targets whose budget reaches `t`. -/

section OneSeat

variable [DecidableEq A]

theorem foldl_supportStep_isSome (who : A) :
    ∀ (entries : List (A × Support A)) (found : Option (Support A)),
      (entries.foldl (supportStep who) found).isSome ↔ found.isSome ∨ who ∈ entries.map Prod.fst
  | [], found => by simp
  | entry :: entries, found => by
    rw [List.foldl_cons, foldl_supportStep_isSome who entries, List.map_cons, List.mem_cons,
      supportStep]
    by_cases h : entry.1 = who
    · simp [h]
    · simp [h, Ne.symm h]

theorem candidateOf_elected_eq_false {supports : List (A × Support A)} {who : A} :
    (candidateOf supports who).elected = false ↔ who ∉ supports.map Prod.fst := by
  rw [candidateOf, supportOf, Bool.eq_false_iff, ne_eq, foldl_supportStep_isSome]
  simp

variable {supports : List (A × Support A)} {allCandidates : List A} {voter : A}

theorem mem_edgeStep {edges : List (Edge A)} {t : A} {e : Edge A}
    (h : e ∈ edgeStep supports allCandidates voter edges t) :
    e ∈ edges ∨ (e.who = t ∧ e.candidate = candidateOf supports t) := by
  rw [edgeStep] at h
  split at h
  · exact .inl h
  · split at h
    · rcases List.mem_append.mp h with h | h
      · exact .inl h
      · rw [List.mem_singleton] at h
        subst h
        exact .inr ⟨rfl, rfl⟩
    · exact .inl h

theorem subset_edgeStep (edges : List (Edge A)) (t : A) :
    edges ⊆ edgeStep supports allCandidates voter edges t := by
  intro e he
  rw [edgeStep]
  split
  · exact he
  · split
    · exact List.mem_append_left _ he
    · exact he

theorem exists_edgeStep (edges : List (Edge A)) {t : A} (ht : t ∈ allCandidates) :
    ∃ e ∈ edgeStep supports allCandidates voter edges t, e.who = t := by
  rw [edgeStep]
  split
  · next hany => simpa using hany
  · exact ⟨_, List.mem_append_right _ (List.mem_singleton_self _), rfl⟩

theorem mem_foldl_edgeStep {e : Edge A} : ∀ (targets : List A) (edges : List (Edge A)),
    e ∈ targets.foldl (edgeStep supports allCandidates voter) edges →
      e ∈ edges ∨ (e.who ∈ targets ∧ e.candidate = candidateOf supports e.who)
  | [], _, h => .inl h
  | t :: targets, edges, h => by
    rcases mem_foldl_edgeStep targets _ h with h | ⟨hwho, hcandidate⟩
    · rcases mem_edgeStep h with h | ⟨rfl, hcandidate⟩
      · exact .inl h
      · exact .inr ⟨List.mem_cons_self, hcandidate⟩
    · exact .inr ⟨List.mem_cons_of_mem _ hwho, hcandidate⟩

theorem votesFor_prepareVoter {n : A × Nat × List A} {t : A} (ht : t ∈ n.2.2)
    (hcandidate : t ∈ allCandidates) : (prepareVoter supports allCandidates n).votesFor t = true := by
  obtain ⟨v, w, targets⟩ := n
  -- an edge to a target is made at its step and kept by the later ones
  obtain ⟨e, he, hwho⟩ := @Fold.foldl_mem _ _ (fun _ => True)
    (fun t edges => t ∈ allCandidates → ∃ e ∈ edges, e.who = t) (edgeStep supports allCandidates v)
    (fun _ _ _ => trivial)
    (fun edges _ _ hc => exists_edgeStep edges hc)
    (fun edges a _ hq hc => (hq hc).imp fun _ ⟨he, hwho⟩ => ⟨subset_edgeStep edges a he, hwho⟩)
    targets [] trivial t ht hcandidate
  rw [prepareVoter, Voter.votesFor, List.any_eq_true]
  exact ⟨e, he, decide_eq_true hwho⟩

omit [DecidableEq A] in
theorem leftover_eq_zero {v : Voter A} (h : ∀ e ∈ v.edges, e.candidate.elected = false) (t : Nat) :
    leftover v t = 0 := by
  rw [leftover, List.foldl_ext _ (fun acc _ => acc) 0 fun acc e he => by rw [h e he, if_neg nofun]]
  exact List.foldl_fixed _

/-- A voter with no winner among its targets keeps its budget as slack. -/
theorem slack_prepareVoter {n : A × Nat × List A} (hlost : ∀ w ∈ supports.map Prod.fst, w ∉ n.2.2)
    (t : Nat) : slack (prepareVoter supports allCandidates n) t = n.2.1 := by
  obtain ⟨v, w, targets⟩ := n
  rw [slack, prepareVoter, leftover_eq_zero _ t, Nat.sub_zero]
  intro e he
  rcases mem_foldl_edgeStep targets [] he with h | ⟨hwho, hcandidate⟩
  · cases h
  · rw [hcandidate, candidateOf_elected_eq_false]
    exact fun hwon => hlost e.who hwon hwho

/-- The pre-score is the capped sum of the slacks of the voters for the candidate. -/
theorem preScore_eq_min (unelected : Candidate A) (voters : List (Voter A)) (t : Nat) :
    preScore unelected voters t =
      min (((voters.filter (·.votesFor unelected.who)).map (slack · t)).sum)
        (Unsigned.maxValue extendedBits) := by
  rw [preScore]
  calc _ = ((voters.filter (·.votesFor unelected.who)).map (slack · t)).foldl
        (Unsigned.saturatingAdd extendedBits) 0 := List.foldl_map.symm
    _ = _ := by rw [Unsigned.foldl_saturatingAdd _ _ 0 (Nat.zero_le _), Nat.zero_add]

/-- The pre-score of a group's common candidate is at least the budget of a group with no winner
among its targets. -/
theorem sum_budget_le_preScore {allVoters group : List (A × Nat × List A)}
    (hgroup : group.Sublist allVoters) {c : A} (hc : c ∈ allCandidates)
    (hcommon : ∀ n ∈ group, c ∈ n.2.2) (hlost : ∀ w ∈ supports.map Prod.fst, ∀ n ∈ group, w ∉ n.2.2)
    (t : Nat) :
    min (group.map (·.2.1)).sum (Unsigned.maxValue extendedBits) ≤
      preScore (candidateOf supports c) (allVoters.map (prepareVoter supports allCandidates)) t := by
  let prepared := group.map (prepareVoter supports allCandidates)
  -- the prepared group stays a sublist once the voters not for `c` are filtered out
  have hsub : prepared.Sublist
      ((allVoters.map (prepareVoter supports allCandidates)).filter (·.votesFor c)) := by
    have h := (hgroup.map (prepareVoter supports allCandidates)).filter (·.votesFor c)
    rwa [List.filter_eq_self.mpr] at h
    intro v hv
    obtain ⟨n, hn, rfl⟩ := List.mem_map.mp hv
    exact votesFor_prepareVoter (hcommon n hn) hc
  have hsum : (group.map (·.2.1)).sum ≤
      (((allVoters.map (prepareVoter supports allCandidates)).filter (·.votesFor c)).map
        (slack · t)).sum :=
    calc (group.map (·.2.1)).sum = (prepared.map (slack · t)).sum := by
          rw [List.map_map]
          congr 1
          exact List.map_congr_left fun n hn => (slack_prepareVoter (fun w hw => hlost w hw n hn) t).symm
      _ ≤ _ := (hsub.map _).sum_le_sum fun _ _ => Nat.zero_le _
  rw [preScore_eq_min]
  exact min_le_min_right _ hsum

end OneSeat

/-- A passing check leaves no group with a common candidate and a budget of `t` without a winner
among its targets. -/
theorem tPjrCheck_represents_common_candidate [LinearOrder A] {supports : List (A × Support A)}
    {allCandidates : List A} {allVoters : List (A × Nat × List A)} {t : Nat}
    (hok : tPjrCheck supports allCandidates allVoters t = .ok ()) (ht : 0 < t)
    (htmax : t ≤ Unsigned.maxValue extendedBits) {group : List (A × Nat × List A)}
    (hgroup : group.Sublist allVoters) {c : A} (hc : c ∈ allCandidates)
    (hcommon : ∀ n ∈ group, c ∈ n.2.2) (hbudget : t ≤ (group.map (·.2.1)).sum) :
    ∃ w ∈ supports.map Prod.fst, ∃ n ∈ group, w ∈ n.2.2 := by
  by_contra hnone
  simp only [not_exists, not_and] at hnone
  obtain ⟨n, hn⟩ : ∃ n, n ∈ group := by
    apply List.exists_mem_of_ne_nil
    rintro rfl
    simp at hbudget
    omega
  have hunelected : (candidateOf supports c).elected = false :=
    candidateOf_elected_eq_false.mpr fun hwon => hnone c hwon n hn (hcommon n hn)
  have hlt := (pjrCheckCore_eq_ok_iff _ _ t).mp hok (candidateOf supports c)
    (List.mem_map_of_mem hc) hunelected
  have hle := sum_budget_le_preScore hgroup hc hcommon hnone t
  omega

/-! ## t-PJR

What the check is for, over the input as the election gives it. -/

section Spec

variable [DecidableEq A]

/-- t-PJR (the NPoS paper, section 5, definition 1): a group with `r` common candidates and budgets
of `r * t` has `r` winners among its candidates. -/
def TPjr (winners allCandidates : List A) (allVoters : List (A × Nat × List A)) (t : Nat) : Prop :=
  ∀ group : List (A × Nat × List A), group.Sublist allVoters → ∀ r, 1 ≤ r →
    r ≤ (allCandidates.filter fun c => group.all fun n => decide (c ∈ n.2.2)).length →
    r * t ≤ (group.map (·.2.1)).sum →
    r ≤ (winners.filter fun w => group.any fun n => decide (w ∈ n.2.2)).length

/-- A feasible solution: a winner's total is the sum of its voters' weights, each votes for it, and
no voter exceeds its budget. -/
def Feasible (supports : List (A × Support A)) (allVoters : List (A × Nat × List A)) : Prop :=
  (∀ s ∈ supports, s.2.total = (s.2.voters.map (·.2)).sum ∧
    ∀ x ∈ s.2.voters, ∃ n ∈ allVoters, n.1 = x.1 ∧ s.1 ∈ n.2.2) ∧
  ∀ n ∈ allVoters, ((assignmentsOf supports n.1).map (·.2)).sum ≤ n.2.1

end Spec

def roundedSupports : List (Nat × Support Nat) :=
  [(1, ⟨3, [(10, 1), (11, 1), (12, 1)]⟩), (3, ⟨0, []⟩)]

def roundedVoters : List (Nat × Nat × List Nat) :=
  [(10, 2, [1, 2]), (11, 1, [1, 2]), (12, 1, [1, 2])]

/-- Sound for one common candidate, not two: with `t = 2` the slacks `1, 0, 0` of winner 1's rounded
share pass the check where the exact `4/3, 1/3, 1/3` reach `t`, though the voters share candidates 1
and 2 and elected only 1. -/
theorem tPjrCheck_sound_for_one_seat_not_two :
    (∀ {A : Type} [LinearOrder A] (supports : List (A × Support A)) (allCandidates : List A)
      (allVoters : List (A × Nat × List A)) (t : Nat),
      tPjrCheck supports allCandidates allVoters t = .ok () → 0 < t →
      t ≤ Unsigned.maxValue extendedBits →
      ∀ group : List (A × Nat × List A), group.Sublist allVoters → ∀ c ∈ allCandidates, (∀ n ∈ group, c ∈ n.2.2) →
        t ≤ (group.map (·.2.1)).sum → ∃ w ∈ supports.map Prod.fst, ∃ n ∈ group, w ∈ n.2.2) ∧
    ([1, 2, 3] : List Nat).Nodup ∧ Feasible roundedSupports roundedVoters ∧
    pjrCheck roundedSupports [1, 2, 3] roundedVoters = .ok () ∧
    ¬TPjr (roundedSupports.map Prod.fst) [1, 2, 3] roundedVoters
      (standardThreshold roundedSupports.length (roundedVoters.map (·.2.1))) := by
  refine ⟨fun _ _ _ _ hok ht htmax _ hgroup _ hc hcommon hbudget =>
    tPjrCheck_represents_common_candidate hok ht htmax hgroup hc hcommon hbudget, by decide,
    by rw [Feasible]; decide, rfl, ?_⟩
  -- the whole electorate, with two common candidates
  intro hpjr
  have hrepresented := hpjr roundedVoters (List.Sublist.refl _) 2 (by decide) (by decide) (by decide)
  exact absurd hrepresented (by decide)

/-! ## The counterexample is a challenge

A reported counterexample passes `validate_pjr_challenge_core`: the pre-score reads only the
candidate's id, so the first candidate of that id has the pre-score of the one reported. -/

section Challenge

variable [DecidableEq A]

theorem preScore_congr {c c' : Candidate A} (h : c.who = c'.who) (voters : List (Voter A)) (t : Nat) :
    preScore c voters t = preScore c' voters t := by
  rw [preScore, preScore, h]

theorem validatePjrChallengeCore_of_mem {candidates : List (Candidate A)} {voters : List (Voter A)}
    {t : Nat} {c : Candidate A} (hc : c ∈ candidates) (hscore : t ≤ preScore c voters t) :
    validatePjrChallengeCore c.who candidates voters t = true := by
  rw [validatePjrChallengeCore]
  split
  · next hnone =>
      have := List.find?_eq_none.mp hnone c hc
      simp at this
  · next found hfound =>
      have hwho : found.who = c.who := by simpa using List.find?_some hfound
      rw [decide_eq_true_eq, preScore_congr hwho]
      exact hscore

/-- `validate_t_pjr_challenge` accepts a candidate whose pre-score reaches the threshold, elected or
not (`pre_score` checks that only in debug builds). -/
theorem validateTPjrChallenge_eq_true_iff (c : A) (supports : List (A × Support A))
    (allCandidates : List A) (allVoters : List (A × Nat × List A)) (t : Nat) :
    validateTPjrChallenge c supports allCandidates allVoters t = true ↔
      c ∈ allCandidates ∧
        t ≤ preScore (candidateOf supports c) (allVoters.map (prepareVoter supports allCandidates)) t := by
  show validatePjrChallengeCore c (allCandidates.map (candidateOf supports))
    (allVoters.map (prepareVoter supports allCandidates)) t = true ↔ _
  rw [validatePjrChallengeCore]
  split
  · next hnone =>
      -- no candidate has the id, so it is not among `all_candidates`
      simp only [Bool.false_eq_true, false_iff, not_and]
      intro hc
      have := List.find?_eq_none.mp hnone (candidateOf supports c) (List.mem_map_of_mem hc)
      simp [candidateOf] at this
  · next found hfound =>
      obtain ⟨x, hx, rfl⟩ := List.mem_map.mp (List.mem_of_find?_eq_some hfound)
      have hwho := List.find?_some hfound
      simp only [candidateOf] at hwho
      obtain rfl : x = c := of_decide_eq_true hwho
      simp [hx]

end Challenge

theorem validatePjrChallengeCore_of_pjrCheckCore [LinearOrder A] {candidates : List (Candidate A)}
    {voters : List (Voter A)} {t : Nat} {counterExample : A}
    (h : pjrCheckCore candidates voters t = .error counterExample) :
    validatePjrChallengeCore counterExample candidates voters t = true := by
  obtain ⟨c, hc, -, rfl, hscore⟩ := pjrCheckCore_eq_error h
  exact validatePjrChallengeCore_of_mem hc hscore

/-- The counterexample `t_pjr_check` reports is a challenge `validate_t_pjr_challenge` accepts. -/
theorem validateTPjrChallenge_of_tPjrCheck [LinearOrder A] {supports : List (A × Support A)}
    {allCandidates : List A} {allVoters : List (A × Nat × List A)} {t : Nat} {counterExample : A}
    (h : tPjrCheck supports allCandidates allVoters t = .error counterExample) :
    validateTPjrChallenge counterExample supports allCandidates allVoters t = true :=
  validatePjrChallengeCore_of_pjrCheckCore h

def electedSupports : List (Nat × Support Nat) := [(1, ⟨1000, [(10, 1000)]⟩), (2, ⟨1, [(11, 1)]⟩)]

def electedVoters : List (Nat × Nat × List Nat) := [(10, 1000, [1]), (11, 1, [2])]

/-- A challenge is accepted without asking whether its counterexample lost: with `t = 500`, the one
naming winner 1, whose voter's slack is 500, is accepted, while `pjr_check` accepts the solution. -/
theorem validatePjrChallenge_accepts_elected_counterexample :
    (∀ {A : Type} [LinearOrder A] (c : A) (supports : List (A × Support A))
      (allCandidates : List A) (allVoters : List (A × Nat × List A)) (t : Nat),
      validateTPjrChallenge c supports allCandidates allVoters t = true ↔
        c ∈ allCandidates ∧
          t ≤ preScore (candidateOf supports c) (allVoters.map (prepareVoter supports allCandidates)) t) ∧
    (∀ {A : Type} [LinearOrder A] (c : A) (supports : List (A × Support A))
      (allCandidates : List A) (allVoters : List (A × Nat × List A)) (t : Nat),
      tPjrCheck supports allCandidates allVoters t = .error c →
        validateTPjrChallenge c supports allCandidates allVoters t = true) ∧
    (candidateOf electedSupports 1).elected = true ∧
    validatePjrChallenge 1 electedSupports [1, 2] electedVoters = true ∧
    pjrCheck electedSupports [1, 2] electedVoters = .ok () :=
  ⟨fun c supports allCandidates allVoters t =>
      validateTPjrChallenge_eq_true_iff c supports allCandidates allVoters t,
    fun _ _ _ _ _ h => validateTPjrChallenge_of_tPjrCheck h, rfl, rfl, rfl⟩

end Substrate.Election
