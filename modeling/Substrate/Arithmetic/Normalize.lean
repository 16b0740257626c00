import Mathlib
import Substrate.Lib.Unsigned
import Substrate.Arithmetic.PerThing

/-! # Normalizing a list of numbers to a target sum

`normalize` of `src/primitives/arithmetic/src/lib.rs`: the difference to the target is spread over
the sorted values round by round. Values are `bits`-wide; a failed `expect`, an overflowing
`leftover +=` and the decreasing `while`, which would not end with no nonzero value, are `none`.
-/
namespace Substrate.Arithmetic

inductive NormalizeError where
  /-- "sum of input cannot fit in `T`" -/
  | sumOverflow
  /-- "length of `inputs` cannot fit in `T`" -/
  | lengthOverflow
  deriving DecidableEq, Repr

/-- The value at a position of the list of (original index, value) pairs. -/
def valueAt (output : List (Nat × Nat)) (i : Nat) : Nat := (output.getD i (0, 0)).2

def setValue (output : List (Nat × Nat)) (i v : Nat) : List (Nat × Nat) :=
  output.modify i fun entry => (entry.1, v)

/-- A loop that raises the values: `rounds` times, add `step` at the minimum index, moving on once
it reaches the threshold. -/
def bumpLoop (bits step threshold count : Nat) :
    Nat → List (Nat × Nat) → Nat → Option (List (Nat × Nat) × Nat)
  | 0, output, minIndex => some (output, minIndex)
  | rounds + 1, output, minIndex =>
    -- `checked_add(..).expect(..)`
    match Unsigned.checkedAdd bits (valueAt output minIndex) step with
    | none => none
    | some value =>
      let output := setValue output minIndex value
      let minIndex := if threshold ≤ value then (minIndex + 1) % count else minIndex
      bumpLoop bits step threshold count rounds output minIndex

def previousIndex (count i : Nat) : Nat := if i = 0 then count - 1 else i - 1

/-- The first loop that lowers the values: `count` rounds of `per_round` at the maximum index; what
a value cannot give goes to the leftover. -/
def decreaseRounds (bits perRound threshold count : Nat) :
    Nat → List (Nat × Nat) → Nat → Nat → Option (List (Nat × Nat) × Nat × Nat)
  | 0, output, maxIndex, leftover => some (output, maxIndex, leftover)
  | rounds + 1, output, maxIndex, leftover =>
    let old := valueAt output maxIndex
    -- `leftover += remainder` is a plain addition of `T`
    let added :=
      if perRound ≤ old then some leftover else Unsigned.checkedAdd bits leftover (perRound - old)
    match added with
    | none => none
    | some leftover =>
      let value := old - perRound
      let output := setValue output maxIndex value
      let maxIndex := if value ≤ threshold then previousIndex count maxIndex else maxIndex
      decreaseRounds bits perRound threshold count rounds output maxIndex leftover

/-- The `else` branch of the second lowering loop: move down past zero values, at most once
around the list. -/
def skipZeros (count : Nat) (output : List (Nat × Nat)) : Nat → Nat → Option Nat
  | 0, _ => none
  | steps + 1, maxIndex =>
    if 0 < valueAt output maxIndex then some maxIndex
    else skipZeros count output steps (previousIndex count maxIndex)

/-- The second lowering loop: one unit off a nonzero value per unit of leftover. -/
def decreaseLeftover (threshold count : Nat) :
    Nat → List (Nat × Nat) → Nat → Option (List (Nat × Nat) × Nat)
  | 0, output, maxIndex => some (output, maxIndex)
  | leftover + 1, output, maxIndex =>
    match skipZeros count output count maxIndex with
    | none => none
    | some maxIndex =>
      let value := valueAt output maxIndex - 1
      let output := setValue output maxIndex value
      let maxIndex := if value ≤ threshold then previousIndex count maxIndex else maxIndex
      decreaseLeftover threshold count leftover output maxIndex

def checkedSum (bits : Nat) (input : List Nat) : Option Nat :=
  input.foldlM (fun sum t => Unsigned.checkedAdd bits sum t) 0

def normalize (bits : Nat) (input : List Nat) (targetedSum : Nat) :
    Option (Except NormalizeError (List Nat)) :=
  match checkedSum bits input with
  | none => some (.error .sumOverflow)
  | some sum =>
    let count := input.length
    if Unsigned.maxValue bits < count then some (.error .lengthOverflow)
    else if count = 0 then some (.ok [])
    else
      let diff := max targetedSum sum - min targetedSum sum
      if diff = 0 then some (.ok input)
      else
        let perRound := diff / count
        let leftover := diff % count
        -- sorted by value, keeping the original index; the sort is stable
        let sorted := ((List.range count).zip input).insertionSort fun a b => a.2 ≤ b.2
        let output :=
          if sum < targetedSum then
            let threshold := targetedSum / count
            let first :=
              if perRound = 0 then some (sorted, 0)
              else bumpLoop bits perRound threshold count count sorted 0
            first.bind fun (output, minIndex) =>
              (bumpLoop bits 1 threshold count leftover output minIndex).map Prod.fst
          else
            let threshold := valueAt sorted 0
            let first :=
              if perRound = 0 then some (sorted, count - 1, leftover)
              else decreaseRounds bits perRound threshold count count sorted (count - 1) leftover
            first.bind fun (output, maxIndex, leftover) =>
              (decreaseLeftover threshold count leftover output maxIndex).map Prod.fst
        -- back in the order of the input
        output.map fun output => .ok ((output.insertionSort fun a b => a.1 ≤ b.1).map Prod.snd)

/-- `Normalizable for Vec<P>`: the parts normalized in `UpperOf<P>`, of `upperBits` bits, and each
result brought back by `saturated_into` and `from_parts`. -/
def PerThing.normalize {P : PerThingType} (upperBits : Nat) (ps : List (PerThing P.accuracy))
    (targetedSum : PerThing P.accuracy) :
    Option (Except NormalizeError (List (PerThing P.accuracy))) :=
  (Arithmetic.normalize upperBits (ps.map PerThing.parts) targetedSum.parts).map fun result =>
    result.map fun ys =>
      ys.map fun i => PerThing.fromParts (Min.min i (Unsigned.maxValue P.innerBits))

/-- A list that already has the targeted sum is returned as it is. -/
theorem normalize_of_sum_eq {bits : Nat} {input : List Nat} {sum : Nat}
    (hsum : checkedSum bits input = some sum) (hcount : input.length ≤ Unsigned.maxValue bits) :
    normalize bits input sum = some (.ok input) := by
  unfold normalize
  rw [hsum]
  simp only [Nat.not_lt.mpr hcount, if_false, max_self, min_self, Nat.sub_self, if_true]
  split
  · next hzero => simp [List.length_eq_zero_iff.mp hzero]
  · rfl

theorem checkedSum_singleton {bits x : Nat} (hx : x ≤ Unsigned.maxValue bits) :
    checkedSum bits [x] = some x := by
  simp [checkedSum, Unsigned.checkedAdd_of_le (show 0 + x ≤ Unsigned.maxValue bits by omega)]

example : normalize 128 [8, 9, 7, 10] 40 = some (.ok [10, 10, 10, 10]) := by decide

/-! ## The invariants of the loops -/

/-- The sum of the values of the pairs. -/
def total (output : List (Nat × Nat)) : Nat := (output.map Prod.snd).sum

variable (output : List (Nat × Nat))

@[simp] theorem length_setValue (i v : Nat) :
    (setValue output i v).length = output.length := by
  simp [setValue]

theorem total_setValue {output : List (Nat × Nat)} {i : Nat} (hi : i < output.length) (v : Nat) :
    total (setValue output i v) + valueAt output i = total output + v := by
  induction output generalizing i with
  | nil => simp at hi
  | cons entry rest ih =>
    cases i with
    | zero => simp [total, setValue, valueAt]; omega
    | succ i =>
      have hrest := ih (i := i) (by simpa using hi)
      simp only [total, setValue, valueAt, List.modify_succ_cons, List.map_cons, List.sum_cons,
        List.getD_cons_succ] at hrest ⊢
      omega

theorem valueAt_le_total (i : Nat) :
    valueAt output i ≤ total output := by
  induction output generalizing i with
  | nil => simp [valueAt]
  | cons entry rest ih =>
    cases i with
    | zero => simp [valueAt, total]
    | succ i =>
      have hrest := ih i
      simp only [valueAt, total, List.getD_cons_succ, List.map_cons, List.sum_cons] at hrest ⊢
      omega

theorem exists_valueAt_pos {output : List (Nat × Nat)} (h : 0 < total output) :
    ∃ i < output.length, 0 < valueAt output i := by
  induction output with
  | nil => simp [total] at h
  | cons entry rest ih =>
    by_cases hentry : 0 < entry.2
    · exact ⟨0, by simp, by simpa [valueAt] using hentry⟩
    · have hrest : 0 < total rest := by simp [total] at h ⊢; omega
      obtain ⟨i, hi, hpos⟩ := ih hrest
      exact ⟨i + 1, by simpa using hi, by simpa [valueAt] using hpos⟩

theorem previousIndex_lt {count i : Nat} (hi : i < count) : previousIndex count i < count := by
  unfold previousIndex
  split <;> omega

/-- Each loop moves its index to one below `count` or leaves it. -/
theorem ite_lt_count {p : Prop} [Decidable p] {a b count : Nat} (ha : a < count) (hb : b < count) :
    (if p then a else b) < count := by
  split <;> assumption

section Loops

variable {count : Nat} (threshold : Nat)

theorem bumpLoop_spec (bits step : Nat) (hcount : 0 < count) :
    ∀ (rounds : Nat) (output : List (Nat × Nat))
    (minIndex : Nat), output.length = count → minIndex < count →
    total output + step * rounds ≤ Unsigned.maxValue bits →
    ∃ output' minIndex',
      bumpLoop bits step threshold count rounds output minIndex = some (output', minIndex') ∧
      output'.length = count ∧ minIndex' < count ∧
      total output' = total output + step * rounds := by
  intro rounds
  induction rounds with
  | zero => intro output minIndex hlen hmin _; exact ⟨output, minIndex, rfl, hlen, hmin, rfl⟩
  | succ rounds ih =>
    intro output minIndex hlen hmin hbound
    rw [Nat.mul_succ] at hbound
    -- the `expect` holds: the value is part of a total that stays within the type
    have hfits : valueAt output minIndex + step ≤ Unsigned.maxValue bits := by
      have := valueAt_le_total output minIndex
      omega
    have hset :=
      total_setValue (hlen ▸ hmin : minIndex < output.length) (valueAt output minIndex + step)
    have hnext : (if threshold ≤ valueAt output minIndex + step then (minIndex + 1) % count
        else minIndex) < count := ite_lt_count (Nat.mod_lt _ hcount) hmin
    obtain ⟨output', minIndex', hloop, hlen', hmin', htotal⟩ :=
      ih (setValue output minIndex (valueAt output minIndex + step)) _
        (by rw [length_setValue, hlen])
        hnext (by omega)
    refine ⟨output', minIndex', ?_, hlen', hmin', by rw [htotal, Nat.mul_succ]; omega⟩
    simp only [bumpLoop, Unsigned.checkedAdd_of_le hfits]
    exact hloop

/-- What the first lowering loop keeps: the total is the target, `per_round` for each round left
and the leftover, so the leftover never leaves the type. -/
theorem decreaseRounds_spec (bits perRound : Nat) {target : Nat} : ∀ (rounds : Nat)
    (output : List (Nat × Nat)) (maxIndex leftover : Nat), output.length = count →
    maxIndex < count →
    total output ≤ Unsigned.maxValue bits → total output = target + perRound * rounds + leftover →
    ∃ output' maxIndex' leftover',
      decreaseRounds bits perRound threshold count rounds output maxIndex leftover =
        some (output', maxIndex', leftover') ∧
      output'.length = count ∧ maxIndex' < count ∧ total output' = target + leftover' := by
  intro rounds
  induction rounds with
  | zero =>
    intro output maxIndex leftover hlen hmax _ htotal
    exact ⟨_, _, _, rfl, hlen, hmax, htotal⟩
  | succ rounds ih =>
    intro output maxIndex leftover hlen hmax hbound htotal
    rw [Nat.mul_succ] at htotal
    have hold := valueAt_le_total output maxIndex
    have hset := total_setValue (hlen ▸ hmax : maxIndex < output.length)
      (valueAt output maxIndex - perRound)
    have hnext : (if valueAt output maxIndex - perRound ≤ threshold
        then previousIndex count maxIndex else maxIndex) < count :=
      ite_lt_count (previousIndex_lt hmax) hmax
    have hlen' := (length_setValue output maxIndex (valueAt output maxIndex - perRound)).trans hlen
    by_cases hgive : perRound ≤ valueAt output maxIndex
    · obtain ⟨output', maxIndex', leftover', hloop, hrest⟩ :=
        ih _ _ leftover hlen' hnext (by omega) (by omega)
      refine ⟨output', maxIndex', leftover', ?_, hrest⟩
      simp only [decreaseRounds, if_pos hgive]
      exact hloop
    · -- the value gives what it has, and the rest of `per_round` joins the leftover
      have hfits : leftover + (perRound - valueAt output maxIndex) ≤ Unsigned.maxValue bits := by
        omega
      obtain ⟨output', maxIndex', leftover', hloop, hrest⟩ :=
        ih _ _ (leftover + (perRound - valueAt output maxIndex)) hlen' hnext (by omega) (by omega)
      refine ⟨output', maxIndex', leftover', ?_, hrest⟩
      simp only [decreaseRounds, if_neg hgive, Unsigned.checkedAdd_of_le hfits]
      exact hloop

theorem skipZeros_eq_some {output : List (Nat × Nat)} : ∀ {steps maxIndex j : Nat},
    maxIndex < count → skipZeros count output steps maxIndex = some j →
    j < count ∧ 0 < valueAt output j
  | 0, _, _, _, h => by simp [skipZeros] at h
  | steps + 1, maxIndex, j, hmax, h => by
    rw [skipZeros] at h
    split at h
    · next hpos => exact ⟨Option.some.inj h ▸ hmax, Option.some.inj h ▸ hpos⟩
    · exact skipZeros_eq_some (previousIndex_lt hmax) h

/-- Moving down from `maxIndex`, the skip reaches a nonzero value `i` within as many steps as `i`
lies below it, around the end of the list. -/
theorem skipZeros_isSome {output : List (Nat × Nat)} {i : Nat} (hi : i < count)
    (hpos : 0 < valueAt output i) : ∀ (steps : Nat) {maxIndex : Nat}, maxIndex < count →
    (if i ≤ maxIndex then maxIndex - i else maxIndex + count - i) < steps →
    (skipZeros count output steps maxIndex).isSome
  | 0, _, _, hsteps => absurd hsteps (Nat.not_lt_zero _)
  | steps + 1, maxIndex, hmax, hsteps => by
    rw [skipZeros]
    split
    · rfl
    · next hzero =>
      have hne : maxIndex ≠ i := fun h => hzero (h ▸ hpos)
      refine skipZeros_isSome hi hpos steps (previousIndex_lt hmax) ?_
      unfold previousIndex
      split_ifs at hsteps ⊢ <;> omega

/-- The second lowering loop takes the leftover off, one unit of a nonzero value at a time: as long
as leftover remains, the total holds a nonzero value, so the `while` ends. -/
theorem decreaseLeftover_spec {target : Nat} : ∀ (leftover : Nat)
    (output : List (Nat × Nat)) (maxIndex : Nat), output.length = count → maxIndex < count →
    total output = target + leftover →
    ∃ output' maxIndex',
      decreaseLeftover threshold count leftover output maxIndex = some (output', maxIndex') ∧
      output'.length = count ∧ total output' = target := by
  intro leftover
  induction leftover with
  | zero => intro output maxIndex hlen _ htotal; exact ⟨output, maxIndex, rfl, hlen, htotal⟩
  | succ leftover ih =>
    intro output maxIndex hlen hmax htotal
    obtain ⟨i, hi, hpos⟩ := exists_valueAt_pos (show 0 < total output by omega)
    obtain ⟨j, hskip⟩ := Option.isSome_iff_exists.mp
      (skipZeros_isSome (hlen ▸ hi) hpos count hmax (by split <;> omega))
    obtain ⟨hj, hjpos⟩ := skipZeros_eq_some hmax hskip
    have hset := total_setValue (hlen ▸ hj : j < output.length) (valueAt output j - 1)
    have hnext : (if valueAt output j - 1 ≤ threshold then previousIndex count j else j) < count :=
      ite_lt_count (previousIndex_lt hj) hj
    obtain ⟨output', maxIndex', hloop, hrest⟩ :=
      ih (setValue output j (valueAt output j - 1)) _ ((length_setValue output j _).trans hlen)
        hnext
        (by omega)
    refine ⟨output', maxIndex', ?_, hrest⟩
    simp only [decreaseLeftover, hskip]
    exact hloop

end Loops

theorem foldlM_checkedAdd (bits : Nat) :
    ∀ (input : List Nat) (acc : Nat), acc ≤ Unsigned.maxValue bits →
    input.foldlM (fun sum t => Unsigned.checkedAdd bits sum t) acc =
      if acc + input.sum ≤ Unsigned.maxValue bits then some (acc + input.sum) else none
  | [], acc, hacc => by simp [hacc]
  | t :: rest, acc, hacc => by
    rw [List.foldlM_cons, List.sum_cons, ← Nat.add_assoc]
    by_cases ht : acc + t ≤ Unsigned.maxValue bits
    · rw [Unsigned.checkedAdd_of_le ht]
      exact foldlM_checkedAdd bits rest (acc + t) ht
    · rw [Unsigned.checkedAdd_of_lt (by omega), if_neg (by omega)]
      rfl

theorem checkedSum_eq (bits : Nat) (input : List Nat) :
    checkedSum bits input =
      if input.sum ≤ Unsigned.maxValue bits then some input.sum else none := by
  simpa [checkedSum] using foldlM_checkedAdd bits input 0 (Nat.zero_le _)

theorem total_of_perm {output output' : List (Nat × Nat)} (h : output.Perm output') :
    total output = total output' :=
  (h.map Prod.snd).sum_eq

theorem total_zip_range (input : List Nat) :
    total ((List.range input.length).zip input) = input.sum := by
  simp [total, List.map_snd_zip]

theorem sum_reordered :
    ((output.insertionSort fun a b => a.1 ≤ b.1).map Prod.snd).sum = total output :=
  total_of_perm (List.perm_insertionSort _ _)

section Branches

variable {bits count sum t : Nat} {sorted : List (Nat × Nat)}

/-- The two raising loops of `normalize` reach the target: `per_round` for each value, then the
rest of the difference one unit at a time. -/
theorem bumpLoops_spec (hcount : 0 < count) (hlen : sorted.length = count)
    (htotal : total sorted = sum) (hlt : sum < t) (ht : t ≤ Unsigned.maxValue bits) :
    ∃ output, ((if (t - sum) / count = 0 then some (sorted, 0)
        else bumpLoop bits ((t - sum) / count) (t / count) count count sorted 0).bind fun a =>
          (bumpLoop bits 1 (t / count) count ((t - sum) % count) a.1 a.2).map Prod.fst) =
        some output ∧
      output.length = count ∧ total output = t := by
  have hsplit := Nat.div_add_mod' (t - sum) count
  have hle := Nat.div_mul_le_self (t - sum) count
  obtain ⟨first, minIndex, hfirst, hlen', hmin, htotal'⟩ : ∃ first minIndex,
      (if (t - sum) / count = 0 then some (sorted, 0)
        else bumpLoop bits ((t - sum) / count) (t / count) count count sorted 0) =
        some (first, minIndex) ∧
      first.length = count ∧ minIndex < count ∧ total first = sum + (t - sum) / count * count := by
    split
    · next hzero => exact ⟨sorted, 0, rfl, hlen, hcount, by rw [hzero]; omega⟩
    · obtain ⟨first, minIndex, hloop, hlen', hmin, htotal'⟩ :=
        bumpLoop_spec (t / count) bits ((t - sum) / count) hcount count sorted 0 hlen hcount
          (by rw [htotal]; omega)
      exact ⟨first, minIndex, hloop, hlen', hmin, by rw [htotal', htotal]⟩
  obtain ⟨output, minIndex', hloop, hlen'', -, htotal''⟩ :=
    bumpLoop_spec (t / count) bits 1 hcount ((t - sum) % count) first minIndex hlen' hmin (by omega)
  refine ⟨output, ?_, hlen'', by omega⟩
  rw [hfirst]
  simp [hloop]

/-- The two lowering loops of `normalize` reach the target: `per_round` off each value, with what a
value cannot give added to the leftover, then the leftover one unit at a time. -/
theorem decreaseLoops_spec (hcount : 0 < count) (hlen : sorted.length = count)
    (htotal : total sorted = sum) (hge : t ≤ sum) (hsum : sum ≤ Unsigned.maxValue bits) :
    ∃ output, ((if (sum - t) / count = 0 then some (sorted, count - 1, (sum - t) % count)
        else decreaseRounds bits ((sum - t) / count) (valueAt sorted 0) count count sorted
          (count - 1) ((sum - t) % count)).bind fun a =>
          (decreaseLeftover (valueAt sorted 0) count a.2.2 a.1 a.2.1).map Prod.fst) = some output ∧
      output.length = count ∧ total output = t := by
  have hsplit := Nat.div_add_mod' (sum - t) count
  obtain ⟨first, maxIndex, leftover, hfirst, hlen', hmax, htotal'⟩ : ∃ first maxIndex leftover,
      (if (sum - t) / count = 0 then some (sorted, count - 1, (sum - t) % count)
        else decreaseRounds bits ((sum - t) / count) (valueAt sorted 0) count count sorted
          (count - 1) ((sum - t) % count)) = some (first, maxIndex, leftover) ∧
      first.length = count ∧ maxIndex < count ∧ total first = t + leftover := by
    split
    · next hzero =>
      exact ⟨sorted, count - 1, _, rfl, hlen, by omega, by rw [hzero] at hsplit; omega⟩
    · exact decreaseRounds_spec (valueAt sorted 0) bits ((sum - t) / count) count sorted (count - 1)
        _ hlen (by omega) (by omega) (by rw [htotal]; omega)
  obtain ⟨output, _, hloop, hlen'', htotal''⟩ :=
    decreaseLeftover_spec (valueAt sorted 0) leftover first maxIndex hlen' hmax htotal'
  refine ⟨output, ?_, hlen'', htotal''⟩
  rw [hfirst]
  simp [hloop]

end Branches

theorem normalize_ok_of_fits {bits : Nat} {input : List Nat} {targetedSum : Nat}
    (hsum : input.sum ≤ Unsigned.maxValue bits) (hcount : input.length ≤ Unsigned.maxValue bits)
    (ht : targetedSum ≤ Unsigned.maxValue bits) (hne : input ≠ []) :
    ∃ ys, normalize bits input targetedSum = some (.ok ys) ∧ ys.length = input.length ∧
      ys.sum = targetedSum := by
  have hpos : 0 < input.length := List.length_pos_iff.mpr hne
  -- the pairs sorted by value hold the input's values
  have hperm :=
    List.perm_insertionSort (fun a b : Nat × Nat => a.2 ≤ b.2) ((List.range input.length).zip input)
  have hlen : (List.insertionSort (fun a b : Nat × Nat => a.2 ≤ b.2)
      ((List.range input.length).zip input)).length = input.length := by
    rw [hperm.length_eq]
    simp
  have htotal := (total_of_perm hperm).trans (total_zip_range input)
  unfold normalize
  rw [checkedSum_eq, if_pos hsum]
  simp only [Nat.not_lt.mpr hcount, if_false, hpos.ne']
  split
  · next hdiff => exact ⟨input, rfl, rfl, by omega⟩
  · -- the loops leave pairs that sum to the target; sorting them back keeps their values
    have hback : ∀ output : List (Nat × Nat), output.length = input.length →
        total output = targetedSum →
        ∃ ys, (some output).map (fun output => .ok ((output.insertionSort fun a b => a.1 ≤ b.1).map
          Prod.snd)) = some (.ok ys : Except NormalizeError (List Nat)) ∧ ys.length = input.length ∧
          ys.sum = targetedSum := by
      intro output hlen' htotal'
      refine ⟨_, rfl, ?_, by rw [sum_reordered, htotal']⟩
      rw [List.length_map, (List.perm_insertionSort _ _).length_eq, hlen']
    by_cases hlt : input.sum < targetedSum
    · rw [if_pos hlt, max_eq_left hlt.le, min_eq_right hlt.le]
      obtain ⟨output, houtput, hlen', htotal'⟩ := bumpLoops_spec hpos hlen htotal hlt ht
      rw [houtput]
      exact hback output hlen' htotal'
    · have hge := Nat.not_lt.mp hlt
      rw [if_neg hlt, max_eq_right hge, min_eq_left hge]
      obtain ⟨output, houtput, hlen', htotal'⟩ := decreaseLoops_spec hpos hlen htotal hge hsum
      rw [houtput]
      exact hback output hlen' htotal'

/-- What `normalize` returns: an error exactly when the sum or the length of the input leaves `T`,
and otherwise as many values as the input, which sum to the target unless the input is empty. -/
structure NormalizeSpec (bits : Nat) (input : List Nat) (targetedSum : Nat)
    (result : Except NormalizeError (List Nat)) : Prop where
  sum_overflow : result = .error .sumOverflow ↔ Unsigned.maxValue bits < input.sum
  length_overflow : result = .error .lengthOverflow ↔
    input.sum ≤ Unsigned.maxValue bits ∧ Unsigned.maxValue bits < input.length
  ok : ∀ ys, result = .ok ys →
    ys.length = input.length ∧ ys.sum = if input = [] then 0 else targetedSum

/-- `normalize` never panics: no `expect` fails, no `leftover +=` overflows, and both leftover loops
end. -/
theorem normalize_spec (bits : Nat) (input : List Nat) (targetedSum : Nat)
    (ht : targetedSum ≤ Unsigned.maxValue bits) :
    ∃ result, normalize bits input targetedSum = some result ∧
      NormalizeSpec bits input targetedSum result := by
  by_cases hsum : input.sum ≤ Unsigned.maxValue bits
  · by_cases hcount : input.length ≤ Unsigned.maxValue bits
    · by_cases hne : input = []
      · subst hne
        exact ⟨.ok [], by simp [normalize, checkedSum], by simp, by simp, by simp⟩
      · obtain ⟨ys, hnormal, hlen, hys⟩ := normalize_ok_of_fits hsum hcount ht hne
        refine ⟨.ok ys, hnormal, by simp; omega, by simp; omega, ?_⟩
        rintro ys' ⟨⟩
        exact ⟨hlen, by rw [hys, if_neg hne]⟩
    · refine ⟨.error .lengthOverflow, ?_, by simp; omega, by simp; omega, by simp⟩
      rw [normalize, checkedSum_eq, if_pos hsum]
      simp only [if_pos (Nat.lt_of_not_le hcount)]
  · refine ⟨.error .sumOverflow, ?_, by simp; omega, by simp; omega, by simp⟩
    rw [normalize, checkedSum_eq, if_neg hsum]

example : normalize 8 [1, 100, 100] 10 = some (.ok [1, 9, 0]) := by decide

/-- The per-things `Normalizable` returns sum to the target's parts, unless there are none. -/
theorem PerThing.normalize_spec {P : PerThingType} (upperBits : Nat)
    (ps : List (PerThing P.accuracy))
    (targetedSum : PerThing P.accuracy) (hupper : P.accuracy ≤ Unsigned.maxValue upperBits) :
    ∃ result, PerThing.normalize upperBits ps targetedSum = some result ∧ ∀ qs, result = .ok qs →
      qs.length = ps.length ∧
      (qs.map PerThing.parts).sum = if ps = [] then 0 else targetedSum.parts := by
  obtain ⟨result, hnormal, hspec⟩ :=
    Arithmetic.normalize_spec upperBits (ps.map PerThing.parts) targetedSum.parts
      (targetedSum.parts_le.trans hupper)
  refine ⟨_, by rw [PerThing.normalize, hnormal]; rfl, ?_⟩
  intro qs hqs
  cases result with
  | error e => cases hqs
  | ok ys =>
    cases hqs
    obtain ⟨hlen, hys⟩ := hspec.ok ys rfl
    -- every normalized value is within the accuracy, so the conversions back keep it
    have hbound : ys.sum ≤ P.accuracy := by
      rw [hys]
      split
      · exact Nat.zero_le _
      · exact targetedSum.parts_le
    have hinner : P.accuracy ≤ Unsigned.maxValue P.innerBits := by
      have := P.accuracy_lt
      unfold Unsigned.maxValue
      omega
    have hparts : (ys.map fun i => (PerThing.fromParts (Min.min i (Unsigned.maxValue P.innerBits)) :
        PerThing P.accuracy)).map PerThing.parts = ys := by
      rw [List.map_map]
      refine List.map_congr_left (fun i hi => ?_) |>.trans (List.map_id ys)
      have := List.le_sum_of_mem hi
      simp only [Function.comp_apply, PerThing.fromParts, id]
      omega
    refine ⟨by simpa using hlen, ?_⟩
    rw [hparts, hys]
    simp

theorem normalize_sums_to_the_target_but_for_empty_input :
    (∀ bits input targetedSum, targetedSum ≤ Unsigned.maxValue bits →
      ∃ result, normalize bits input targetedSum = some result ∧
        NormalizeSpec bits input targetedSum result) ∧
    ∀ (P : PerThingType) (upperBits : Nat) (ps : List (PerThing P.accuracy))
      (targetedSum : PerThing P.accuracy), P.accuracy ≤ Unsigned.maxValue upperBits →
      ∃ result, PerThing.normalize upperBits ps targetedSum = some result ∧ ∀ qs, result = .ok qs →
        qs.length = ps.length ∧
        (qs.map PerThing.parts).sum = if ps = [] then 0 else targetedSum.parts :=
  ⟨normalize_spec, fun _ => PerThing.normalize_spec⟩

/-- An empty input is normalized to the empty list whatever the target, so its sum stays `0`. -/
theorem normalize_empty_ignores_target :
    normalize 8 [] 1 = some (.ok []) ∧ ([] : List Nat).sum ≠ 1 := by
  decide

end Substrate.Arithmetic
