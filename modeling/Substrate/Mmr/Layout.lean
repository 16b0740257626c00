import Substrate.Lib.BitCounter
import Mathlib

/-! # The post-order layout of a merkle mountain range

Perfect binary trees of strictly decreasing heights, in post-order. Adding leaf `n` appends it and
`trailing_ones(n)` parents. The `mmr_lib` helpers `NodesUtils` calls live outside this repository
and are written here as this layout defines them.
-/

namespace Substrate.Mmr

open BitCounter

/-- A merkle mountain range as the post-order layout places it: the height of each position's node,
and the peaks' heights, the rightmost first. -/
structure MountainRange where
  heights : List Nat
  peaks : List Nat
  deriving DecidableEq, Repr

namespace MountainRange

def empty : MountainRange := ⟨[], []⟩

def size (m : MountainRange) : Nat := m.heights.length

/-- `MMR::push`: the leaf, then a parent for each peak the new tree merges with. -/
def push (m : MountainRange) : MountainRange :=
  let merged := addBit 0 m.peaks
  ⟨m.heights ++ List.range (merged.2 + 1), merged.1⟩

def ofLeaves : Nat → MountainRange
  | 0 => empty
  | n + 1 => (ofLeaves n).push

def peakPositions (m : MountainRange) : List Nat :=
  (m.peaks.reverse.foldl (fun (acc : List Nat × Nat) h =>
    (acc.1 ++ [acc.2 + 2 ^ (h + 1) - 2], acc.2 + 2 ^ (h + 1) - 1)) ([], 0)).1

example : (ofLeaves 3).heights = [0, 0, 1, 0] := by decide
example : (ofLeaves 3).peakPositions = [2, 3] := by decide

end MountainRange

def leafIndexToPos (index : Nat) : Nat := 2 * index - countOnes index

/-- `helper::pos_height_in_tree`: the height of the node at `pos`, which the first `pos + 1`
leaves place. -/
def posHeightInTree (pos : Nat) : Nat :=
  (MountainRange.ofLeaves (pos + 1)).heights.getD pos 0

/-- `helper::get_peaks`: the positions of the peaks of the range of `mmrSize` nodes; sizes no range
has, which `NodesUtils` never asks for, have none. -/
def getPeaks (mmrSize : Nat) : List Nat :=
  match (List.range (mmrSize + 1)).find? fun n => (MountainRange.ofLeaves n).size = mmrSize with
  | some n => (MountainRange.ofLeaves n).peakPositions
  | none => []

example : getPeaks 4 = [2, 3] := by decide

namespace MountainRange

/-! ## The range of the first leaves -/

variable (n : Nat)

@[simp] theorem peaks_ofLeaves : (ofLeaves n).peaks = n.bitIndices := by
  induction n with
  | zero => rfl
  | succ n ih => rw [ofLeaves, push, ih, addBit_zero_bitIndices]

/-- Adding leaf `n` appends the leaf and `trailing_ones(n)` parents, of heights `1`, `2`, …. -/
theorem heights_ofLeaves_succ :
    (ofLeaves (n + 1)).heights = (ofLeaves n).heights ++ List.range (trailingOnes n + 1) := by
  rw [ofLeaves, push, peaks_ofLeaves, addBit_zero_bitIndices]

theorem size_ofLeaves_succ :
    (ofLeaves (n + 1)).size = (ofLeaves n).size + trailingOnes n + 1 := by
  rw [size, heights_ofLeaves_succ, List.length_append, List.length_range]
  rfl

theorem leafIndexToPos_succ :
    leafIndexToPos (n + 1) = leafIndexToPos n + trailingOnes n + 1 := by
  have hcarry := countOnes_succ_add_trailingOnes n
  have hle := countOnes_le n
  rw [leafIndexToPos, leafIndexToPos]
  omega

/-- The leaves before leaf `n` fill the positions below `leaf_index_to_pos(n)`. -/
theorem size_ofLeaves : (ofLeaves n).size = leafIndexToPos n := by
  induction n with
  | zero => rfl
  | succ n ih => rw [size_ofLeaves_succ, leafIndexToPos_succ, ih]

theorem le_leafIndexToPos : n ≤ leafIndexToPos n := by
  have hle := countOnes_le n
  rw [leafIndexToPos]
  omega

theorem leafIndexToPos_lt_of_lt {m n : Nat} (h : m < n) : leafIndexToPos m < leafIndexToPos n :=
  strictMono_nat_of_lt_succ (fun n => by rw [leafIndexToPos_succ]; omega) h

/-- Adding leaves only appends nodes. -/
theorem heights_prefix {m n : Nat} (h : m ≤ n) : (ofLeaves m).heights <+: (ofLeaves n).heights := by
  induction n, h using Nat.le_induction with
  | base => exact List.prefix_refl _
  | succ n _ ih =>
    rw [heights_ofLeaves_succ]
    exact ih.trans (List.prefix_append _ _)

/-- The nodes that adding leaf `n` appends, from the position of the leaf on: the `k`-th has
height `k`. -/
theorem posHeightInTree_leafIndexToPos_add {n k : Nat} (hk : k ≤ trailingOnes n) :
    posHeightInTree (leafIndexToPos n + k) = k := by
  have hpre := heights_prefix (show n + 1 ≤ leafIndexToPos n + k + 1 by
    have := le_leafIndexToPos n
    omega)
  obtain ⟨rest, hrest⟩ := hpre
  have hlen : (ofLeaves n).heights.length = leafIndexToPos n := size_ofLeaves n
  rw [posHeightInTree, ← hrest, heights_ofLeaves_succ, List.append_assoc,
    List.getD_append_right _ _ _ _ (by omega), hlen, Nat.add_sub_cancel_left,
    List.getD_append _ _ _ _ (by rw [List.length_range]; omega), List.getD_eq_getElem?_getD,
    List.getElem?_range (by omega), Option.getD_some]

/-! ## The peaks -/

theorem length_foldl_peaks (bits : List Nat) (acc : List Nat × Nat) :
    (bits.foldl (fun (acc : List Nat × Nat) h =>
      (acc.1 ++ [acc.2 + 2 ^ (h + 1) - 2], acc.2 + 2 ^ (h + 1) - 1)) acc).1.length =
        acc.1.length + bits.length := by
  induction bits generalizing acc with
  | nil => rfl
  | cons h bits ih =>
    rw [List.foldl_cons, ih, List.length_append, List.length_singleton, List.length_cons]
    omega

theorem length_peakPositions (m : MountainRange) : m.peakPositions.length = m.peaks.length := by
  rw [peakPositions, length_foldl_peaks, List.length_reverse]
  exact Nat.zero_add _

end MountainRange

open MountainRange in
/-- The range with as many nodes as come before leaf `n` is the one of the first `n` leaves. -/
theorem getPeaks_leafIndexToPos (n : Nat) :
    getPeaks (leafIndexToPos n) = (ofLeaves n).peakPositions := by
  have hfind : ((List.range (leafIndexToPos n + 1)).find? fun m =>
      (ofLeaves m).size = leafIndexToPos n) = some n := by
    rw [List.find?_range_eq_some]
    refine ⟨by simp [size_ofLeaves], List.mem_range.mpr (Nat.lt_succ_of_le (le_leafIndexToPos n)),
      fun j hj => ?_⟩
    simp [size_ofLeaves, (leafIndexToPos_lt_of_lt hj).ne]
  rw [getPeaks, hfind]

open MountainRange in
theorem length_getPeaks_leafIndexToPos (n : Nat) :
    (getPeaks (leafIndexToPos n)).length = countOnes n := by
  rw [getPeaks_leafIndexToPos, length_peakPositions, peaks_ofLeaves, countOnes_eq_length]

end Substrate.Mmr
