import Substrate.Mmr.Layout
import Mathlib

/-! # Which leaf added a node

`NodesUtils` of the merkle mountain range primitives. Adding leaf `l` appends the leaf and its
`trailing_ones(l)` parents, and these branches fill the positions in order, so
`leaf_index_that_added_node` finds the one leaf whose branch holds a node.
-/

namespace Substrate.Mmr

open BitCounter MountainRange

structure NodesUtils where
  noOfLeaves : Nat
  deriving DecidableEq, Repr

namespace NodesUtils

def new (noOfLeaves : Nat) : NodesUtils := ⟨noOfLeaves⟩

def numberOfLeaves (self : NodesUtils) : Nat := self.noOfLeaves

def numberOfPeaks (self : NodesUtils) : Nat := countOnes self.numberOfLeaves

def size (self : NodesUtils) : Nat := 2 * self.noOfLeaves - self.numberOfPeaks

def leafNodeIndexToLeafIndex (pos : Nat) : Nat :=
  if pos = 0 then 0
  else
    let peaks := getPeaks pos
    (pos + peaks.length) >>> 1

def rightmostLeafNodeIndexFromPos (pos : Nat) : Nat := pos - posHeightInTree pos

def leafIndexThatAddedNode (nodeIndex : Nat) : Nat :=
  let rightmostLeafPos := rightmostLeafNodeIndexFromPos nodeIndex
  leafNodeIndexToLeafIndex rightmostLeafPos

def rightBranchEndingInLeaf (leafIndex : Nat) : List Nat :=
  let pos := leafIndexToPos leafIndex
  let numParents := trailingOnes leafIndex
  List.range' pos (numParents + 1)

example : rightBranchEndingInLeaf 3 = [4, 5, 6] := by decide
example : leafIndexThatAddedNode 6 = 3 := by decide

/-! ## The range of the leaves -/

/-- `size` is the number of nodes of the range of the leaves, and `number_of_peaks` its number of
peaks. -/
theorem size_new (n : Nat) : (new n).size = (ofLeaves n).size := by
  rw [size_ofLeaves]
  rfl

theorem numberOfPeaks_new (n : Nat) : (new n).numberOfPeaks = (ofLeaves n).peakPositions.length := by
  rw [length_peakPositions, peaks_ofLeaves, ← countOnes_eq_length]
  rfl

/-! ## From a leaf to its nodes and back -/

theorem leafNodeIndexToLeafIndex_leafIndexToPos (l : Nat) :
    leafNodeIndexToLeafIndex (leafIndexToPos l) = l := by
  have hle := countOnes_le l
  rw [leafNodeIndexToLeafIndex]
  split
  · -- only leaf `0` is at position `0`
    have := le_leafIndexToPos l
    omega
  · dsimp only
    rw [length_getPeaks_leafIndexToPos, Nat.shiftRight_eq_div_pow, leafIndexToPos]
    omega

/-- The right branch of leaf `l` is what adding the leaf appends. -/
theorem rightBranchEndingInLeaf_eq (l : Nat) :
    rightBranchEndingInLeaf l =
      List.range' (ofLeaves l).size ((ofLeaves (l + 1)).size - (ofLeaves l).size) := by
  rw [rightBranchEndingInLeaf, size_ofLeaves_succ, size_ofLeaves]
  congr 1
  omega

theorem mem_rightBranchEndingInLeaf {p l : Nat} :
    p ∈ rightBranchEndingInLeaf l ↔ ∃ k ≤ trailingOnes l, p = leafIndexToPos l + k := by
  rw [rightBranchEndingInLeaf, List.mem_range'_1]
  constructor
  · rintro ⟨hge, hlt⟩
    exact ⟨p - leafIndexToPos l, by omega, by omega⟩
  · rintro ⟨k, hk, rfl⟩
    omega

/-- A node of the right branch of leaf `l` is `k` positions after the leaf, at height `k`. -/
theorem leafIndexThatAddedNode_of_mem {p l : Nat} (h : p ∈ rightBranchEndingInLeaf l) :
    leafIndexThatAddedNode p = l := by
  obtain ⟨k, hk, rfl⟩ := mem_rightBranchEndingInLeaf.mp h
  rw [leafIndexThatAddedNode, rightmostLeafNodeIndexFromPos, posHeightInTree_leafIndexToPos_add hk,
    Nat.add_sub_cancel, leafNodeIndexToLeafIndex_leafIndexToPos]

/-- The right branches of the leaves fill the positions one after another. -/
theorem exists_mem_rightBranchEndingInLeaf (p : Nat) : ∃ l, p ∈ rightBranchEndingInLeaf l := by
  -- induction on the position: the next one is on the same branch or starts the next
  suffices h : ∃ l, leafIndexToPos l ≤ p ∧ p < leafIndexToPos (l + 1) by
    obtain ⟨l, hge, hlt⟩ := h
    rw [leafIndexToPos_succ] at hlt
    exact ⟨l, mem_rightBranchEndingInLeaf.mpr ⟨p - leafIndexToPos l, by omega, by omega⟩⟩
  induction p with
  | zero => exact ⟨0, le_rfl, by rw [leafIndexToPos_succ]; omega⟩
  | succ p ih =>
    obtain ⟨l, hge, hlt⟩ := ih
    by_cases hnext : p + 1 < leafIndexToPos (l + 1)
    · exact ⟨l, by omega, hnext⟩
    · refine ⟨l + 1, by omega, ?_⟩
      rw [leafIndexToPos_succ (l + 1)]
      omega

theorem nodes_attributed_to_the_leaf_that_added_them :
    (∀ l, leafNodeIndexToLeafIndex (leafIndexToPos l) = l) ∧
    (∀ l, rightBranchEndingInLeaf l =
        List.range' (ofLeaves l).size ((ofLeaves (l + 1)).size - (ofLeaves l).size) ∧
      (ofLeaves (l + 1)).heights = (ofLeaves l).heights ++ List.range (trailingOnes l + 1)) ∧
    (∀ p l, p ∈ rightBranchEndingInLeaf l ↔ leafIndexThatAddedNode p = l) ∧
    (∀ p, ∃! l, p ∈ rightBranchEndingInLeaf l) := by
  refine ⟨leafNodeIndexToLeafIndex_leafIndexToPos,
    fun l => ⟨rightBranchEndingInLeaf_eq l, heights_ofLeaves_succ l⟩, fun p l => ?_, fun p => ?_⟩
  · constructor
    · exact leafIndexThatAddedNode_of_mem
    · -- the branch that holds `p` is that of the leaf that added it
      rintro rfl
      obtain ⟨l', hmem⟩ := exists_mem_rightBranchEndingInLeaf p
      rwa [leafIndexThatAddedNode_of_mem hmem]
  · obtain ⟨l, hmem⟩ := exists_mem_rightBranchEndingInLeaf p
    exact ⟨l, hmem, fun l' hl' => (leafIndexThatAddedNode_of_mem hl').symm.trans
      (leafIndexThatAddedNode_of_mem hmem)⟩

end NodesUtils

end Substrate.Mmr
