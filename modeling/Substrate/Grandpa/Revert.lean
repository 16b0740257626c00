import Substrate.Grandpa.AuthoritySet
import Substrate.Utils.ForkTreeDrain

/-! # Reverting the authority set

`AuthoritySet::revert(hash, number)` drains the standard changes signalled at a strict descendant
with their subtrees and filters the forced ones. Over a fork tree that follows descent it removes
exactly the changes signalled at strict descendants of the block.
-/

namespace Substrate.Grandpa

open Ancestry ForkTree Node

variable {H N AuthorityId : Type} [DecidableEq H] [LinearOrder N]

namespace AuthoritySet

variable {B : BlockTree H N} {hash : H}

theorem revertFilter_of_ancestorOrSelf {nodeHash : H} (change : PendingChange H N AuthorityId)
    (hanc : B.AncestorOrSelf nodeHash hash) :
    revertFilter hash (B.height hash) B.isDescendentOf nodeHash (B.height nodeHash) change =
      .keepNode := by
  rw [revertFilter, if_pos ⟨hanc.height_le, hanc.symm⟩]

theorem revertFilter_of_isDescendentOf {nodeHash : H} (change : PendingChange H N AuthorityId)
    (hdesc : B.isDescendentOf hash nodeHash = true) :
    revertFilter hash (B.height hash) B.isDescendentOf nodeHash (B.height nodeHash) change =
      .remove := by
  have hnot : ¬(B.height nodeHash ≤ B.height hash ∧
      (B.isDescendentOf nodeHash hash = true ∨ nodeHash = hash)) := fun h =>
    BlockTree.not_ancestorOrSelf_of_isDescendentOf hdesc (h.2.symm)
  rw [revertFilter, if_neg hnot, if_pos ⟨B.height_lt hdesc, hdesc⟩]

theorem revertFilter_of_unrelated {nodeHash : H} (change : PendingChange H N AuthorityId)
    (hanc : ¬B.AncestorOrSelf nodeHash hash) (hdesc : B.isDescendentOf hash nodeHash = false) :
    revertFilter hash (B.height hash) B.isDescendentOf nodeHash (B.height nodeHash) change =
      .keepTree := by
  have hnot : ¬(B.height nodeHash ≤ B.height hash ∧
      (B.isDescendentOf nodeHash hash = true ∨ nodeHash = hash)) := fun h =>
    hanc (h.2.symm)
  have hnot' : ¬(B.height hash < B.height nodeHash ∧ B.isDescendentOf hash nodeHash = true) :=
    fun h => by
      rw [hdesc] at h
      cases h.2
  rw [revertFilter, if_neg hnot, if_neg hnot']

mutual
/-- Over a subtree whose numbers are heights, `revert`'s filter keeps exactly the changes not
signalled at a strict descendant of the block. -/
theorem kept_revertFilter : ∀ node : Node H N (PendingChange H N AuthorityId),
    node.Edges (fun parent child => B.isDescendentOf parent.1 child.1 = true) →
    (∀ e ∈ node.entries, e.2.1 = B.height e.1) →
    kept (revertFilter hash (B.height hash) B.isDescendentOf) node =
      node.entries.filter fun e => !B.isDescendentOf hash e.1
  | ⟨nodeHash, number, change, children⟩, hedges, hheights => by
    obtain rfl : number = B.height nodeHash :=
      hheights _ (by rw [entries_mk]; exact List.mem_cons_self)
    have hchildren : ∀ e ∈ entriesList children, e.2.1 = B.height e.1 := fun e he =>
      hheights e (by rw [entries_mk]; exact List.mem_cons_of_mem _ he)
    -- the node is an ancestor of the block or the block, a strict descendant, or on another fork
    by_cases hanc : B.AncestorOrSelf nodeHash hash
    · have hnot : B.isDescendentOf hash nodeHash = false := by
        by_contra hdesc
        exact BlockTree.not_ancestorOrSelf_of_isDescendentOf (Bool.not_eq_false _ ▸ hdesc) hanc
      rw [kept_of_keepNode _ _ (revertFilter_of_ancestorOrSelf change hanc), entries_mk,
        List.filter_cons_of_pos (by simp [hnot])]
      rw [Edges] at hedges
      exact congrArg _ (keptList_revertFilter children hedges.2 hchildren)
    · by_cases hdesc : B.isDescendentOf hash nodeHash = true
      · rw [kept_of_remove _ _ (revertFilter_of_isDescendentOf change hdesc), eq_comm,
          List.filter_eq_nil_iff]
        intro e he
        simp [BlockTree.isDescendentOf_of_ancestorOrSelf hdesc (entries_descend _ hedges e he)]
      · rw [Bool.not_eq_true] at hdesc
        rw [kept_of_keepTree _ _ (revertFilter_of_unrelated change hanc hdesc), eq_comm,
          List.filter_eq_self]
        intro e he
        simp [BlockTree.not_isDescendentOf_of_unrelated hanc hdesc (entries_descend _ hedges e he)]

theorem keptList_revertFilter : ∀ l : List (Node H N (PendingChange H N AuthorityId)),
    EdgesList (fun parent child => B.isDescendentOf parent.1 child.1 = true) l →
    (∀ e ∈ entriesList l, e.2.1 = B.height e.1) →
    keptList (revertFilter hash (B.height hash) B.isDescendentOf) l =
      (entriesList l).filter fun e => !B.isDescendentOf hash e.1
  | [], _, _ => by rw [keptList, entriesList, List.filter_nil]
  | node :: rest, hedges, hheights => by
    rw [EdgesList] at hedges
    rw [entriesList] at hheights
    rw [keptList, entriesList, List.filter_append,
      kept_revertFilter node hedges.1 fun e he => hheights e (List.mem_append_left _ he),
      keptList_revertFilter rest hedges.2 fun e he => hheights e (List.mem_append_right _ he)]
end

end AuthoritySet

/-- `revert` at a block, of a set whose standard changes form a fork tree, keeps exactly the changes
not signalled at a strict descendant of the block, and a fork tree. -/
theorem revert_removes_exactly_changes_after_the_block (B : BlockTree H N)
    (s : AuthoritySet H N AuthorityId) (hash : H) (hwf : s.pendingStandardChanges.WellFormed B) :
    (entriesList (s.revert hash (B.height hash) B.isDescendentOf).pendingStandardChanges.roots).Perm
        ((entriesList s.pendingStandardChanges.roots).filter fun e => !B.isDescendentOf hash e.1) ∧
      (s.revert hash (B.height hash) B.isDescendentOf).pendingForcedChanges =
        s.pendingForcedChanges.filter (fun change => !B.isDescendentOf hash change.canonHash) ∧
      (s.revert hash (B.height hash) B.isDescendentOf).pendingStandardChanges.WellFormed B := by
  refine ⟨?_, rfl, hwf.drainFilter _⟩
  rw [← AuthoritySet.keptList_revertFilter _ hwf.edges hwf.heights]
  exact drainFilter_entries _ _

def changeAt (n : Nat) : PendingChange Nat Nat Nat := ⟨[(n, 1)], 0, n, n, .finalized⟩

def chainSet : AuthoritySet Nat Nat Nat :=
  ⟨[(1, 1)], 0, ⟨[⟨2, 2, changeAt 2, [⟨5, 5, changeAt 5, []⟩]⟩], none⟩,
    [{ changeAt 7 with delayKind := .best 0 }], AuthoritySetChanges.empty⟩

theorem revert_chainSet_to_three :
    chainSet.pendingStandardChanges.WellFormed BlockTree.chain ∧
      (entriesList (chainSet.revert 3 (BlockTree.chain.height 3)
          BlockTree.chain.isDescendentOf).pendingStandardChanges.roots).Perm
        ((entriesList chainSet.pendingStandardChanges.roots).filter
          fun e => !BlockTree.chain.isDescendentOf 3 e.1) ∧
      (chainSet.revert 3 (BlockTree.chain.height 3)
          BlockTree.chain.isDescendentOf).pendingForcedChanges =
        chainSet.pendingForcedChanges.filter
          (fun change => !BlockTree.chain.isDescendentOf 3 change.canonHash) ∧
      (chainSet.revert 3 (BlockTree.chain.height 3)
          BlockTree.chain.isDescendentOf).pendingStandardChanges.WellFormed BlockTree.chain := by
  have hwf : chainSet.pendingStandardChanges.WellFormed BlockTree.chain := by
    refine ⟨by decide, ?_⟩
    simp [chainSet, EdgesList, Edges, BlockTree.chain]
  exact ⟨hwf, revert_removes_exactly_changes_after_the_block BlockTree.chain chainSet 3 hwf⟩

example : entriesList (chainSet.revert 3 3 BlockTree.chain.isDescendentOf).pendingStandardChanges.roots =
      [(2, 2, changeAt 2)] ∧
    (chainSet.revert 3 3 BlockTree.chain.isDescendentOf).pendingForcedChanges = [] := by
  decide


end Substrate.Grandpa
