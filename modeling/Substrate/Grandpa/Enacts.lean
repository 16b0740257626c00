import Substrate.Grandpa.AuthoritySet
import Substrate.Utils.ForkTreeFinalizesAny

/-! # Checking a finalization before applying it

`AuthoritySet::enacts_standard_change` asks `finalizes_any_with_descendent_if`, without changing the
set, whether finalizing a block enacts a pending standard change. It tests the changes that take
effect exactly at the block, where `apply_standard_changes` finalizes those that take effect at it or
before. Up to the current limit, where no pending root takes effect before the block, the two agree.
-/

namespace Substrate.Grandpa

open Ancestry ForkTree

variable {H N AuthorityId : Type} [DecidableEq H] [LinearOrder N] [Add N]

namespace AuthoritySet

/-- `enacts_standard_change`: the check of the changes that take effect at the finalized block. -/
def enactsStandardChange (s : AuthoritySet H N AuthorityId) (finalizedHash : H)
    (finalizedNumber : N) (isDescendentOf : H → H → Bool) : Except (Error N) (Option Bool) :=
  (s.pendingStandardChanges.finalizesAnyWithDescendentIf finalizedHash finalizedNumber isDescendentOf
    fun change => decide (change.effectiveNumber = finalizedNumber)).mapError .forkTree

variable {s : AuthoritySet H N AuthorityId} {hash : H} {number : N} {isDescendentOf : H → H → Bool}
  {tree : ForkTree H N (PendingChange H N AuthorityId)}

theorem enactsStandardChange_eq_ok {r : Option Bool} :
    s.enactsStandardChange hash number isDescendentOf = .ok r ↔
      s.pendingStandardChanges.finalizesAnyWithDescendentIf hash number isDescendentOf
        (fun change => decide (change.effectiveNumber = number)) = .ok r := by
  rw [enactsStandardChange]
  cases s.pendingStandardChanges.finalizesAnyWithDescendentIf hash number isDescendentOf _ <;>
    simp [Except.mapError]

/-- `apply_standard_changes` succeeds whenever the finalization does; it starts a new set when a
change is finalized, and otherwise keeps the authorities and the set id. -/
theorem applyStandardChanges_of_finalize
    {result : FinalizationResult (PendingChange H N AuthorityId)}
    (hfinal : s.pendingStandardChanges.finalizeWithDescendentIf hash number isDescendentOf
      (fun change => decide (change.effectiveNumber ≤ number)) = .ok (tree, result)) :
    ∃ s' status, s.applyStandardChanges hash number isDescendentOf = .ok (s', status) ∧
      ((∃ change, result = .changed (some change)) ∧ status.newSetBlock = some (hash, number) ∨
        (∀ change, result ≠ .changed (some change)) ∧ status.newSetBlock = none ∧
          s'.currentAuthorities = s.currentAuthorities ∧ s'.setId = s.setId) := by
  rw [applyStandardChanges, hfinal]
  rcases result with (_ | change) | _
  · exact ⟨_, _, rfl, .inr ⟨fun _ h => (by cases h), rfl, rfl, rfl⟩⟩
  · exact ⟨_, _, rfl, .inl ⟨⟨change, rfl⟩, rfl⟩⟩
  · exact ⟨_, _, rfl, .inr ⟨fun _ h => (by cases h), rfl, rfl, rfl⟩⟩

/-- Over an exact tree of pending changes, for a block after the best finalized one and up to the
current limit, `enacts_standard_change` answers `Some(true)` exactly when `apply_standard_changes`
starts a new set at the block; when it answers `Some(false)` or `None`, applying keeps the
authorities and the set id; and where applying fails on an unfinalized ancestor, so does the check. -/
theorem enactsStandardChange_agrees_with_apply (B : BlockTree H N)
    (s : AuthoritySet H N AuthorityId) (hexact : Exact B s.pendingStandardChanges.roots) (hash : H)
    (hbest : ∀ best, s.pendingStandardChanges.bestFinalizedNumber = some best → best < B.height hash)
    (hlimit : ∀ root ∈ s.pendingStandardChanges.roots, B.height hash ≤ root.data.effectiveNumber) :
    (s.enactsStandardChange hash (B.height hash) B.isDescendentOf = .ok (some true) ↔
      ∃ s' status, s.applyStandardChanges hash (B.height hash) B.isDescendentOf = .ok (s', status) ∧
        status.newSetBlock = some (hash, B.height hash)) ∧
    (s.enactsStandardChange hash (B.height hash) B.isDescendentOf = .ok (some false) ∨
        s.enactsStandardChange hash (B.height hash) B.isDescendentOf = .ok none →
      ∃ s' status, s.applyStandardChanges hash (B.height hash) B.isDescendentOf = .ok (s', status) ∧
        status.newSetBlock = none ∧ s'.currentAuthorities = s.currentAuthorities ∧
        s'.setId = s.setId) ∧
    (s.applyStandardChanges hash (B.height hash) B.isDescendentOf =
        .error (.forkTree .unfinalizedAncestor) →
      s.enactsStandardChange hash (B.height hash) B.isDescendentOf =
        .error (.forkTree .unfinalizedAncestor)) := by
  have hagree : CheckAgrees B s.pendingStandardChanges hash
      fun change => decide (change.effectiveNumber = B.height hash) := by
    rcases roots_split hexact hash with hnone | ⟨pre, root, post, hsplit, hanc, hothers⟩
    · exact checkAgrees_off_branch hexact hbest hnone
    · exact checkAgrees_on_branch hexact hbest hsplit hanc hothers
  obtain ⟨hancestor, hroot, hkeeps⟩ := hagree
  -- the finalization tests the roots only, and on them taking effect by the block is taking
  -- effect at it
  have hsame : s.pendingStandardChanges.finalizeWithDescendentIf hash (B.height hash)
        B.isDescendentOf (fun change => decide (change.effectiveNumber ≤ B.height hash)) =
      s.pendingStandardChanges.finalizeWithDescendentIf hash (B.height hash)
        B.isDescendentOf (fun change => decide (change.effectiveNumber = B.height hash)) :=
    finalizeWithDescendentIf_congr fun root hroot =>
      decide_eq_decide.mpr ⟨fun h => le_antisymm h (hlimit root hroot), le_of_eq⟩
  refine ⟨⟨fun h => ?_, fun ⟨s', status, h, hnew⟩ => ?_⟩, fun h => ?_, fun h => ?_⟩
  · obtain ⟨root, -, -, -, tree, hfinal⟩ := hroot.mp (enactsStandardChange_eq_ok.mp h)
    obtain ⟨s', status, happly, ⟨-, hnew⟩ | ⟨hnot, -⟩⟩ :=
      applyStandardChanges_of_finalize (hsame.trans hfinal)
    · exact ⟨s', status, happly, hnew⟩
    · exact (hnot _ rfl).elim
  · obtain ⟨result, hfinal, -⟩ := applyStandardChanges_ok h
    obtain ⟨s'', status', happly, ⟨⟨change, rfl⟩, -⟩ | ⟨-, hnone, -⟩⟩ :=
      applyStandardChanges_of_finalize hfinal
    · -- the finalized root passes the test, and the block is it or descends from it
      rw [hsame] at hfinal
      obtain ⟨root, hmem, rfl, hpass, hanc⟩ := finalizeWithDescendentIf_changed_passes hfinal
      exact enactsStandardChange_eq_ok.mpr (hroot.mpr ⟨root, hmem, hpass, hanc, _, hfinal⟩)
    · rw [h, Except.ok.injEq, Prod.mk.injEq] at happly
      rw [happly.2, hnone] at hnew
      cases hnew
  · obtain ⟨tree, result, hfinal, hresult, -⟩ :=
      hkeeps (h.imp enactsStandardChange_eq_ok.mp enactsStandardChange_eq_ok.mp)
    obtain ⟨s', status, happly, ⟨⟨change, rfl⟩, -⟩ | ⟨-, hkeep⟩⟩ :=
      applyStandardChanges_of_finalize (hsame.trans hfinal)
    · rcases hresult with h | h <;> cases h
    · exact ⟨s', status, happly, hkeep⟩
  · -- applying fails only where the finalization does, with the same error
    cases hfinal : s.pendingStandardChanges.finalizeWithDescendentIf hash (B.height hash)
        B.isDescendentOf (fun change => decide (change.effectiveNumber = B.height hash)) with
    | error e =>
      rw [applyStandardChanges, hsame, hfinal] at h
      have he : e = .unfinalizedAncestor := by
        cases e <;> simp [Error.ofForkTree] at h ⊢
      rw [enactsStandardChange, hancestor (he ▸ hfinal)]
      rfl
    | ok value =>
      obtain ⟨s', status, happly, -⟩ := applyStandardChanges_of_finalize (hsame.trans hfinal)
      rw [h] at happly
      cases happly

/-- One standard change signalled at block 5 of a chain with a delay of 3. -/
def changeAtFive : AuthoritySet Nat Nat Nat :=
  ⟨[(1, 1)], 0, ⟨[⟨5, 5, ⟨[(2, 1)], 3, 5, 5, .finalized⟩, []⟩], none⟩, [], .empty⟩

theorem enacts_change_at_eight :
    Exact BlockTree.chain changeAtFive.pendingStandardChanges.roots ∧
    (changeAtFive.enactsStandardChange 8 (BlockTree.chain.height 8) BlockTree.chain.isDescendentOf =
        .ok (some true) ↔
      ∃ s' status, changeAtFive.applyStandardChanges 8 (BlockTree.chain.height 8)
        BlockTree.chain.isDescendentOf = .ok (s', status) ∧
        status.newSetBlock = some (8, BlockTree.chain.height 8)) := by
  have hexact : Exact BlockTree.chain changeAtFive.pendingStandardChanges.roots :=
    ⟨by decide, by decide, by decide⟩
  exact ⟨hexact, (enactsStandardChange_agrees_with_apply BlockTree.chain changeAtFive hexact 8
    (fun _ hbest => by cases hbest) (by decide)).1⟩

end AuthoritySet

end Substrate.Grandpa
