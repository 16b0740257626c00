import Substrate.Utils.ForkTree
import Substrate.Grandpa.AuthoritySetChanges
import Mathlib

/-! # The authority set and its pending changes

`AuthoritySet` of `sc_consensus_grandpa::authorities`: a standard change waits in a fork tree until
its block is finalized, a forced one in a sorted list until its block is best. Weights are `Nat`,
and `Error::Client` is left out.
-/

namespace Substrate.Grandpa

open BinarySearch

abbrev AuthorityList (AuthorityId : Type) := List (AuthorityId × Nat)

inductive DelayKind (N : Type) where
  | finalized
  | best (medianLastFinalized : N)
  deriving DecidableEq, Repr

structure PendingChange (H N AuthorityId : Type) where
  nextAuthorities : AuthorityList AuthorityId
  delay : N
  canonHeight : N
  canonHash : H
  delayKind : DelayKind N
  deriving DecidableEq, Repr

def PendingChange.effectiveNumber {H N AuthorityId : Type} [Add N]
    (change : PendingChange H N AuthorityId) : N :=
  change.canonHeight + change.delay

inductive Error (N : Type) where
  | invalidAuthoritySet
  | duplicateAuthoritySetChange
  | multiplePendingForcedAuthoritySetChanges
  | forcedAuthoritySetChangeDependencyUnsatisfied (number : N)
  | forkTree (error : ForkTree.Error)
  deriving DecidableEq, Repr

def Error.ofForkTree {N : Type} : ForkTree.Error → Error N
  | .duplicate => .duplicateAuthoritySetChange
  | e => .forkTree e

structure AuthoritySet (H N AuthorityId : Type) where
  currentAuthorities : AuthorityList AuthorityId
  setId : Nat
  pendingStandardChanges : ForkTree H N (PendingChange H N AuthorityId)
  pendingForcedChanges : List (PendingChange H N AuthorityId)
  authoritySetChanges : AuthoritySetChanges N

structure Status (H N : Type) where
  changed : Bool
  newSetBlock : Option (H × N)

namespace AuthoritySet

variable {H N AuthorityId : Type} [DecidableEq H] [LinearOrder N] [Add N]

/-- `invalid_authority_list`: empty, or with a weight of `0`. -/
def invalidAuthorityList (authorities : AuthorityList AuthorityId) : Bool :=
  authorities.isEmpty || authorities.any fun authority => authority.2 == 0

def genesis (initial : AuthorityList AuthorityId) : Option (AuthoritySet H N AuthorityId) :=
  if invalidAuthorityList initial then none
  else some ⟨initial, 0, ForkTree.new, [], AuthoritySetChanges.empty⟩

/-- The filter of `revert` over the pending standard changes: search below blocks up to the revert
point, remove changes signalled after it on its branch. -/
def revertFilter (hash : H) (number : N) (isDescendentOf : H → H → Bool) (nodeHash : H)
    (nodeNumber : N) (_ : PendingChange H N AuthorityId) : ForkTree.FilterAction :=
  if nodeNumber ≤ number ∧ (isDescendentOf nodeHash hash ∨ nodeHash = hash) then .keepNode
  else if number < nodeNumber ∧ isDescendentOf hash nodeHash then .remove
  else .keepTree

/-- `revert`: the changes signalled after the block are forgotten. -/
def revert (s : AuthoritySet H N AuthorityId) (hash : H) (number : N)
    (isDescendentOf : H → H → Bool) : AuthoritySet H N AuthorityId :=
  { s with
    pendingStandardChanges :=
      (s.pendingStandardChanges.drainFilter (revertFilter hash number isDescendentOf)).1
    pendingForcedChanges :=
      s.pendingForcedChanges.filter fun change => !isDescendentOf hash change.canonHash }

def addStandardChange (s : AuthoritySet H N AuthorityId) (pending : PendingChange H N AuthorityId)
    (isDescendentOf : H → H → Bool) : Except (Error N) (AuthoritySet H N AuthorityId) :=
  match s.pendingStandardChanges.import pending.canonHash pending.canonHeight pending
      isDescendentOf with
  | .error e => .error (.ofForkTree e)
  | .ok (tree, _) => .ok { s with pendingStandardChanges := tree }

/-- The order of the forced changes: by effective number, then by the block that signalled them. -/
def forcedKey (change : PendingChange H N AuthorityId) : Lex (N × N) :=
  toLex (change.effectiveNumber, change.canonHeight)

/-- The checks of `add_forced_change` against each pending forced change in turn. -/
def forcedConflict (pending : PendingChange H N AuthorityId) (isDescendentOf : H → H → Bool) :
    List (PendingChange H N AuthorityId) → Option (Error N)
  | [] => none
  | change :: rest =>
      if change.canonHash = pending.canonHash then some .duplicateAuthoritySetChange
      else if isDescendentOf change.canonHash pending.canonHash then
        some .multiplePendingForcedAuthoritySetChanges
      else forcedConflict pending isDescendentOf rest

/-- `add_forced_change`: the change goes where the binary search puts its key. -/
def addForcedChange (s : AuthoritySet H N AuthorityId) (pending : PendingChange H N AuthorityId)
    (isDescendentOf : H → H → Bool) : Except (Error N) (AuthoritySet H N AuthorityId) :=
  match forcedConflict pending isDescendentOf s.pendingForcedChanges with
  | some e => .error e
  | none =>
      let idx := unwrapOrElse
        (binarySearchByKey s.pendingForcedChanges (forcedKey pending) forcedKey) id
      .ok { s with pendingForcedChanges := s.pendingForcedChanges.insertIdx idx pending }

def addPendingChange (s : AuthoritySet H N AuthorityId) (pending : PendingChange H N AuthorityId)
    (isDescendentOf : H → H → Bool) : Except (Error N) (AuthoritySet H N AuthorityId) :=
  if invalidAuthorityList pending.nextAuthorities then .error .invalidAuthoritySet
  else
    match pending.delayKind with
    | .best _ => s.addForcedChange pending isDescendentOf
    | .finalized => s.addStandardChange pending isDescendentOf

/-- `apply_forced_changes`: the first forced change effective at the best block, on its branch,
applies unless a standard change it depends on is pending. -/
def applyForcedChanges (s : AuthoritySet H N AuthorityId) (bestHash : H) (bestNumber : N)
    (isDescendentOf : H → H → Bool) :
    Option (Except (Error N) (Option (N × AuthoritySet H N AuthorityId))) :=
  let candidates := (s.pendingForcedChanges.takeWhile fun change =>
    decide (change.effectiveNumber ≤ bestNumber)).filter fun change =>
      decide (change.effectiveNumber = bestNumber)
  match candidates.find? fun change =>
      decide (change.canonHash = bestHash) || isDescendentOf change.canonHash bestHash with
  | none => some (.ok none)
  | some change =>
      match change.delayKind with
      | .finalized => none
      | .best medianLastFinalized =>
          match s.pendingStandardChanges.rootEntries.find? fun root =>
              decide (root.2.2.effectiveNumber ≤ medianLastFinalized) &&
                isDescendentOf root.2.2.canonHash change.canonHash with
          | some (_, _, standardChange) =>
              some (.error (.forcedAuthoritySetChangeDependencyUnsatisfied
                standardChange.effectiveNumber))
          | none =>
              some (.ok (some (medianLastFinalized,
                ⟨change.nextAuthorities, s.setId + 1, ForkTree.new, [],
                  s.authoritySetChanges.append s.setId medianLastFinalized⟩)))

/-- `apply_standard_changes`: the finalized block finalizes a root of the pending changes it has
reached; later forced changes on its branch stay. -/
def applyStandardChanges (s : AuthoritySet H N AuthorityId) (finalizedHash : H)
    (finalizedNumber : N) (isDescendentOf : H → H → Bool) :
    Except (Error N) (AuthoritySet H N AuthorityId × Status H N) :=
  match s.pendingStandardChanges.finalizeWithDescendentIf finalizedHash finalizedNumber
      isDescendentOf fun change => decide (change.effectiveNumber ≤ finalizedNumber) with
  | .error e => .error (.ofForkTree e)
  | .ok (tree, .unchanged) => .ok ({ s with pendingStandardChanges := tree }, ⟨false, none⟩)
  | .ok (tree, .changed change) =>
      let s := { s with
        pendingStandardChanges := tree
        pendingForcedChanges := s.pendingForcedChanges.filter fun forced =>
          decide (finalizedNumber < forced.effectiveNumber) &&
            isDescendentOf finalizedHash forced.canonHash }
      match change with
      | some change =>
          .ok ({ s with
              authoritySetChanges := s.authoritySetChanges.append s.setId finalizedNumber
              currentAuthorities := change.nextAuthorities
              setId := s.setId + 1 },
            ⟨true, some (finalizedHash, finalizedNumber)⟩)
      | none => .ok (s, ⟨true, none⟩)

/-! ## Runs from genesis -/

/-- One change of the authority set: a change signalled, a block finalized, a forced set adopted, or
a revert. -/
inductive Step (isDescendentOf : H → H → Bool) :
    AuthoritySet H N AuthorityId → AuthoritySet H N AuthorityId → Prop
  | addPendingChange {s s' : AuthoritySet H N AuthorityId} (pending : PendingChange H N AuthorityId) :
      s.addPendingChange pending isDescendentOf = .ok s' → Step isDescendentOf s s'
  | applyStandardChanges {s s' : AuthoritySet H N AuthorityId} (hash : H) (number : N)
      (status : Status H N) :
      s.applyStandardChanges hash number isDescendentOf = .ok (s', status) →
        Step isDescendentOf s s'
  | applyForcedChanges {s s' : AuthoritySet H N AuthorityId} (hash : H) (number median : N) :
      s.applyForcedChanges hash number isDescendentOf = some (.ok (some (median, s'))) →
        Step isDescendentOf s s'
  | revert (s : AuthoritySet H N AuthorityId) (hash : H) (number : N) :
      Step isDescendentOf s (s.revert hash number isDescendentOf)

def Reachable (isDescendentOf : H → H → Bool) (s : AuthoritySet H N AuthorityId) : Prop :=
  ∃ initial s₀, genesis initial = some s₀ ∧ Relation.ReflTransGen (Step isDescendentOf) s₀ s

/-! ## What each operation does -/

section Spec

variable {s s' : AuthoritySet H N AuthorityId} {pending : PendingChange H N AuthorityId}
  {isDescendentOf : H → H → Bool}

/-- A change whose next authorities are a valid authority list. -/
def ValidChange (change : PendingChange H N AuthorityId) : Prop :=
  invalidAuthorityList change.nextAuthorities = false

/-- A forced change as `add_pending_change` stores it: valid, and of the kind `Best`. -/
def ForcedChange (change : PendingChange H N AuthorityId) : Prop :=
  ValidChange change ∧ ∃ median, change.delayKind = .best median

/-- What a step does to the authorities, the set id and the record: nothing, or the ended set's id
recorded with a block and the next id. -/
def RecordsChange (s s' : AuthoritySet H N AuthorityId) : Prop :=
  s'.currentAuthorities = s.currentAuthorities ∧ s'.setId = s.setId ∧
      s'.authoritySetChanges = s.authoritySetChanges ∨
    ∃ number, s'.setId = s.setId + 1 ∧
      s'.authoritySetChanges = s.authoritySetChanges.append s.setId number

omit [DecidableEq H] [LinearOrder N] [Add N] in
theorem RecordsChange.of_eq (hauthorities : s'.currentAuthorities = s.currentAuthorities)
    (hsetId : s'.setId = s.setId) (hchanges : s'.authoritySetChanges = s.authoritySetChanges) :
    RecordsChange s s' :=
  .inl ⟨hauthorities, hsetId, hchanges⟩

omit [DecidableEq H] [LinearOrder N] [Add N] in
/-- Recorded one change at a time from `0`, the ids of the record are those of the ended sets. -/
theorem RecordsChange.ids (hrecords : RecordsChange s s')
    (hids : s.authoritySetChanges.changes.map Prod.fst = List.range s.setId) :
    s'.authoritySetChanges.changes.map Prod.fst = List.range s'.setId := by
  rcases hrecords with ⟨-, hsetId, hchanges⟩ | ⟨number, hsetId, hchanges⟩
  · rw [hsetId, hchanges, hids]
  · rw [hsetId, hchanges, AuthoritySetChanges.append, List.map_append, hids, List.range_succ]
    rfl

theorem addForcedChange_ok (h : s.addForcedChange pending isDescendentOf = .ok s') :
    s' = { s with
      pendingForcedChanges := s.pendingForcedChanges.insertIdx
        (lowerBound s.pendingForcedChanges forcedKey (forcedKey pending)) pending } := by
  rw [addForcedChange] at h
  split at h
  · cases h
  · dsimp only at h
    rw [unwrapOrElse_binarySearchByKey] at h
    exact (Except.ok.inj h).symm

omit [Add N] in
theorem addStandardChange_ok (h : s.addStandardChange pending isDescendentOf = .ok s') :
    ∃ isRoot, s.pendingStandardChanges.import pending.canonHash pending.canonHeight pending
        isDescendentOf = .ok (s'.pendingStandardChanges, isRoot) ∧
      s' = { s with pendingStandardChanges := s'.pendingStandardChanges } := by
  rw [addStandardChange] at h
  split at h
  · cases h
  · rename_i tree isRoot himport
    cases h
    exact ⟨isRoot, himport, rfl⟩

/-- A signalled change is valid, and goes to the forced changes if it is of the kind `Best`. -/
theorem addPendingChange_ok (h : s.addPendingChange pending isDescendentOf = .ok s') :
    ValidChange pending ∧
      ((∃ median, pending.delayKind = .best median) ∧ s.addForcedChange pending isDescendentOf = .ok s' ∨
        s.addStandardChange pending isDescendentOf = .ok s') := by
  rw [addPendingChange] at h
  split at h
  · cases h
  · rename_i hvalid
    refine ⟨Bool.eq_false_iff.mpr hvalid, ?_⟩
    split at h
    · rename_i median hkind
      exact .inl ⟨⟨median, hkind⟩, h⟩
    · exact .inr h

theorem addPendingChange_recordsChange (h : s.addPendingChange pending isDescendentOf = .ok s') :
    RecordsChange s s' := by
  rcases (addPendingChange_ok h).2 with ⟨-, hforced⟩ | hstandard
  · rw [addForcedChange_ok hforced]
    exact .of_eq rfl rfl rfl
  · obtain ⟨-, -, hs'⟩ := addStandardChange_ok hstandard
    rw [hs']
    exact .of_eq rfl rfl rfl

/-- A finalization leaves the tree `finalize_with_descendent_if` returns and some forced changes,
and applies the change it finalizes. -/
theorem applyStandardChanges_ok {hash : H} {number : N} {status : Status H N}
    (h : s.applyStandardChanges hash number isDescendentOf = .ok (s', status)) :
    ∃ result, s.pendingStandardChanges.finalizeWithDescendentIf hash number isDescendentOf
        (fun change => decide (change.effectiveNumber ≤ number)) =
          .ok (s'.pendingStandardChanges, result) ∧
      s'.pendingForcedChanges.Sublist s.pendingForcedChanges ∧
      (s'.currentAuthorities = s.currentAuthorities ∧ s'.setId = s.setId ∧
          s'.authoritySetChanges = s.authoritySetChanges ∨
        ∃ change, result = .changed (some change) ∧
          s'.currentAuthorities = change.nextAuthorities ∧ s'.setId = s.setId + 1 ∧
          s'.authoritySetChanges = s.authoritySetChanges.append s.setId number) := by
  rw [applyStandardChanges] at h
  split at h
  · cases h
  · rename_i tree hfinal
    cases h
    exact ⟨.unchanged, hfinal, List.Sublist.refl _, .inl ⟨rfl, rfl, rfl⟩⟩
  · rename_i tree change hfinal
    dsimp only at h
    split at h
    · rename_i change'
      cases h
      exact ⟨_, hfinal, List.filter_sublist, .inr ⟨change', rfl, rfl, rfl, rfl⟩⟩
    · cases h
      exact ⟨_, hfinal, List.filter_sublist, .inl ⟨rfl, rfl, rfl⟩⟩

theorem applyStandardChanges_recordsChange {hash : H} {number : N} {status : Status H N}
    (h : s.applyStandardChanges hash number isDescendentOf = .ok (s', status)) :
    RecordsChange s s' := by
  obtain ⟨-, -, -, hsame | ⟨-, -, -, hsetId, hchanges⟩⟩ := applyStandardChanges_ok h
  · exact .inl hsame
  · exact .inr ⟨number, hsetId, hchanges⟩

/-- The set a forced change returns: its authorities, the next id, no pending change, and the old id
recorded at the change's median. -/
theorem applyForcedChanges_ok {hash : H} {number median : N}
    (h : s.applyForcedChanges hash number isDescendentOf = some (.ok (some (median, s')))) :
    ∃ change ∈ s.pendingForcedChanges, change.delayKind = .best median ∧
      s' = ⟨change.nextAuthorities, s.setId + 1, ForkTree.new, [],
        s.authoritySetChanges.append s.setId median⟩ := by
  rw [applyForcedChanges] at h
  split at h
  · cases h
  · rename_i change hfind
    -- the candidates are forced changes that take effect no later than the best block
    have hmem : change ∈ s.pendingForcedChanges :=
      (List.takeWhile_sublist _).subset (List.mem_filter.mp (List.mem_of_find?_eq_some hfind)).1
    split at h
    · cases h
    · rename_i median' hkind
      split at h
      · cases h
      · cases h
        exact ⟨change, hmem, hkind, rfl⟩

/-- While every forced change is of the kind `Best`, the `unreachable!` of
`apply_forced_changes` is not reached. -/
theorem applyForcedChanges_ne_none {hash : H} {number : N}
    (hforced : ∀ change ∈ s.pendingForcedChanges, ∃ median, change.delayKind = .best median) :
    s.applyForcedChanges hash number isDescendentOf ≠ none := by
  rw [applyForcedChanges]
  split
  · exact Option.some_ne_none _
  · rename_i change hfind
    have hmem : change ∈ s.pendingForcedChanges :=
      (List.takeWhile_sublist _).subset (List.mem_filter.mp (List.mem_of_find?_eq_some hfind)).1
    obtain ⟨median, hkind⟩ := hforced change hmem
    rw [hkind]
    dsimp only
    split <;> exact Option.some_ne_none _

theorem step_recordsChange (hstep : Step isDescendentOf s s') : RecordsChange s s' := by
  cases hstep with
  | addPendingChange pending h => exact addPendingChange_recordsChange h
  | applyStandardChanges hash number status h => exact applyStandardChanges_recordsChange h
  | applyForcedChanges hash number median h =>
    obtain ⟨-, -, -, rfl⟩ := applyForcedChanges_ok h
    exact .inr ⟨median, rfl, rfl⟩
  | revert hash number => exact .of_eq rfl rfl rfl

end Spec

/-! ## The invariant of the reachable sets -/

/-- What every reachable set keeps: valid authorities and changes, forced changes of kind `Best`
sorted, and the ids `0` to `setId - 1` recorded. -/
structure Inv (s : AuthoritySet H N AuthorityId) : Prop where
  authorities : invalidAuthorityList s.currentAuthorities = false
  standard : s.pendingStandardChanges.All ValidChange
  forced : ∀ change ∈ s.pendingForcedChanges, ForcedChange change
  sorted : Sorted s.pendingForcedChanges forcedKey
  ids : s.authoritySetChanges.changes.map Prod.fst = List.range s.setId

section Preserve

variable {s s' : AuthoritySet H N AuthorityId} {pending : PendingChange H N AuthorityId}
  {isDescendentOf : H → H → Bool}

omit [DecidableEq H] in
theorem Inv.genesis {initial : AuthorityList AuthorityId} (h : genesis initial = some s) :
    s.Inv := by
  rw [AuthoritySet.genesis] at h
  split at h
  · cases h
  · rename_i hvalid
    cases h
    exact ⟨Bool.eq_false_iff.mpr hvalid, trivial, fun _ hmem => absurd hmem List.not_mem_nil,
      List.Pairwise.nil, rfl⟩

omit [DecidableEq H] in
/-- The forced changes kept by a filter keep their validity and their order. -/
theorem Inv.of_sublist_forced (hinv : s.Inv) (hrecords : RecordsChange s s')
    (hauthorities : invalidAuthorityList s'.currentAuthorities = false)
    (hstandard : s'.pendingStandardChanges.All ValidChange)
    (hsub : s'.pendingForcedChanges.Sublist s.pendingForcedChanges) : s'.Inv :=
  ⟨hauthorities, hstandard, fun change hmem => hinv.forced change (hsub.subset hmem),
    hinv.sorted.sublist hsub, hrecords.ids hinv.ids⟩

theorem Inv.addForcedChange (hinv : s.Inv) (hpending : ForcedChange pending)
    (h : s.addForcedChange pending isDescendentOf = .ok s') : s'.Inv := by
  rw [addForcedChange_ok h]
  have hlen : lowerBound s.pendingForcedChanges forcedKey (forcedKey pending) ≤
      s.pendingForcedChanges.length := lowerBound_le_length
  refine ⟨hinv.authorities, hinv.standard, fun change hmem => ?_,
    sorted_insertIdx hinv.sorted rfl, hinv.ids⟩
  rcases (List.mem_insertIdx hlen).mp hmem with rfl | hmem
  · exact hpending
  · exact hinv.forced change hmem

theorem Inv.addStandardChange (hinv : s.Inv) (hpending : ValidChange pending)
    (h : s.addStandardChange pending isDescendentOf = .ok s') : s'.Inv := by
  obtain ⟨isRoot, himport, hs'⟩ := addStandardChange_ok h
  have hstandard := hinv.standard.import hpending himport
  rw [hs']
  exact ⟨hinv.authorities, hstandard, hinv.forced, hinv.sorted, hinv.ids⟩

theorem Inv.addPendingChange (hinv : s.Inv)
    (h : s.addPendingChange pending isDescendentOf = .ok s') : s'.Inv := by
  obtain ⟨hvalid, ⟨hkind, hforced⟩ | hstandard⟩ := addPendingChange_ok h
  · exact hinv.addForcedChange ⟨hvalid, hkind⟩ hforced
  · exact hinv.addStandardChange hvalid hstandard

theorem Inv.applyStandardChanges (hinv : s.Inv) {hash : H} {number : N} {status : Status H N}
    (h : s.applyStandardChanges hash number isDescendentOf = .ok (s', status)) : s'.Inv := by
  obtain ⟨result, hfinal, hsub, happlied⟩ := applyStandardChanges_ok h
  have hstandard := hinv.standard.finalizeWithDescendentIf hfinal
  refine hinv.of_sublist_forced (applyStandardChanges_recordsChange h) ?_ hstandard hsub
  rcases happlied with ⟨hauthorities, -⟩ | ⟨change, rfl, hauthorities, -⟩
  · rw [hauthorities]
    exact hinv.authorities
  · -- the applied change is the data of a root of the tree before the finalization
    obtain ⟨node, hnode, rfl⟩ := ForkTree.finalizeWithDescendentIf_changed hfinal
    obtain ⟨_, _, data, _⟩ := node
    rw [hauthorities]
    exact (ForkTree.Node.allList_iff.mp hinv.standard _ hnode).1

theorem Inv.applyForcedChanges (hinv : s.Inv) {hash : H} {number median : N}
    (h : s.applyForcedChanges hash number isDescendentOf = some (.ok (some (median, s')))) :
    s'.Inv := by
  have hrecords := step_recordsChange (.applyForcedChanges hash number median h)
  obtain ⟨change, hmem, -, rfl⟩ := applyForcedChanges_ok h
  exact ⟨(hinv.forced change hmem).1, trivial, fun _ hmem => absurd hmem List.not_mem_nil,
    List.Pairwise.nil, hrecords.ids hinv.ids⟩

theorem Inv.revert (hinv : s.Inv) (hash : H) (number : N) :
    (s.revert hash number isDescendentOf).Inv :=
  hinv.of_sublist_forced (.of_eq rfl rfl rfl) hinv.authorities
    (hinv.standard.drainFilter _) List.filter_sublist

theorem Inv.step (hinv : s.Inv) (hstep : Step isDescendentOf s s') : s'.Inv := by
  cases hstep with
  | addPendingChange pending h => exact hinv.addPendingChange h
  | applyStandardChanges hash number status h => exact hinv.applyStandardChanges h
  | applyForcedChanges hash number median h => exact hinv.applyForcedChanges h
  | revert hash number => exact hinv.revert hash number

/-- Every reachable set keeps the invariant: induction on the run from genesis. -/
theorem Inv.reachable (hreach : Reachable isDescendentOf s) : s.Inv := by
  obtain ⟨initial, s₀, hgenesis, hrun⟩ := hreach
  induction hrun with
  | refl => exact Inv.genesis hgenesis
  | tail _ hstep ih => exact ih.step hstep

end Preserve

/-! ## A forced change recorded below the last change -/

def chainDescendent (base target : Nat) : Bool := decide (base < target)

def standardAt90 : PendingChange Nat Nat Nat := ⟨[(2, 1)], 10, 90, 90, .finalized⟩

def forcedAt101 : PendingChange Nat Nat Nat := ⟨[(3, 1)], 4, 101, 101, .best 50⟩

/-- Every reachable set records ended sets under their ids, but not at increasing blocks: after
block `100` applies the change signalled at `90`, a forced change at `101` with median `50` records
an end at `50`. -/
theorem reachable_sets_record_ids_not_blocks (isDescendentOf : H → H → Bool) :
    (∀ s : AuthoritySet H N AuthorityId, Reachable isDescendentOf s → s.Inv) ∧
    (∀ s s' : AuthoritySet H N AuthorityId, Step isDescendentOf s s' → RecordsChange s s') ∧
    ∃ (s₀ s₁ s₂ s₃ s₄ : AuthoritySet Nat Nat Nat) (status : Status Nat Nat),
      genesis [(1, 1)] = some s₀ ∧
      s₀.addPendingChange standardAt90 chainDescendent = .ok s₁ ∧
      s₁.applyStandardChanges 100 100 chainDescendent = .ok (s₂, status) ∧
      s₂.addPendingChange forcedAt101 chainDescendent = .ok s₃ ∧
      s₃.applyForcedChanges 105 105 chainDescendent = some (.ok (some (50, s₄))) ∧
      s₄.authoritySetChanges.changes = [(0, 100), (1, 50)] :=
  ⟨fun _ hreach => Inv.reachable hreach, fun _ _ hstep => step_recordsChange hstep,
    _, _, _, _, _, _, rfl, rfl, rfl, rfl, rfl, rfl⟩

/-! ## The `unreachable!` of `apply_forced_changes` -/

/-- On every set reachable from genesis, `apply_forced_changes` never reaches its `unreachable!`:
`add_pending_change` stores among the forced changes only those of the kind `Best`. -/
theorem applyForcedChanges_reachable_ne_none {isDescendentOf : H → H → Bool}
    {s : AuthoritySet H N AuthorityId} (hreach : Reachable isDescendentOf s) (hash : H) (number : N) :
    s.applyForcedChanges hash number isDescendentOf ≠ none :=
  applyForcedChanges_ne_none fun change hmem => ((Inv.reachable hreach).forced change hmem).2

/-- The set of genesis `[(1, 1)]` once the forced change at `101` is signalled. -/
def forcedPending : AuthoritySet Nat Nat Nat :=
  ⟨[(1, 1)], 0, ForkTree.new, [forcedAt101], AuthoritySetChanges.empty⟩

theorem forcedPending_applies :
    Reachable chainDescendent forcedPending ∧
      forcedPending.applyForcedChanges 101 101 chainDescendent ≠ none :=
  have hreach : Reachable chainDescendent forcedPending :=
    ⟨[(1, 1)], _, rfl, .single (.addPendingChange forcedAt101 rfl)⟩
  ⟨hreach, applyForcedChanges_reachable_ne_none hreach 101 101⟩

end AuthoritySet

end Substrate.Grandpa
