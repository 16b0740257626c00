import Substrate.StateDb.NonCanonical
import Mathlib

/-! # The reference counts of the overlay

`RefCountsExact`: each value counted once per block of the levels, or kept for pinned descendants,
that inserted its key. A failed `canonicalize` breaks it, dropping the front level without
releasing its values, and `new` then restores a level the live overlay no longer has.
-/

namespace Substrate.StateDb

variable {BlockHash Key Value : Type} [DecidableEq BlockHash] [DecidableEq Key]

def Counts (values : AList (fun _ : Key => Nat × Value)) (held : List Key) : Prop :=
  ∀ k, (values.lookup k).map Prod.fst = if held.count k = 0 then none else some (held.count k)

namespace NonCanonicalOverlay

/-- The keys inserted by the blocks of some levels, with multiplicity. -/
def levelKeys (levels : List (OverlayLevel BlockHash Key)) : List Key :=
  levels.flatMap fun level => level.blocks.flatMap (·.inserted)

def heldKeys (o : NonCanonicalOverlay BlockHash Key Value) : List Key :=
  levelKeys o.levels ++ o.pinnedInsertions.entries.flatMap (·.2.1)

/-- The reference counts are those the claim of the overlay's documentation asks for. -/
def RefCountsExact (o : NonCanonicalOverlay BlockHash Key Value) : Prop :=
  Counts o.values (heldKeys o)

omit [DecidableEq BlockHash] [DecidableEq Key] in
theorem heldKeys_cons {o : NonCanonicalOverlay BlockHash Key Value}
    {level : OverlayLevel BlockHash Key} {rest : List (OverlayLevel BlockHash Key)}
    (hlevels : o.levels = level :: rest) :
    heldKeys o = levelKeys [level] ++ heldKeys { o with levels := rest } := by
  simp [heldKeys, levelKeys, hlevels]

/-- A failed `canonicalize` of a block not in the front level drops the level but keeps its values:
a key one of them inserted is counted more than it is held. -/
theorem canonicalize_error_breaks_refCounts {o : NonCanonicalOverlay BlockHash Key Value}
    {level : OverlayLevel BlockHash Key} {rest : List (OverlayLevel BlockHash Key)}
    {hash : BlockHash} (commit : CommitSet BlockHash Key Value) {k : Key}
    (hexact : RefCountsExact o) (hlevels : o.levels = level :: rest)
    (hheld : k ∈ levelKeys [level]) (hmissing : ∀ b ∈ level.blocks, b.hash ≠ hash) :
    ∃ o', o.canonicalize hash commit = some (o', commit, .error .invalidBlock) ∧
      ¬RefCountsExact o' := by
  have hidx : level.blocks.findIdx? (fun b => decide (b.hash = hash)) = none :=
    List.findIdx?_eq_none_iff.mpr fun b hb => decide_eq_false (hmissing b hb)
  refine ⟨{ o with levels := rest }, ?_, fun hexact' => ?_⟩
  · rw [canonicalize, hlevels]
    simp only [hidx]
  -- the front level's keys are no longer held, but their counts are the same
  have hcount : (heldKeys o).count k =
      (levelKeys [level]).count k + (heldKeys { o with levels := rest }).count k := by
    rw [heldKeys_cons hlevels, List.count_append]
  have hpos : 0 < (levelKeys [level]).count k := List.count_pos_iff.mpr hheld
  have hne : (heldKeys o).count k ≠ 0 := by omega
  have hsame := (hexact k).symm.trans (hexact' k)
  rw [if_neg hne] at hsame
  by_cases hzero : (heldKeys { o with levels := rest }).count k = 0
  · rw [if_pos hzero] at hsame
    cases hsame
  · rw [if_neg hzero, Option.some.injEq] at hsame
    omega

def keyedOverlay : NonCanonicalOverlay Nat Nat Nat :=
  ((empty.insert 1 1 0 ⟨[(5, 7)], []⟩).map Prod.fst).getD empty

theorem keyedOverlay_refCountsExact : RefCountsExact keyedOverlay := by
  have hvalues : keyedOverlay.values = AList.insert 5 ((1, 7) : Nat × Nat) ∅ := rfl
  have hheld : heldKeys keyedOverlay = [5] := rfl
  intro k
  rw [hvalues, hheld]
  by_cases hk : k = 5
  · subst hk
    rw [AList.lookup_insert]
    rfl
  · have hcount : List.count k [5] = 0 := List.count_eq_zero.mpr (by simp [hk])
    rw [AList.lookup_insert_ne hk, AList.lookup_empty, if_pos hcount]
    rfl

/-- Canonicalizing the block `2`, which is not there, leaves the value of the key `5` counted
once although no block holds it. -/
theorem keyedOverlay_canonicalize_unknown :
    RefCountsExact keyedOverlay ∧ ∃ o', keyedOverlay.canonicalize 2 .empty =
      some (o', .empty, .error .invalidBlock) ∧ ¬RefCountsExact o' :=
  ⟨keyedOverlay_refCountsExact, canonicalize_error_breaks_refCounts .empty
    keyedOverlay_refCountsExact
    (rfl : keyedOverlay.levels = [⟨[⟨1, 0, .journal 1 0, [5], []⟩], 1#64⟩])
    (show 5 ∈ levelKeys [(⟨[⟨1, 0, .journal 1 0, [5], []⟩], 1#64⟩ : OverlayLevel Nat Nat)] by decide)
    (by decide)⟩

/-- The journal of the block `1` is written by its `insert` and not deleted by the failed
`canonicalize`, so that `new` restores the level the live overlay has lost. -/
theorem keyedOverlay_journal_restores_level :
    ∃ commit o o', empty.insert 1 1 0 ⟨[(5, 7)], []⟩ = some (keyedOverlay, .ok commit) ∧
      keyedOverlay.canonicalize 2 .empty = some (o, .empty, .error .invalidBlock) ∧
      new (applyMeta (applyMeta ∅ commit) .empty) = .ok o' ∧ o.levels = [] ∧
      o'.levels.length = 1 :=
  ⟨_, _, _, rfl, rfl, rfl, rfl, rfl⟩

end NonCanonicalOverlay

end Substrate.StateDb
