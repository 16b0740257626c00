import Mathlib
import Substrate.Lib.Fold
import Substrate.TransactionPool.RemoveSubtree

/-! # What the operations of the ready queue keep

Well formed: every ready transaction under its hash, its tags mapping to it. Removing and pruning
take out only what they return, importing only what it reports replaced. During
`replace_previous` a tag may still map to a removed hash.
-/

namespace Substrate.TransactionPool

open Collections Fold

namespace ReadyTransactions

variable {Hash Tag : Type} [DecidableEq Hash] {q q' : ReadyTransactions Hash Tag} {hash : Hash}

def txAt (q : ReadyTransactions Hash Tag) (hash : Hash) : Option (Transaction Hash Tag) :=
  (q.ready.lookup hash).map fun tx => tx.transaction.transaction

theorem txAt_eq_none :
    q.txAt hash = none ↔ q.ready.lookup hash = none :=
  Option.map_eq_none_iff

theorem txAt_of_lookup {tx : ReadyTx Hash Tag}
    (h : q.ready.lookup hash = some tx) : q.txAt hash = some tx.transaction.transaction := by
  simp [txAt, h]

theorem txAt_erase (q : ReadyTransactions Hash Tag) (hash other : Hash) :
    ({ q with ready := q.ready.erase hash } : ReadyTransactions Hash Tag).txAt other =
      if other = hash then none else q.txAt other := by
  split
  next heq =>
    subst heq
    simp [txAt]
  next hne => simp only [txAt, AList.lookup_erase_ne hne]

/-- What `provided_tags` and the keys of `ready` are kept in step for: a ready transaction is
stored under its hash, and every tag it provides maps to it. -/
structure WellFormed (q : ReadyTransactions Hash Tag) : Prop where
  keys : ∀ hash t, q.txAt hash = some t → t.hash = hash
  provides : ∀ hash t, q.txAt hash = some t → ∀ tag ∈ t.provides, q.providedTags tag = some hash

theorem empty_wellFormed : (empty : ReadyTransactions Hash Tag).WellFormed :=
  ⟨fun _ _ h => by simp [txAt, empty] at h, fun _ _ h => by simp [txAt, empty] at h⟩

theorem WellFormed.of_eq (hwf : q.WellFormed)
    (htx : ∀ hash, q'.txAt hash = q.txAt hash) (htags : q'.providedTags = q.providedTags) :
    q'.WellFormed :=
  ⟨fun hash t h => hwf.keys hash t (htx hash ▸ h),
    fun hash t h => htags ▸ hwf.provides hash t (htx hash ▸ h)⟩

/-- `q'` keeps some of the ready transactions of `q`, each under its hash. -/
def Shrinks (q q' : ReadyTransactions Hash Tag) : Prop :=
  ∀ hash t, q'.txAt hash = some t → q.txAt hash = some t

theorem Shrinks.trans {q q' q'' : ReadyTransactions Hash Tag} (h : q.Shrinks q')
    (h' : q'.Shrinks q'') : q.Shrinks q'' :=
  fun hash t ht => h hash t (h' hash t ht)

theorem Shrinks.txAt_eq_none (h : q.Shrinks q')
    (hnone : q.txAt hash = none) : q'.txAt hash = none := by
  cases ht : q'.txAt hash with
  | none => rfl
  | some t => rw [h hash t ht] at hnone; cases hnone

/-- What a run of a removal loop does between two states: ready transactions only leave, each
one that leaves is in the list of removed ones, and that list only grows. -/
structure Removes (s s' : ReadyTransactions Hash Tag × List (Transaction Hash Tag)) : Prop where
  shrinks : s.1.Shrinks s'.1
  keeps : ∀ hash t, s.1.txAt hash = some t → s'.1.txAt hash = some t ∨ t ∈ s'.2
  grows : ∀ t ∈ s.2, t ∈ s'.2

namespace Removes

theorem of_eq {s s' : ReadyTransactions Hash Tag × List (Transaction Hash Tag)}
    (htx : ∀ hash, s'.1.txAt hash = s.1.txAt hash) (hremoved : s'.2 = s.2) : Removes s s' :=
  ⟨fun hash _ h => htx hash ▸ h, fun hash _ h => .inl (htx hash ▸ h), fun _ h => hremoved ▸ h⟩

theorem trans {s s' s'' : ReadyTransactions Hash Tag × List (Transaction Hash Tag)}
    (h : Removes s s') (h' : Removes s' s'') : Removes s s'' := by
  refine ⟨h.shrinks.trans h'.shrinks, ?_, fun t ht => h'.grows t (h.grows t ht)⟩
  intro hash t ht
  rcases h.keeps hash t ht with ht' | hmem
  · exact h'.keeps hash t ht'
  · exact .inr (h'.grows t hmem)

theorem erase {tx : ReadyTx Hash Tag}
    (hlookup : q.ready.lookup hash = some tx) (removed : List (Transaction Hash Tag)) :
    Removes (q, removed)
      ({ q with ready := q.ready.erase hash }, removed ++ [tx.transaction.transaction]) := by
  refine ⟨?_, ?_, fun t ht => List.mem_append_left _ ht⟩
  · intro other t ht
    rw [txAt_erase] at ht
    split at ht
    · cases ht
    · exact ht
  · intro other t ht
    rw [txAt_erase]
    split
    next heq =>
      subst heq
      rw [txAt_of_lookup hlookup] at ht
      cases ht
      exact .inr (List.mem_append_right _ (List.mem_singleton_self _))
    next => exact .inl ht

end Removes

/-! ## Changes of one entry -/

section Entries

variable (q : ReadyTransactions Hash Tag)

theorem txAt_modifyReady {f : ReadyTx Hash Tag → ReadyTx Hash Tag}
    (hf : ∀ tx, (f tx).transaction = tx.transaction) (hash other : Hash) :
    (q.modifyReady hash f).txAt other = q.txAt other := by
  by_cases hsame : other = hash
  · subst hsame
    simp only [txAt, modifyReady_lookup_self, Option.map_map]
    congr 1
    funext tx
    simp [hf]
  · simp only [txAt, modifyReady_lookup_ne _ _ hsame]

theorem txAt_insert (q : ReadyTransactions Hash Tag) (hash : Hash) (tx : ReadyTx Hash Tag)
    (other : Hash) :
    ({ q with ready := q.ready.insert hash tx } : ReadyTransactions Hash Tag).txAt other =
      if other = hash then some tx.transaction.transaction else q.txAt other := by
  split
  next heq =>
    subst heq
    simp [txAt]
  next hne => simp only [txAt, AList.lookup_insert_ne hne]

theorem txAt_insert_same {tx tx' : ReadyTx Hash Tag}
    (hlookup : q.ready.lookup hash = some tx) (htx : tx'.transaction = tx.transaction) (other : Hash) :
    ({ q with ready := q.ready.insert hash tx' } : ReadyTransactions Hash Tag).txAt other =
      q.txAt other := by
  by_cases hsame : other = hash
  · subst hsame
    simp [txAt, hlookup, htx]
  · simp only [txAt, AList.lookup_insert_ne hsame]

/-- The loop over the required tags of a removed transaction changes only unlocks. -/
theorem unlinkRequires_spec (requires : List Tag) :
    (∀ other, (q.unlinkRequires requires).txAt other = q.txAt other) ∧
      (q.unlinkRequires requires).providedTags = q.providedTags := by
  refine foldl_rel (R := fun q q' : ReadyTransactions Hash Tag =>
      (∀ other, q'.txAt other = q.txAt other) ∧ q'.providedTags = q.providedTags)
    (fun _ => ⟨fun _ => rfl, rfl⟩)
    (fun _ _ _ h h' => ⟨fun other => (h'.1 other).trans (h.1 other), h'.2.trans h.2⟩) ?_ requires q
  intro q tag
  split
  · refine ⟨fun other => txAt_modifyReady q ?_ _ other, modifyReady_providedTags q _ _⟩
    intro tx
    rfl
  · exact ⟨fun _ => rfl, rfl⟩

variable [DecidableEq Tag]

theorem removeOne_txAt (filter : Option (List Tag)) (tx : ReadyTx Hash Tag) (other : Hash) :
    (removeOne filter tx q).1.txAt other = q.txAt other :=
  (unlinkRequires_spec _ _).1 other

/-- `removeOne` clears only tags of the removed transaction. -/
theorem removeOne_providedTags (filter : Option (List Tag)) (tx : ReadyTx Hash Tag) {tag : Tag}
    (htag : tag ∉ tx.transaction.transaction.provides) :
    (removeOne filter tx q).1.providedTags tag = q.providedTags tag := by
  have hfold : (removeOne filter tx q).1.providedTags =
      (unlinkRequires { q with providedTags := ((tx.transaction.transaction.provides.filter fun tag =>
          (filter.map fun filter => !decide (tag ∈ filter)).getD true).foldl
            (fun m tag => Function.update m tag none) q.providedTags) }
        tx.transaction.transaction.requires).providedTags := rfl
  rw [hfold, (unlinkRequires_spec _ _).2]
  exact foldl_update_of_not_mem none _ _ fun hmem => htag (List.mem_filter.mp hmem).1

end Entries

/-! ## Removing a subtree -/

section RemoveSubtree

theorem popReady_eq_none :
    ∀ {stack : List Hash}, q.popReady stack = none → ∀ hash ∈ stack, q.ready.lookup hash = none
  | [], _, _, hmem => absurd hmem List.not_mem_nil
  | top :: stack, h, hash, hmem => by
    rw [popReady] at h
    split at h
    · cases h
    next htop =>
      rcases List.mem_cons.mp hmem with rfl | hmem
      · exact htop
      · exact popReady_eq_none h hash hmem

variable {tx : ReadyTx Hash Tag}

/-- The hashes popped before the one returned are not ready. -/
theorem popReady_mem :
    ∀ {stack rest : List Hash}, q.popReady stack = some (hash, tx, rest) →
      ∀ other ∈ stack, other = hash ∨ other ∈ rest ∨ q.ready.lookup other = none
  | [], _, h, _, _ => nomatch h
  | top :: stack, rest, h, other, hmem => by
    rw [popReady] at h
    split at h
    · simp only [Option.some.injEq, Prod.mk.injEq] at h
      obtain ⟨rfl, -, rfl⟩ := h
      rcases List.mem_cons.mp hmem with rfl | hmem
      · exact .inl rfl
      · exact .inr (.inl hmem)
    next htop =>
      rcases List.mem_cons.mp hmem with rfl | hmem
      · exact .inr (.inr htop)
      · exact popReady_mem h other hmem

variable [DecidableEq Tag] (filter : Option (List Tag))

/-- One round of the loop takes out the popped transaction. -/
theorem removeSubtreeRound_removes (hlookup : q.ready.lookup hash = some tx)
    (removed : List (Transaction Hash Tag)) :
    Removes (q, removed)
      ((removeOne filter tx { q with ready := q.ready.erase hash }).1,
        removed ++ [tx.transaction.transaction]) :=
  (Removes.erase hlookup removed).trans (Removes.of_eq (fun other => removeOne_txAt _ _ _ other) rfl)

theorem removeSubtreeLoop_removes :
    ∀ (fuel : Nat) (stack : List Hash) (q : ReadyTransactions Hash Tag)
      (removed : List (Transaction Hash Tag)),
      Removes (q, removed) (removeSubtreeLoop filter fuel stack q removed)
  | 0, _, q, removed => Removes.of_eq (fun _ => rfl) rfl
  | fuel + 1, stack, q, removed => by
    rw [removeSubtreeLoop]
    split
    · exact Removes.of_eq (fun _ => rfl) rfl
    next hash tx rest hpop =>
      exact (removeSubtreeRound_removes filter (popReady_eq_some hpop) removed).trans
        (removeSubtreeLoop_removes fuel _ _ _)

/-- One round keeps the queue well formed: the tags it clears belong to the removed
transaction, and no other ready transaction provides them. -/
theorem removeSubtreeRound_wellFormed
    (hwf : q.WellFormed) (hlookup : q.ready.lookup hash = some tx) :
    (removeOne filter tx { q with ready := q.ready.erase hash }).1.WellFormed := by
  have hround := removeSubtreeRound_removes filter hlookup []
  refine ⟨fun other t ht => hwf.keys other t (hround.shrinks other t ht), ?_⟩
  intro other t ht tag htag
  have ht' := hround.shrinks other t ht
  have hne : other ≠ hash := by
    rintro rfl
    rw [removeOne_txAt, txAt_erase, if_pos rfl] at ht
    cases ht
  have hmapped := hwf.provides other t ht' tag htag
  have hnot : tag ∉ tx.transaction.transaction.provides := by
    intro hmem
    rw [hwf.provides hash _ (txAt_of_lookup hlookup) tag hmem] at hmapped
    exact hne (Option.some.inj hmapped).symm
  rw [removeOne_providedTags _ filter tx hnot]
  exact hmapped

theorem removeSubtreeLoop_wellFormed :
    ∀ (fuel : Nat) (stack : List Hash) (q : ReadyTransactions Hash Tag)
      (removed : List (Transaction Hash Tag)), q.WellFormed →
      (removeSubtreeLoop filter fuel stack q removed).1.WellFormed
  | 0, _, _, _, hwf => hwf
  | fuel + 1, stack, q, removed, hwf => by
    rw [removeSubtreeLoop]
    split
    · exact hwf
    next hash tx rest hpop =>
      exact removeSubtreeLoop_wellFormed fuel _ _ _
        (removeSubtreeRound_wellFormed filter hwf (popReady_eq_some hpop))

/-- With fuel for every ready transaction, no hash of the stack is ready when the loop ends. -/
theorem removeSubtreeLoop_clears :
    ∀ (fuel : Nat) (stack : List Hash) (q : ReadyTransactions Hash Tag)
      (removed : List (Transaction Hash Tag)), q.ready.keys.length ≤ fuel →
      ∀ hash ∈ stack, (removeSubtreeLoop filter fuel stack q removed).1.txAt hash = none
  | 0, _, q, _, hsize, hash, _ => by
    -- nothing is ready
    have hempty : q.ready.keys = [] := List.eq_nil_of_length_eq_zero (by omega)
    have hnot : hash ∉ q.ready := by
      rw [AList.mem_keys, hempty]
      exact List.not_mem_nil
    exact txAt_eq_none.mpr (AList.lookup_eq_none.mpr hnot)
  | fuel + 1, stack, q, removed, hsize, other, hmem => by
    rw [removeSubtreeLoop]
    split
    next hpop => exact txAt_eq_none.mpr (popReady_eq_none hpop other hmem)
    next hash tx rest hpop =>
      have hlookup := popReady_eq_some hpop
      have hround := removeSubtreeRound_removes filter hlookup removed
      have hkeys : hash ∈ q.ready.keys := AList.mem_keys.mp (AList.lookup_isSome.mp (by simp [hlookup]))
      have hsize' : (removeOne filter tx { q with ready := q.ready.erase hash }).1.ready.keys.length
          ≤ fuel := by
        rw [removeOne_keys_length, AList.keys_erase, List.length_erase_of_mem hkeys]
        omega
      have hloop := removeSubtreeLoop_removes filter fuel
        ((removeOne filter tx { q with ready := q.ready.erase hash }).2.reverse ++ rest)
        (removeOne filter tx { q with ready := q.ready.erase hash }).1 (removed ++ [tx.transaction.transaction])
      rcases popReady_mem hpop other hmem with rfl | hrest | hnone
      · -- the popped hash was taken out in this round
        refine hloop.shrinks.txAt_eq_none ?_
        rw [removeOne_txAt, txAt_erase, if_pos rfl]
      · exact removeSubtreeLoop_clears fuel _ _ _ hsize' other (List.mem_append_right _ hrest)
      · refine hloop.shrinks.txAt_eq_none (hround.shrinks.txAt_eq_none ?_)
        exact txAt_eq_none.mpr hnone

variable (q : ReadyTransactions Hash Tag) (toRemove : List Hash)

theorem removeSubtreeWithTagFilter_removes :
    Removes (q, []) (q.removeSubtreeWithTagFilter toRemove filter) :=
  removeSubtreeLoop_removes filter _ _ _ _

theorem removeSubtreeWithTagFilter_wellFormed (hwf : q.WellFormed) :
    (q.removeSubtreeWithTagFilter toRemove filter).1.WellFormed :=
  removeSubtreeLoop_wellFormed filter _ _ _ _ hwf

theorem removeSubtreeWithTagFilter_clears :
    ∀ hash ∈ toRemove, (q.removeSubtreeWithTagFilter toRemove filter).1.txAt hash = none :=
  fun hash hmem => removeSubtreeLoop_clears filter _ _ _ _ le_rfl hash (List.mem_reverse.mpr hmem)

end RemoveSubtree

/-! ## Importing -/

section Import

variable [DecidableEq Tag]

omit [DecidableEq Tag] in
/-- The loop over the required tags of an imported transaction changes only unlocks. -/
theorem linkRequires_spec (hash : Hash) :
    ∀ (tags : List Tag) (q q' : ReadyTransactions Hash Tag) (goesToBest goesToBest' : Bool)
      (offset offset' : Nat),
      linkRequires hash tags q goesToBest offset = some (q', goesToBest', offset') →
        (∀ other, q'.txAt other = q.txAt other) ∧ q'.providedTags = q.providedTags
  | [], q, q', _, _, _, _, h => by
    cases h
    exact ⟨fun _ => rfl, rfl⟩
  | tag :: rest, q, q', _, _, _, _, h => by
    rw [linkRequires] at h
    split at h
    · split at h
      · cases h
      next tx hlookup =>
        -- the provider gains the new hash in its unlocks
        obtain ⟨htx, htags⟩ := linkRequires_spec hash rest _ _ _ _ _ _ h
        have hsame := txAt_insert_same q hlookup
          (show ({ tx with unlocks := tx.unlocks ++ [hash] } : ReadyTx Hash Tag).transaction =
            tx.transaction from rfl)
        exact ⟨fun other => (htx other).trans (hsame other), htags⟩
    · exact linkRequires_spec hash rest _ _ _ _ _ _ h

/-- A `replace_previous` that replaces removes a reported subtree, keeps the queue well formed, and
leaves no ready transaction under a hash a tag of the new one mapped to. -/
theorem replacePrevious_spec {tx : Transaction Hash Tag}
    {removed : List (Transaction Hash Tag)} {unlocks : List Hash}
    (h : q.replacePrevious tx = .ok (q', removed, unlocks)) :
    Removes (q, []) (q', removed) ∧ (q.WellFormed → q'.WellFormed) ∧
      ∀ tag ∈ tx.provides, ∀ other, q.providedTags tag = some other → q'.txAt other = none := by
  rw [replacePrevious] at h
  dsimp only at h
  split at h
  next hempty =>
    -- nothing to replace: no tag of the new transaction is provided
    cases h
    refine ⟨Removes.of_eq (fun _ => rfl) rfl, id, ?_⟩
    intro tag htag other hother
    have hmem : other ∈ (tx.provides.filterMap q.providedTags).eraseDups :=
      List.mem_eraseDups.mpr (List.mem_filterMap.mpr ⟨tag, htag, hother⟩)
    rw [List.isEmpty_iff.mp hempty] at hmem
    cases hmem
  · split at h
    · cases h
    · simp only [Except.ok.injEq, Prod.mk.injEq] at h
      obtain ⟨rfl, rfl, -⟩ := h
      refine ⟨removeSubtreeWithTagFilter_removes _ _ _,
        removeSubtreeWithTagFilter_wellFormed _ _ _, ?_⟩
      intro tag htag other hother
      exact removeSubtreeWithTagFilter_clears _ _ _ other
        (List.mem_eraseDups.mpr (List.mem_filterMap.mpr ⟨tag, htag, hother⟩))

variable {e : Error}

/-- `replace_previous` fails only when the new transaction's priority is too low. -/
theorem replacePrevious_eq_error {tx : Transaction Hash Tag}
    (h : q.replacePrevious tx = .error e) : ∃ old, e = .tooLowPriority old tx.priority := by
  rw [replacePrevious] at h
  dsimp only at h
  split at h
  · cases h
  · split at h
    · cases h
      exact ⟨_, rfl⟩
    · cases h

variable {tx : WaitingTransaction Hash Tag}

/-- A successful `import`: `replace_previous` ran on the queue, and the new transaction was
inserted under its hash with its tags mapped to it. -/
theorem import_eq_ok
    {replaced : List (Transaction Hash Tag)} (h : q.import tx = some (q', .ok replaced)) :
    q.txAt tx.transaction.hash = none ∧
      ∃ q₁ unlocks, ({ q with insertionId := q.insertionId + 1 } : ReadyTransactions Hash Tag).replacePrevious
          tx.transaction = .ok (q₁, replaced, unlocks) ∧
        (∀ other, q'.txAt other =
          if other = tx.transaction.hash then some tx.transaction else q₁.txAt other) ∧
        q'.providedTags = tx.transaction.provides.foldl
          (fun m tag => Function.update m tag (some tx.transaction.hash)) q₁.providedTags := by
  rw [«import»] at h
  split at h
  · cases h
  split at h
  · cases h
  next hnotmem =>
    refine ⟨txAt_eq_none.mpr (AList.lookup_eq_none.mpr hnotmem), ?_⟩
    dsimp only at h
    split at h
    · cases h
    next q₁ replaced' unlocks hreplace =>
      split at h
      · cases h
      next q₂ goesToBest offset hlink =>
        simp only [Option.some.injEq, Prod.mk.injEq, Except.ok.injEq] at h
        obtain ⟨rfl, rfl⟩ := h
        obtain ⟨htx, htags⟩ := linkRequires_spec _ _ _ _ _ _ _ _ hlink
        refine ⟨q₁, unlocks, hreplace, fun other => ?_, ?_⟩
        · rw [txAt_insert]
          -- putting the transaction into `best` does not touch `ready`
          split
          · rfl
          · cases goesToBest <;> exact htx other
        · split <;> simp only [htags]

/-- A successful `import` makes the new transaction ready under its hash, keeps or reports as
replaced the others, and keeps the queue well formed. -/
theorem import_ok_spec
    {replaced : List (Transaction Hash Tag)} (h : q.import tx = some (q', .ok replaced)) :
    q.txAt tx.transaction.hash = none ∧ q'.txAt tx.transaction.hash = some tx.transaction ∧
      (∀ hash t, q.txAt hash = some t → q'.txAt hash = some t ∨ t ∈ replaced) ∧
      (∀ hash t, q'.txAt hash = some t →
        q.txAt hash = some t ∨ (hash = tx.transaction.hash ∧ t = tx.transaction)) ∧
      (q.WellFormed → q'.WellFormed) := by
  obtain ⟨hfresh, q₁, unlocks, hreplace, htx, htags⟩ := import_eq_ok h
  obtain ⟨hremoves, hwf₁, hcleared⟩ := replacePrevious_spec hreplace
  refine ⟨hfresh, by rw [htx, if_pos rfl], ?_, ?_, ?_⟩
  · intro hash t ht
    rcases hremoves.keeps hash t ht with ht₁ | hmem
    · -- a ready hash is not the new one
      have hne : hash ≠ tx.transaction.hash := by
        rintro rfl
        rw [hfresh] at ht
        cases ht
      exact .inl (by rw [htx, if_neg hne]; exact ht₁)
    · exact .inr hmem
  · intro hash t ht
    rw [htx] at ht
    split at ht
    next heq =>
      cases ht
      exact .inr ⟨heq, rfl⟩
    next => exact .inl (hremoves.shrinks hash t ht)
  · intro hwf
    have hwf₁ := hwf₁ (hwf.of_eq (fun _ => rfl) rfl)
    constructor
    · intro hash t ht
      rw [htx] at ht
      split at ht
      next heq =>
        cases ht
        exact heq.symm
      next => exact hwf₁.keys hash t ht
    · intro hash t ht tag htag
      rw [htx] at ht
      rw [htags]
      split at ht
      next heq =>
        cases ht
        rw [heq]
        exact foldl_update_of_mem _ _ _ htag
      next hne =>
        -- a tag of the new transaction mapped to a hash that `replace_previous` emptied
        have hnot : tag ∉ tx.transaction.provides := by
          intro hmem
          have hmapped := hwf.provides hash t (hremoves.shrinks hash t ht) tag htag
          rw [hcleared tag hmem hash hmapped] at ht
          cases ht
        rw [foldl_update_of_not_mem _ _ _ hnot]
        exact hwf₁.provides hash t ht tag htag

/-- An `import` that fails changes nothing but the insertion id. -/
theorem import_eq_error (h : q.import tx = some (q', .error e)) :
    q' = { q with insertionId := q.insertionId + 1 } := by
  rw [«import»] at h
  split at h
  · cases h
  split at h
  · cases h
  dsimp only at h
  split at h
  · simp only [Option.some.injEq, Prod.mk.injEq] at h
    exact h.1.symm
  · split at h
    · cases h
    · simp only [Option.some.injEq, Prod.mk.injEq, reduceCtorEq, and_false] at h

/-- The only error of `import` is that of `replace_previous`. -/
theorem import_eq_error_tooLowPriority (h : q.import tx = some (q', .error e)) :
    ∃ old, e = .tooLowPriority old tx.transaction.priority := by
  rw [«import»] at h
  split at h
  · cases h
  split at h
  · cases h
  dsimp only at h
  split at h
  next e' hreplace =>
    simp only [Option.some.injEq, Prod.mk.injEq, Except.error.injEq] at h
    rw [← h.2]
    exact replacePrevious_eq_error hreplace
  · split at h
    · cases h
    · simp only [Option.some.injEq, Prod.mk.injEq, reduceCtorEq, and_false] at h

end Import

/-! ## Pruning -/

section Prune

variable [DecidableEq Tag]

theorem popProvided_ready :
    ∀ (stack : List Tag) (q : ReadyTransactions Hash Tag), (popProvided stack q).1.ready = q.ready
  | [], _ => rfl
  | tag :: rest, q => by
    rw [popProvided]
    split
    · exact popProvided_ready rest _
    · split
      · exact popProvided_ready rest _
      · rfl

/-- The transaction `popProvided` returns is ready under the hash its tag maps to. -/
theorem popProvided_found {q' : ReadyTransactions Hash Tag} {tag : Tag}
    {tx : ReadyTx Hash Tag} {rest : List Tag} :
    ∀ (stack : List Tag) (q : ReadyTransactions Hash Tag),
      popProvided stack q = (q', some (tag, hash, tx, rest)) →
        q.ready.lookup hash = some tx ∧ q.providedTags tag = some hash
  | [], _, h => by cases h
  | top :: stack, q, h => by
    rw [popProvided] at h
    split at h
    · obtain ⟨hlookup, htag⟩ := popProvided_found stack _ h
      exact ⟨hlookup, (update_none_eq_some htag).1⟩
    next hash' htop =>
      split at h
      · obtain ⟨hlookup, htag⟩ := popProvided_found stack _ h
        exact ⟨hlookup, (update_none_eq_some htag).1⟩
      next tx' hlookup =>
        simp only [Prod.mk.injEq, Option.some.injEq] at h
        obtain ⟨-, rfl, rfl, rfl, -⟩ := h
        exact ⟨hlookup, htop⟩

/-- The tags `popProvided` clears map to no ready transaction but the one it returns. -/
theorem popProvided_keeps {q' : ReadyTransactions Hash Tag}
    {res : Option (Tag × Hash × ReadyTx Hash Tag × List Tag)} {tag : Tag}
    (hother : ∀ found, res = some found → found.2.1 ≠ hash) :
    ∀ (stack : List Tag) (q : ReadyTransactions Hash Tag), q.providedTags tag = some hash →
      q.ready.lookup hash ≠ none → popProvided stack q = (q', res) → q'.providedTags tag = some hash
  | [], _, hmapped, _, h => by
    cases h
    exact hmapped
  | top :: stack, q, hmapped, hready, h => by
    rw [popProvided] at h
    -- the popped tag is cleared; it is `tag` only if it maps to `hash`
    have hkeep : ∀ hash', q.providedTags top = some hash' → hash' ≠ hash →
        Function.update q.providedTags top none tag = some hash := by
      intro hash' htop hne
      have htag : tag ≠ top := by
        rintro rfl
        rw [hmapped] at htop
        exact hne (Option.some.inj htop).symm
      rw [Function.update_of_ne htag]
      exact hmapped
    split at h
    next htop =>
      have htag : tag ≠ top := by
        rintro rfl
        rw [hmapped] at htop
        cases htop
      exact popProvided_keeps hother stack
        { q with providedTags := Function.update q.providedTags top none }
        ((Function.update_of_ne htag _ _).trans hmapped) hready h
    next hash' htop =>
      split at h
      next hnone =>
        have hne : hash' ≠ hash := by
          rintro rfl
          exact hready hnone
        exact popProvided_keeps hother stack
          { q with providedTags := Function.update q.providedTags top none }
          (hkeep hash' htop hne) hready h
      next tx hlookup =>
        simp only [Prod.mk.injEq] at h
        obtain ⟨rfl, rfl⟩ := h
        exact hkeep hash' htop (hother _ rfl)

omit [DecidableEq Tag] in
theorem findPrevious_spec (hash : Hash) (q : ReadyTransactions Hash Tag) (tag : Tag) :
    (∀ other, (findPrevious hash q tag).1.txAt other = q.txAt other) ∧
      (findPrevious hash q tag).1.providedTags = q.providedTags := by
  rw [findPrevious]
  split
  · exact ⟨fun _ => rfl, rfl⟩
  · split
    · exact ⟨fun _ => rfl, rfl⟩
    next tx hlookup =>
      have hsame := txAt_insert_same q hlookup
        (show ({ tx with unlocks := removeItem tx.unlocks hash } : ReadyTx Hash Tag).transaction =
          tx.transaction from rfl)
      exact ⟨hsame, rfl⟩

omit [DecidableEq Tag] in
theorem prunePrevious_spec (hash : Hash) :
    ∀ (tags : List Tag) (q : ReadyTransactions Hash Tag) (pushed : List Tag),
      (∀ other, (prunePrevious hash tags q pushed).1.txAt other = q.txAt other) ∧
        (prunePrevious hash tags q pushed).1.providedTags = q.providedTags
  | [], _, _ => ⟨fun _ => rfl, rfl⟩
  | tag :: rest, q, pushed => by
    rw [prunePrevious]
    obtain ⟨htx, htags⟩ := findPrevious_spec hash q tag
    -- whatever `findPrevious` pushes, the loop goes on from the state it left
    rcases hfind : findPrevious hash q tag with ⟨q', tags⟩
    rw [hfind] at htx htags
    cases tags with
    | none =>
      obtain ⟨htx', htags'⟩ := prunePrevious_spec hash rest q' pushed
      exact ⟨fun other => (htx' other).trans (htx other), htags'.trans htags⟩
    | some tags =>
      obtain ⟨htx', htags'⟩ := prunePrevious_spec hash rest q' (pushed ++ tags)
      exact ⟨fun other => (htx' other).trans (htx other), htags'.trans htags⟩

omit [DecidableEq Tag] in
theorem unlockPruned_spec (q : ReadyTransactions Hash Tag) (hash : Hash) :
    (∀ other, (q.unlockPruned hash).txAt other = q.txAt other) ∧
      (q.unlockPruned hash).providedTags = q.providedTags := by
  rw [unlockPruned]
  split
  · exact ⟨fun _ => rfl, rfl⟩
  next tx hlookup =>
    have hsame := txAt_insert_same q hlookup
      (show ({ tx with requiresOffset := tx.requiresOffset + 1 } : ReadyTx Hash Tag).transaction =
        tx.transaction from rfl)
    dsimp only
    split
    · exact ⟨hsame, rfl⟩
    · exact ⟨hsame, rfl⟩

omit [DecidableEq Tag] in
theorem foldl_unlockPruned_spec (unlocks : List Hash) (q : ReadyTransactions Hash Tag) :
    (∀ other, (unlocks.foldl unlockPruned q).txAt other = q.txAt other) ∧
      (unlocks.foldl unlockPruned q).providedTags = q.providedTags :=
  foldl_rel (R := fun q q' : ReadyTransactions Hash Tag =>
      (∀ other, q'.txAt other = q.txAt other) ∧ q'.providedTags = q.providedTags)
    (fun _ => ⟨fun _ => rfl, rfl⟩)
    (fun _ _ _ h h' => ⟨fun other => (h'.1 other).trans (h.1 other), h'.2.trans h.2⟩)
    unlockPruned_spec unlocks q

/-- The final loop of a pruning round clears only the tags of the pruned transaction. -/
theorem clearProvided_spec {currentTag : Tag} :
    ∀ {tags : List Tag} {q q' : ReadyTransactions Hash Tag},
      clearProvided currentTag hash tags q = some q' →
        (∀ other, q'.txAt other = q.txAt other) ∧ ∀ tag ∉ tags, q'.providedTags tag = q.providedTags tag
  | [], _, _, h => by
    cases h
    exact ⟨fun _ => rfl, fun _ _ => rfl⟩
  | top :: rest, q, q', h => by
    rw [clearProvided] at h
    -- past the `assert_eq!`, the loop goes on from the state with `top` cleared
    have hrest : clearProvided currentTag hash rest
        { q with providedTags := Function.update q.providedTags top none } = some q' := by
      by_cases hcond : q.providedTags top = (if currentTag = top then none else some hash)
      · rwa [if_pos hcond] at h
      · rw [if_neg hcond] at h
        cases h
    obtain ⟨hready, htags⟩ := clearProvided_spec hrest
    refine ⟨hready, fun tag htag => ?_⟩
    have hne : tag ≠ top := fun heq => htag (heq ▸ List.mem_cons_self)
    rw [htags tag (fun hmem => htag (List.mem_cons_of_mem top hmem))]
    exact Function.update_of_ne hne _ _

/-- What `prune_tags` does: ready transactions only leave, each into the list of pruned ones,
and the queue stays well formed. -/
theorem pruneTagsLoop_spec :
    ∀ (fuel : Nat) (stack : List Tag) (q q' : ReadyTransactions Hash Tag)
      (removed removed' : List (Transaction Hash Tag)),
      pruneTagsLoop fuel stack q removed = some (q', removed') →
        Removes (q, removed) (q', removed') ∧ (q.WellFormed → q'.WellFormed)
  | 0, _, q, q', removed, removed', h => by
    cases h
    exact ⟨Removes.of_eq (fun _ => rfl) rfl, id⟩
  | fuel + 1, stack, q, q', removed, removed', h => by
    rw [pruneTagsLoop] at h
    split at h
    next q₁ hpop =>
      -- no tag of the stack is provided by a ready transaction: only stale tags are cleared
      have hready : q₁.ready = q.ready := by
        have h₀ := popProvided_ready stack q
        rw [hpop] at h₀
        exact h₀
      simp only [Option.some.injEq, Prod.mk.injEq] at h
      obtain ⟨hq, hremoved⟩ := h
      subst hq hremoved
      have htx : ∀ other, q₁.txAt other = q.txAt other := fun other => by
        simp only [txAt, hready]
      refine ⟨Removes.of_eq htx rfl, fun hwf => ⟨?_, ?_⟩⟩
      · intro hash t ht
        exact hwf.keys hash t ((htx hash).symm.trans ht)
      · intro hash t ht tag htag
        have ht' := (htx hash).symm.trans ht
        exact popProvided_keeps (fun _ h => by cases h) stack q (hwf.provides hash t ht' tag htag)
          (fun hnone => by rw [txAt_eq_none.mpr hnone] at ht'; cases ht') hpop
    next q₁ tag hash readyTx rest hpop =>
      have hready : q₁.ready = q.ready := by
        have h₀ := popProvided_ready stack q
        rw [hpop] at h₀
        exact h₀
      dsimp only at h
      split at h
      · cases h
      next q₅ hclear =>
        obtain ⟨hlookup, -⟩ := popProvided_found stack q hpop
        obtain ⟨htx₅, htags₅⟩ := clearProvided_spec hclear
        -- the round takes out the pruned transaction and changes only unlocks and offsets
        have htx : ∀ other, q₅.txAt other =
            ({ q with ready := q.ready.erase hash } : ReadyTransactions Hash Tag).txAt other :=
          fun other => (htx₅ other).trans (((foldl_unlockPruned_spec _ _).1 other).trans
            (((prunePrevious_spec _ _ _ _).1 other).trans (by simp only [txAt, hready])))
        have hround : Removes (q, removed) (q₅, removed ++ [readyTx.transaction.transaction]) :=
          (Removes.erase hlookup removed).trans (Removes.of_eq htx rfl)
        obtain ⟨hrest, hwfrest⟩ := pruneTagsLoop_spec fuel _ q₅ q' _ removed' h
        refine ⟨hround.trans hrest, fun hwf => hwfrest ⟨?_, ?_⟩⟩
        · intro other t ht
          exact hwf.keys other t (hround.shrinks other t ht)
        · intro other t ht tag' htag'
          have ht' := hround.shrinks other t ht
          have hne : other ≠ hash := by
            rintro rfl
            rw [htx, txAt_erase, if_pos rfl] at ht
            cases ht
          have hmapped := hwf.provides other t ht' tag' htag'
          -- the tags of the pruned transaction map to it, so `tag'` is not one of them
          have hnot : tag' ∉ readyTx.transaction.transaction.provides := by
            intro hmem
            rw [hwf.provides hash _ (txAt_of_lookup hlookup) tag' hmem] at hmapped
            exact hne (Option.some.inj hmapped).symm
          rw [htags₅ tag' hnot, (foldl_unlockPruned_spec _ _).2, (prunePrevious_spec _ _ _ _).2]
          show q₁.providedTags tag' = some other
          exact popProvided_keeps (fun found hfound => by cases hfound; exact Ne.symm hne) stack q
            hmapped (fun hnone => by rw [txAt_eq_none.mpr hnone] at ht'; cases ht') hpop

variable (q : ReadyTransactions Hash Tag) (tag : Tag)

theorem pruneTags_spec {q' : ReadyTransactions Hash Tag} {pruned : List (Transaction Hash Tag)}
    (h : q.pruneTags tag = some (q', pruned)) :
    Removes (q, []) (q', pruned) ∧ (q.WellFormed → q'.WellFormed) :=
  pruneTagsLoop_spec _ _ _ _ _ _ h

end Prune

end ReadyTransactions

end Substrate.TransactionPool
