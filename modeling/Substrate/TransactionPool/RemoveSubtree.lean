import Substrate.TransactionPool.Ready

/-! # Removing a subtree from the ready queue

Frame lemmas for `remove_subtree_with_tag_filter`, that its fuel never stops it, and what it does
to other transactions' unlocks: a removed transaction stays listed in the unlocks of those it
depends on.
-/

namespace Substrate.TransactionPool

open Collections

namespace ReadyTransactions

variable {Hash Tag : Type} [DecidableEq Hash]

/-! ## `modifyReady` -/

section Modify

variable (q : ReadyTransactions Hash Tag) (f : ReadyTx Hash Tag → ReadyTx Hash Tag)

@[simp] theorem modifyReady_providedTags (hash : Hash) :
    (q.modifyReady hash f).providedTags = q.providedTags := by
  unfold modifyReady
  split <;> rfl

@[simp] theorem modifyReady_best (hash : Hash) : (q.modifyReady hash f).best = q.best := by
  unfold modifyReady
  split <;> rfl

theorem modifyReady_lookup_ne {hash other : Hash} (hne : other ≠ hash) :
    (q.modifyReady hash f).ready.lookup other = q.ready.lookup other := by
  unfold modifyReady
  split
  · rfl
  · exact AList.lookup_insert_ne hne

theorem modifyReady_lookup_self (hash : Hash) :
    (q.modifyReady hash f).ready.lookup hash = (q.ready.lookup hash).map f := by
  unfold modifyReady
  split
  next hnone => rw [hnone]; rfl
  next tx hsome => rw [hsome, AList.lookup_insert]; rfl

theorem modifyReady_keys_length (hash : Hash) :
    (q.modifyReady hash f).ready.keys.length = q.ready.keys.length := by
  unfold modifyReady
  split
  · rfl
  next tx hsome =>
      have hmem : hash ∈ q.ready.keys := AList.mem_keys.mp (AList.lookup_isSome.mp (by simp [hsome]))
      rw [AList.keys_insert, List.length_cons, List.length_erase_of_mem hmem]
      have := List.length_pos_of_mem hmem
      omega

end Modify

/-! ## The body of the loop -/

section RemoveOne

/-- The loop over the required tags: for each provider found, the provider's
own hash is removed from its unlocks. -/
def unlinkRequires (q : ReadyTransactions Hash Tag) (requires : List Tag) :
    ReadyTransactions Hash Tag :=
  requires.foldl (fun q tag =>
    match q.providedTags tag with
    | some hash => q.modifyReady hash fun tx => { tx with unlocks := removeItem tx.unlocks hash }
    | none => q) q

theorem unlinkRequires_lookup_eq_none {hash : Hash} :
    ∀ (requires : List Tag) (q : ReadyTransactions Hash Tag),
      q.ready.lookup hash = none → (q.unlinkRequires requires).ready.lookup hash = none
  | [], _, h => h
  | tag :: rest, q, h => by
    apply unlinkRequires_lookup_eq_none rest
    cases hprovider : q.providedTags tag with
    | none => simpa [hprovider] using h
    | some provider =>
      simp only [hprovider]
      by_cases hsame : hash = provider
      · subst hsame
        rw [modifyReady_lookup_self, h]
        rfl
      · rw [modifyReady_lookup_ne _ _ hsame, h]

/-- The unlocks of `a` lose no hash but `a` itself: a hash `c ≠ a` listed
there is still listed after the loop. -/
theorem unlinkRequires_keeps_unlock {a c : Hash} (hca : c ≠ a) :
    ∀ (requires : List Tag) (q : ReadyTransactions Hash Tag) (txA : ReadyTx Hash Tag),
      q.ready.lookup a = some txA → c ∈ txA.unlocks →
        ∃ txA', (q.unlinkRequires requires).ready.lookup a = some txA' ∧ c ∈ txA'.unlocks
  | [], _, txA, ha, hc => ⟨txA, ha, hc⟩
  | tag :: rest, q, txA, ha, hc => by
    -- one step: the provider found, if it is `a`, loses `a` and keeps `c`
    cases hprovider : q.providedTags tag with
    | none =>
      apply unlinkRequires_keeps_unlock hca rest _ txA _ hc
      simpa [hprovider] using ha
    | some provider =>
      by_cases hsame : a = provider
      · subst hsame
        apply unlinkRequires_keeps_unlock hca rest _
          { txA with unlocks := removeItem txA.unlocks a } _
        · exact (removeItem_perm txA.unlocks a).symm.subset (List.mem_erase_of_ne hca |>.mpr hc)
        · simp only [hprovider]
          rw [modifyReady_lookup_self, ha]
          rfl
      · apply unlinkRequires_keeps_unlock hca rest _ txA _ hc
        simp only [hprovider]
        rw [modifyReady_lookup_ne _ _ hsame, ha]

theorem unlinkRequires_keys_length :
    ∀ (requires : List Tag) (q : ReadyTransactions Hash Tag),
      (q.unlinkRequires requires).ready.keys.length = q.ready.keys.length
  | [], _ => rfl
  | tag :: rest, q => by
    rw [unlinkRequires, List.foldl_cons, ← unlinkRequires, unlinkRequires_keys_length rest]
    split
    · exact modifyReady_keys_length _ _ _
    · rfl

variable [DecidableEq Tag]

/-- `removeOne` clears the tags, runs `unlinkRequires` and removes the
transaction from `best`. -/
theorem removeOne_eq (filter : Option (List Tag)) (tx : ReadyTx Hash Tag)
    (q : ReadyTransactions Hash Tag) :
    ∃ providedTags,
      (removeOne filter tx q).1 =
        { unlinkRequires { q with providedTags } tx.transaction.transaction.requires with
          best := BTreeSet.remove TransactionRef.cmp tx.transaction
            (unlinkRequires { q with providedTags } tx.transaction.transaction.requires).best } :=
  ⟨_, rfl⟩

variable (filter : Option (List Tag)) (tx : ReadyTx Hash Tag) (q : ReadyTransactions Hash Tag)

theorem removeOne_lookup_eq_none {hash : Hash} (h : q.ready.lookup hash = none) :
    (removeOne filter tx q).1.ready.lookup hash = none := by
  obtain ⟨providedTags, heq⟩ := removeOne_eq filter tx q
  rw [heq]
  exact unlinkRequires_lookup_eq_none _ _ h

theorem removeOne_keeps_unlock {a c : Hash} {txA : ReadyTx Hash Tag} (hca : c ≠ a)
    (ha : q.ready.lookup a = some txA) (hc : c ∈ txA.unlocks) :
    ∃ txA', (removeOne filter tx q).1.ready.lookup a = some txA' ∧ c ∈ txA'.unlocks := by
  obtain ⟨providedTags, heq⟩ := removeOne_eq filter tx q
  rw [heq]
  exact unlinkRequires_keeps_unlock hca _ _ txA ha hc

theorem removeOne_keys_length :
    (removeOne filter tx q).1.ready.keys.length = q.ready.keys.length := by
  obtain ⟨providedTags, heq⟩ := removeOne_eq filter tx q
  rw [heq]
  exact unlinkRequires_keys_length _ _

end RemoveOne

/-! ## The loop -/

section Loop

variable [DecidableEq Tag] (filter : Option (List Tag))

theorem removeSubtreeLoop_nil (fuel : Nat) (q : ReadyTransactions Hash Tag)
    (removed : List (Transaction Hash Tag)) :
    removeSubtreeLoop filter fuel [] q removed = (q, removed) := by
  cases fuel <;> rfl

omit [DecidableEq Tag] in
theorem popReady_eq_some {q : ReadyTransactions Hash Tag} {hash : Hash} {tx : ReadyTx Hash Tag} :
    ∀ {stack rest : List Hash}, q.popReady stack = some (hash, tx, rest) →
      q.ready.lookup hash = some tx
  | [], _, h => nomatch h
  | top :: stack, rest, h => by
    rw [popReady] at h
    split at h
    next tx' htop =>
        simp only [Option.some.injEq, Prod.mk.injEq] at h
        obtain ⟨rfl, rfl, -⟩ := h
        exact htop
    next => exact popReady_eq_some h

/-- The fuel of the loop is never what stops it: one more round of fuel
than the size of `ready` changes nothing, since each round removes an
entry. -/
theorem removeSubtreeLoop_fuel_enough :
    ∀ (fuel : Nat) (stack : List Hash) (q : ReadyTransactions Hash Tag)
      (removed : List (Transaction Hash Tag)), q.ready.keys.length ≤ fuel →
        removeSubtreeLoop filter (fuel + 1) stack q removed =
          removeSubtreeLoop filter fuel stack q removed
  | 0, stack, q, removed, hsize => by
    -- `ready` is empty: no hash is popped
    rw [removeSubtreeLoop.eq_2, removeSubtreeLoop.eq_1]
    split
    · rfl
    next hash tx rest hpop =>
        have hmem : hash ∈ q.ready.keys :=
          AList.mem_keys.mp (AList.lookup_isSome.mp (by simp [popReady_eq_some hpop]))
        have := List.length_pos_of_mem hmem
        omega
  | fuel + 1, stack, q, removed, hsize => by
    rw [removeSubtreeLoop.eq_2, removeSubtreeLoop.eq_2]
    split
    · rfl
    next hash tx rest hpop =>
        dsimp only
        apply removeSubtreeLoop_fuel_enough fuel
        -- the round erases `hash`, which is in `ready`
        have hmem : hash ∈ q.ready.keys :=
          AList.mem_keys.mp (AList.lookup_isSome.mp (by simp [popReady_eq_some hpop]))
        rw [removeOne_keys_length, AList.keys_erase, List.length_erase_of_mem hmem]
        omega

end Loop

/-! ## A removed transaction stays in the unlocks of its providers -/

variable [DecidableEq Tag]

/-- `remove_subtree` of a transaction `b` leaves `b` in the unlocks of the other ready transactions:
the loop meant to clear it clears each provider's own hash. -/
theorem removeSubtree_keeps_removed_unlock (q : ReadyTransactions Hash Tag) {a b : Hash}
    {txA txB : ReadyTx Hash Tag} (hab : a ≠ b) (ha : q.ready.lookup a = some txA)
    (hb : q.ready.lookup b = some txB) (hleaf : txB.unlocks = []) (hlisted : b ∈ txA.unlocks) :
    (q.removeSubtree [b]).1.ready.lookup b = none ∧
      ∃ txA', (q.removeSubtree [b]).1.ready.lookup a = some txA' ∧ b ∈ txA'.unlocks := by
  have hmem : b ∈ q.ready.keys := AList.mem_keys.mp (AList.lookup_isSome.mp (by simp [hb]))
  obtain ⟨fuel, hfuel⟩ : ∃ fuel, q.ready.keys.length = fuel + 1 :=
    ⟨q.ready.keys.length - 1, by have := List.length_pos_of_mem hmem; omega⟩
  -- one round removes `b` and pushes nothing, and the loop ends
  have hround : q.removeSubtree [b] =
      ((removeOne none txB { q with ready := q.ready.erase b }).1, [txB.transaction.transaction]) := by
    rw [removeSubtree, removeSubtreeWithTagFilter, hfuel, List.reverse_singleton, removeSubtreeLoop]
    simp only [popReady, hb]
    have hpushed : (removeOne none txB { q with ready := q.ready.erase b }).2 = [] := by
      simp only [removeOne]
      split <;> simp [hleaf]
    rw [hpushed, List.reverse_nil, List.nil_append, removeSubtreeLoop_nil, List.nil_append]
  rw [hround]
  refine ⟨removeOne_lookup_eq_none _ _ _ (AList.lookup_erase b q.ready),
    removeOne_keeps_unlock _ _ _ (Ne.symm hab) ?_ hlisted⟩
  rw [AList.lookup_erase_ne hab]
  exact ha

def importEach (q : ReadyTransactions Hash Tag) :
    List (Transaction Hash Tag) → Option (ReadyTransactions Hash Tag)
  | [] => some q
  | tx :: rest => (q.«import» ⟨tx, [], 0⟩).bind fun (q, _) => importEach q rest

def provider : Transaction Nat Nat := ⟨1, 1, 1, 2, [], [1]⟩

def dependent : Transaction Nat Nat := ⟨1, 2, 10, 2, [1], []⟩

def chainedQueue : ReadyTransactions Nat Nat := (importEach empty [provider, dependent]).getD empty

theorem removeSubtree_keeps_removed_unlock_chain :
    (1 : Nat) ≠ 2 ∧ chainedQueue.ready.lookup 1 = some ⟨⟨provider, 1⟩, [2], 0⟩ ∧
      chainedQueue.ready.lookup 2 = some ⟨⟨dependent, 2⟩, [], 0⟩ ∧
      ((chainedQueue.removeSubtree [2]).1.ready.lookup 2 = none ∧
        ∃ txA', (chainedQueue.removeSubtree [2]).1.ready.lookup 1 = some txA' ∧ 2 ∈ txA'.unlocks) := by
  have ha : chainedQueue.ready.lookup 1 = some ⟨⟨provider, 1⟩, [2], 0⟩ := by decide
  have hb : chainedQueue.ready.lookup 2 = some ⟨⟨dependent, 2⟩, [], 0⟩ := by decide
  exact ⟨by decide, ha, hb,
    removeSubtree_keeps_removed_unlock chainedQueue (by decide) ha hb rfl (by decide)⟩

def otherProvider : Transaction Nat Nat := ⟨1, 3, 1, 2, [], [2]⟩

def jointDependent : Transaction Nat Nat := ⟨1, 2, 10, 2, [1, 2], []⟩

/-- Removed and imported again, `jointDependent` is listed twice by each provider, so the iterator
yields it before its second provider and again after it. -/
theorem reimported_yielded_early_and_twice :
    ((importEach empty [provider, otherProvider, jointDependent]).bind fun q =>
        importEach (q.removeSubtree [2]).1 [jointDependent]).map
      (fun q => (BestIterator.ofReady q).take 5) =
      some [provider, jointDependent, otherProvider, jointDependent] := by
  decide

end ReadyTransactions

end Substrate.TransactionPool
