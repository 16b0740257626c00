import Mathlib
import Substrate.Lib.Fold
import Substrate.TransactionPool.Ready

/-! # The future queue of the transaction pool

`sc_transaction_pool::graph::future`: `waiting` by hash and `wanted_tags`; `satisfy_tags` strikes
tags and hands over transactions missing nothing. A `HashSet` is a list without duplicates, and
`expect(WAITING_PROOF)` is `none`.
-/

namespace Substrate.TransactionPool

open Fold

variable {Hash Tag : Type}

namespace WaitingTransaction

variable [DecidableEq Tag]

/-- `WaitingTransaction::new`: the required tags that no ready transaction provides and that
were not pruned recently; `importedAt` is the time of the call. -/
def new (transaction : Transaction Hash Tag) (provided : Tag → Option Hash)
    (recentlyPruned : List (List Tag)) (importedAt : Nat) : WaitingTransaction Hash Tag :=
  ⟨transaction,
    (transaction.requires.filter fun tag =>
      !((provided tag).isSome || recentlyPruned.any fun pruned => pruned.contains tag)).eraseDups,
    importedAt⟩

/-- A tag that a ready transaction provides is not missing. -/
theorem new_not_missing {transaction : Transaction Hash Tag} {provided : Tag → Option Hash}
    {recentlyPruned : List (List Tag)} {importedAt : Nat} {tag : Tag} (h : provided tag ≠ none) :
    tag ∉ (new transaction provided recentlyPruned importedAt).missingTags := by
  simp [new, List.mem_eraseDups, h]

/-- `satisfy_tag`: the tag leaves the set of missing tags. -/
def satisfyTag (tx : WaitingTransaction Hash Tag) (tag : Tag) : WaitingTransaction Hash Tag :=
  { tx with missingTags := tx.missingTags.filter (· != tag) }

@[simp] theorem satisfyTag_transaction (tx : WaitingTransaction Hash Tag) (tag : Tag) :
    (tx.satisfyTag tag).transaction = tx.transaction := rfl

@[simp] theorem mem_satisfyTag {tx : WaitingTransaction Hash Tag} {tag other : Tag} :
    other ∈ (tx.satisfyTag tag).missingTags ↔ other ∈ tx.missingTags ∧ other ≠ tag := by
  simp [satisfyTag]

end WaitingTransaction

structure FutureTransactions (Hash Tag : Type) [DecidableEq Hash] where
  wantedTags : Tag → List Hash
  waiting : AList (fun _ : Hash => WaitingTransaction Hash Tag)

namespace FutureTransactions

variable [DecidableEq Hash]

def empty : FutureTransactions Hash Tag := ⟨fun _ => [], ∅⟩

def txAt (f : FutureTransactions Hash Tag) (hash : Hash) : Option (Transaction Hash Tag) :=
  (f.waiting.lookup hash).map (·.transaction)

def len (f : FutureTransactions Hash Tag) : Nat := f.waiting.keys.length

/-- `bytes`: the encoded lengths of the waiting transactions. -/
def bytes (f : FutureTransactions Hash Tag) : Nat :=
  (f.waiting.entries.map fun entry => entry.2.transaction.bytes).sum

/-! ## Invariants -/

/-- The bookkeeping `WAITING_PROOF` rests on: a waiting transaction is stored under its hash, and
`wanted_tags` lists it under every tag it misses. -/
structure WellFormed (f : FutureTransactions Hash Tag) : Prop where
  keys : ∀ hash tx, f.waiting.lookup hash = some tx → tx.transaction.hash = hash
  wanted : ∀ hash tx tag, f.waiting.lookup hash = some tx → tag ∈ tx.missingTags →
    hash ∈ f.wantedTags tag

theorem empty_wellFormed : (empty : FutureTransactions Hash Tag).WellFormed :=
  ⟨fun _ _ h => by simp [empty] at h, fun _ _ _ h => by simp [empty] at h⟩

def Shrinks (f f' : FutureTransactions Hash Tag) : Prop :=
  ∀ hash tx', f'.waiting.lookup hash = some tx' →
    ∃ tx, f.waiting.lookup hash = some tx ∧ tx'.transaction = tx.transaction ∧
      ∀ tag ∈ tx'.missingTags, tag ∈ tx.missingTags

namespace Shrinks

theorem refl (f : FutureTransactions Hash Tag) : f.Shrinks f :=
  fun _ tx h => ⟨tx, h, rfl, fun _ ht => ht⟩

theorem trans {f f' f'' : FutureTransactions Hash Tag} (h : f.Shrinks f') (h' : f'.Shrinks f'') :
    f.Shrinks f'' := by
  intro hash tx'' hlookup
  obtain ⟨tx', hlookup', htx', hmissing'⟩ := h' hash tx'' hlookup
  obtain ⟨tx, hlookup, htx, hmissing⟩ := h hash tx' hlookup'
  exact ⟨tx, hlookup, htx'.trans htx, fun tag ht => hmissing tag (hmissing' tag ht)⟩

theorem lookup_eq_none {f f' : FutureTransactions Hash Tag} (h : f.Shrinks f') {hash : Hash}
    (hnone : f.waiting.lookup hash = none) : f'.waiting.lookup hash = none := by
  cases hsome : f'.waiting.lookup hash with
  | none => rfl
  | some tx' =>
    obtain ⟨tx, hlookup, -⟩ := h hash tx' hsome
    rw [hnone] at hlookup
    cases hlookup

theorem erase (f : FutureTransactions Hash Tag) (hash : Hash) (wantedTags : Tag → List Hash) :
    f.Shrinks ⟨wantedTags, f.waiting.erase hash⟩ := by
  intro other tx' hlookup
  by_cases hother : other = hash
  · subst hother
    simp at hlookup
  · rw [AList.lookup_erase_ne hother] at hlookup
    exact ⟨tx', hlookup, rfl, fun _ ht => ht⟩

end Shrinks

/-- What a run of `satisfy_tags` does: the queue shrinks, each waiting transaction still waits or
became ready and left `waiting`, and the list of ready ones only grows. -/
structure Satisfies (s s' : FutureTransactions Hash Tag × List (WaitingTransaction Hash Tag)) :
    Prop where
  shrinks : s.1.Shrinks s'.1
  keeps : ∀ hash tx, s.1.waiting.lookup hash = some tx →
    (∃ tx', s'.1.waiting.lookup hash = some tx' ∧ tx'.transaction = tx.transaction) ∨
      ∃ w ∈ s'.2, w.transaction = tx.transaction
  became : ∀ w ∈ s'.2, w ∈ s.2 ∨
    ∃ hash tx, s.1.waiting.lookup hash = some tx ∧ w.transaction = tx.transaction ∧
      s'.1.waiting.lookup hash = none
  grows : ∀ w ∈ s.2, w ∈ s'.2

namespace Satisfies

theorem of_eq {s s' : FutureTransactions Hash Tag × List (WaitingTransaction Hash Tag)}
    (hwaiting : s'.1.waiting = s.1.waiting) (hready : s'.2 = s.2) : Satisfies s s' := by
  obtain ⟨⟨wanted, waiting⟩, ready⟩ := s
  obtain ⟨⟨wanted', waiting'⟩, ready'⟩ := s'
  simp only at hwaiting hready
  subst hwaiting hready
  exact ⟨fun _ tx h => ⟨tx, h, rfl, fun _ ht => ht⟩, fun _ tx h => .inl ⟨tx, h, rfl⟩,
    fun _ hw => .inl hw, fun _ hw => hw⟩

theorem refl (s : FutureTransactions Hash Tag × List (WaitingTransaction Hash Tag)) :
    Satisfies s s :=
  of_eq rfl rfl

theorem trans {s s' s'' : FutureTransactions Hash Tag × List (WaitingTransaction Hash Tag)}
    (h : Satisfies s s') (h' : Satisfies s' s'') : Satisfies s s'' := by
  refine ⟨h.shrinks.trans h'.shrinks, ?_, ?_, fun w hw => h'.grows w (h.grows w hw)⟩
  · -- still waiting after the first run, or already among those that became ready
    intro hash tx hlookup
    rcases h.keeps hash tx hlookup with ⟨tx', hlookup', htx'⟩ | ⟨w, hw, hwtx⟩
    · rcases h'.keeps hash tx' hlookup' with ⟨tx'', hlookup'', htx''⟩ | ⟨w, hw, hwtx⟩
      · exact .inl ⟨tx'', hlookup'', htx''.trans htx'⟩
      · exact .inr ⟨w, hw, hwtx.trans htx'⟩
    · exact .inr ⟨w, h'.grows w hw, hwtx⟩
  · intro w hw
    rcases h'.became w hw with hw' | ⟨hash, tx', hlookup', hwtx, hnone⟩
    · rcases h.became w hw' with hw | ⟨hash, tx, hlookup, hwtx, hnone'⟩
      · exact .inl hw
      · exact .inr ⟨hash, tx, hlookup, hwtx, h'.shrinks.lookup_eq_none hnone'⟩
    · obtain ⟨tx, hlookup, htx, -⟩ := h.shrinks hash tx' hlookup'
      exact .inr ⟨hash, tx, hlookup, hwtx.trans htx, hnone⟩

end Satisfies

variable [DecidableEq Tag]

/-- `FutureTransactions::import`; the two `assert!`s panic. -/
def «import» (f : FutureTransactions Hash Tag) (tx : WaitingTransaction Hash Tag) :
    Option (FutureTransactions Hash Tag) :=
  if tx.isReady then none
  else if tx.transaction.hash ∈ f.waiting then none
  else
    some ⟨tx.missingTags.foldl (fun wanted tag =>
        Function.update wanted tag ((wanted tag).insert tx.transaction.hash)) f.wantedTags,
      f.waiting.insert tx.transaction.hash tx⟩

/-! ## `satisfy_tags` -/

/-- One hash of an entry of `wanted_tags`: the tag is satisfied, and a transaction left with
nothing missing moves from `waiting` to the transactions that became ready. -/
def satisfyHash (tag : Tag) (state : FutureTransactions Hash Tag × List (WaitingTransaction Hash Tag))
    (hash : Hash) : Option (FutureTransactions Hash Tag × List (WaitingTransaction Hash Tag)) :=
  match state.1.waiting.lookup hash with
  | none => none
  | some tx =>
      if (tx.satisfyTag tag).isReady then
        some ({ state.1 with waiting := state.1.waiting.erase hash }, state.2 ++ [tx.satisfyTag tag])
      else some ({ state.1 with waiting := state.1.waiting.insert hash (tx.satisfyTag tag) }, state.2)

def satisfyWanted (state : FutureTransactions Hash Tag × List (WaitingTransaction Hash Tag))
    (tag : Tag) : Option (FutureTransactions Hash Tag × List (WaitingTransaction Hash Tag)) :=
  (state.1.wantedTags tag).foldlM (satisfyHash tag)
    ({ state.1 with wantedTags := Function.update state.1.wantedTags tag [] }, state.2)

/-- `satisfy_tags`: the queue after the call, and the transactions that became ready in the
order they did. -/
def satisfyTags (f : FutureTransactions Hash Tag) (tags : List Tag) :
    Option (FutureTransactions Hash Tag × List (WaitingTransaction Hash Tag)) :=
  tags.foldlM satisfyWanted (f, [])

/-! ## `remove` -/

def removeWaiting (state : FutureTransactions Hash Tag × List (Transaction Hash Tag)) (hash : Hash) :
    FutureTransactions Hash Tag × List (Transaction Hash Tag) :=
  match state.1.waiting.lookup hash with
  | none => state
  | some tx =>
      (⟨tx.missingTags.foldl (fun wanted tag =>
          Function.update wanted tag ((wanted tag).erase hash)) state.1.wantedTags,
        state.1.waiting.erase hash⟩, state.2 ++ [tx.transaction])

/-- `remove`: the queue after the call and the transactions removed. -/
def remove (f : FutureTransactions Hash Tag) (hashes : List Hash) :
    FutureTransactions Hash Tag × List (Transaction Hash Tag) :=
  hashes.foldl removeWaiting (f, [])

/-! ## What `satisfy_tags` does -/

section SatisfyTags

variable {s s' : FutureTransactions Hash Tag × List (WaitingTransaction Hash Tag)}
  {f f' : FutureTransactions Hash Tag} {tag : Tag} {hash : Hash} {tags : List Tag}
  {tx : WaitingTransaction Hash Tag}

theorem satisfyHash_satisfies (h : satisfyHash tag s hash = some s') : Satisfies s s' := by
  rw [satisfyHash] at h
  split at h
  · cases h
  next tx hlookup =>
    split at h
    · -- the transaction became ready and leaves `waiting`
      cases h
      refine ⟨Shrinks.erase _ _ _, ?_, ?_, fun w hw => List.mem_append_left _ hw⟩
      · intro other tx' hother
        by_cases hsame : other = hash
        · subst hsame
          rw [hlookup] at hother
          cases hother
          exact .inr ⟨tx.satisfyTag tag, List.mem_append_right _ (List.mem_singleton_self _), rfl⟩
        · exact .inl ⟨tx', by rw [AList.lookup_erase_ne hsame]; exact hother, rfl⟩
      · intro w hw
        rcases List.mem_append.mp hw with hw | hw
        · exact .inl hw
        · rw [List.mem_singleton.mp hw]
          exact .inr ⟨hash, tx, hlookup, rfl, AList.lookup_erase _ _⟩
    · -- the transaction stays, with one missing tag less
      cases h
      refine ⟨?_, ?_, fun w hw => .inl hw, fun w hw => hw⟩
      · intro other tx' hother
        by_cases hsame : other = hash
        · subst hsame
          rw [AList.lookup_insert] at hother
          cases hother
          exact ⟨tx, hlookup, rfl, fun _ ht => (WaitingTransaction.mem_satisfyTag.mp ht).1⟩
        · rw [AList.lookup_insert_ne hsame] at hother
          exact ⟨tx', hother, rfl, fun _ ht => ht⟩
      · intro other tx' hother
        by_cases hsame : other = hash
        · subst hsame
          rw [hlookup] at hother
          cases hother
          exact .inl ⟨tx.satisfyTag tag, AList.lookup_insert _, rfl⟩
        · exact .inl ⟨tx', by rw [AList.lookup_insert_ne hsame]; exact hother, rfl⟩

/-- After a hash of the entry of `tag` is satisfied, its transaction, if still waiting, no
longer misses `tag`. -/
theorem satisfyHash_not_missing (h : satisfyHash tag s hash = some s') :
    ∀ tx', s'.1.waiting.lookup hash = some tx' → tag ∉ tx'.missingTags := by
  intro tx' hlookup'
  rw [satisfyHash] at h
  split at h
  · cases h
  next tx hlookup =>
    split at h
    · cases h
      simp at hlookup'
    · cases h
      rw [AList.lookup_insert] at hlookup'
      cases hlookup'
      simp

theorem satisfyHash_wantedTags
    (h : satisfyHash tag s hash = some s') : s'.1.wantedTags = s.1.wantedTags := by
  rw [satisfyHash] at h
  split at h
  · cases h
  · split at h <;> cases h <;> rfl

theorem foldlM_satisfyHash_wantedTags (hashes : List Hash)
    (h : hashes.foldlM (satisfyHash tag) s = some s') : s'.1.wantedTags = s.1.wantedTags := by
  apply foldlM_rel (R := fun s s' : FutureTransactions Hash Tag × List (WaitingTransaction Hash Tag) =>
    s'.1.wantedTags = s.1.wantedTags) _ _ _ hashes s s' h
  · intro s
    rfl
  · intro _ _ _ hfirst hsecond
    exact hsecond.trans hfirst
  · intro _ _ _ hstep
    exact satisfyHash_wantedTags hstep

theorem satisfyWanted_satisfies (h : satisfyWanted s tag = some s') : Satisfies s s' := by
  -- clearing the entry of `wanted_tags` changes nothing `Satisfies` looks at
  have hclear : Satisfies s ({ s.1 with wantedTags := Function.update s.1.wantedTags tag [] }, s.2) :=
    Satisfies.of_eq rfl rfl
  exact hclear.trans (foldlM_rel Satisfies.refl (fun _ _ _ => Satisfies.trans)
    (fun _ _ _ => satisfyHash_satisfies) _ _ _ h)

/-- One tag keeps the queue well formed and leaves no waiting transaction missing it. -/
theorem satisfyWanted_wellFormed (hwf : s.1.WellFormed) (h : satisfyWanted s tag = some s') :
    s'.1.WellFormed ∧ ∀ hash tx', s'.1.waiting.lookup hash = some tx' → tag ∉ tx'.missingTags := by
  have hsat := satisfyWanted_satisfies h
  have hwanted : s'.1.wantedTags = Function.update s.1.wantedTags tag [] :=
    foldlM_satisfyHash_wantedTags _ h
  -- every hash of the entry of `tag` was satisfied
  have hdone : ∀ hash ∈ s.1.wantedTags tag,
      ∀ tx', s'.1.waiting.lookup hash = some tx' → tag ∉ tx'.missingTags :=
    foldlM_mem (fun _ => True) (fun hash s => ∀ tx', s.1.waiting.lookup hash = some tx' → tag ∉ tx'.missingTags)
      (fun _ _ _ _ _ => trivial) (fun _ _ _ _ hstep => satisfyHash_not_missing hstep)
      (fun _ _ _ _ hq hstep tx' hlookup' => by
        obtain ⟨tx, hlookup, -, hmissing⟩ := (satisfyHash_satisfies hstep).shrinks _ tx' hlookup'
        exact fun ht => hq tx hlookup (hmissing tag ht))
      _ _ _ trivial h
  have hnot : ∀ hash tx', s'.1.waiting.lookup hash = some tx' → tag ∉ tx'.missingTags := by
    intro hash tx' hlookup' ht
    obtain ⟨tx, hlookup, -, hmissing⟩ := hsat.shrinks hash tx' hlookup'
    exact hdone hash (hwf.wanted hash tx tag hlookup (hmissing tag ht)) tx' hlookup' ht
  refine ⟨⟨?_, ?_⟩, hnot⟩
  · intro hash tx' hlookup'
    obtain ⟨tx, hlookup, htx, -⟩ := hsat.shrinks hash tx' hlookup'
    rw [htx]
    exact hwf.keys hash tx hlookup
  · intro hash tx' other hlookup' hother
    have hne : other ≠ tag := fun heq => hnot hash tx' hlookup' (heq ▸ hother)
    obtain ⟨tx, hlookup, -, hmissing⟩ := hsat.shrinks hash tx' hlookup'
    rw [hwanted, Function.update_of_ne hne]
    exact hwf.wanted hash tx other hlookup (hmissing other hother)

variable {ready : List (WaitingTransaction Hash Tag)}

/-- From a well-formed queue `satisfy_tags` keeps it well formed and shrinking; each waiting
transaction still waits, missing none of the tags, or became ready. -/
theorem satisfyTags_spec (hwf : f.WellFormed)
    (h : f.satisfyTags tags = some (f', ready)) :
    f'.WellFormed ∧ f.Shrinks f' ∧
      (∀ tag ∈ tags, ∀ hash tx', f'.waiting.lookup hash = some tx' → tag ∉ tx'.missingTags) ∧
      (∀ hash tx, f.waiting.lookup hash = some tx →
        (∃ tx', f'.waiting.lookup hash = some tx' ∧ tx'.transaction = tx.transaction) ∨
          ∃ w ∈ ready, w.transaction = tx.transaction) ∧
      (∀ w ∈ ready, ∃ hash tx, f.waiting.lookup hash = some tx ∧ w.transaction = tx.transaction ∧
        f'.waiting.lookup hash = none) := by
  have hsat : Satisfies (f, []) (f', ready) :=
    foldlM_rel Satisfies.refl (fun _ _ _ => Satisfies.trans) (fun _ _ _ => satisfyWanted_satisfies)
      _ _ _ h
  have hwf' : f'.WellFormed :=
    foldlM_rel (R := fun s s' => s.1.WellFormed → s'.1.WellFormed) (fun _ h => h)
      (fun _ _ _ h h' hwf => h' (h hwf)) (fun _ _ _ hstep hwf => (satisfyWanted_wellFormed hwf hstep).1)
      _ _ _ h hwf
  refine ⟨hwf', hsat.shrinks, ?_, hsat.keeps, ?_⟩
  · exact foldlM_mem (fun s => s.1.WellFormed)
      (fun tag s => ∀ hash tx', s.1.waiting.lookup hash = some tx' → tag ∉ tx'.missingTags)
      (fun _ _ _ hwf hstep => (satisfyWanted_wellFormed hwf hstep).1)
      (fun _ _ _ hwf hstep => (satisfyWanted_wellFormed hwf hstep).2)
      (fun _ _ _ _ hq hstep hash tx' hlookup' => by
        obtain ⟨tx, hlookup, -, hmissing⟩ := (satisfyWanted_satisfies hstep).shrinks hash tx' hlookup'
        exact fun ht => hq hash tx hlookup (hmissing _ ht))
      _ _ _ hwf h
  · intro w hw
    rcases hsat.became w hw with hw | hbecame
    · cases hw
    · exact hbecame

/-- A transaction that was waiting is still waiting after `satisfy_tags`, or became ready. -/
theorem satisfyTags_keeps (hwf : f.WellFormed)
    (h : f.satisfyTags tags = some (f', ready)) {t : Transaction Hash Tag}
    (ht : f.txAt hash = some t) : f'.txAt hash = some t ∨ ∃ w ∈ ready, w.transaction = t := by
  obtain ⟨tx, hlookup, rfl⟩ := Option.map_eq_some_iff.mp ht
  rcases (satisfyTags_spec hwf h).2.2.2.1 hash tx hlookup with ⟨tx', hlookup', htx'⟩ | hready
  · exact .inl (by simp [txAt, hlookup', htx'])
  · exact .inr hready

/-- A transaction that became ready no longer waits under its hash. -/
theorem satisfyTags_fresh (hwf : f.WellFormed)
    (h : f.satisfyTags tags = some (f', ready)) :
    ∀ w ∈ ready, f'.waiting.lookup w.transaction.hash = none := by
  intro w hw
  obtain ⟨hash, tx, hlookup, hwtx, hnone⟩ := (satisfyTags_spec hwf h).2.2.2.2 w hw
  rw [hwtx, hwf.keys hash tx hlookup]
  exact hnone

/-- A waiting hash leaves `waiting` exactly when its transaction becomes ready, so the two counts
add up to the queue's size before. -/
theorem satisfyHash_len
    (h : satisfyHash tag s hash = some s') : s'.1.len + s'.2.length = s.1.len + s.2.length := by
  rw [satisfyHash] at h
  split at h
  · cases h
  next tx hlookup =>
    have hkeys : hash ∈ s.1.waiting.keys :=
      AList.mem_keys.mpr (AList.lookup_isSome.mp (by simp [hlookup]))
    have hpos := List.length_pos_of_mem hkeys
    split at h
    · cases h
      simp only [len, AList.keys_erase, List.length_erase_of_mem hkeys, List.length_append,
        List.length_singleton]
      omega
    · cases h
      simp only [len, AList.keys_insert, List.length_cons, List.length_erase_of_mem hkeys]
      omega

theorem satisfyWanted_len (h : satisfyWanted s tag = some s') :
    s'.1.len + s'.2.length = s.1.len + s.2.length := by
  rw [satisfyWanted] at h
  -- clearing the entry of `wanted_tags` leaves `waiting` as it is
  have hcount := foldlM_rel
    (R := fun s s' : FutureTransactions Hash Tag × List (WaitingTransaction Hash Tag) =>
      s'.1.len + s'.2.length = s.1.len + s.2.length) (fun _ => rfl)
    (fun _ _ _ hfirst hsecond => hsecond.trans hfirst)
    (fun s hash s' (hstep : satisfyHash tag s hash = some s') => satisfyHash_len hstep) _ _ _ h
  exact hcount

theorem satisfyTags_len (h : f.satisfyTags tags = some (f', ready)) :
    f'.len + ready.length = f.len :=
  foldlM_rel (R := fun s s' : FutureTransactions Hash Tag × List (WaitingTransaction Hash Tag) =>
      s'.1.len + s'.2.length = s.1.len + s.2.length) (fun _ => rfl)
    (fun _ _ _ hfirst hsecond => hsecond.trans hfirst) (fun _ _ _ => satisfyWanted_len) _ _ _ h

/-! ## What `import` and `remove` do -/

theorem import_lookup (h : f.import tx = some f') (hash : Hash) :
    f'.waiting.lookup hash =
      if hash = tx.transaction.hash then some tx else f.waiting.lookup hash := by
  rw [«import»] at h
  split at h
  · cases h
  split at h
  · cases h
  cases h
  split
  next heq => rw [heq, AList.lookup_insert]
  next hne => exact AList.lookup_insert_ne hne

theorem import_wellFormed (hwf : f.WellFormed) (h : f.import tx = some f') : f'.WellFormed := by
  have hlookup := import_lookup h
  rw [«import»] at h
  split at h
  · cases h
  split at h
  · cases h
  cases h
  -- the entries of `wanted_tags` only grow, and gain the hash under every missing tag
  have hgrow : ∀ tag other, other ∈ f.wantedTags tag → other ∈
      (tx.missingTags.foldl (fun wanted tag =>
        Function.update wanted tag ((wanted tag).insert tx.transaction.hash)) f.wantedTags) tag := by
    intro tag other hother
    refine foldl_rel (R := fun m m' : Tag → List Hash => other ∈ m tag → other ∈ m' tag)
      (fun _ h => h) (fun _ _ _ h h' hm => h' (h hm)) ?_ _ _ hother
    intro m t hm
    by_cases ht : tag = t
    · subst ht
      rw [Function.update_self]
      exact List.mem_insert_of_mem hm
    · rwa [Function.update_of_ne ht]
  have hnew : ∀ tag ∈ tx.missingTags, tx.transaction.hash ∈
      (tx.missingTags.foldl (fun wanted tag =>
        Function.update wanted tag ((wanted tag).insert tx.transaction.hash)) f.wantedTags) tag := by
    apply foldl_mem (P := fun _ : Tag → List Hash => True)
      (Q := fun tag m => tx.transaction.hash ∈ m tag)
    · intros
      trivial
    · intro m t _
      rw [Function.update_self]
      exact List.mem_insert_self
    · intro m t tag hm
      by_cases ht : tag = t
      · subst ht
        rw [Function.update_self]
        exact List.mem_insert_of_mem hm
      · rwa [Function.update_of_ne ht]
    · trivial
  constructor
  · intro hash tx' hlookup'
    rw [hlookup] at hlookup'
    split at hlookup'
    next heq =>
      cases hlookup'
      exact heq.symm
    next => exact hwf.keys hash tx' hlookup'
  · intro hash tx' tag hlookup' htag
    rw [hlookup] at hlookup'
    split at hlookup'
    next heq =>
      cases hlookup'
      exact heq ▸ hnew tag htag
    next => exact hgrow tag hash (hwf.wanted hash tx' tag hlookup' htag)

end SatisfyTags

/-- What a run of `remove` does: entries only leave `waiting`, into the removed list, which only
grows, and those still waiting keep their `wanted_tags` entries. -/
structure Removes (s s' : FutureTransactions Hash Tag × List (Transaction Hash Tag)) : Prop where
  sub : ∀ hash tx', s'.1.waiting.lookup hash = some tx' → s.1.waiting.lookup hash = some tx'
  keeps : ∀ hash tx, s.1.waiting.lookup hash = some tx →
    s'.1.waiting.lookup hash = some tx ∨ tx.transaction ∈ s'.2
  grows : ∀ t ∈ s.2, t ∈ s'.2
  wanted : ∀ hash tag, s'.1.waiting.lookup hash ≠ none → hash ∈ s.1.wantedTags tag →
    hash ∈ s'.1.wantedTags tag

namespace Removes

omit [DecidableEq Tag] in
theorem refl (s : FutureTransactions Hash Tag × List (Transaction Hash Tag)) : Removes s s :=
  ⟨fun _ _ h => h, fun _ _ h => .inl h, fun _ h => h, fun _ _ _ h => h⟩

omit [DecidableEq Tag] in
theorem trans {s s' s'' : FutureTransactions Hash Tag × List (Transaction Hash Tag)}
    (h : Removes s s') (h' : Removes s' s'') : Removes s s'' := by
  refine ⟨fun hash tx' hl => h.sub hash tx' (h'.sub hash tx' hl), ?_,
    fun t ht => h'.grows t (h.grows t ht), ?_⟩
  · intro hash tx hl
    rcases h.keeps hash tx hl with hl' | ht
    · exact h'.keeps hash tx hl'
    · exact .inr (h'.grows _ ht)
  · intro hash tag hsome hmem
    -- still waiting after the second run, so after the first
    have hsome' : s'.1.waiting.lookup hash ≠ none := by
      cases hl : s''.1.waiting.lookup hash with
      | none => exact absurd hl hsome
      | some tx'' => rw [h'.sub hash tx'' hl]; simp
    exact h'.wanted hash tag hsome (h.wanted hash tag hsome' hmem)

end Removes

theorem removeWaiting_removes (s : FutureTransactions Hash Tag × List (Transaction Hash Tag))
    (hash : Hash) : Removes s (removeWaiting s hash) := by
  rw [removeWaiting]
  split
  · exact Removes.refl s
  next tx hlookup =>
    refine ⟨?_, ?_, fun t ht => List.mem_append_left _ ht, ?_⟩
    · intro other tx' hother
      by_cases hsame : other = hash
      · subst hsame
        simp at hother
      · rwa [AList.lookup_erase_ne hsame] at hother
    · intro other tx' hother
      by_cases hsame : other = hash
      · subst hsame
        rw [hlookup] at hother
        cases hother
        exact .inr (List.mem_append_right _ (List.mem_singleton_self _))
      · exact .inl (by rw [AList.lookup_erase_ne hsame]; exact hother)
    · intro other tag hsome hmem
      have hne : other ≠ hash := by
        rintro rfl
        simp at hsome
      -- erasing `hash` from the entries keeps every other hash
      refine foldl_rel (R := fun m m' : Tag → List Hash => other ∈ m tag → other ∈ m' tag)
        (fun _ h => h) (fun _ _ _ h h' hm => h' (h hm)) ?_ _ _ hmem
      intro m t hm
      by_cases ht : tag = t
      · subst ht
        rw [Function.update_self]
        exact (List.mem_erase_of_ne hne).mpr hm
      · rwa [Function.update_of_ne ht]

/-- What `remove` does: the waiting transactions left keep their entries, and every
transaction that was waiting still is, or is among the removed ones. -/
theorem remove_spec (f : FutureTransactions Hash Tag) (hashes : List Hash) :
    Removes (f, []) (f.remove hashes) :=
  foldl_rel Removes.refl (fun _ _ _ => Removes.trans) removeWaiting_removes hashes _

theorem remove_wellFormed {f : FutureTransactions Hash Tag} (hwf : f.WellFormed)
    (hashes : List Hash) : (f.remove hashes).1.WellFormed := by
  have hrem := remove_spec f hashes
  constructor
  · intro hash tx' hlookup'
    exact hwf.keys hash tx' (hrem.sub hash tx' hlookup')
  · intro hash tx' tag hlookup' htag
    exact hrem.wanted hash tag (by simp [hlookup'])
      (hwf.wanted hash tx' tag (hrem.sub hash tx' hlookup') htag)

theorem remove_shrinks (f : FutureTransactions Hash Tag) (hashes : List Hash) :
    f.Shrinks (f.remove hashes).1 :=
  fun hash tx' hlookup' => ⟨tx', (remove_spec f hashes).sub hash tx' hlookup', rfl, fun _ h => h⟩

end FutureTransactions

end Substrate.TransactionPool
