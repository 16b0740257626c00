import Mathlib
import Substrate.Lib.Unsigned
import Substrate.Lib.Collections

/-! # The ready queue of the transaction pool

`sc_transaction_pool::graph::ready`: `provided_tags`, `ready` with what each transaction unlocks,
and `best`, those with no ready dependency. `ready` is an association list, `best` a list with no
two elements equal under `TransactionRef`'s order, a stack a list top first, a panic `none`.
-/

namespace Substrate.TransactionPool

open Collections

/-- The errors of `sc_transaction_pool_api::error` that the pool raises. -/
inductive Error where
  | tooLowPriority (old new : Nat)
  | alreadyImported
  | rejectedFutureTransaction
  | cycleDetected
  deriving DecidableEq, Repr

/-- `base_pool::Transaction`: the fields the queues read. -/
structure Transaction (Hash Tag : Type) where
  bytes : Nat
  hash : Hash
  priority : Nat
  validTill : Nat
  requires : List Tag
  provides : List Tag
  deriving DecidableEq, Repr

/-- `future::WaitingTransaction`: a transaction with the required tags no
transaction of the pool provides yet, and the time of its import. -/
structure WaitingTransaction (Hash Tag : Type) where
  transaction : Transaction Hash Tag
  missingTags : List Tag
  importedAt : Nat
  deriving DecidableEq, Repr

def WaitingTransaction.isReady {Hash Tag : Type} (tx : WaitingTransaction Hash Tag) : Bool :=
  tx.missingTags.isEmpty

structure TransactionRef (Hash Tag : Type) where
  transaction : Transaction Hash Tag
  insertionId : Nat
  deriving DecidableEq, Repr

/-- `Ord for TransactionRef`: higher priority first, then the shorter
longevity, then the earlier insertion. -/
def TransactionRef.cmp {Hash Tag : Type} (a b : TransactionRef Hash Tag) : Ordering :=
  (compare a.transaction.priority b.transaction.priority).then
    ((compare b.transaction.validTill a.transaction.validTill).then
      (compare b.insertionId a.insertionId))

structure ReadyTx (Hash Tag : Type) where
  transaction : TransactionRef Hash Tag
  unlocks : List Hash
  requiresOffset : Nat
  deriving DecidableEq, Repr

/-- `remove_item`: remove the first occurrence of `item`, by `swap_remove`. -/
def removeItem {α : Type} [DecidableEq α] (l : List α) (item : α) : List α :=
  match l.findIdx? (· = item) with
  | none => l
  | some i => swapRemove l i

/-- `remove_item` removes one occurrence, as `List.erase` does, up to order. -/
theorem removeItem_perm {α : Type} [DecidableEq α] (l : List α) (item : α) :
    List.Perm (removeItem l item) (l.erase item) := by
  have herase : l.erase item = l.eraseP (fun x => decide (x = item)) := by
    rw [List.erase_eq_eraseP']
    congr
  rw [herase, List.eraseP_eq_eraseIdx, removeItem]
  cases hfind : l.findIdx? (fun x => decide (x = item)) with
  | none => exact List.Perm.refl _
  | some i => exact swapRemove_perm l (List.findIdx?_eq_some_iff_findIdx_eq.mp hfind).1

/-! ## The queue -/

structure ReadyTransactions (Hash Tag : Type) [DecidableEq Hash] where
  insertionId : Nat
  providedTags : Tag → Option Hash
  ready : AList (fun _ : Hash => ReadyTx Hash Tag)
  best : List (TransactionRef Hash Tag)

namespace ReadyTransactions

variable {Hash Tag : Type} [DecidableEq Hash] [DecidableEq Tag]

def empty : ReadyTransactions Hash Tag := ⟨0, fun _ => none, ∅, []⟩

/-- `ready.get_mut(hash)` followed by a change of the entry found. -/
def modifyReady (q : ReadyTransactions Hash Tag) (hash : Hash)
    (f : ReadyTx Hash Tag → ReadyTx Hash Tag) : ReadyTransactions Hash Tag :=
  match q.ready.lookup hash with
  | none => q
  | some tx => { q with ready := q.ready.insert hash (f tx) }

/-! ### `remove_subtree_with_tag_filter` -/

/-- The loop body of `remove_subtree_with_tag_filter` for a removed `tx`. The inner `hash` shadows
the removed one, so `remove_item(&mut tx.unlocks, hash)` removes the provider's own hash, as
modelled. -/
def removeOne (filter : Option (List Tag)) (tx : ReadyTx Hash Tag)
    (q : ReadyTransactions Hash Tag) : ReadyTransactions Hash Tag × List Hash :=
  let invalidated := tx.transaction.transaction.provides.filter fun tag =>
    (filter.map fun filter => !decide (tag ∈ filter)).getD true
  let q := { q with
    providedTags := invalidated.foldl (fun m tag => Function.update m tag none) q.providedTags }
  let q := tx.transaction.transaction.requires.foldl (fun q tag =>
    match q.providedTags tag with
    | some hash => q.modifyReady hash fun tx => { tx with unlocks := removeItem tx.unlocks hash }
    | none => q) q
  let q := { q with best := BTreeSet.remove TransactionRef.cmp tx.transaction q.best }
  (q, if invalidated.isEmpty then [] else tx.unlocks)

def popReady (q : ReadyTransactions Hash Tag) :
    List Hash → Option (Hash × ReadyTx Hash Tag × List Hash)
  | [] => none
  | hash :: rest =>
      match q.ready.lookup hash with
      | some tx => some (hash, tx, rest)
      | none => q.popReady rest

/-- The `while let Some(hash) = to_remove.pop()` loop. Each removing round takes an entry of
`ready`, so `fuel` at least its size suffices. -/
def removeSubtreeLoop (filter : Option (List Tag)) :
    Nat → List Hash → ReadyTransactions Hash Tag → List (Transaction Hash Tag) →
      ReadyTransactions Hash Tag × List (Transaction Hash Tag)
  | 0, _, q, removed => (q, removed)
  | fuel + 1, stack, q, removed =>
      match q.popReady stack with
      | none => (q, removed)
      | some (hash, tx, rest) =>
          let (q, unlocks) := removeOne filter tx { q with ready := q.ready.erase hash }
          removeSubtreeLoop filter fuel (unlocks.reverse ++ rest) q
            (removed ++ [tx.transaction.transaction])

def removeSubtreeWithTagFilter (q : ReadyTransactions Hash Tag) (toRemove : List Hash)
    (providesTagFilter : Option (List Tag)) :
    ReadyTransactions Hash Tag × List (Transaction Hash Tag) :=
  removeSubtreeLoop providesTagFilter q.ready.keys.length toRemove.reverse q []

def removeSubtree (q : ReadyTransactions Hash Tag) (hashes : List Hash) :
    ReadyTransactions Hash Tag × List (Transaction Hash Tag) :=
  q.removeSubtreeWithTagFilter hashes none

/-! ### `import` -/

/-- `replace_previous`: the ready transactions providing a tag of `tx` are replaced when their
summed priority is lower; returns them and what they unlocked, hash sets as lists. -/
def replacePrevious (q : ReadyTransactions Hash Tag) (tx : Transaction Hash Tag) :
    Except Error
      (ReadyTransactions Hash Tag × List (Transaction Hash Tag) × List Hash) :=
  let replaceHashes := (tx.provides.filterMap q.providedTags).eraseDups
  if replaceHashes.isEmpty then .ok (q, [], [])
  else
    let replaced := replaceHashes.filterMap fun hash => q.ready.lookup hash
    let oldPriority := replaced.foldl (fun total tx =>
      Unsigned.saturatingAdd 64 total tx.transaction.transaction.priority) 0
    if tx.priority ≤ oldPriority then .error (.tooLowPriority oldPriority tx.priority)
    else
      let unlocks := replaced.foldl (fun list tx => list ++ tx.unlocks) []
      let (q, removed) := q.removeSubtreeWithTagFilter replaceHashes (some tx.provides.eraseDups)
      .ok (q, removed, unlocks)

/-- The loop of `import` over the required tags: a ready provider's unlocks get the new hash
(`expect(HASH_READY)` panics otherwise); others count in `requires_offset`. -/
def linkRequires (hash : Hash) :
    List Tag → ReadyTransactions Hash Tag → Bool → Nat →
      Option (ReadyTransactions Hash Tag × Bool × Nat)
  | [], q, goesToBest, requiresOffset => some (q, goesToBest, requiresOffset)
  | tag :: rest, q, goesToBest, requiresOffset =>
      match q.providedTags tag with
      | some other =>
          match q.ready.lookup other with
          | none => none
          | some tx =>
              linkRequires hash rest
                { q with ready := q.ready.insert other { tx with unlocks := tx.unlocks ++ [hash] } }
                false requiresOffset
      | none => linkRequires hash rest q goesToBest (requiresOffset + 1)

/-- `ReadyTransactions::import`; `none` where an assertion panics. An error of `replace_previous`
leaves the queue as it was but for the insertion id. -/
def «import» (q : ReadyTransactions Hash Tag) (tx : WaitingTransaction Hash Tag) :
    Option (ReadyTransactions Hash Tag × Except Error (List (Transaction Hash Tag))) :=
  if !tx.isReady then none
  else if tx.transaction.hash ∈ q.ready then none
  else
    let insertionId := q.insertionId + 1
    let q := { q with insertionId }
    let hash := tx.transaction.hash
    let transaction := tx.transaction
    match q.replacePrevious transaction with
    | .error e => some (q, .error e)
    | .ok (q, replaced, unlocks) =>
        match linkRequires hash transaction.requires q true 0 with
        | none => none
        | some (q, goesToBest, requiresOffset) =>
            let q := { q with
              providedTags := transaction.provides.foldl
                (fun m tag => Function.update m tag (some hash)) q.providedTags }
            let ref : TransactionRef Hash Tag := ⟨transaction, insertionId⟩
            let q := if goesToBest then { q with best := BTreeSet.insert TransactionRef.cmp ref q.best }
              else q
            some ({ q with ready := q.ready.insert hash ⟨ref, unlocks, requiresOffset⟩ }, .ok replaced)

/-! ### `prune_tags` -/

/-- Pop tags until one provided by a ready transaction; each popped tag leaves `provided_tags`
whether or not its transaction is ready, as `remove(&tag).and_then(..)` does. -/
def popProvided : List Tag → ReadyTransactions Hash Tag →
    ReadyTransactions Hash Tag × Option (Tag × Hash × ReadyTx Hash Tag × List Tag)
  | [], q => (q, none)
  | tag :: rest, q =>
      let q' := { q with providedTags := Function.update q.providedTags tag none }
      match q.providedTags tag with
      | none => popProvided rest q'
      | some hash =>
          match q.ready.lookup hash with
          | none => popProvided rest q'
          | some tx => (q', some (tag, hash, tx, rest))

/-- `find_previous` for a required tag of the pruned `hash`: remove it from the provider's unlocks,
and with none left return the provider's tags to prune it too. -/
def findPrevious (hash : Hash) (q : ReadyTransactions Hash Tag) (tag : Tag) :
    ReadyTransactions Hash Tag × Option (List Tag) :=
  match q.providedTags tag with
  | none => (q, none)
  | some prevHash =>
      match q.ready.lookup prevHash with
      | none => (q, none)
      | some tx2 =>
          let tx2 := { tx2 with unlocks := removeItem tx2.unlocks hash }
          ({ q with ready := q.ready.insert prevHash tx2 },
            if tx2.unlocks.isEmpty then some tx2.transaction.transaction.provides else none)

/-- The loop over the required tags of the pruned transaction, collecting
the tags to prune next in the order `to_remove.append` pushes them. -/
def prunePrevious (hash : Hash) :
    List Tag → ReadyTransactions Hash Tag → List Tag → ReadyTransactions Hash Tag × List Tag
  | [], q, pushed => (q, pushed)
  | tag :: rest, q, pushed =>
      match findPrevious hash q tag with
      | (q, some tags) => prunePrevious hash rest q (pushed ++ tags)
      | (q, none) => prunePrevious hash rest q pushed

def unlockPruned (q : ReadyTransactions Hash Tag) (hash : Hash) : ReadyTransactions Hash Tag :=
  match q.ready.lookup hash with
  | none => q
  | some tx =>
      let tx := { tx with requiresOffset := tx.requiresOffset + 1 }
      let q := { q with ready := q.ready.insert hash tx }
      if tx.requiresOffset = tx.transaction.transaction.requires.length then
        { q with best := BTreeSet.insert TransactionRef.cmp tx.transaction q.best }
      else q

/-- The final loop over the tags the pruned transaction provides, with its
`assert_eq!`: every tag but the one being pruned must still map to it. -/
def clearProvided (currentTag : Tag) (hash : Hash) :
    List Tag → ReadyTransactions Hash Tag → Option (ReadyTransactions Hash Tag)
  | [], q => some q
  | tag :: rest, q =>
      let removed := q.providedTags tag
      let q := { q with providedTags := Function.update q.providedTags tag none }
      if removed = (if currentTag = tag then none else some hash) then clearProvided currentTag hash rest q
      else none

/-- The `while let Some(tag) = to_remove.pop()` loop of `prune_tags`; as in
`removeSubtreeLoop`, a round that prunes removes an entry of `ready`. -/
def pruneTagsLoop :
    Nat → List Tag → ReadyTransactions Hash Tag → List (Transaction Hash Tag) →
      Option (ReadyTransactions Hash Tag × List (Transaction Hash Tag))
  | 0, _, q, removed => some (q, removed)
  | fuel + 1, stack, q, removed =>
      match popProvided stack q with
      | (q, none) => some (q, removed)
      | (q, some (tag, hash, readyTx, rest)) =>
          let q := { q with ready := q.ready.erase hash,
                            best := BTreeSet.remove TransactionRef.cmp readyTx.transaction q.best }
          let tx := readyTx.transaction.transaction
          let (q, pushed) := prunePrevious tx.hash tx.requires q []
          let q := readyTx.unlocks.foldl unlockPruned q
          match clearProvided tag tx.hash tx.provides q with
          | none => none
          | some q => pruneTagsLoop fuel (pushed.reverse ++ rest) q (removed ++ [tx])

def pruneTags (q : ReadyTransactions Hash Tag) (tag : Tag) :
    Option (ReadyTransactions Hash Tag × List (Transaction Hash Tag)) :=
  pruneTagsLoop q.ready.keys.length [tag] q []

end ReadyTransactions

/-! ## The iterator of best transactions -/

structure BestIterator (Hash Tag : Type) [DecidableEq Hash] where
  all : AList (fun _ : Hash => ReadyTx Hash Tag)
  awaiting : Hash → Option (Nat × TransactionRef Hash Tag)
  best : List (TransactionRef Hash Tag)
  invalid : List Hash

namespace BestIterator

variable {Hash Tag : Type} [DecidableEq Hash] [DecidableEq Tag]

def ofReady (q : ReadyTransactions Hash Tag) : BestIterator Hash Tag :=
  ⟨q.ready, fun _ => none, q.best, []⟩

def bestOrAwaiting (it : BestIterator Hash Tag) (satisfied : Nat)
    (txRef : TransactionRef Hash Tag) : BestIterator Hash Tag :=
  if txRef.transaction.requires.length ≤ satisfied then
    { it with best := BTreeSet.insert TransactionRef.cmp txRef it.best }
  else { it with awaiting := Function.update it.awaiting txRef.transaction.hash (some (satisfied, txRef)) }

/-- `report_invalid`: every transaction the reported one unlocks is skipped. -/
def reportInvalid (it : BestIterator Hash Tag) (tx : Transaction Hash Tag) : BestIterator Hash Tag :=
  match it.all.lookup tx.hash with
  | none => it
  | some toReport => { it with invalid := it.invalid ++ toReport.unlocks }

/-- One hash unlocked by the yielded transaction: one more of its required
tags is satisfied, counted from the awaiting entry or from the pool's
`requires_offset`. -/
def unlock (it : BestIterator Hash Tag) (hash : Hash) : BestIterator Hash Tag :=
  match it.awaiting hash with
  | some (satisfied, txRef) =>
      { it with awaiting := Function.update it.awaiting hash none }.bestOrAwaiting (satisfied + 1) txRef
  | none =>
      match it.all.lookup hash with
      | some next => it.bestOrAwaiting (next.requiresOffset + 1) next.transaction
      | none => it

/-- The `loop` of `next`: take the greatest of `best`, skip it when invalid or gone, else unlock its
dependents and yield it; `best`'s size is fuel enough. -/
def nextLoop : Nat → BestIterator Hash Tag → Option (Transaction Hash Tag) × BestIterator Hash Tag
  | 0, it => (none, it)
  | fuel + 1, it =>
      match BTreeSet.last? TransactionRef.cmp it.best with
      | none => (none, it)
      | some best =>
          let it := { it with best := BTreeSet.remove TransactionRef.cmp best it.best }
          if best.transaction.hash ∈ it.invalid then nextLoop fuel it
          else
            match it.all.lookup best.transaction.hash with
            | none => nextLoop fuel it
            | some ready => (some best.transaction, ready.unlocks.foldl unlock it)

def next (it : BestIterator Hash Tag) : Option (Transaction Hash Tag) × BestIterator Hash Tag :=
  nextLoop it.best.length it

def take : Nat → BestIterator Hash Tag → List (Transaction Hash Tag)
  | 0, _ => []
  | n + 1, it =>
      match it.next with
      | (none, _) => []
      | (some tx, it) => tx :: take n it

end BestIterator

end Substrate.TransactionPool
