import Mathlib
import Substrate.TransactionPool.Future

/-! # The base pool

`sc_transaction_pool::graph::base_pool::BasePool`: ready and future queues and recently pruned
tags. `import` sends a transaction missing a tag to the future queue and any other to the ready
queue. A panic is `none`; the loops run on fuel that suffices.
-/

namespace Substrate.TransactionPool

def recentlyPrunedTags : Nat := 2

/-- The result of a successful import. -/
inductive Imported (Hash Tag : Type) where
  | ready (hash : Hash) (promoted failed : List Hash) (removed : List (Transaction Hash Tag))
  | future (hash : Hash)
  deriving DecidableEq, Repr

structure PruneStatus (Hash Tag : Type) where
  promoted : List (Imported Hash Tag)
  failed : List Hash
  pruned : List (Transaction Hash Tag)
  deriving DecidableEq, Repr

structure Limit where
  count : Nat
  totalBytes : Nat
  deriving DecidableEq, Repr

def Limit.isExceeded (limit : Limit) (count bytes : Nat) : Bool :=
  limit.count < count || limit.totalBytes < bytes

namespace ReadyTransactions

variable {Hash Tag : Type} [DecidableEq Hash]

def len (q : ReadyTransactions Hash Tag) : Nat := q.ready.keys.length

/-- `bytes`: the encoded lengths of the ready transactions. -/
def bytes (q : ReadyTransactions Hash Tag) : Nat :=
  (q.ready.entries.map fun entry => entry.2.transaction.transaction.bytes).sum

end ReadyTransactions

structure BasePool (Hash Tag : Type) [DecidableEq Hash] where
  rejectFutureTransactions : Bool
  future : FutureTransactions Hash Tag
  ready : ReadyTransactions Hash Tag
  recentlyPruned : Fin recentlyPrunedTags → List Tag
  recentlyPrunedIndex : Fin recentlyPrunedTags

/-- The lists `import_to_ready` builds. -/
structure Promotion (Hash Tag : Type) where
  promoted : List Hash
  failed : List Hash
  removed : List (Transaction Hash Tag)

namespace BasePool

variable {Hash Tag : Type} [DecidableEq Hash] [DecidableEq Tag]

def new (rejectFutureTransactions : Bool) : BasePool Hash Tag :=
  ⟨rejectFutureTransactions, .empty, .empty, fun _ => [], ⟨0, by decide⟩⟩

def isImported (pool : BasePool Hash Tag) (hash : Hash) : Bool :=
  decide (hash ∈ pool.future.waiting) || decide (hash ∈ pool.ready.ready)

/-! ## `import` -/

/-- The `while let` loop of `import_to_ready`: a round pushes the future transactions the popped one
unlocks and imports it; an error of the first transaction ends the call. -/
def importToReadyLoop : Nat → List (WaitingTransaction Hash Tag) → Bool → BasePool Hash Tag →
    Promotion Hash Tag → Option (BasePool Hash Tag × Except Error (Promotion Hash Tag))
  | 0, _, _, pool, acc => some (pool, .ok acc)
  | _ + 1, [], _, pool, acc => some (pool, .ok acc)
  | fuel + 1, tx :: rest, first, pool, acc =>
      match pool.future.satisfyTags tx.transaction.provides with
      | none => none
      | some (future, becameReady) =>
          let pool := { pool with future }
          let stack := becameReady.reverse ++ rest
          let currentHash := tx.transaction.hash
          match pool.ready.import tx with
          | none => none
          | some (ready, .ok replaced) =>
              importToReadyLoop fuel stack false { pool with ready }
                { acc with
                  promoted := if first then acc.promoted else acc.promoted ++ [currentHash]
                  removed := acc.removed ++ replaced }
          | some (ready, .error e) =>
              if first then some ({ pool with ready }, .error e)
              else
                importToReadyLoop fuel stack false { pool with ready }
                  { acc with failed := acc.failed ++ [currentHash] }

/-- `import_to_ready`. When a promoted transaction replaced the imported one, the promoted ones
leave the ready queue again and the call fails with `CycleDetected`. -/
def importToReady (pool : BasePool Hash Tag) (tx : WaitingTransaction Hash Tag) :
    Option (BasePool Hash Tag × Except Error (Imported Hash Tag)) :=
  let hash := tx.transaction.hash
  match importToReadyLoop (pool.future.len + 1) [tx] true pool ⟨[], [], []⟩ with
  | none => none
  | some (pool, .error e) => some (pool, .error e)
  | some (pool, .ok acc) =>
      if acc.removed.any fun removed => removed.hash = hash then
        some ({ pool with ready := (pool.ready.removeSubtree acc.promoted).1 }, .error .cycleDetected)
      else some (pool, .ok (.ready hash acc.promoted acc.failed acc.removed))

def «import» (pool : BasePool Hash Tag) (tx : Transaction Hash Tag) (now : Nat) :
    Option (BasePool Hash Tag × Except Error (Imported Hash Tag)) :=
  if pool.isImported tx.hash then some (pool, .error .alreadyImported)
  else
    let tx := WaitingTransaction.new tx pool.ready.providedTags (List.ofFn pool.recentlyPruned) now
    if !tx.isReady then
      if pool.rejectFutureTransactions then some (pool, .error .rejectedFutureTransaction)
      else (pool.future.import tx).map fun future =>
        ({ pool with future }, .ok (.future tx.transaction.hash))
    else pool.importToReady tx

/-! ## `remove_subtree` -/

/-- `BasePool::remove_subtree`: the subtrees in the ready queue, then the transactions of the
future queue. -/
def removeSubtree (pool : BasePool Hash Tag) (hashes : List Hash) :
    BasePool Hash Tag × List (Transaction Hash Tag) :=
  let (ready, removed) := pool.ready.removeSubtree hashes
  let (future, removedFuture) := pool.future.remove hashes
  ({ pool with ready, future }, removed ++ removedFuture)

/-! ## `prune_tags` -/

/-- The loop of `prune_tags` over the tags: promote what the tag unlocks, prune the ready queue, and
record the tag among the recently pruned. -/
def pruneTagsEach (slot : Fin recentlyPrunedTags) :
    List Tag → BasePool Hash Tag → List (WaitingTransaction Hash Tag) → List (Transaction Hash Tag) →
      Option (BasePool Hash Tag × List (WaitingTransaction Hash Tag) × List (Transaction Hash Tag))
  | [], pool, toImport, pruned => some (pool, toImport, pruned)
  | tag :: rest, pool, toImport, pruned =>
      match pool.future.satisfyTags [tag] with
      | none => none
      | some (future, becameReady) =>
          match pool.ready.pruneTags tag with
          | none => none
          | some (ready, removed) =>
              pruneTagsEach slot rest
                { pool with
                  future
                  ready
                  recentlyPruned :=
                    Function.update pool.recentlyPruned slot ((pool.recentlyPruned slot).insert tag) }
                (toImport ++ becameReady) (pruned ++ removed)

/-- The loop of `prune_tags` over the transactions to promote: a failure is reported by hash. -/
def promoteEach : List (WaitingTransaction Hash Tag) → BasePool Hash Tag → List (Imported Hash Tag) →
    List Hash → Option (BasePool Hash Tag × List (Imported Hash Tag) × List Hash)
  | [], pool, promoted, failed => some (pool, promoted, failed)
  | tx :: rest, pool, promoted, failed =>
      match pool.importToReady tx with
      | none => none
      | some (pool, .ok imported) => promoteEach rest pool (promoted ++ [imported]) failed
      | some (pool, .error _) => promoteEach rest pool promoted (failed ++ [tx.transaction.hash])

def pruneTags (pool : BasePool Hash Tag) (tags : List Tag) :
    Option (BasePool Hash Tag × PruneStatus Hash Tag) :=
  let slot := pool.recentlyPrunedIndex
  let pool := { pool with
    recentlyPrunedIndex := ⟨(slot.val + 1) % recentlyPrunedTags, Nat.mod_lt _ (by decide)⟩
    recentlyPruned := Function.update pool.recentlyPruned slot [] }
  match pruneTagsEach slot tags pool [] [] with
  | none => none
  | some (pool, toImport, pruned) =>
      (promoteEach toImport pool [] []).map fun result =>
        (result.1, ⟨result.2.1, result.2.2, pruned⟩)

/-! ## `enforce_limits` -/

def worstReady (ready : ReadyTransactions Hash Tag) : Option (TransactionRef Hash Tag) :=
  ready.ready.entries.foldl (fun worst entry =>
    match worst with
    | none => some entry.2.transaction
    | some worst =>
        match compare worst.transaction.priority entry.2.transaction.transaction.priority with
        | .lt => some worst
        | .eq =>
            if entry.2.transaction.insertionId < worst.insertionId then some entry.2.transaction
            else some worst
        | .gt => some entry.2.transaction) none

/-- The fold of `enforce_limits` over the future queue: the transaction imported first. -/
def worstFuture (future : FutureTransactions Hash Tag) : Option (WaitingTransaction Hash Tag) :=
  future.waiting.entries.foldl (fun worst entry =>
    match worst with
    | none => some entry.2
    | some tx => if entry.2.importedAt < tx.importedAt then some entry.2 else some tx) none

/-- The first loop of `enforce_limits`: while the ready queue exceeds its limit, remove the worst
ready transaction and the transactions that depend on it. -/
def enforceReadyLoop (limit : Limit) :
    Nat → BasePool Hash Tag → List (Transaction Hash Tag) →
      Option (BasePool Hash Tag × List (Transaction Hash Tag))
  | fuel, pool, removed =>
      if limit.isExceeded pool.ready.len pool.ready.bytes then
        match worstReady pool.ready, fuel with
        | none, _ => some (pool, removed)
        | some _, 0 => none
        | some worst, fuel + 1 =>
            let (pool, more) := pool.removeSubtree [worst.transaction.hash]
            enforceReadyLoop limit fuel pool (removed ++ more)
      else some (pool, removed)

/-- The second loop of `enforce_limits`, over the future queue. -/
def enforceFutureLoop (limit : Limit) :
    Nat → BasePool Hash Tag → List (Transaction Hash Tag) →
      Option (BasePool Hash Tag × List (Transaction Hash Tag))
  | fuel, pool, removed =>
      if limit.isExceeded pool.future.len pool.future.bytes then
        match worstFuture pool.future, fuel with
        | none, _ => some (pool, removed)
        | some _, 0 => none
        | some worst, fuel + 1 =>
            let (pool, more) := pool.removeSubtree [worst.transaction.hash]
            enforceFutureLoop limit fuel pool (removed ++ more)
      else some (pool, removed)

def enforceLimits (pool : BasePool Hash Tag) (ready future : Limit) :
    Option (BasePool Hash Tag × List (Transaction Hash Tag)) :=
  match enforceReadyLoop ready pool.ready.len pool [] with
  | none => none
  | some (pool, removed) => enforceFutureLoop future pool.future.len pool removed

end BasePool

end Substrate.TransactionPool
