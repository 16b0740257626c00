import Substrate.StateDb.Pruning
import Mathlib

/-! # The pruning window over a database that counts references

The `DbBacked` `DeathRowQueue`: a cache of the first death rows up to a soft capacity, read back
from the journal when it runs empty. Along every run, the window refines the journal records of
the blocks noted and not yet pruned.
-/

namespace Substrate.StateDb.Pruning

open RefWindow (MetaDb applyMeta)

def defaultMaxBlockConstraint : Nat := 256

inductive HaveBlock where
  | no
  | maybe
  | yes
  deriving DecidableEq, Repr

def HaveBlock.ofBool : Bool → HaveBlock
  | true => .yes
  | false => .no

@[simp]
theorem HaveBlock.ofBool_true : HaveBlock.ofBool true = .yes := rfl

@[simp]
theorem HaveBlock.ofBool_false : HaveBlock.ofBool false = .no := rfl

@[simp]
theorem HaveBlock.ofBool_eq_yes {b : Bool} : HaveBlock.ofBool b = .yes ↔ b = true := by
  cases b <;> simp

@[simp]
theorem HaveBlock.ofBool_eq_no {b : Bool} : HaveBlock.ofBool b = .no ↔ b = false := by
  cases b <;> simp

variable {BlockHash Key Value : Type} [DecidableEq Key]
  {record : JournalRecord BlockHash Key} {deleted : List Key} {rest : List (JournalRecord BlockHash Key)}

def JournalRecord.deathRow (record : JournalRecord BlockHash Key) : DeathRow BlockHash Key :=
  ⟨record.hash, record.deleted.dedup⟩

/-- `DeathRowQueue::DbBacked`: the rows of the first blocks of the window, the soft limit of their
number, and the last block added to the window. -/
structure DbBackedQueue (BlockHash Key : Type) where
  cache : List (DeathRow BlockHash Key)
  cacheCapacity : Nat
  last : Option Nat

def loadDeathRowFromDb (db : MetaDb BlockHash Key) (block : Nat) :
    Except StateDbError (Option (DeathRow BlockHash Key)) :=
  match db.lookup (.journal block) with
  | some (.journal record) => .ok (some record.deathRow)
  | some (.lastPruned _) => .error .decoding
  | none => .ok none

/-- The loop of `load_batch_from_db`: at most `count` rows are cached, up to a block without a
record; a record of the wrong kind returns the error. -/
def loadRows (db : MetaDb BlockHash Key) :
    Nat → Nat → List (DeathRow BlockHash Key) →
      List (DeathRow BlockHash Key) × Except StateDbError Unit
  | 0, _, cache => (cache, .ok ())
  | count + 1, block, cache =>
      match loadDeathRowFromDb db block with
      | .ok (some row) => loadRows db count (block + 1) (cache ++ [row])
      | .ok none => (cache, .ok ())
      | .error e => (cache, .error e)

/-- `load_batch_from_db`: rows from the block after the cache's last on, as many as the
capacity. -/
def loadBatchFromDb (db : MetaDb BlockHash Key) (cache : List (DeathRow BlockHash Key))
    (base cacheCapacity : Nat) : List (DeathRow BlockHash Key) × Except StateDbError Unit :=
  loadRows db cacheCapacity (base + cache.length) cache

namespace DbBackedQueue

/-- `new_db_backed`: the capacity is the window size clamped to
`[1, DEFAULT_MAX_BLOCK_CONSTRAINT]`, and the cache is loaded from the window's first block. -/
def newDbBacked (db : MetaDb BlockHash Key) (base : Nat) (last : Option Nat) (windowSize : Nat) :
    Except StateDbError (DbBackedQueue BlockHash Key) :=
  let cacheCapacity := min (max windowSize 1) defaultMaxBlockConstraint
  match loadBatchFromDb db [] base cacheCapacity with
  | (cache, .ok ()) => .ok ⟨cache, cacheCapacity, last⟩
  | (_, .error e) => .error e

/-- `import`: the block's row joins the cache only if it continues the cached blocks and there is
room; the block becomes the last of the window. -/
def «import» (q : DbBackedQueue BlockHash Key) (base num : Nat)
    (record : JournalRecord BlockHash Key) : DbBackedQueue BlockHash Key :=
  { q with
    cache := if num = base + q.cache.length ∧ q.cache.length < q.cacheCapacity then
        q.cache ++ [record.deathRow] else q.cache
    last := some num }

def loadIfEmpty (db : MetaDb BlockHash Key) (q : DbBackedQueue BlockHash Key) (base : Nat) :
    List (DeathRow BlockHash Key) × Except StateDbError Unit :=
  if q.cache.isEmpty then loadBatchFromDb db q.cache base q.cacheCapacity else (q.cache, .ok ())

def popFront (db : MetaDb BlockHash Key) (q : DbBackedQueue BlockHash Key) (base : Nat) :
    DbBackedQueue BlockHash Key × Except StateDbError (Option (DeathRow BlockHash Key)) :=
  match loadIfEmpty db q base with
  | (cache, .error e) => ({ q with cache }, .error e)
  | ([], .ok ()) => ({ q with cache := [] }, .ok none)
  | (row :: rows, .ok ()) => ({ q with cache := rows }, .ok (some row))

/-- `have_block`: a block past the cache may still be on disk. -/
def haveBlock [DecidableEq BlockHash] (q : DbBackedQueue BlockHash Key) (hash : BlockHash)
    (index : Nat) : HaveBlock :=
  if h : index < q.cache.length then .ofBool (decide (q.cache[index].hash = hash)) else .maybe

def len (q : DbBackedQueue BlockHash Key) (base : Nat) : Nat :=
  match q.last with
  | some l => l + 1 - base
  | none => 0

end DbBackedQueue

/-- `RefWindow` with the database-backed queue. -/
structure DbBackedWindow (BlockHash Key : Type) where
  queue : DbBackedQueue BlockHash Key
  base : Nat

namespace DbBackedWindow

def windowSize (w : DbBackedWindow BlockHash Key) : Nat := w.queue.len w.base

def isEmpty (w : DbBackedWindow BlockHash Key) : Bool := w.windowSize == 0

/-- `next_hash`: the first row of the cache, which is loaded first if it is empty. -/
def nextHash (db : MetaDb BlockHash Key) (w : DbBackedWindow BlockHash Key) :
    DbBackedWindow BlockHash Key × Except StateDbError (Option BlockHash) :=
  match w.queue.loadIfEmpty db w.base with
  | (cache, .error e) => ({ w with queue := { w.queue with cache } }, .error e)
  | (cache, .ok ()) =>
      ({ w with queue := { w.queue with cache } }, .ok (cache.head?.map (·.hash)))

def haveBlock [DecidableEq BlockHash] (w : DbBackedWindow BlockHash Key) (hash : BlockHash)
    (number : Nat) : HaveBlock :=
  if w.isEmpty = true ∨ number < w.base ∨ w.base + w.windowSize ≤ number then .no
  else w.queue.haveBlock hash (number - w.base)

/-- `prune_one`: the first block's row is deleted, and the block recorded as the last pruned and
its journal record deleted. -/
def pruneOne (db : MetaDb BlockHash Key) (w : DbBackedWindow BlockHash Key)
    (commit : CommitSet BlockHash Key Value) :
    DbBackedWindow BlockHash Key × Except StateDbError (CommitSet BlockHash Key Value) :=
  match w.queue.popFront db w.base with
  | (queue, .error e) => ({ w with queue }, .error e)
  | (queue, .ok (some pruned)) =>
      let index := w.base
      (⟨queue, w.base + 1⟩,
        .ok { data := { commit.data with deleted := commit.data.deleted ++ pruned.deleted }
              «meta» := ⟨commit.«meta».inserted ++ [(.lastPruned, .lastPruned index)],
                commit.«meta».deleted ++ [.journal w.base]⟩ })
  | (queue, .ok none) => ({ w with queue }, .error .blockUnavailable)

/-- `note_canonical`: the block after the window joins it; this queue journals no inserted
keys. An empty window at zero starts at any block. -/
def noteCanonical (w : DbBackedWindow BlockHash Key) (hash : BlockHash) (number : Nat)
    (commit : CommitSet BlockHash Key Value) :
    Except StateDbError (DbBackedWindow BlockHash Key × CommitSet BlockHash Key Value) := do
  let w ←
    if w.base = 0 ∧ w.isEmpty = true ∧ 0 < number then pure { w with base := number }
    else if w.base + w.windowSize ≠ number then throw .invalidBlockNumber
    else pure w
  let deleted := commit.data.deleted
  let record : JournalRecord BlockHash Key := ⟨hash, [], deleted⟩
  pure (⟨w.queue.«import» w.base number record, w.base⟩,
    { data := { commit.data with deleted := [] }
      «meta» := { commit.«meta» with
        inserted := commit.«meta».inserted ++ [(.journal number, .journal record)] } })

/-- `new` without `count_insertions`: the window starts after the last pruned block and ends at
the last canonicalized one. -/
def new (db : MetaDb BlockHash Key) (lastCanonicalized : Option Nat) (windowSize : Nat) :
    Except StateDbError (DbBackedWindow BlockHash Key) := do
  let base ←
    match db.lookup .lastPruned with
    | some (.lastPruned number) => pure (number + 1)
    | some (.journal _) => throw .decoding
    | none => pure 0
  let queue ← DbBackedQueue.newDbBacked db base lastCanonicalized windowSize
  pure ⟨queue, base⟩

end DbBackedWindow

/-! ## The blocks noted and not yet pruned -/

/-- What the window is for: the journal records of the blocks noted and not yet pruned, in order
from block `base`. -/
structure Noted (BlockHash Key : Type) where
  base : Nat
  records : List (JournalRecord BlockHash Key)

namespace Noted

/-- Noting a block: the one after the last noted, or any block to start a window that never held
one. -/
def note (n : Noted BlockHash Key) (hash : BlockHash) (number : Nat) (deleted : List Key) :
    Option (Noted BlockHash Key) :=
  let record : JournalRecord BlockHash Key := ⟨hash, [], deleted⟩
  if n.base = 0 ∧ n.records.isEmpty = true ∧ 0 < number then some ⟨number, [record]⟩
  else if n.base + n.records.length = number then some ⟨n.base, n.records ++ [record]⟩
  else none

def prune (n : Noted BlockHash Key) : Option (JournalRecord BlockHash Key × Noted BlockHash Key) :=
  match n.records with
  | [] => none
  | record :: rest => some (record, ⟨n.base + 1, rest⟩)

/-- Block `number` with hash `hash` is noted and not yet pruned. -/
def Holds (n : Noted BlockHash Key) (hash : BlockHash) (number : Nat) : Prop :=
  n.base ≤ number ∧ n.records[number - n.base]?.map (·.hash) = some hash

instance [DecidableEq BlockHash] (n : Noted BlockHash Key) (hash : BlockHash) (number : Nat) :
    Decidable (n.Holds hash number) :=
  inferInstanceAs (Decidable (_ ∧ _))

omit [DecidableEq Key] in
/-- A noted block is the one after the others, from a base that moves only in an empty window. -/
theorem note_eq_some {n n' : Noted BlockHash Key} {hash : BlockHash} {number : Nat}
    (h : n.note hash number deleted = some n') :
    ∃ base, (base = n.base ∨ n.records = []) ∧ base + n.records.length = number ∧
      n' = ⟨base, n.records ++ [⟨hash, [], deleted⟩]⟩ := by
  rw [note] at h
  split_ifs at h with hstart hnext
  · obtain ⟨-, hempty, -⟩ := hstart
    rw [List.isEmpty_iff] at hempty
    cases h
    exact ⟨number, .inr hempty, by simp [hempty], by simp [hempty]⟩
  · cases h
    exact ⟨n.base, .inl rfl, hnext, rfl⟩

omit [DecidableEq Key] in
theorem prune_eq_some {n n' : Noted BlockHash Key}
    (h : n.prune = some (record, n')) :
    ∃ rest, n.records = record :: rest ∧ n' = ⟨n.base + 1, rest⟩ := by
  rw [prune] at h
  split at h
  · cases h
  · rename_i first rest hrecords
    cases h
    exact ⟨rest, hrecords, rfl⟩

end Noted

/-! ## The window refines the noted blocks -/

/-- The journal column holds the record of each noted block at its number, and no other. -/
def JournalHolds (db : MetaDb BlockHash Key) (n : Noted BlockHash Key) : Prop :=
  ∀ block, db.lookup (.journal block) =
    (if n.base ≤ block then n.records[block - n.base]? else none).map .journal

def LastMatches (last : Option Nat) (n : Noted BlockHash Key) : Prop :=
  match last with
  | some l => l + 1 = n.base + n.records.length
  | none => n.records = []

/-- The meta column names the block before `base` as the last pruned, as `new` reads it. -/
def PrunedBefore (db : MetaDb BlockHash Key) (base : Nat) : Prop :=
  match db.lookup .lastPruned with
  | some (.lastPruned number) => number + 1 = base
  | some (.journal _) => False
  | none => base = 0

/-- The window over `db` refines the noted blocks `n`: it starts at their first, the column journals
them, and the cache is a prefix of their rows within capacity. -/
structure Refines (db : MetaDb BlockHash Key) (w : DbBackedWindow BlockHash Key)
    (n : Noted BlockHash Key) : Prop where
  base : w.base = n.base
  journal : JournalHolds db n
  cache : w.queue.cache <+: n.records.map JournalRecord.deathRow
  last : LastMatches w.queue.last n
  capacity : 0 < w.queue.cacheCapacity
  bounded : w.queue.cache.length ≤ w.queue.cacheCapacity

section Load

variable {db : MetaDb BlockHash Key}

theorem loadDeathRowFromDb_of_lookup {block : Nat} {record? : Option (JournalRecord BlockHash Key)}
    (h : db.lookup (.journal block) = record?.map .journal) :
    loadDeathRowFromDb db block = .ok (record?.map JournalRecord.deathRow) := by
  cases record? with
  | none => simp [loadDeathRowFromDb, h]
  | some record => simp [loadDeathRowFromDb, h]

/-- Rows loaded from a journal that holds `rest` from `block` on are those of `rest`, up to the
count. -/
theorem loadRows_of_journal (count : Nat) :
    ∀ (block : Nat) (cache : List (DeathRow BlockHash Key))
      (rest : List (JournalRecord BlockHash Key)),
      (∀ i, db.lookup (.journal (block + i)) = rest[i]?.map .journal) →
      loadRows db count block cache =
        (cache ++ (rest.take count).map JournalRecord.deathRow, .ok ()) := by
  induction count with
  | zero =>
    intro block cache rest _
    simp [loadRows]
  | succ count ih =>
    intro block cache rest h
    have hfirst : db.lookup (.journal block) = rest[0]?.map .journal := by simpa using h 0
    rw [loadRows, loadDeathRowFromDb_of_lookup hfirst]
    cases rest with
    | nil => simp
    | cons record rest =>
      -- the rest of the journal is read from the next block on
      have hnext : ∀ i, db.lookup (.journal (block + 1 + i)) = rest[i]?.map .journal := by
        intro i
        have hshift := h (i + 1)
        rw [show block + (i + 1) = block + 1 + i by omega] at hshift
        simpa using hshift
      simp only [List.getElem?_cons_zero, Option.map_some]
      rw [ih (block + 1) _ rest hnext]
      simp

/-- An empty cache is loaded with the rows of the first noted blocks. -/
theorem loadBatchFromDb_of_journal {n : Noted BlockHash Key} (hj : JournalHolds db n)
    (cacheCapacity : Nat) :
    loadBatchFromDb db [] n.base cacheCapacity =
      ((n.records.take cacheCapacity).map JournalRecord.deathRow, .ok ()) := by
  rw [loadBatchFromDb, loadRows_of_journal cacheCapacity _ [] n.records]
  · simp
  · intro i
    rw [hj (n.base + [].length + i)]
    simp

end Load

/-! ## The meta changes of the calls -/

section Meta

variable {db : MetaDb BlockHash Key} {n n' : Noted BlockHash Key}

omit [DecidableEq Key] in
/-- Pruning the first noted block keeps the last block of the window. -/
theorem LastMatches.prune {last : Option Nat} (h : LastMatches last n)
    (hcons : n.records = record :: rest) : LastMatches last ⟨n.base + 1, rest⟩ := by
  cases last with
  | none =>
    rw [LastMatches, hcons] at h
    cases h
  | some l =>
    rw [LastMatches, hcons, List.length_cons] at h
    rw [LastMatches]
    dsimp only
    omega

omit [DecidableEq Key] in
/-- The meta changes of `prune_one` journal the noted blocks after the first. -/
theorem JournalHolds.prune (hj : JournalHolds db n)
    (hcons : n.records = record :: rest)
    (data : ChangeSet Key Value) :
    JournalHolds (applyMeta db (⟨data, ⟨[(.lastPruned, .lastPruned n.base)],
      [.journal n.base]⟩⟩ : CommitSet BlockHash Key Value)) ⟨n.base + 1, rest⟩ := by
  intro block
  simp only [applyMeta, List.foldl_cons, List.foldl_nil]
  by_cases hblock : block = n.base
  · subst hblock
    rw [AList.lookup_erase, if_neg (by omega), Option.map_none]
  · rw [AList.lookup_erase_ne (by simpa using hblock), AList.lookup_insert_ne (by simp),
      hj block, hcons]
    -- a later block is one place further in the records than in the rest
    by_cases hlt : n.base < block
    · rw [if_pos hlt.le, if_pos (by omega : n.base + 1 ≤ block)]
      have hsucc : block - n.base = block - (n.base + 1) + 1 := by omega
      rw [hsucc, List.getElem?_cons_succ]
    · rw [if_neg (by omega), if_neg (by omega)]

omit [DecidableEq Key] in
/-- The meta change of `note_canonical` journals the noted block at its number. -/
theorem JournalHolds.note (hj : JournalHolds db n) {hash : BlockHash} {number : Nat}
    (hnote : n.note hash number deleted = some n')
    (data : ChangeSet Key Value) :
    JournalHolds (applyMeta db (⟨data, ⟨[(.journal number, .journal ⟨hash, [], deleted⟩)],
      []⟩⟩ : CommitSet BlockHash Key Value)) n' := by
  obtain ⟨base, hbase, hnumber, rfl⟩ := Noted.note_eq_some hnote
  intro block
  simp only [applyMeta, List.foldl_cons, List.foldl_nil]
  by_cases hblock : block = number
  · rw [hblock, AList.lookup_insert, if_pos (by omega),
      show number - base = n.records.length by omega, List.getElem?_concat_length]
    rfl
  · rw [AList.lookup_insert_ne (by simpa using hblock), hj block]
    rcases hbase with rfl | hnil
    · -- the other blocks of the window keep their records
      split_ifs with hle
      · by_cases hlt : block - n.base < n.records.length
        · rw [List.getElem?_append_left hlt]
        · rw [List.getElem?_eq_none (by omega), List.getElem?_eq_none (by simp; omega)]
      · rfl
    · -- an empty window moves to the block, and no other block has a record
      have hnone : (if n.base ≤ block then n.records[block - n.base]? else none) = none := by
        rw [hnil]
        split_ifs <;> simp
      have hstart : base = number := by simpa [hnil] using hnumber
      rw [hnone, hnil, List.nil_append]
      split_ifs with hle
      · rw [List.getElem?_eq_none (by simp; omega)]
      · rfl

end Meta

namespace Refines

variable {db : MetaDb BlockHash Key} {w : DbBackedWindow BlockHash Key} {n : Noted BlockHash Key}

theorem windowSize_eq (h : Refines db w n) : w.windowSize = n.records.length := by
  have hlast := h.last
  rw [DbBackedWindow.windowSize, DbBackedQueue.len]
  cases hl : w.queue.last with
  | none =>
    rw [hl, LastMatches] at hlast
    simp [hlast]
  | some l =>
    rw [hl, LastMatches] at hlast
    dsimp only
    rw [h.base]
    omega

theorem isEmpty_eq (h : Refines db w n) : w.isEmpty = n.records.isEmpty := by
  rw [DbBackedWindow.isEmpty, h.windowSize_eq]
  cases n.records <;> simp

/-- The cache `pop_front` and `next_hash` read: the one held, or the rows of the first noted
blocks up to the capacity. -/
theorem loadIfEmpty_eq (h : Refines db w n) :
    w.queue.loadIfEmpty db w.base =
      (if w.queue.cache.isEmpty then
        (n.records.take w.queue.cacheCapacity).map JournalRecord.deathRow
      else w.queue.cache, .ok ()) := by
  rw [DbBackedQueue.loadIfEmpty]
  split_ifs with hempty
  · rw [List.isEmpty_iff.mp hempty, h.base, loadBatchFromDb_of_journal h.journal]
  · rfl

/-- The cache read is still a prefix of the rows within the capacity, and starts with the first
noted block's. -/
theorem loaded (h : Refines db w n) :
    ∃ cache, w.queue.loadIfEmpty db w.base = (cache, .ok ()) ∧
      Refines db ⟨{ w.queue with cache }, w.base⟩ n ∧
      cache.head? = n.records.head?.map JournalRecord.deathRow := by
  rw [h.loadIfEmpty_eq]
  refine ⟨_, rfl, ?_, ?_⟩
  · split_ifs with hempty
    · refine ⟨h.base, h.journal, ?_, h.last, h.capacity, by simp⟩
      rw [List.map_take]
      exact List.take_prefix _ _
    · exact h
  · have hcapacity := h.capacity
    split_ifs with hempty
    · rw [List.head?_map, List.head?_take, if_neg (by omega)]
    · -- a prefix that is not empty starts as the list does
      have hlength : w.queue.cache.length ≠ 0 := by
        simpa [List.isEmpty_iff] using hempty
      rw [List.prefix_iff_eq_take.mp h.cache, List.head?_take, if_neg hlength, List.head?_map]

theorem nextHash (h : Refines db w n) :
    Refines db (w.nextHash db).1 n ∧ (w.nextHash db).2 = .ok (n.records.head?.map (·.hash)) := by
  obtain ⟨cache, hload, hcache, hhead⟩ := h.loaded
  rw [DbBackedWindow.nextHash, hload]
  refine ⟨hcache, ?_⟩
  dsimp only
  rw [hhead, Option.map_map]
  rfl

/-- A cached row is the row of the noted block at its place. -/
theorem cached_hash (h : Refines db w n) {i : Nat} (hi : i < w.queue.cache.length) :
    n.records[i]?.map (·.hash) = some w.queue.cache[i].hash := by
  have hlength : i < n.records.length := by
    have := h.cache.length_le
    rw [List.length_map] at this
    omega
  rw [h.cache.getElem hi, List.getElem_map, List.getElem?_eq_getElem hlength]
  rfl

/-- `prune_one` of a window with no noted block fails and leaves the window as it was. -/
theorem pruneOne_of_nil (h : Refines db w n) (hnil : n.records = [])
    (commit : CommitSet BlockHash Key Value) :
    w.pruneOne db commit = (w, .error .blockUnavailable) := by
  have hcache : w.queue.cache = [] := by simpa [hnil] using h.cache
  have hload : w.queue.loadIfEmpty db w.base = ([], .ok ()) := by
    rw [h.loadIfEmpty_eq, hnil, hcache]
    simp
  rw [DbBackedWindow.pruneOne, DbBackedQueue.popFront, hload]
  -- the cache it pops from is the empty one the window held
  obtain ⟨⟨cache, cacheCapacity, last⟩, base⟩ := w
  dsimp only at hcache ⊢
  rw [hcache]

/-- `prune_one` deletes the keys of the first noted block, records it as the last pruned, and
leaves the rest of the cache. -/
theorem pruneOne_of_cons (h : Refines db w n)
    (hcons : n.records = record :: rest)
    (commit : CommitSet BlockHash Key Value) :
    ∃ cache, w.pruneOne db commit = (⟨{ w.queue with cache }, w.base + 1⟩,
        .ok { data := { commit.data with
                deleted := commit.data.deleted ++ record.deathRow.deleted }
              «meta» := ⟨commit.«meta».inserted ++ [(.lastPruned, .lastPruned w.base)],
                commit.«meta».deleted ++ [.journal w.base]⟩ }) ∧
      cache <+: rest.map JournalRecord.deathRow ∧ cache.length < w.queue.cacheCapacity := by
  obtain ⟨loaded, hload, hloaded, hhead⟩ := h.loaded
  rw [hcons, List.head?_cons, Option.map_some] at hhead
  obtain ⟨cache, rfl⟩ : ∃ cache, loaded = record.deathRow :: cache := by
    cases loaded with
    | nil => cases hhead
    | cons row cache =>
      rw [List.head?_cons, Option.some.injEq] at hhead
      exact ⟨cache, by rw [hhead]⟩
  refine ⟨cache, ?_, ?_, ?_⟩
  · rw [DbBackedWindow.pruneOne, DbBackedQueue.popFront, hload]
  · have hprefix := hloaded.cache
    rw [hcons, List.map_cons, List.cons_prefix_cons] at hprefix
    exact hprefix.2
  · have hbounded := hloaded.bounded
    dsimp only at hbounded
    rw [List.length_cons] at hbounded
    omega

variable {n' : Noted BlockHash Key}

/-- After `prune_one`, with its commit applied, the window refines the noted blocks after the
first. -/
theorem pruneOne {w' : DbBackedWindow BlockHash Key} {c' : CommitSet BlockHash Key Value}
    (h : Refines db w n)
    (hprune : n.prune = some (record, n')) {data : ChangeSet Key Value}
    (hcall : w.pruneOne db ⟨data, ⟨[], []⟩⟩ = (w', .ok c')) :
    Refines (applyMeta db c') w' n' ∧
      c'.data = { data with deleted := data.deleted ++ record.deathRow.deleted } ∧
      w'.base = w.base + 1 := by
  obtain ⟨rest, hcons, rfl⟩ := Noted.prune_eq_some hprune
  obtain ⟨cache, hpruned, hprefix, hbounded⟩ := h.pruneOne_of_cons hcons ⟨data, ⟨[], []⟩⟩
  rw [hpruned, Prod.mk.injEq, Except.ok.injEq] at hcall
  obtain ⟨rfl, rfl⟩ := hcall
  refine ⟨⟨by rw [h.base], ?_, hprefix, h.last.prune hcons, h.capacity, hbounded.le⟩, rfl, rfl⟩
  rw [List.nil_append, List.nil_append, h.base]
  exact h.journal.prune hcons data

variable {hash : BlockHash} {number : Nat}

/-- After `import`, with the journal record applied, the window refines the blocks with the new
one noted. -/
theorem «import» (h : Refines db w n) (hnote : n.note hash number deleted = some n')
    (data : ChangeSet Key Value) :
    Refines (applyMeta db (⟨data, ⟨[(.journal number, .journal ⟨hash, [], deleted⟩)], []⟩⟩ :
        CommitSet BlockHash Key Value))
      ⟨w.queue.«import» n'.base number ⟨hash, [], deleted⟩, n'.base⟩ n' := by
  have hjournal := h.journal.note hnote data
  obtain ⟨base, -, hnumber, rfl⟩ := Noted.note_eq_some hnote
  refine ⟨rfl, hjournal, ?_, ?_, h.capacity, ?_⟩
  · dsimp only [DbBackedQueue.«import»]
    rw [List.map_append]
    split_ifs with hpush
    · -- the cache held a row for each noted block, so the new row follows them
      have hlength : w.queue.cache.length = (n.records.map JournalRecord.deathRow).length := by
        rw [List.length_map]
        omega
      rw [h.cache.eq_of_length hlength]
      rfl
    · exact h.cache.trans (List.prefix_append _ _)
  · dsimp only [DbBackedQueue.«import»]
    rw [LastMatches]
    dsimp only
    rw [List.length_append, List.length_singleton]
    omega
  · dsimp only [DbBackedQueue.«import»]
    split_ifs with hpush
    · rw [List.length_append, List.length_singleton]
      omega
    · exact h.bounded

/-- `note_canonical` of a block the noted blocks cannot take fails. -/
theorem noteCanonical_of_note_none {commit : CommitSet BlockHash Key Value} (h : Refines db w n)
    (hnote : n.note hash number commit.data.deleted = none) :
    w.noteCanonical hash number commit = .error .invalidBlockNumber := by
  rw [Noted.note] at hnote
  rw [DbBackedWindow.noteCanonical, h.isEmpty_eq, h.windowSize_eq, h.base]
  split_ifs at hnote ⊢ with hstart hnext hequal
  · rfl
  · exact absurd (not_not.mp hnext) hequal

/-- `note_canonical` of a block the noted blocks take imports it at their base, and journals
it. -/
theorem noteCanonical_of_note_some {commit : CommitSet BlockHash Key Value} (h : Refines db w n)
    (hnote : n.note hash number commit.data.deleted = some n') :
    w.noteCanonical hash number commit =
      .ok (⟨w.queue.«import» n'.base number ⟨hash, [], commit.data.deleted⟩, n'.base⟩,
        { data := { commit.data with deleted := [] }
          «meta» := { commit.«meta» with
            inserted := commit.«meta».inserted ++
              [(.journal number, .journal ⟨hash, [], commit.data.deleted⟩)] } }) := by
  rw [Noted.note] at hnote
  rw [DbBackedWindow.noteCanonical, h.isEmpty_eq, h.windowSize_eq, h.base]
  split_ifs at hnote ⊢ with hstart hnext
  · cases hnote
    rfl
  · cases hnote
    rw [← h.base]
    rfl

/-- After `note_canonical`, with its commit applied, the window refines the blocks with the new
one noted. -/
theorem noteCanonical {data : ChangeSet Key Value}
    {w' : DbBackedWindow BlockHash Key} {c' : CommitSet BlockHash Key Value}
    (h : Refines db w n)
    (hnote : n.note hash number data.deleted = some n')
    (hcall : w.noteCanonical hash number ⟨data, ⟨[], []⟩⟩ = .ok (w', c')) :
    Refines (applyMeta db c') w' n' := by
  rw [h.noteCanonical_of_note_some hnote, Except.ok.injEq, Prod.mk.injEq] at hcall
  obtain ⟨rfl, rfl⟩ := hcall
  exact h.import hnote { data with deleted := [] }

section HaveBlock

variable [DecidableEq BlockHash] {hash : BlockHash} {number : Nat}

/-- `have_block` answers `Yes` only for a noted block. -/
theorem haveBlock_yes (h : Refines db w n) (hyes : w.haveBlock hash number = .yes) :
    n.Holds hash number := by
  rw [DbBackedWindow.haveBlock] at hyes
  split_ifs at hyes with hout
  rw [DbBackedQueue.haveBlock] at hyes
  split_ifs at hyes with hcached
  -- the cached row of the block carries its hash
  have hhash : w.queue.cache[number - w.base].hash = hash := by
    simpa using hyes
  refine ⟨by rw [← h.base]; omega, ?_⟩
  rw [← h.base, h.cached_hash hcached, hhash]

/-- `have_block` answers `No` for no noted block. -/
theorem haveBlock_ne_no (h : Refines db w n) (hholds : n.Holds hash number) :
    w.haveBlock hash number ≠ .no := by
  obtain ⟨hle, hrecord⟩ := hholds
  have hlength : number - n.base < n.records.length := by
    by_contra hout
    rw [List.getElem?_eq_none (by omega)] at hrecord
    cases hrecord
  -- the block is inside the window
  have hin : ¬(w.isEmpty = true ∨ number < w.base ∨ w.base + w.windowSize ≤ number) := by
    rw [h.isEmpty_eq, h.windowSize_eq, h.base, List.isEmpty_iff, not_or, not_or]
    exact ⟨List.ne_nil_of_length_pos (by omega), by omega, by omega⟩
  rw [DbBackedWindow.haveBlock, if_neg hin, DbBackedQueue.haveBlock]
  split_ifs with hcached
  · -- a cached row answers with the hash of the noted block
    have hhash := h.cached_hash hcached
    rw [← h.base] at hrecord
    rw [hrecord, Option.some.injEq] at hhash
    simp [← hhash]
  · simp

end HaveBlock

end Refines

/-! ## A window opened on the meta column -/

section New

variable {db : MetaDb BlockHash Key} {n : Noted BlockHash Key}

omit [DecidableEq Key] in
theorem capacity_pos (windowSize : Nat) :
    0 < min (max windowSize 1) defaultMaxBlockConstraint := by
  rw [defaultMaxBlockConstraint]
  omega

/-- The queue opened at the first noted block caches the rows of the first of them. -/
theorem newDbBacked_refines (hj : JournalHolds db n) {last : Option Nat} (hlast : LastMatches last n)
    (windowSize : Nat) :
    ∃ q, DbBackedQueue.newDbBacked db n.base last windowSize = .ok q ∧
      Refines db ⟨q, n.base⟩ n := by
  let cacheCapacity := min (max windowSize 1) defaultMaxBlockConstraint
  refine ⟨⟨(n.records.take cacheCapacity).map JournalRecord.deathRow, cacheCapacity, last⟩, ?_,
    rfl, hj, ?_, hlast, capacity_pos windowSize, ?_⟩
  · rw [DbBackedQueue.newDbBacked, loadBatchFromDb_of_journal hj]
  · dsimp only
    rw [List.map_take]
    exact List.take_prefix _ _
  · simp

/-- A window opened on a meta column that journals the noted blocks, with the block before them last
pruned and the last of them last canonicalized, refines them. -/
theorem new_refines (hj : JournalHolds db n) (hpruned : PrunedBefore db n.base)
    {lastCanonicalized : Option Nat} (hlast : LastMatches lastCanonicalized n)
    (windowSize : Nat) :
    ∃ w, DbBackedWindow.new db lastCanonicalized windowSize = .ok w ∧ Refines db w n := by
  obtain ⟨q, hq, hrefines⟩ := newDbBacked_refines hj hlast windowSize
  refine ⟨⟨q, n.base⟩, ?_, hrefines⟩
  rw [PrunedBefore] at hpruned
  rw [DbBackedWindow.new]
  -- the base read from the column is the first noted block
  split at hpruned
  · simp only [hpruned, hq, pure, Except.pure, bind, Except.bind]
  · exact hpruned.elim
  · simp only [← hpruned, hq, pure, Except.pure, bind, Except.bind]

end New

/-! ## Along a run -/

namespace DbBackedWindow

/-- A call on the window, with its commit applied to the meta column, beside what it does to the
noted blocks; `next_hash` changes only the cache. -/
inductive Step (Value : Type) :
    MetaDb BlockHash Key × DbBackedWindow BlockHash Key × Noted BlockHash Key →
      MetaDb BlockHash Key × DbBackedWindow BlockHash Key × Noted BlockHash Key → Prop
  | noteCanonical {db : MetaDb BlockHash Key} {w w' : DbBackedWindow BlockHash Key}
      {n n' : Noted BlockHash Key} {c' : CommitSet BlockHash Key Value}
      (hash : BlockHash) (number : Nat) (data : ChangeSet Key Value)
      (hcall : w.noteCanonical hash number ⟨data, ⟨[], []⟩⟩ = .ok (w', c'))
      (hnote : n.note hash number data.deleted = some n') :
      Step Value (db, w, n) (applyMeta db c', w', n')
  | pruneOne {db : MetaDb BlockHash Key} {w w' : DbBackedWindow BlockHash Key}
      {n n' : Noted BlockHash Key} {c' : CommitSet BlockHash Key Value}
      {record : JournalRecord BlockHash Key} (data : ChangeSet Key Value)
      (hcall : w.pruneOne db ⟨data, ⟨[], []⟩⟩ = (w', .ok c'))
      (hprune : n.prune = some (record, n')) :
      Step Value (db, w, n) (applyMeta db c', w', n')
  | nextHash {db : MetaDb BlockHash Key} {w : DbBackedWindow BlockHash Key}
      {n : Noted BlockHash Key} :
      Step Value (db, w, n) (db, (w.nextHash db).1, n)

end DbBackedWindow

namespace Refines

variable {s s' : MetaDb BlockHash Key × DbBackedWindow BlockHash Key × Noted BlockHash Key}

theorem step (h : Refines s.1 s.2.1 s.2.2) (hstep : DbBackedWindow.Step Value s s') :
    Refines s'.1 s'.2.1 s'.2.2 := by
  cases hstep with
  | noteCanonical hash number data hcall hnote => exact h.noteCanonical hnote hcall
  | pruneOne data hcall hprune => exact (h.pruneOne hprune hcall).1
  | nextHash => exact h.nextHash.1

/-- Along every run, the window refines the blocks noted and not yet pruned. -/
theorem reachable (h : Refines s.1 s.2.1 s.2.2)
    (hrun : Relation.ReflTransGen (DbBackedWindow.Step Value) s s') :
    Refines s'.1 s'.2.1 s'.2.2 := by
  induction hrun with
  | refl => exact h
  | tail _ hstep ih => exact ih.step hstep

end Refines

/-- What the window answers over the meta column against the blocks noted and not yet pruned: size,
journal, cached rows, `next_hash`, `prune_one` and `have_block`. -/
structure FollowsJournal [DecidableEq BlockHash] (Value : Type) (db : MetaDb BlockHash Key)
    (w : DbBackedWindow BlockHash Key) (n : Noted BlockHash Key) : Prop where
  base : w.base = n.base
  windowSize : w.windowSize = n.records.length
  journal : ∀ (i : Nat) (hi : i < n.records.length),
    db.lookup (.journal (w.base + i)) = some (.journal n.records[i])
  cache : w.queue.cache <+: n.records.map JournalRecord.deathRow
  nextHash : (w.nextHash db).2 = .ok (n.records.head?.map (·.hash))
  pruneOne : ∀ (record : JournalRecord BlockHash Key) (commit : CommitSet BlockHash Key Value),
    n.records.head? = some record → ∃ w' c', w.pruneOne db commit = (w', .ok c') ∧
      c'.data.deleted = commit.data.deleted ++ record.deleted.dedup ∧ w'.base = w.base + 1
  pruneEmpty : ∀ commit : CommitSet BlockHash Key Value, n.records = [] →
    w.pruneOne db commit = (w, .error .blockUnavailable)
  haveBlockYes : ∀ hash number, w.haveBlock hash number = .yes → n.Holds hash number
  haveBlockNo : ∀ hash number, n.Holds hash number → w.haveBlock hash number ≠ .no

theorem Refines.followsJournal [DecidableEq BlockHash] {db : MetaDb BlockHash Key}
    {w : DbBackedWindow BlockHash Key} {n : Noted BlockHash Key} (h : Refines db w n) :
    FollowsJournal Value db w n where
  base := h.base
  windowSize := h.windowSize_eq
  journal := by
    intro i hi
    rw [h.journal, h.base, if_pos (by omega), Nat.add_sub_cancel_left,
      List.getElem?_eq_getElem hi]
    rfl
  cache := h.cache
  nextHash := h.nextHash.2
  pruneOne := by
    intro record commit hhead
    obtain ⟨rest, hcons⟩ := List.head?_eq_some_iff.mp hhead
    obtain ⟨cache, hpruned, -, -⟩ := h.pruneOne_of_cons hcons commit
    exact ⟨_, _, hpruned, rfl, rfl⟩
  pruneEmpty := fun commit hnil => h.pruneOne_of_nil hnil commit
  haveBlockYes := fun _ _ hyes => h.haveBlock_yes hyes
  haveBlockNo := fun _ _ hholds => h.haveBlock_ne_no hholds

/-- A window opened on a meta column as its earlier commits left it, and run with each commit
applied, answers as the blocks noted and not yet pruned say. -/
theorem dbBacked_window_follows_the_journal [DecidableEq BlockHash]
    {db₀ db : MetaDb BlockHash Key} {w₀ w : DbBackedWindow BlockHash Key}
    {n₀ n : Noted BlockHash Key} {lastCanonicalized : Option Nat} {windowSize : Nat}
    (hnew : DbBackedWindow.new db₀ lastCanonicalized windowSize = .ok w₀)
    (hjournal : JournalHolds db₀ n₀) (hpruned : PrunedBefore db₀ n₀.base)
    (hlast : LastMatches lastCanonicalized n₀)
    (hrun : Relation.ReflTransGen (DbBackedWindow.Step Value) (db₀, w₀, n₀) (db, w, n)) :
    FollowsJournal Value db w n := by
  obtain ⟨w₁, hw₁, h₀⟩ := new_refines hjournal hpruned hlast windowSize
  rw [hnew, Except.ok.injEq] at hw₁
  subst hw₁
  exact (Refines.reachable (s := (db₀, w₀, n₀)) h₀ hrun).followsJournal

/-- A window of one cached row opened on an empty column notes blocks 5 and 6, the second past
the cache, prunes block 5, and reads block 6 back from the column. -/
theorem dbBacked_window_reloads_block_six :
    DbBackedWindow.new (∅ : MetaDb Nat Nat) none 1 = .ok ⟨⟨[], 1, none⟩, 0⟩ ∧
    JournalHolds (∅ : MetaDb Nat Nat) ⟨0, []⟩ ∧ PrunedBefore (∅ : MetaDb Nat Nat) 0 ∧
    LastMatches none (⟨0, []⟩ : Noted Nat Nat) ∧
    ∃ (db : MetaDb Nat Nat) (w : DbBackedWindow Nat Nat) (n : Noted Nat Nat),
      Relation.ReflTransGen (DbBackedWindow.Step Nat) (∅, ⟨⟨[], 1, none⟩, 0⟩, ⟨0, []⟩)
        (db, w, n) ∧ w.base = 6 ∧ w.queue.cache.length = 1 ∧ FollowsJournal Nat db w n := by
  have hnew : DbBackedWindow.new (∅ : MetaDb Nat Nat) none 1 = .ok ⟨⟨[], 1, none⟩, 0⟩ := rfl
  have hjournal : JournalHolds (∅ : MetaDb Nat Nat) ⟨0, []⟩ := fun _ => by simp
  have hpruned : PrunedBefore (∅ : MetaDb Nat Nat) 0 := by simp [PrunedBefore]
  have hlast : LastMatches none (⟨0, []⟩ : Noted Nat Nat) := rfl
  have hrun := ((((Relation.ReflTransGen.refl :
    Relation.ReflTransGen (DbBackedWindow.Step Nat)
      ((∅ : MetaDb Nat Nat), (⟨⟨[], 1, none⟩, 0⟩ : DbBackedWindow Nat Nat),
        (⟨0, []⟩ : Noted Nat Nat)) _).tail
    (.noteCanonical 10 5 ⟨[], [1]⟩ rfl rfl)).tail
    (.noteCanonical 11 6 ⟨[], [2]⟩ rfl rfl)).tail
    (.pruneOne ⟨[], []⟩ rfl rfl)).tail .nextHash
  exact ⟨hnew, hjournal, hpruned, hlast, _, _, _, hrun, rfl, rfl,
    dbBacked_window_follows_the_journal hnew hjournal hpruned hlast hrun⟩

end Substrate.StateDb.Pruning
