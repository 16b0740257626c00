import Substrate.StateDb.NonCanonical
import Mathlib

/-! # The pruning window of the state database

`sc_state_db::pruning` with the queue in memory: each block's death row, an index from each key to
its row, and a journal record per block from which `new` imports the queue again.
-/

namespace Substrate.StateDb.Pruning

/-- The meta keys of the window: `LAST_PRUNED`, and `to_journal_key` of a block. -/
inductive MetaKey where
  | lastPruned
  | journal (block : Nat)
  deriving DecidableEq, Repr

/-- `JournalRecord`: the keys a block inserted and deleted. -/
structure JournalRecord (BlockHash Key : Type) where
  hash : BlockHash
  inserted : List Key
  deleted : List Key
  deriving DecidableEq, Repr

/-- The records of the window in the meta column. -/
inductive MetaValue (BlockHash Key : Type) where
  | lastPruned (number : Nat)
  | journal (record : JournalRecord BlockHash Key)
  deriving DecidableEq, Repr

/-- `CommitSet`, with the meta keys of the window. -/
structure CommitSet (BlockHash Key Value : Type) where
  data : ChangeSet Key Value
  «meta» : ChangeSet MetaKey (MetaValue BlockHash Key)
  deriving DecidableEq, Repr

def CommitSet.empty {BlockHash Key Value : Type} : CommitSet BlockHash Key Value :=
  ⟨⟨[], []⟩, ⟨[], []⟩⟩

/-- The errors of `StateDbError` the window returns; `Decoding` is a meta record of the wrong
kind. -/
inductive StateDbError where
  | decoding
  | invalidBlockNumber
  | blockUnavailable
  deriving DecidableEq, Repr

structure DeathRow (BlockHash Key : Type) where
  hash : BlockHash
  deleted : List Key
  deriving DecidableEq, Repr

/-- `DeathRowQueue::Mem`: the death rows of the window's blocks, the first block first, and the
block each key was indexed at. -/
structure DeathRowQueue (BlockHash Key : Type) where
  deathRows : List (DeathRow BlockHash Key)
  deathIndex : Key → Option Nat

variable {BlockHash Key Value : Type} [DecidableEq Key]

namespace DeathRowQueue

def empty : DeathRowQueue BlockHash Key := ⟨[], fun _ => none⟩

/-- The loop of `import` over the inserted keys: an indexed key leaves the index and its death row,
which is in the window (`Inv`), so the source's indexing does not panic. -/
def removeReinserted (base : Nat) :
    DeathRowQueue BlockHash Key → List Key → DeathRowQueue BlockHash Key
  | q, [] => q
  | q, k :: inserted =>
      let q := match q.deathIndex k with
        | some block =>
            ⟨q.deathRows.modify (block - base) fun row => { row with deleted := row.deleted.erase k },
              Function.update q.deathIndex k none⟩
        | none => q
      removeReinserted base q inserted

/-- The loop of `import` over the deleted keys: each is indexed at the imported block. -/
def indexDeleted (block : Nat) : (Key → Option Nat) → List Key → Key → Option Nat
  | index, [] => index
  | index, k :: deleted => indexDeleted block (Function.update index k (some block)) deleted

/-- `import`: the inserted keys leave the death rows they were indexed at, and the block's death
row joins the back of the queue. -/
def «import» (q : DeathRowQueue BlockHash Key) (base : Nat) (record : JournalRecord BlockHash Key) :
    DeathRowQueue BlockHash Key :=
  let q := removeReinserted base q record.inserted
  let importedBlock := base + q.deathRows.length
  ⟨q.deathRows ++ [⟨record.hash, record.deleted.dedup⟩],
    indexDeleted importedBlock q.deathIndex record.deleted⟩

def popFront (q : DeathRowQueue BlockHash Key) :
    DeathRowQueue BlockHash Key × Option (DeathRow BlockHash Key) :=
  match q.deathRows with
  | [] => (q, none)
  | row :: rows => (⟨rows, fun k => if k ∈ row.deleted then none else q.deathIndex k⟩, some row)

end DeathRowQueue

/-- `RefWindow`: the queue, and the number of its first block. -/
structure RefWindow (BlockHash Key : Type) where
  queue : DeathRowQueue BlockHash Key
  base : Nat

namespace RefWindow

def windowSize (w : RefWindow BlockHash Key) : Nat := w.queue.deathRows.length

def nextHash (w : RefWindow BlockHash Key) : Option BlockHash :=
  w.queue.deathRows.head?.map (·.hash)

def isEmpty (w : RefWindow BlockHash Key) : Bool := w.windowSize == 0

/-- `prune_one`: the first block's death row is deleted, and the block recorded as the last
pruned and its journal record deleted. -/
def pruneOne (w : RefWindow BlockHash Key) (commit : CommitSet BlockHash Key Value) :
    Except StateDbError (RefWindow BlockHash Key × CommitSet BlockHash Key Value) :=
  match w.queue.popFront with
  | (queue, some pruned) =>
      let index := w.base
      .ok (⟨queue, w.base + 1⟩,
        { data := { commit.data with deleted := commit.data.deleted ++ pruned.deleted }
          «meta» := ⟨commit.«meta».inserted ++ [(.lastPruned, .lastPruned index)],
            commit.«meta».deleted ++ [.journal w.base]⟩ })
  | (_, none) => .error .blockUnavailable

/-- `note_canonical`: the block after the window joins it with the commit's keys, its deletions
moving into the journal. An empty window at zero starts at any block. -/
def noteCanonical (w : RefWindow BlockHash Key) (hash : BlockHash) (number : Nat)
    (commit : CommitSet BlockHash Key Value) :
    Except StateDbError (RefWindow BlockHash Key × CommitSet BlockHash Key Value) := do
  let w ←
    if w.base = 0 ∧ w.isEmpty = true ∧ 0 < number then pure { w with base := number }
    else if w.base + w.windowSize ≠ number then throw .invalidBlockNumber
    else pure w
  let inserted := commit.data.inserted.map (·.1)
  let deleted := commit.data.deleted
  let record : JournalRecord BlockHash Key := ⟨hash, inserted, deleted⟩
  pure (⟨w.queue.«import» w.base record, w.base⟩,
    { data := { commit.data with deleted := [] }
      «meta» := { commit.«meta» with
        inserted := commit.«meta».inserted ++ [(.journal number, .journal record)] } })

abbrev MetaDb (BlockHash Key : Type) := AList (fun _ : MetaKey => MetaValue BlockHash Key)

def applyMeta (db : MetaDb BlockHash Key) (commit : CommitSet BlockHash Key Value) :
    MetaDb BlockHash Key :=
  commit.«meta».deleted.foldl (fun db k => db.erase k)
    (commit.«meta».inserted.foldl (fun db kv => db.insert kv.1 kv.2) db)

/-- The loop of `new_mem` over the journal records from `block` on, until a block without one; its
fuel, one round per record and one more, never runs out. -/
def readJournal (db : MetaDb BlockHash Key) (base : Nat) :
    Nat → Nat → DeathRowQueue BlockHash Key → Except StateDbError (DeathRowQueue BlockHash Key)
  | 0, _, q => .ok q
  | fuel + 1, block, q =>
      match db.lookup (.journal block) with
      | none => .ok q
      | some (.lastPruned _) => .error .decoding
      | some (.journal record) => readJournal db base fuel (block + 1) (q.«import» base record)

/-- `new` with `count_insertions`: the window starts after the last pruned block, and its queue
imports the journal records from there. -/
def new (db : MetaDb BlockHash Key) : Except StateDbError (RefWindow BlockHash Key) := do
  let base ←
    match db.lookup .lastPruned with
    | some (.lastPruned number) => pure (number + 1)
    | some (.journal _) => throw .decoding
    | none => pure 0
  let queue ← readJournal db base (db.entries.length + 1) base DeathRowQueue.empty
  pure ⟨queue, base⟩

end RefWindow

/-! ## The index names rows of the window

Every key of the index is in the death row of the block it names, which is in the window. So the
indexing of `import` never leaves the queue, along any run.
-/

variable {base : Nat} {w w' : RefWindow BlockHash Key} {commit c' : CommitSet BlockHash Key Value}
  {q q' : DeathRowQueue BlockHash Key} {records : List (JournalRecord BlockHash Key)}
  {row : DeathRow BlockHash Key}

namespace DeathRowQueue

/-- The invariant of a queue whose first block is `base`: a death row holds each key once, and a
key of the index is in the death row of the block the index names. -/
structure Inv (base : Nat) (q : DeathRowQueue BlockHash Key) : Prop where
  nodup : ∀ (i : Nat) (row : DeathRow BlockHash Key), q.deathRows[i]? = some row →
    row.deleted.Nodup
  index : ∀ (k : Key) (block : Nat), q.deathIndex k = some block →
    base ≤ block ∧ ∃ row : DeathRow BlockHash Key, q.deathRows[block - base]? = some row ∧
      k ∈ row.deleted

omit [DecidableEq Key] in
theorem Inv.empty (base : Nat) : (empty : DeathRowQueue BlockHash Key).Inv base where
  nodup := by
    intro i row hrow
    simp [DeathRowQueue.empty] at hrow
  index := by
    intro k block hk
    simp [DeathRowQueue.empty] at hk

omit [DecidableEq Key] in
/-- A queue without rows has an empty index, so it keeps its invariant at any base. -/
theorem Inv.rebase (hinv : q.Inv base)
    (hempty : q.deathRows = []) (base' : Nat) : q.Inv base' where
  nodup := by simp [hempty]
  index := by
    intro k block hk
    obtain ⟨-, row, hrow, -⟩ := hinv.index k block hk
    simp [hempty] at hrow

/-- One round of `removeReinserted`: the key leaves its row and the index. -/
theorem Inv.removeOne (hinv : q.Inv base)
    (k : Key) (block : Nat) :
    (⟨q.deathRows.modify (block - base) fun row => { row with deleted := row.deleted.erase k },
      Function.update q.deathIndex k none⟩ : DeathRowQueue BlockHash Key).Inv base where
  nodup := by
    intro i row hrow
    cases hi : q.deathRows[i]? with
    | none => simp [List.getElem?_modify, hi] at hrow
    | some old =>
      simp only [List.getElem?_modify, hi, Option.map_eq_map, Option.map_some,
        Option.some.injEq] at hrow
      split_ifs at hrow
      · rw [← hrow]
        exact (hinv.nodup i old hi).erase k
      · rw [← hrow]
        exact hinv.nodup i old hi
  index := by
    intro k' b hk'
    dsimp only at hk' ⊢
    by_cases hkk : k' = k
    · simp [hkk] at hk'
    rw [Function.update_of_ne hkk] at hk'
    obtain ⟨hb, row, hrow, hmem⟩ := hinv.index k' b hk'
    refine ⟨hb, ?_⟩
    simp only [List.getElem?_modify, hrow, Option.map_eq_map, Option.map_some]
    split_ifs
    · exact ⟨_, rfl, (List.mem_erase_of_ne hkk).mpr hmem⟩
    · exact ⟨row, rfl, hmem⟩

theorem length_removeReinserted (base : Nat) :
    ∀ (q : DeathRowQueue BlockHash Key) (inserted : List Key),
      (removeReinserted base q inserted).deathRows.length = q.deathRows.length
  | _, [] => rfl
  | q, k :: inserted => by
    rw [removeReinserted, length_removeReinserted]
    split <;> simp

theorem Inv.removeReinserted :
    ∀ {q : DeathRowQueue BlockHash Key}, q.Inv base → ∀ inserted : List Key,
      (DeathRowQueue.removeReinserted base q inserted).Inv base
  | _, hinv, [] => hinv
  | q, hinv, k :: inserted => by
    simp only [DeathRowQueue.removeReinserted]
    split
    · exact (hinv.removeOne k _).removeReinserted inserted
    · exact hinv.removeReinserted inserted

@[simp]
theorem indexDeleted_apply (block : Nat) :
    ∀ (index : Key → Option Nat) (deleted : List Key) (k : Key),
      indexDeleted block index deleted k = if k ∈ deleted then some block else index k
  | index, [], k => by simp [indexDeleted]
  | index, k' :: deleted, k => by
    rw [indexDeleted, indexDeleted_apply]
    by_cases hk : k = k'
    · simp [hk]
    · by_cases hmem : k ∈ deleted <;> simp [hk, hmem]

theorem Inv.import (hinv : q.Inv base)
    (record : JournalRecord BlockHash Key) : (q.«import» base record).Inv base := by
  have hq := hinv.removeReinserted record.inserted
  rw [DeathRowQueue.«import»]
  generalize DeathRowQueue.removeReinserted base q record.inserted = q' at hq ⊢
  constructor
  · intro i row hrow
    dsimp only at hrow
    by_cases hi : i < q'.deathRows.length
    · rw [List.getElem?_append_left hi] at hrow
      exact hq.nodup i row hrow
    · rw [List.getElem?_append_right (by omega)] at hrow
      have hzero : i - q'.deathRows.length = 0 := by
        have := (List.getElem?_eq_some_iff.mp hrow).1
        simp only [List.length_singleton] at this
        omega
      rw [hzero, List.getElem?_cons_zero, Option.some.injEq] at hrow
      rw [← hrow]
      exact List.nodup_dedup _
  · intro k block hk
    dsimp only at hk ⊢
    rw [indexDeleted_apply] at hk
    split at hk
    · rename_i hmem
      cases hk
      refine ⟨by omega, ⟨record.hash, record.deleted.dedup⟩, ?_, List.mem_dedup.mpr hmem⟩
      rw [List.getElem?_append_right (by omega)]
      simp
    · obtain ⟨hb, row, hrow, hmem⟩ := hq.index k block hk
      refine ⟨hb, row, ?_, hmem⟩
      rw [List.getElem?_append_left (List.getElem?_eq_some_iff.mp hrow).1]
      exact hrow

theorem popFront_eq_some (h : q.popFront = (q', some row)) :
    q.deathRows = row :: q'.deathRows ∧
      q'.deathIndex = fun k => if k ∈ row.deleted then none else q.deathIndex k := by
  rw [popFront] at h
  split at h
  · cases h
  · rename_i first rows hrows
    cases h
    exact ⟨hrows, rfl⟩

theorem Inv.popFront (hinv : q.Inv base) (h : q.popFront = (q', some row)) :
    q'.Inv (base + 1) := by
  obtain ⟨hrows, hindex⟩ := popFront_eq_some h
  constructor
  · intro i row' hrow'
    apply hinv.nodup (i + 1) row'
    rw [hrows]
    exact hrow'
  · intro k block hk
    rw [hindex] at hk
    dsimp only at hk
    split at hk
    · cases hk
    · rename_i hnot
      obtain ⟨hb, row', hrow', hmem⟩ := hinv.index k block hk
      rw [hrows] at hrow'
      -- the block is not the popped one: that row holds the key, which the pop removed
      have hlt : base < block := by
        by_contra hle
        have hzero : block - base = 0 := by omega
        rw [hzero, List.getElem?_cons_zero, Option.some.injEq] at hrow'
        exact hnot (hrow' ▸ hmem)
      refine ⟨by omega, row', ?_, hmem⟩
      have hsucc : block - base = block - (base + 1) + 1 := by omega
      rw [hsucc, List.getElem?_cons_succ] at hrow'
      exact hrow'

/-! ## The death rows against the journal

A death row holds only keys its block deleted, and every one no later block of the window
inserted.
-/

/-- `removeReinserted` keeps each row's block, and takes off it only inserted keys. -/
theorem removeReinserted_row (base : Nat) :
    ∀ (q : DeathRowQueue BlockHash Key) (inserted : List Key) (i : Nat)
      (row : DeathRow BlockHash Key), q.deathRows[i]? = some row →
      ∃ row' : DeathRow BlockHash Key,
        (removeReinserted base q inserted).deathRows[i]? = some row' ∧ row'.hash = row.hash ∧
          (∀ k ∈ row'.deleted, k ∈ row.deleted) ∧ ∀ k ∈ row.deleted, k ∉ inserted → k ∈ row'.deleted
  | q, [], i, row, hrow => ⟨row, hrow, rfl, fun _ hk => hk, fun _ hk _ => hk⟩
  | q, k :: inserted, i, row, hrow => by
    simp only [removeReinserted]
    -- the round on `k` takes `k` at most off the row, then the rounds on the rest
    have hround : ∃ row₁ : DeathRow BlockHash Key,
        (match q.deathIndex k with
          | some block =>
            (⟨q.deathRows.modify (block - base)
              fun row => { row with deleted := row.deleted.erase k },
              Function.update q.deathIndex k none⟩ : DeathRowQueue BlockHash Key)
          | none => q).deathRows[i]? = some row₁ ∧ row₁.hash = row.hash ∧
          (∀ k' ∈ row₁.deleted, k' ∈ row.deleted) ∧
          ∀ k' ∈ row.deleted, k' ≠ k → k' ∈ row₁.deleted := by
      split
      · simp only [List.getElem?_modify, hrow, Option.map_eq_map, Option.map_some]
        split_ifs
        · exact ⟨_, rfl, rfl, fun k' hk' => List.mem_of_mem_erase hk',
            fun k' hk' hne => (List.mem_erase_of_ne hne).mpr hk'⟩
        · exact ⟨row, rfl, rfl, fun _ hk' => hk', fun _ hk' _ => hk'⟩
      · exact ⟨row, hrow, rfl, fun _ hk' => hk', fun _ hk' _ => hk'⟩
    obtain ⟨row₁, hrow₁, hhash₁, hsub₁, hkeep₁⟩ := hround
    obtain ⟨row', hrow', hhash', hsub', hkeep'⟩ :=
      removeReinserted_row base _ inserted i row₁ hrow₁
    refine ⟨row', hrow', hhash'.trans hhash₁, fun k' hk' => hsub₁ k' (hsub' k' hk'), ?_⟩
    intro k' hk' hnot
    simp only [List.mem_cons, not_or] at hnot
    exact hkeep' k' (hkeep₁ k' hk' hnot.1) hnot.2

/-- The death rows against the journal records of the window's blocks: row `i` holds only keys block
`i` deleted, and every one no later block inserted. -/
structure Journaled (q : DeathRowQueue BlockHash Key)
    (records : List (JournalRecord BlockHash Key)) : Prop where
  length : q.deathRows.length = records.length
  rows : ∀ (i : Nat) (row : DeathRow BlockHash Key) (record : JournalRecord BlockHash Key),
    q.deathRows[i]? = some row → records[i]? = some record →
      row.hash = record.hash ∧ (∀ k ∈ row.deleted, k ∈ record.deleted) ∧
        ∀ k ∈ record.deleted, (∀ later ∈ records.drop (i + 1), k ∉ later.inserted) →
          k ∈ row.deleted

omit [DecidableEq Key] in
theorem Journaled.empty : (empty : DeathRowQueue BlockHash Key).Journaled [] where
  length := rfl
  rows := by
    intro i row record hrow
    simp [DeathRowQueue.empty] at hrow

/-- `import` appends the record's row, and the record is later than every other. -/
theorem Journaled.import (hj : q.Journaled records)
    (record : JournalRecord BlockHash Key) :
    (q.«import» base record).Journaled (records ++ [record]) := by
  have hlen := length_removeReinserted base q record.inserted
  have hqlen := hj.length
  constructor
  · simp [DeathRowQueue.«import», hlen, hqlen]
  · intro i row record' hrow hrecord
    rw [DeathRowQueue.«import»] at hrow
    dsimp only at hrow
    by_cases hi : i < records.length
    · -- an old row: the record's inserted keys are all it lost
      rw [List.getElem?_append_left (by omega)] at hrow
      rw [List.getElem?_append_left hi] at hrecord
      obtain ⟨row₀, hrow₀⟩ : ∃ row₀, q.deathRows[i]? = some row₀ :=
        ⟨_, List.getElem?_eq_getElem (by omega)⟩
      obtain ⟨row', hrow', hhash, hsub, hkeep⟩ :=
        removeReinserted_row base q record.inserted i row₀ hrow₀
      rw [hrow, Option.some.injEq] at hrow'
      subst hrow'
      obtain ⟨hhash₀, hsub₀, hkeep₀⟩ := hj.rows i row₀ record' hrow₀ hrecord
      refine ⟨hhash.trans hhash₀, fun k hk => hsub₀ k (hsub k hk), ?_⟩
      intro k hk hlater
      rw [List.drop_append_of_le_length (by omega)] at hlater
      apply hkeep k (hkeep₀ k hk fun later hl => hlater later (List.mem_append_left _ hl))
      exact hlater record (List.mem_append_right _ (List.mem_singleton_self _))
    · -- the new row: its keys are the record's
      have hlast : i = records.length := by
        have := (List.getElem?_eq_some_iff.mp hrecord).1
        simp only [List.length_append, List.length_singleton] at this
        omega
      subst hlast
      rw [List.getElem?_append_right (by omega), hlen, hqlen, Nat.sub_self,
        List.getElem?_cons_zero, Option.some.injEq] at hrow
      rw [List.getElem?_append_right le_rfl, Nat.sub_self, List.getElem?_cons_zero,
        Option.some.injEq] at hrecord
      subst hrow hrecord
      exact ⟨rfl, fun k hk => List.mem_dedup.mp hk, fun k hk _ => List.mem_dedup.mpr hk⟩

/-- `pop_front` takes the first record's row: it holds only keys that block deleted, and every one
of them that no later block of the window inserted. -/
theorem Journaled.popFront (hj : q.Journaled records)
    (h : q.popFront = (q', some row)) :
    ∃ record rest, records = record :: rest ∧ q'.Journaled rest ∧ row.hash = record.hash ∧
      (∀ k ∈ row.deleted, k ∈ record.deleted) ∧
      ∀ k ∈ record.deleted, (∀ later ∈ rest, k ∉ later.inserted) → k ∈ row.deleted := by
  obtain ⟨hrows, -⟩ := popFront_eq_some h
  cases records with
  | nil =>
    have := hj.length
    rw [hrows] at this
    simp at this
  | cons record rest =>
    refine ⟨record, rest, rfl, ⟨?_, ?_⟩, ?_⟩
    · have := hj.length
      rw [hrows] at this
      simpa using this
    · intro i row' record' hrow' hrecord'
      apply hj.rows (i + 1) row' record'
      · rw [hrows]
        exact hrow'
      · exact hrecord'
    · have := hj.rows 0 row record (by rw [hrows]; rfl) rfl
      simpa using this

end DeathRowQueue

/-! ## The window along a run -/

namespace RefWindow

variable {hash : BlockHash} {number : Nat}

/-- What `note_canonical` does when it succeeds: the block is the one after the window, to which
an empty window at zero may first move. -/
theorem noteCanonical_ok (h : w.noteCanonical hash number commit = .ok (w', c')) :
    ∃ base, (base = w.base ∨ w.windowSize = 0) ∧ base + w.windowSize = number ∧
      w' = ⟨w.queue.«import» base ⟨hash, commit.data.inserted.map (·.1), commit.data.deleted⟩,
        base⟩ := by
  rw [noteCanonical] at h
  by_cases hstart : w.base = 0 ∧ w.isEmpty = true ∧ 0 < number
  · rw [if_pos hstart] at h
    simp only [pure, Except.pure, bind, Except.bind, Except.ok.injEq, Prod.mk.injEq] at h
    have hempty : w.windowSize = 0 := by simpa [isEmpty] using hstart.2.1
    exact ⟨number, .inr hempty, by omega, h.1.symm⟩
  · rw [if_neg hstart] at h
    by_cases hnext : w.base + w.windowSize ≠ number
    · rw [if_pos hnext] at h
      simp [throw, throwThe, MonadExceptOf.throw] at h
    · rw [if_neg hnext] at h
      simp only [pure, Except.pure, bind, Except.bind, Except.ok.injEq, Prod.mk.injEq] at h
      exact ⟨w.base, .inl rfl, not_not.mp hnext, h.1.symm⟩

/-- `note_canonical` of the block after the window. -/
theorem noteCanonical_of_next {w : RefWindow BlockHash Key}
    (commit : CommitSet BlockHash Key Value) (h : w.base + w.windowSize = number) :
    w.noteCanonical hash number commit =
      .ok (⟨w.queue.«import» w.base ⟨hash, commit.data.inserted.map (·.1), commit.data.deleted⟩,
          w.base⟩,
        { data := { commit.data with deleted := [] }
          «meta» := { commit.«meta» with
            inserted := commit.«meta».inserted ++
              [(.journal number, .journal ⟨hash, commit.data.inserted.map (·.1),
                commit.data.deleted⟩)] } }) := by
  rw [noteCanonical]
  by_cases hstart : w.base = 0 ∧ w.isEmpty = true ∧ 0 < number
  · -- an empty window at zero moves to the block, which is zero
    have hempty : w.windowSize = 0 := by simpa [isEmpty] using hstart.2.1
    omega
  · rw [if_neg hstart, if_neg (not_not.mpr h)]
    rfl

/-- What `prune_one` does when it succeeds: the first death row is added to the deletions. -/
theorem pruneOne_ok (h : w.pruneOne commit = .ok (w', c')) :
    ∃ row, w.queue.popFront = (w'.queue, some row) ∧ w'.base = w.base + 1 ∧
      c'.data.deleted = commit.data.deleted ++ row.deleted := by
  rw [pruneOne] at h
  split at h
  · rename_i queue row hpop
    cases h
    exact ⟨row, hpop, rfl, rfl⟩
  · cases h

def Inv (w : RefWindow BlockHash Key) : Prop := w.queue.Inv w.base

theorem Inv.noteCanonical (hinv : w.Inv)
    (h : w.noteCanonical hash number commit = .ok (w', c')) : w'.Inv := by
  obtain ⟨base, hbase, -, rfl⟩ := noteCanonical_ok h
  apply DeathRowQueue.Inv.import
  rcases hbase with rfl | hempty
  · exact hinv
  · exact DeathRowQueue.Inv.rebase hinv (List.length_eq_zero_iff.mp hempty) base

theorem Inv.pruneOne (hinv : w.Inv) (h : w.pruneOne commit = .ok (w', c')) : w'.Inv := by
  obtain ⟨row, hpop, hbase, -⟩ := pruneOne_ok h
  rw [Inv, hbase]
  exact DeathRowQueue.Inv.popFront hinv hpop

/-- The calls on the window. -/
inductive Call (BlockHash Key Value : Type) where
  | noteCanonical (hash : BlockHash) (number : Nat) (commit : CommitSet BlockHash Key Value)
  | pruneOne (commit : CommitSet BlockHash Key Value)

def Call.apply (w : RefWindow BlockHash Key) :
    Call BlockHash Key Value →
      Except StateDbError (RefWindow BlockHash Key × CommitSet BlockHash Key Value)
  | .noteCanonical hash number commit => w.noteCanonical hash number commit
  | .pruneOne commit => w.pruneOne commit

/-- A call that succeeds; one that fails returns before it changes the window. -/
def Step (Value : Type) (w w' : RefWindow BlockHash Key) : Prop :=
  ∃ (call : Call BlockHash Key Value) (commit : CommitSet BlockHash Key Value),
    call.apply w = .ok (w', commit)

theorem Inv.step (hinv : w.Inv) (h : Step Value w w') :
    w'.Inv := by
  obtain ⟨call, commit, hcall⟩ := h
  cases call with
  | noteCanonical hash number commit => exact hinv.noteCanonical hcall
  | pruneOne commit => exact hinv.pruneOne hcall

variable {db : MetaDb BlockHash Key}

theorem Inv.readJournal :
    ∀ (fuel block : Nat) {q q' : DeathRowQueue BlockHash Key}, q.Inv base →
      readJournal db base fuel block q = .ok q' → q'.Inv base
  | 0, _, _, _, hq, h => by
    cases h
    exact hq
  | fuel + 1, block, q, q', hq, h => by
    rw [RefWindow.readJournal] at h
    split at h
    · cases h
      exact hq
    · cases h
    · exact Inv.readJournal fuel (block + 1) (hq.import _) h

/-- `new` rebuilds a window with the invariant. -/
theorem Inv.new {w : RefWindow BlockHash Key}
    (h : RefWindow.new db = .ok w) : w.Inv := by
  rw [RefWindow.new] at h
  cases hlast : db.lookup .lastPruned with
  | none =>
    cases hread : RefWindow.readJournal db 0 (db.entries.length + 1) 0 DeathRowQueue.empty with
    | error e => simp [hlast, hread, bind, Except.bind, pure, Except.pure] at h
    | ok q =>
      simp only [hlast, hread, bind, Except.bind, pure, Except.pure, Except.ok.injEq] at h
      subst h
      exact Inv.readJournal _ _ (DeathRowQueue.Inv.empty 0) hread
  | some value =>
    cases value with
    | journal record => simp [hlast, bind, Except.bind, throw, throwThe, MonadExceptOf.throw] at h
    | lastPruned number =>
      cases hread : RefWindow.readJournal db (number + 1) (db.entries.length + 1) (number + 1)
          DeathRowQueue.empty with
      | error e => simp [hlast, hread, bind, Except.bind, pure, Except.pure] at h
      | ok q =>
        simp only [hlast, hread, bind, Except.bind, pure, Except.pure, Except.ok.injEq] at h
        subst h
        exact Inv.readJournal _ _ (DeathRowQueue.Inv.empty _) hread

/-- Along every run from a rebuilt window, the index names rows of the window. -/
theorem Inv.reachable {w₀ w : RefWindow BlockHash Key}
    (h₀ : RefWindow.new db = .ok w₀) (hrun : Relation.ReflTransGen (Step Value) w₀ w) : w.Inv := by
  induction hrun with
  | refl => exact Inv.new h₀
  | tail _ hstep ih => exact ih.step hstep

/-- `note_canonical` journals the block's record after the window's. -/
theorem Journaled.noteCanonical (hj : w.queue.Journaled records)
    (h : w.noteCanonical hash number commit = .ok (w', c')) :
    w'.queue.Journaled
      (records ++ [⟨hash, commit.data.inserted.map (·.1), commit.data.deleted⟩]) := by
  obtain ⟨base, -, -, rfl⟩ := noteCanonical_ok h
  exact hj.import _

/-- `prune_one` deletes only keys its block deleted, and every one of them that no later block of
the window inserted. -/
theorem pruneOne_deleted (hj : w.queue.Journaled records)
    (h : w.pruneOne commit = .ok (w', c')) :
    ∃ record rest, records = record :: rest ∧ w'.queue.Journaled rest ∧
      (∀ k ∈ c'.data.deleted, k ∈ commit.data.deleted ∨ k ∈ record.deleted) ∧
      ∀ k ∈ record.deleted, (∀ later ∈ rest, k ∉ later.inserted) → k ∈ c'.data.deleted := by
  obtain ⟨row, hpop, -, hdeleted⟩ := pruneOne_ok h
  obtain ⟨record, rest, rfl, hj', -, hsub, hkeep⟩ := hj.popFront hpop
  refine ⟨record, rest, rfl, hj', ?_, ?_⟩
  · intro k hk
    rw [hdeleted, List.mem_append] at hk
    exact hk.imp id (hsub k)
  · intro k hk hlater
    rw [hdeleted]
    exact List.mem_append_right _ (hkeep k hk hlater)

/-! ## A key deleted twice

A key two blocks delete is indexed at the later one, so a third block inserting it again takes it
off the later row only, and pruning the first block deletes it although it is live; `new` indexes
it at the later block again, so a restarted window prunes otherwise.
-/

/-- Two blocks from any number `n` delete a key and a third inserts it again: pruning the first
deletes it. -/
theorem pruneOne_deletes_reinserted_key (n : Nat) (k : Key) (v : Value)
    (hashA hashB hashC : BlockHash) :
    ∃ (w₁ : RefWindow BlockHash Key) (c₁ : CommitSet BlockHash Key Value),
      (⟨DeathRowQueue.empty, n⟩ : RefWindow BlockHash Key).noteCanonical hashA n
        ⟨⟨[], [k]⟩, ⟨[], []⟩⟩ = .ok (w₁, c₁) ∧
    ∃ (w₂ : RefWindow BlockHash Key) (c₂ : CommitSet BlockHash Key Value),
      w₁.noteCanonical hashB (n + 1) ⟨⟨[], [k]⟩, ⟨[], []⟩⟩ = .ok (w₂, c₂) ∧
    ∃ (w₃ : RefWindow BlockHash Key) (c₃ : CommitSet BlockHash Key Value),
      w₂.noteCanonical hashC (n + 2) ⟨⟨[(k, v)], []⟩, ⟨[], []⟩⟩ = .ok (w₃, c₃) ∧
    ∃ (w₄ : RefWindow BlockHash Key) (c₄ : CommitSet BlockHash Key Value),
      w₃.pruneOne CommitSet.empty = .ok (w₄, c₄) ∧ c₄.data.deleted = [k] := by
  refine ⟨_, _, noteCanonical_of_next _ rfl, _, _, noteCanonical_of_next _ rfl, _, _,
    noteCanonical_of_next _ rfl, ?_⟩
  -- the third block took the key off the second row only
  simp [pruneOne, DeathRowQueue.popFront, DeathRowQueue.«import»,
    DeathRowQueue.removeReinserted, DeathRowQueue.empty, CommitSet.empty]

/-- Blocks 0 and 1 delete key 1 and block 0 is pruned; once block 2 inserts key 1 again, pruning
block 1 deletes it from the running window only, not the rebuilt one. -/
theorem restart_reindexes_pruned_key :
    ∃ (w₁ : RefWindow Nat Nat) (c₁ : CommitSet Nat Nat Nat),
      (⟨DeathRowQueue.empty, 0⟩ : RefWindow Nat Nat).noteCanonical 10 0 ⟨⟨[], [1]⟩, ⟨[], []⟩⟩ =
        .ok (w₁, c₁) ∧
    ∃ (w₂ : RefWindow Nat Nat) (c₂ : CommitSet Nat Nat Nat),
      w₁.noteCanonical 11 1 ⟨⟨[], [1]⟩, ⟨[], []⟩⟩ = .ok (w₂, c₂) ∧
    ∃ (w₃ : RefWindow Nat Nat) (c₃ : CommitSet Nat Nat Nat),
      w₂.pruneOne CommitSet.empty = .ok (w₃, c₃) ∧
    ∃ restored : RefWindow Nat Nat,
      RefWindow.new (applyMeta (applyMeta (applyMeta (∅ : MetaDb Nat Nat) c₁) c₂) c₃) =
        .ok restored ∧
      restored.base = w₃.base ∧ restored.windowSize = w₃.windowSize ∧
      restored.nextHash = w₃.nextHash ∧
    ∃ (w₄ : RefWindow Nat Nat) (c₄ : CommitSet Nat Nat Nat),
      w₃.noteCanonical 12 2 ⟨⟨[(1, 7)], []⟩, ⟨[], []⟩⟩ = .ok (w₄, c₄) ∧
    ∃ (w₅ : RefWindow Nat Nat) (c₅ : CommitSet Nat Nat Nat),
      w₄.pruneOne CommitSet.empty = .ok (w₅, c₅) ∧ c₅.data.deleted = [1] ∧
    ∃ (w₄' : RefWindow Nat Nat) (c₄' : CommitSet Nat Nat Nat),
      restored.noteCanonical 12 2 ⟨⟨[(1, 7)], []⟩, ⟨[], []⟩⟩ = .ok (w₄', c₄') ∧
    ∃ (w₅' : RefWindow Nat Nat) (c₅' : CommitSet Nat Nat Nat),
      w₄'.pruneOne CommitSet.empty = .ok (w₅', c₅') ∧ c₅'.data.deleted = [] := by
  refine ⟨_, _, rfl, _, _, rfl, _, _, rfl, _, rfl, rfl, rfl, rfl, _, _, rfl, _, _, rfl, ?_, _, _,
    rfl, _, _, rfl, ?_⟩
  · decide
  · decide

/-- A prune deletes only keys its block deleted and no later block inserted, but may delete a key a
later block inserted again, and a window rebuilt after a restart may prune otherwise. -/
theorem pruneOne_deletes_reinserted_key_and_restart_differs :
    (∀ (db : MetaDb BlockHash Key) (w₀ w : RefWindow BlockHash Key),
      RefWindow.new db = .ok w₀ → Relation.ReflTransGen (Step Value) w₀ w → w.Inv) ∧
    (∀ (w w' : RefWindow BlockHash Key) (hash : BlockHash) (number : Nat)
      (commit c' : CommitSet BlockHash Key Value) (records : List (JournalRecord BlockHash Key)),
      w.queue.Journaled records → w.noteCanonical hash number commit = .ok (w', c') →
      w'.queue.Journaled
        (records ++ [⟨hash, commit.data.inserted.map (·.1), commit.data.deleted⟩])) ∧
    (∀ (w w' : RefWindow BlockHash Key) (commit c' : CommitSet BlockHash Key Value)
      (records : List (JournalRecord BlockHash Key)),
      w.queue.Journaled records → w.pruneOne commit = .ok (w', c') →
      ∃ record rest, records = record :: rest ∧ w'.queue.Journaled rest ∧
        (∀ k ∈ c'.data.deleted, k ∈ commit.data.deleted ∨ k ∈ record.deleted) ∧
        ∀ k ∈ record.deleted, (∀ later ∈ rest, k ∉ later.inserted) → k ∈ c'.data.deleted) ∧
    (∀ (n : Nat) (k : Key) (v : Value) (hashA hashB hashC : BlockHash),
      ∃ (w₁ : RefWindow BlockHash Key) (c₁ : CommitSet BlockHash Key Value),
        (⟨DeathRowQueue.empty, n⟩ : RefWindow BlockHash Key).noteCanonical hashA n
          ⟨⟨[], [k]⟩, ⟨[], []⟩⟩ = .ok (w₁, c₁) ∧
      ∃ (w₂ : RefWindow BlockHash Key) (c₂ : CommitSet BlockHash Key Value),
        w₁.noteCanonical hashB (n + 1) ⟨⟨[], [k]⟩, ⟨[], []⟩⟩ = .ok (w₂, c₂) ∧
      ∃ (w₃ : RefWindow BlockHash Key) (c₃ : CommitSet BlockHash Key Value),
        w₂.noteCanonical hashC (n + 2) ⟨⟨[(k, v)], []⟩, ⟨[], []⟩⟩ = .ok (w₃, c₃) ∧
      ∃ (w₄ : RefWindow BlockHash Key) (c₄ : CommitSet BlockHash Key Value),
        w₃.pruneOne CommitSet.empty = .ok (w₄, c₄) ∧ c₄.data.deleted = [k]) ∧
    ∃ (w₁ : RefWindow Nat Nat) (c₁ : CommitSet Nat Nat Nat),
      (⟨DeathRowQueue.empty, 0⟩ : RefWindow Nat Nat).noteCanonical 10 0 ⟨⟨[], [1]⟩, ⟨[], []⟩⟩ =
        .ok (w₁, c₁) ∧
    ∃ (w₂ : RefWindow Nat Nat) (c₂ : CommitSet Nat Nat Nat),
      w₁.noteCanonical 11 1 ⟨⟨[], [1]⟩, ⟨[], []⟩⟩ = .ok (w₂, c₂) ∧
    ∃ (w₃ : RefWindow Nat Nat) (c₃ : CommitSet Nat Nat Nat),
      w₂.pruneOne CommitSet.empty = .ok (w₃, c₃) ∧
    ∃ restored : RefWindow Nat Nat,
      RefWindow.new (applyMeta (applyMeta (applyMeta (∅ : MetaDb Nat Nat) c₁) c₂) c₃) =
        .ok restored ∧
      restored.base = w₃.base ∧ restored.windowSize = w₃.windowSize ∧
      restored.nextHash = w₃.nextHash ∧
    ∃ (w₄ : RefWindow Nat Nat) (c₄ : CommitSet Nat Nat Nat),
      w₃.noteCanonical 12 2 ⟨⟨[(1, 7)], []⟩, ⟨[], []⟩⟩ = .ok (w₄, c₄) ∧
    ∃ (w₅ : RefWindow Nat Nat) (c₅ : CommitSet Nat Nat Nat),
      w₄.pruneOne CommitSet.empty = .ok (w₅, c₅) ∧ c₅.data.deleted = [1] ∧
    ∃ (w₄' : RefWindow Nat Nat) (c₄' : CommitSet Nat Nat Nat),
      restored.noteCanonical 12 2 ⟨⟨[(1, 7)], []⟩, ⟨[], []⟩⟩ = .ok (w₄', c₄') ∧
    ∃ (w₅' : RefWindow Nat Nat) (c₅' : CommitSet Nat Nat Nat),
      w₄'.pruneOne CommitSet.empty = .ok (w₅', c₅') ∧ c₅'.data.deleted = [] :=
  ⟨fun _ _ _ h₀ hrun => Inv.reachable h₀ hrun,
    fun _ _ _ _ _ _ _ hj h => Journaled.noteCanonical hj h,
    fun _ _ _ _ _ hj h => pruneOne_deleted hj h,
    pruneOne_deletes_reinserted_key, restart_reindexes_pruned_key⟩

end RefWindow

end Substrate.StateDb.Pruning
