import Mathlib

/-! # The canonicalization window of the state database

`sc_state_db::noncanonical`: level `i` holds the blocks `i` after the last canonicalized one, with
parents, reference-counted values and pins. Every change returns the `CommitSet` to write, from
which `new` rebuilds the overlay. A `HashMap` is an association list, a failed `expect` is `none`,
and `debug_assert`s are left out.
-/

namespace Substrate.StateDb

def maxBlocksPerLevel : Nat := 32

/-- The keys of the meta column: `LAST_CANONICAL`, and the journal record of the block with a
number and a journal index (`to_journal_key`). -/
inductive MetaKey where
  | lastCanonical
  | journal (block index : Nat)
  deriving DecidableEq, Repr

structure JournalRecord (BlockHash Key Value : Type) where
  hash : BlockHash
  parentHash : BlockHash
  inserted : List (Key × Value)
  deleted : List Key
  deriving DecidableEq, Repr

/-- The records of the meta column. -/
inductive MetaValue (BlockHash Key Value : Type) where
  | lastCanonical (hash : BlockHash) (number : Nat)
  | journal (record : JournalRecord BlockHash Key Value)
  deriving DecidableEq, Repr

structure ChangeSet (K V : Type) where
  inserted : List (K × V)
  deleted : List K
  deriving DecidableEq, Repr

structure CommitSet (BlockHash Key Value : Type) where
  data : ChangeSet Key Value
  «meta» : ChangeSet MetaKey (MetaValue BlockHash Key Value)
  deriving DecidableEq, Repr

def CommitSet.empty {BlockHash Key Value : Type} : CommitSet BlockHash Key Value :=
  ⟨⟨[], []⟩, ⟨[], []⟩⟩

/-- The errors of `StateDbError` that the overlay returns; `Decoding` is a meta record of the
wrong kind. -/
inductive StateDbError where
  | decoding
  | invalidBlock
  | invalidBlockNumber
  | invalidParent
  | tooManySiblingBlocks (number : Nat)
  | blockAlreadyExists
  deriving DecidableEq, Repr

structure BlockOverlay (BlockHash Key : Type) where
  hash : BlockHash
  journalIndex : Nat
  journalKey : MetaKey
  inserted : List Key
  deleted : List Key
  deriving DecidableEq, Repr

def trailingOnes (x : BitVec 64) : Nat :=
  ((List.range 64).takeWhile fun i => x.getLsbD i).length

structure OverlayLevel (BlockHash Key : Type) where
  blocks : List (BlockOverlay BlockHash Key)
  usedIndicies : BitVec 64
  deriving DecidableEq, Repr

namespace OverlayLevel

variable {BlockHash Key : Type}

def new : OverlayLevel BlockHash Key := ⟨[], 0⟩

def push (level : OverlayLevel BlockHash Key) (overlay : BlockOverlay BlockHash Key) :
    OverlayLevel BlockHash Key :=
  ⟨level.blocks ++ [overlay], level.usedIndicies ||| (1#64 <<< overlay.journalIndex)⟩

/-- `available_index`: the first journal index that is not used. -/
def availableIndex (level : OverlayLevel BlockHash Key) : Nat :=
  trailingOnes level.usedIndicies

/-- `remove`: the block at a position, whose journal index becomes free; `none` where the position
is out of range. -/
def remove (level : OverlayLevel BlockHash Key) (index : Nat) :
    Option (BlockOverlay BlockHash Key × OverlayLevel BlockHash Key) :=
  match level.blocks[index]? with
  | none => none
  | some overlay =>
      some (overlay, ⟨level.blocks.eraseIdx index,
        level.usedIndicies &&& ~~~(1#64 <<< overlay.journalIndex)⟩)

end OverlayLevel

structure NonCanonicalOverlay (BlockHash Key Value : Type) where
  lastCanonicalized : Option (BlockHash × Nat)
  levels : List (OverlayLevel BlockHash Key)
  parents : AList (fun _ : BlockHash => BlockHash)
  /-- The values inserted by the blocks in the overlay, with a reference count. -/
  values : AList (fun _ : Key => Nat × Value)
  pinned : AList (fun _ : BlockHash => Nat)
  pinnedInsertions : AList (fun _ : BlockHash => List Key × Nat)
  pinnedCanonincalized : List BlockHash

variable {BlockHash Key Value : Type} [DecidableEq BlockHash] [DecidableEq Key]

/-- `insert_values`: each inserted key gains a reference; a new key takes the value inserted. -/
def insertValues (values : AList (fun _ : Key => Nat × Value)) (inserted : List (Key × Value)) :
    AList (fun _ : Key => Nat × Value) :=
  inserted.foldl (fun values kv =>
    match values.lookup kv.1 with
    | some (counter, value) => values.insert kv.1 (counter + 1, value)
    | none => values.insert kv.1 (1, kv.2)) values

/-- `discard_values`: each key loses a reference, and goes when it has none left. -/
def discardValues (values : AList (fun _ : Key => Nat × Value)) (inserted : List Key) :
    AList (fun _ : Key => Nat × Value) :=
  inserted.foldl (fun values k =>
    match values.lookup k with
    | some (counter, value) =>
        if counter - 1 = 0 then values.erase k else values.insert k (counter - 1, value)
    | none => values) values

namespace NonCanonicalOverlay

def empty : NonCanonicalOverlay BlockHash Key Value := ⟨none, [], ∅, ∅, ∅, ∅, []⟩

/-- `front_block_number`: the number of the blocks of level `0`. -/
def frontBlockNumber (o : NonCanonicalOverlay BlockHash Key Value) : Nat :=
  (o.lastCanonicalized.map fun last => last.2 + 1).getD 0

/-! ## `insert` -/

def insertPosition (levels : List (OverlayLevel BlockHash Key)) (frontBlockNumber number : Nat) :
    Option (List (OverlayLevel BlockHash Key) × Nat) :=
  if levels.isEmpty ∨ number = frontBlockNumber + levels.length then
    some (levels ++ [OverlayLevel.new], levels.length)
  else if number < frontBlockNumber then none
  else if number - frontBlockNumber < levels.length then some (levels, number - frontBlockNumber)
  else none

/-- The part of `insert` after its checks: the block goes to its level, a new one for the first
block of its number, and its values are counted. -/
def insertBlock (o : NonCanonicalOverlay BlockHash Key Value) (frontBlockNumber : Nat)
    (hash : BlockHash) (number : Nat) (parentHash : BlockHash) (changeset : ChangeSet Key Value)
    (commit : CommitSet BlockHash Key Value) :
    Option (NonCanonicalOverlay BlockHash Key Value ×
      Except StateDbError (CommitSet BlockHash Key Value)) :=
  match insertPosition o.levels frontBlockNumber number with
  | none => none
  | some (levels, position) =>
      let o := { o with levels }
      match levels[position]? with
      | none => none
      | some level =>
          if maxBlocksPerLevel ≤ level.blocks.length then
            some (o, .error (.tooManySiblingBlocks number))
          else if level.blocks.any fun b => b.hash = hash then some (o, .error .blockAlreadyExists)
          else
            let index := level.availableIndex
            let journalKey := MetaKey.journal number index
            let overlay : BlockOverlay BlockHash Key :=
              ⟨hash, index, journalKey, changeset.inserted.map (·.1), changeset.deleted⟩
            let record : JournalRecord BlockHash Key Value :=
              ⟨hash, parentHash, changeset.inserted, changeset.deleted⟩
            some ({ o with
                levels := levels.set position (level.push overlay)
                parents := o.parents.insert hash parentHash
                values := insertValues o.values changeset.inserted },
              .ok { commit with
                «meta» := { commit.«meta» with
                  inserted := commit.«meta».inserted ++ [(journalKey, .journal record)] } })

/-- `NonCanonicalOverlay::insert`. The first block of a fresh overlay is taken to have a canonical
parent; later ones must be within the window with their parent before them. -/
def insert (o : NonCanonicalOverlay BlockHash Key Value) (hash : BlockHash) (number : Nat)
    (parentHash : BlockHash) (changeset : ChangeSet Key Value) :
    Option (NonCanonicalOverlay BlockHash Key Value ×
      Except StateDbError (CommitSet BlockHash Key Value)) :=
  let frontBlockNumber := o.frontBlockNumber
  if o.levels.isEmpty ∧ o.lastCanonicalized = none ∧ 0 < number then
    -- assume that the parent was canonicalized
    insertBlock { o with lastCanonicalized := some (parentHash, number - 1) } frontBlockNumber hash
      number parentHash changeset
      ⟨⟨[], []⟩, ⟨[(.lastCanonical, .lastCanonical parentHash (number - 1))], []⟩⟩
  else
    match o.lastCanonicalized with
    | none => insertBlock o frontBlockNumber hash number parentHash changeset .empty
    | some (lastHash, lastNumber) =>
        if number < frontBlockNumber ∨ frontBlockNumber + o.levels.length < number then
          some (o, .error .invalidBlockNumber)
        else if number = frontBlockNumber then
          if lastHash = parentHash ∧ lastNumber = number - 1 then
            insertBlock o frontBlockNumber hash number parentHash changeset .empty
          else some (o, .error .invalidParent)
        else if parentHash ∈ o.parents then
          insertBlock o frontBlockNumber hash number parentHash changeset .empty
        else some (o, .error .invalidParent)

/-! ## Discarding -/

/-- `discard_journals`: the journal keys of the descendants of `hash`, level after level, each
child before its own descendants; `none` where a block has no parent entry. -/
def discardJournals (parents : AList (fun _ : BlockHash => BlockHash)) :
    List (OverlayLevel BlockHash Key) → BlockHash → List MetaKey → Option (List MetaKey)
  | [], _, discarded => some discarded
  | level :: rest, hash, discarded =>
      level.blocks.foldlM (fun discarded overlay =>
        match parents.lookup overlay.hash with
        | none => none
        | some parent =>
            if parent = hash then
              discardJournals parents rest overlay.hash (discarded ++ [overlay.journalKey])
            else some discarded) discarded

def childPosition (parents : AList (fun _ : BlockHash => BlockHash)) (hash : BlockHash) :
    List (BlockOverlay BlockHash Key) → Nat → Option (Option Nat)
  | [], _ => some none
  | overlay :: rest, i =>
      match parents.lookup overlay.hash with
      | none => none
      | some parent => if parent = hash then some (some i) else childPosition parents hash rest (i + 1)

/-- The `while let` loop of `discard_descendants` over one level: each child of `hash` goes after
its own descendants; the fuel, one round per block, never runs out. -/
def discardChildren
    (discardRest : List (OverlayLevel BlockHash Key) → NonCanonicalOverlay BlockHash Key Value →
      BlockHash → Option (List (OverlayLevel BlockHash Key) × NonCanonicalOverlay BlockHash Key Value × Nat)) :
    Nat → OverlayLevel BlockHash Key → List (OverlayLevel BlockHash Key) →
      NonCanonicalOverlay BlockHash Key Value → BlockHash → Nat →
        Option (OverlayLevel BlockHash Key × List (OverlayLevel BlockHash Key) ×
          NonCanonicalOverlay BlockHash Key Value × Nat)
  | 0, level, rest, o, _, pinnedChildren => some (level, rest, o, pinnedChildren)
  | fuel + 1, level, rest, o, hash, pinnedChildren =>
      match childPosition o.parents hash level.blocks 0 with
      | none => none
      | some none => some (level, rest, o, pinnedChildren)
      | some (some i) =>
          match level.remove i with
          | none => none
          | some (overlay, level) =>
              match discardRest rest o overlay.hash with
              | none => none
              | some (rest, o, numPinned) =>
                  let numPinned := if overlay.hash ∈ o.pinned then numPinned + 1 else numPinned
                  if numPinned ≠ 0 then
                    -- kept until the pinned blocks are unpinned
                    discardChildren discardRest fuel level rest
                      { o with
                        pinnedInsertions :=
                          o.pinnedInsertions.insert overlay.hash (overlay.inserted, numPinned) }
                      hash (pinnedChildren + numPinned)
                  else
                    discardChildren discardRest fuel level rest
                      { o with
                        parents := o.parents.erase overlay.hash
                        values := discardValues o.values overlay.inserted }
                      hash pinnedChildren

/-- `discard_descendants`: the descendants of `hash`, one level down at a time; returns the levels,
the maps, and the number of pinned descendants. -/
def discardDescendants : Nat → List (OverlayLevel BlockHash Key) →
    NonCanonicalOverlay BlockHash Key Value → BlockHash →
      Option (List (OverlayLevel BlockHash Key) × NonCanonicalOverlay BlockHash Key Value × Nat)
  | _, [], o, _ => some ([], o, 0)
  | 0, levels, o, _ => some (levels, o, 0)
  | depth + 1, level :: rest, o, hash =>
      match discardChildren (discardDescendants depth) level.blocks.length level rest o hash 0 with
      | none => none
      | some (level, rest, o, pinnedChildren) => some (level :: rest, o, pinnedChildren)

/-! ## `canonicalize` -/

/-- The loop of `canonicalize` over the popped level: the canonical block's values go to the commit,
every other block is discarded with its descendants. -/
def canonicalizeEach (index : Nat) :
    List (BlockOverlay BlockHash Key) → Nat → NonCanonicalOverlay BlockHash Key Value →
      CommitSet BlockHash Key Value → List MetaKey →
        Option (NonCanonicalOverlay BlockHash Key Value × CommitSet BlockHash Key Value × List MetaKey)
  | [], _, o, commit, discarded => some (o, commit, discarded)
  | overlay :: rest, i, o, commit, discarded =>
      let step : Option (NonCanonicalOverlay BlockHash Key Value × CommitSet BlockHash Key Value ×
          List MetaKey × Nat) :=
        if i = index then
          match overlay.inserted.mapM fun k => (o.values.lookup k).map fun v => (k, v.2) with
          | none => none
          | some inserted =>
              some (o, { commit with
                data := ⟨commit.data.inserted ++ inserted, commit.data.deleted ++ overlay.deleted⟩ },
                discarded, 0)
        else
          match discardJournals o.parents o.levels overlay.hash discarded with
          | none => none
          | some discarded =>
              match discardDescendants o.levels.length o.levels o overlay.hash with
              | none => none
              | some (levels, o', pinnedChildren) =>
                  some ({ o' with levels }, commit, discarded, pinnedChildren)
      match step with
      | none => none
      | some (o, commit, discarded, pinnedChildren) =>
          let pinnedChildren := if overlay.hash ∈ o.pinned then pinnedChildren + 1 else pinnedChildren
          let o :=
            if pinnedChildren ≠ 0 then
              { o with
                pinnedInsertions :=
                  o.pinnedInsertions.insert overlay.hash (overlay.inserted, pinnedChildren) }
            else
              { o with
                parents := o.parents.erase overlay.hash
                values := discardValues o.values overlay.inserted }
          canonicalizeEach index rest (i + 1) o commit (discarded ++ [overlay.journalKey])

/-- `pin`: one more reference that keeps the block's values in memory. -/
def pin (o : NonCanonicalOverlay BlockHash Key Value) (hash : BlockHash) :
    NonCanonicalOverlay BlockHash Key Value :=
  { o with pinned := o.pinned.insert hash ((o.pinned.lookup hash).getD 0 + 1) }

/-- `canonicalize`: level `0` is popped; `hash` becomes the last canonicalized block, pinned until
`sync`, and the others are discarded with their descendants. -/
def canonicalize (o : NonCanonicalOverlay BlockHash Key Value) (hash : BlockHash)
    (commit : CommitSet BlockHash Key Value) :
    Option (NonCanonicalOverlay BlockHash Key Value × CommitSet BlockHash Key Value ×
      Except StateDbError Nat) :=
  match o.levels with
  | [] => some (o, commit, .error .invalidBlock)
  | level :: rest =>
      let o := { o with levels := rest }
      match level.blocks.findIdx? fun overlay => overlay.hash = hash with
      | none => some (o, commit, .error .invalidBlock)
      | some index =>
          -- no failures are possible beyond this point
          let o := { o.pin hash with pinnedCanonincalized := o.pinnedCanonincalized ++ [hash] }
          match canonicalizeEach index level.blocks 0 o commit [] with
          | none => none
          | some (o, commit, discarded) =>
              let canonicalized := (hash, o.frontBlockNumber)
              some ({ o with lastCanonicalized := some canonicalized },
                { commit with
                  «meta» := ⟨commit.«meta».inserted ++
                      [(.lastCanonical, .lastCanonical canonicalized.1 canonicalized.2)],
                    commit.«meta».deleted ++ discarded⟩ },
                .ok canonicalized.2)

/-! ## `revert_one` and `remove` -/

/-- `revert_one`: the last level goes, with the journals and values of its blocks; `none` when
there is no level. -/
def revertOne (o : NonCanonicalOverlay BlockHash Key Value) :
    NonCanonicalOverlay BlockHash Key Value × Option (CommitSet BlockHash Key Value) :=
  match o.levels.getLast? with
  | none => (o, none)
  | some level =>
      let o := level.blocks.foldl (fun o overlay =>
        { o with
          parents := o.parents.erase overlay.hash
          values := discardValues o.values overlay.inserted }) { o with levels := o.levels.dropLast }
      (o, some ⟨⟨[], []⟩, ⟨[], level.blocks.map (·.journalKey)⟩⟩)

def findLast (hash : BlockHash) (levels : List (OverlayLevel BlockHash Key)) : Option (Nat × Nat) :=
  ((List.range levels.length).reverse.filterMap fun levelIndex =>
    (levels[levelIndex]?.bind fun level => level.blocks.findIdx? fun overlay => overlay.hash = hash).map
      fun index => (levelIndex, index)).head?

/-- `remove`: the block leaves its level, with its journal and values, unless it is below the
last level and some block names it as its parent; an empty last level goes. -/
def remove (o : NonCanonicalOverlay BlockHash Key Value) (hash : BlockHash) :
    Option (NonCanonicalOverlay BlockHash Key Value × Option (CommitSet BlockHash Key Value)) :=
  let removed : Option (NonCanonicalOverlay BlockHash Key Value × List MetaKey) :=
    match findLast hash o.levels with
    | none => some (o, [])
    | some (levelIndex, index) =>
        if levelIndex ≠ o.levels.length - 1 ∧ o.parents.entries.any fun entry => entry.2 = hash then
          -- the block has children
          none
        else
          match o.levels[levelIndex]? with
          | none => some (o, [])
          | some level =>
              match level.remove index with
              | none => some (o, [])
              | some (overlay, level) =>
                  some ({ o with
                      levels := o.levels.set levelIndex level
                      parents := o.parents.erase overlay.hash
                      values := discardValues o.values overlay.inserted },
                    [overlay.journalKey])
  match removed with
  | none => some (o, none)
  | some (o, deleted) =>
      let o :=
        if (o.levels.getLast?.map fun level => level.blocks.isEmpty).getD false then
          { o with levels := o.levels.dropLast }
        else o
      some (o, if deleted.isEmpty then none else some ⟨⟨[], []⟩, ⟨[], deleted⟩⟩)

/-! ## Pinning -/

/-- The walk of `unpin` up the parents: each kept block loses a pinned descendant, its values going
with the last; it stops at a block not kept. -/
def unpinWalk : Nat → NonCanonicalOverlay BlockHash Key Value → Option BlockHash →
    NonCanonicalOverlay BlockHash Key Value
  | 0, o, _ => o
  | _, o, none => o
  | fuel + 1, o, some hash =>
      let parent := o.parents.lookup hash
      match o.pinnedInsertions.lookup hash with
      | none => o
      | some (inserted, count) =>
          if count - 1 = 0 then
            unpinWalk fuel
              { o with
                pinnedInsertions := o.pinnedInsertions.erase hash
                values := discardValues o.values inserted
                parents := o.parents.erase hash }
              parent
          else
            unpinWalk fuel
              { o with pinnedInsertions := o.pinnedInsertions.insert hash (inserted, count - 1) }
              parent

/-- `unpin`: one reference less; when the last one goes, the blocks kept for this one are
released. -/
def unpin (o : NonCanonicalOverlay BlockHash Key Value) (hash : BlockHash) :
    NonCanonicalOverlay BlockHash Key Value :=
  match o.pinned.lookup hash with
  | none => o
  | some refs =>
      if refs - 1 = 0 then
        let o := { o with pinned := o.pinned.erase hash }
        unpinWalk (o.pinnedInsertions.entries.length +
            (o.pinnedInsertions.entries.map fun entry => entry.2.2).sum + 1) o (some hash)
      else { o with pinned := o.pinned.insert hash (refs - 1) }

/-- `sync`: the canonicalized blocks are unpinned once their changes are on disk. -/
def sync (o : NonCanonicalOverlay BlockHash Key Value) : NonCanonicalOverlay BlockHash Key Value :=
  o.pinnedCanonincalized.foldl unpin { o with pinnedCanonincalized := [] }

/-- `NonCanonicalOverlay::get`: the value of a key that a block of the overlay inserted. -/
def get (o : NonCanonicalOverlay BlockHash Key Value) (key : Key) : Option Value :=
  (o.values.lookup key).map Prod.snd

/-- The calls `StateDbSync` makes on the overlay, with the commit sets left out. -/
inductive Call (BlockHash Key Value : Type)
  | insert (hash : BlockHash) (number : Nat) (parentHash : BlockHash) (changeset : ChangeSet Key Value)
  | canonicalize (hash : BlockHash)
  | pin (hash : BlockHash)
  | unpin (hash : BlockHash)
  | sync

/-- One call, whatever it returns; `none` where the source panics. -/
def Call.run : Call BlockHash Key Value → NonCanonicalOverlay BlockHash Key Value →
    Option (NonCanonicalOverlay BlockHash Key Value)
  | .insert hash number parentHash changeset, o =>
      (o.insert hash number parentHash changeset).map Prod.fst
  | .canonicalize hash, o => (o.canonicalize hash .empty).map Prod.fst
  | .pin hash, o => some (o.pin hash)
  | .unpin hash, o => some (o.unpin hash)
  | .sync, o => some o.sync

def runCalls : List (Call BlockHash Key Value) → NonCanonicalOverlay BlockHash Key Value →
    Option (NonCanonicalOverlay BlockHash Key Value)
  | [], o => some o
  | call :: calls, o => (call.run o).bind (runCalls calls)

/-! ## `new` -/

abbrev MetaDb (BlockHash Key Value : Type) := AList (fun _ : MetaKey => MetaValue BlockHash Key Value)

/-- The journal records of one level, read at the journal indices `0 .. 32`. -/
def readLevel (db : MetaDb BlockHash Key Value) (block : Nat) (values : AList (fun _ : Key => Nat × Value))
    (parents : AList (fun _ : BlockHash => BlockHash)) :
    Except StateDbError (OverlayLevel BlockHash Key × AList (fun _ : Key => Nat × Value) ×
      AList (fun _ : BlockHash => BlockHash)) :=
  (List.range maxBlocksPerLevel).foldlM (fun acc index =>
    match db.lookup (.journal block index) with
    | none => .ok acc
    | some (.lastCanonical _ _) => .error .decoding
    | some (.journal record) =>
        let overlay : BlockOverlay BlockHash Key :=
          ⟨record.hash, index, .journal block index, record.inserted.map (·.1), record.deleted⟩
        .ok (acc.1.push overlay, insertValues acc.2.1 record.inserted,
          acc.2.2.insert record.hash record.parentHash)) (OverlayLevel.new, values, parents)

/-- The loop of `new` over the levels from `block` on, until a level without records; its fuel, one
round per record and one more, never runs out. -/
def readLevels (db : MetaDb BlockHash Key Value) : Nat → Nat → List (OverlayLevel BlockHash Key) →
    AList (fun _ : Key => Nat × Value) → AList (fun _ : BlockHash => BlockHash) →
      Except StateDbError (List (OverlayLevel BlockHash Key) × AList (fun _ : Key => Nat × Value) ×
        AList (fun _ : BlockHash => BlockHash))
  | 0, _, levels, values, parents => .ok (levels, values, parents)
  | fuel + 1, block, levels, values, parents =>
      match readLevel db block values parents with
      | .error e => .error e
      | .ok (level, values, parents) =>
          if level.blocks.isEmpty then .ok (levels, values, parents)
          else readLevels db fuel (block + 1) (levels ++ [level]) values parents

/-- `NonCanonicalOverlay::new`: the last canonicalized block, then the journal records of the
levels after it. -/
def new (db : MetaDb BlockHash Key Value) : Except StateDbError (NonCanonicalOverlay BlockHash Key Value) :=
  match db.lookup .lastCanonical with
  | none => .ok empty
  | some (.journal _) => .error .decoding
  | some (.lastCanonical hash block) =>
      match readLevels db (db.entries.length + 1) (block + 1) [] ∅ ∅ with
      | .error e => .error e
      | .ok (levels, values, parents) =>
          .ok ⟨some (hash, block), levels, parents, values, ∅, ∅, []⟩

/-- The meta changes of a commit applied to the meta column: the records inserted, then the keys
deleted. -/
def applyMeta (db : MetaDb BlockHash Key Value) (commit : CommitSet BlockHash Key Value) :
    MetaDb BlockHash Key Value :=
  commit.«meta».deleted.foldl (fun db k => db.erase k)
    (commit.«meta».inserted.foldl (fun db kv => db.insert kv.1 kv.2) db)

/-! ## Failed calls

`insert` returns its errors before it changes anything. `canonicalize` pops the front level
before it looks the block up, so a block not in it costs the level, the commit left as it was.
-/

omit [DecidableEq BlockHash] [DecidableEq Key] in
/-- The level `insert` chooses is a fresh one at the back, or one of a non-empty overlay. -/
theorem insertPosition_cases {levels levels' : List (OverlayLevel BlockHash Key)}
    {f number i : Nat} (h : insertPosition levels f number = some (levels', i)) :
    (levels' = levels ++ [OverlayLevel.new] ∧ i = levels.length) ∨
      (levels' = levels ∧ levels ≠ []) := by
  rw [insertPosition] at h
  split_ifs at h with hnew hlt hin
  · left
    simp only [Option.some.injEq, Prod.mk.injEq] at h
    exact ⟨h.1.symm, h.2.symm⟩
  · right
    simp only [Option.some.injEq, Prod.mk.injEq] at h
    exact ⟨h.1.symm, fun hnil => hnew (Or.inl (by simp [hnil]))⟩

variable {o o' : NonCanonicalOverlay BlockHash Key Value} {e : StateDbError}

theorem insertBlock_eq_error {f number : Nat}
    {hash parentHash : BlockHash} {changeset : ChangeSet Key Value}
    {commit : CommitSet BlockHash Key Value}
    (h : insertBlock o f hash number parentHash changeset commit = some (o', .error e)) :
    o' = o ∧ o.levels ≠ [] := by
  rw [insertBlock] at h
  cases hpos : insertPosition o.levels f number with
  | none => simp [hpos] at h
  | some target =>
    obtain ⟨levels, position⟩ := target
    cases hlevel : levels[position]? with
    | none => simp [hpos, hlevel] at h
    | some level =>
      simp only [hpos, hlevel] at h
      rcases insertPosition_cases hpos with ⟨rfl, rfl⟩ | ⟨rfl, hne⟩
      · -- a fresh level has room and no block
        simp only [List.getElem?_concat_length, Option.some.injEq] at hlevel
        subst hlevel
        simp [OverlayLevel.new, maxBlocksPerLevel] at h
      · -- the level there was: the checks fail before anything changes
        refine ⟨?_, hne⟩
        split_ifs at h
        all_goals simp only [Option.some.injEq, Prod.mk.injEq, reduceCtorEq, and_false] at h
        all_goals exact h.1.symm

/-- A failed `insert` leaves the overlay as it was. -/
theorem insert_eq_error {number : Nat}
    {hash parentHash : BlockHash} {changeset : ChangeSet Key Value}
    (h : o.insert hash number parentHash changeset = some (o', .error e)) : o' = o := by
  rw [insert] at h
  by_cases hfirst : o.levels.isEmpty ∧ o.lastCanonicalized = none ∧ 0 < number
  · -- the overlay is empty, so the block takes a fresh level
    rw [if_pos hfirst] at h
    exact absurd (List.isEmpty_iff.mp hfirst.1) (insertBlock_eq_error h).2
  · rw [if_neg hfirst] at h
    cases hlast : o.lastCanonicalized with
    | none =>
      rw [hlast] at h
      exact (insertBlock_eq_error h).1
    | some last =>
      obtain ⟨lastHash, lastNumber⟩ := last
      simp only [hlast] at h
      split_ifs at h
      all_goals first
        | exact (insertBlock_eq_error h).1
        | (simp only [Option.some.injEq, Prod.mk.injEq] at h; exact h.1.symm)

/-- A failed `canonicalize` leaves the commit as it was, and the overlay without its front
level. -/
theorem canonicalize_eq_error {hash : BlockHash}
    {commit commit' : CommitSet BlockHash Key Value}
    (h : o.canonicalize hash commit = some (o', commit', .error e)) :
    o' = { o with levels := o.levels.tail } ∧ commit' = commit := by
  rw [canonicalize] at h
  cases hlevels : o.levels with
  | nil =>
    simp only [hlevels, Option.some.injEq, Prod.mk.injEq] at h
    obtain ⟨rfl, rfl, -⟩ := h
    exact ⟨by rw [List.tail_nil, ← hlevels], rfl⟩
  | cons level rest =>
    simp only [hlevels] at h
    cases hidx : level.blocks.findIdx? (fun overlay => decide (overlay.hash = hash)) with
    | none =>
      simp only [hidx, Option.some.injEq, Prod.mk.injEq] at h
      obtain ⟨rfl, rfl, -⟩ := h
      exact ⟨rfl, rfl⟩
    | some index =>
      -- past the lookup the call succeeds or panics
      simp only [hidx] at h
      split at h
      · cases h
      · simp only [Option.some.injEq, Prod.mk.injEq, reduceCtorEq, and_false] at h

/-- Of the two calls that can fail, `insert` leaves the overlay as it was, while `canonicalize`
keeps the commit but loses the front level. -/
theorem rejected_calls_keep_overlay_but_front_level :
    (∀ (o o' : NonCanonicalOverlay BlockHash Key Value) (hash : BlockHash) (number : Nat)
        (parentHash : BlockHash) (changeset : ChangeSet Key Value) (e : StateDbError),
        o.insert hash number parentHash changeset = some (o', .error e) → o' = o) ∧
      ∀ (o o' : NonCanonicalOverlay BlockHash Key Value) (hash : BlockHash)
        (commit commit' : CommitSet BlockHash Key Value) (e : StateDbError),
        o.canonicalize hash commit = some (o', commit', .error e) →
          commit' = commit ∧ o' = { o with levels := o.levels.tail } := by
  refine ⟨fun o o' hash number parentHash changeset e h => insert_eq_error h, ?_⟩
  intro o o' hash commit commit' e h
  exact (canonicalize_eq_error h).symm

def unknownCanonicalizeOverlay : NonCanonicalOverlay Nat Nat Nat :=
  ((empty.insert 1 1 0 ⟨[], []⟩).map Prod.fst).getD empty

/-- Canonicalizing the block `2`, which is not there, fails and drops the level of the block `1`,
whose parent entry stays behind. -/
theorem canonicalize_unknown_drops_level :
    ∃ o', unknownCanonicalizeOverlay.canonicalize 2 .empty = some (o', .empty, .error .invalidBlock) ∧
      unknownCanonicalizeOverlay.levels.length = 1 ∧ o'.levels = [] ∧ 1 ∈ o'.parents := by
  obtain ⟨o', hcanon⟩ : ∃ o', unknownCanonicalizeOverlay.canonicalize 2 .empty =
      some (o', .empty, .error .invalidBlock) := ⟨_, rfl⟩
  obtain ⟨-, rfl⟩ :=
    rejected_calls_keep_overlay_but_front_level.2 _ _ 2 .empty .empty .invalidBlock hcanon
  exact ⟨_, hcanon, by decide⟩

def pinnedParentCalls : List (Call Nat Nat Nat) :=
  [.insert 1 1 0 ⟨[(10, 100)], []⟩, .pin 1, .canonicalize 1, .sync,
    .insert 2 2 1 ⟨[(20, 200)], []⟩, .canonicalize 2, .sync]

/-- The second `sync` unpins block `2`, and `unpin` walks on to its parent `1`, discarding its
values while `1` is still pinned: `get` then finds nothing. -/
theorem sync_discards_values_of_pinned_parent :
    (runCalls (pinnedParentCalls.take 4) empty).map (fun o => (o.pinned.lookup 1, o.get 10)) =
        some (some 1, some 100) ∧
      (runCalls pinnedParentCalls empty).map (fun o => (o.pinned.lookup 1, o.get 10)) =
        some (some 1, none) := by
  decide

end NonCanonicalOverlay

end Substrate.StateDb
