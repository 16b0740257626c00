import Substrate.StateMachine.Changeset

/-! # The overlay of the state machine

`OverlayedChanges`: the change sets of the top-level storage, each child trie and the offchain
storage, under transactions moving in lockstep. A child left empty by a rollback is dropped; the
statistics are left out.
-/

namespace Substrate.StateMachine

abbrev StorageKey := List UInt8

abbrev StorageValue := List UInt8

abbrev OverlayedChangeSet := OverlayedMap StorageKey (Option StorageValue)

inductive OffchainOverlayedChange where
  | remove
  | setValue (value : List UInt8)
  deriving DecidableEq, Repr

abbrev OffchainOverlayedChanges := OverlayedMap (List UInt8 × List UInt8) OffchainOverlayedChange

def OffchainOverlayedChange.ofValue : Option (List UInt8) → OffchainOverlayedChange
  | some value => .setValue value
  | none => .remove

def storagePrefix : List UInt8 := [115, 116, 111, 114, 97, 103, 101]

structure OverlayedChanges where
  top : OverlayedChangeSet
  children : AList (fun _ : StorageKey => OverlayedChangeSet)
  offchain : OffchainOverlayedChanges

namespace OverlayedChanges

def empty : OverlayedChanges := ⟨.empty, ∅, .empty⟩

def transactionDepth (c : OverlayedChanges) : Nat := c.top.transactionDepth

/-- `storage`: `none` where the overlay has no entry for the key, `some none` for a deletion. -/
def storage (c : OverlayedChanges) (key : StorageKey) : Option (Option StorageValue) :=
  (c.top.get key).bind OverlayedEntry.valueRef

def childStorage (c : OverlayedChanges) (storageKey key : StorageKey) :
    Option (Option StorageValue) :=
  (c.children.lookup storageKey).bind fun changeset => (changeset.get key).bind OverlayedEntry.valueRef

def setStorage (c : OverlayedChanges) (key : StorageKey) (value : Option StorageValue)
    (extrinsicIndex : Option Nat) : OverlayedChanges :=
  { c with top := c.top.set key value extrinsicIndex }

/-- The change set of a child, spawned from the top one when it has none yet:
`entry(storage_key).or_insert_with(|| top.spawn_child())`. -/
def childChangeset (c : OverlayedChanges) (storageKey : StorageKey) : OverlayedChangeSet :=
  (c.children.lookup storageKey).getD c.top.spawnChild

def setChildStorage (c : OverlayedChanges) (storageKey key : StorageKey)
    (value : Option StorageValue) (extrinsicIndex : Option Nat) : OverlayedChanges :=
  let changeset := (c.childChangeset storageKey).set key value extrinsicIndex
  { c with children := c.children.insert storageKey changeset }

def clearChildWhere (c : OverlayedChanges) (storageKey : StorageKey) (predicate : StorageKey → Bool)
    (extrinsicIndex : Option Nat) : Option (OverlayedChanges × Nat) :=
  ((c.childChangeset storageKey).clearWhere predicate extrinsicIndex).map fun (changeset, count) =>
    ({ c with children := c.children.insert storageKey changeset }, count)

def clearChildStorage (c : OverlayedChanges) (storageKey : StorageKey) (extrinsicIndex : Option Nat) :
    Option (OverlayedChanges × Nat) :=
  c.clearChildWhere storageKey (fun _ => true) extrinsicIndex

def clearPrefix (c : OverlayedChanges) (pfx : List UInt8) (extrinsicIndex : Option Nat) :
    Option (OverlayedChanges × Nat) :=
  (c.top.clearWhere (fun key => pfx.isPrefixOf key) extrinsicIndex).map fun (top, count) =>
    ({ c with top }, count)

def clearChildPrefix (c : OverlayedChanges) (storageKey : StorageKey) (pfx : List UInt8)
    (extrinsicIndex : Option Nat) : Option (OverlayedChanges × Nat) :=
  c.clearChildWhere storageKey (fun key => pfx.isPrefixOf key) extrinsicIndex

/-- `set_offchain_storage`: under `STORAGE_PREFIX`, with no extrinsic recorded. -/
def setOffchainStorage (c : OverlayedChanges) (key : List UInt8) (value : Option (List UInt8)) :
    OverlayedChanges :=
  { c with offchain := c.offchain.set (storagePrefix, key) (.ofValue value) none }

def mapChildren (f : OverlayedChangeSet → OverlayedChangeSet)
    (children : AList (fun _ : StorageKey => OverlayedChangeSet)) :
    AList (fun _ : StorageKey => OverlayedChangeSet) :=
  ⟨children.entries.map fun child => ⟨child.1, f child.2⟩, by
    simpa [List.NodupKeys, List.keys, Function.comp_def] using children.nodupKeys⟩

/-- One body of a loop over the children, which may panic (`none`), keep the child changed
(`some (some changeset)`) or drop it (`some none`). -/
def retainChild (f : OverlayedChangeSet → Option (Option OverlayedChangeSet))
    (acc : AList (fun _ : StorageKey => OverlayedChangeSet))
    (child : Sigma fun _ : StorageKey => OverlayedChangeSet) :
    Option (AList (fun _ : StorageKey => OverlayedChangeSet)) :=
  (f child.2).map fun kept => kept.elim acc (acc.insert child.1)

def retainChildren (f : OverlayedChangeSet → Option (Option OverlayedChangeSet))
    (children : AList (fun _ : StorageKey => OverlayedChangeSet)) :
    Option (AList (fun _ : StorageKey => OverlayedChangeSet)) :=
  children.entries.foldlM (retainChild f) ∅

def startTransaction (c : OverlayedChanges) : OverlayedChanges :=
  ⟨c.top.startTransaction, mapChildren OverlayedMap.startTransaction c.children,
    c.offchain.startTransaction⟩

def expectChild {ε : Type} : Option (Except ε OverlayedChangeSet) → Option (Option OverlayedChangeSet)
  | some (.ok changeset) => some (some changeset)
  | _ => none

def rollbackChild (changeset : OverlayedChangeSet) : Option (Option OverlayedChangeSet) :=
  match changeset.rollbackTransaction with
  | some (.ok changeset) => some (if changeset.isEmpty then none else some changeset)
  | _ => none

def commitChild (changeset : OverlayedChangeSet) : Option (Option OverlayedChangeSet) :=
  expectChild changeset.commitTransaction

def enterChild (changeset : OverlayedChangeSet) : Option (Option OverlayedChangeSet) :=
  expectChild (some changeset.enterRuntime)

def exitChild (changeset : OverlayedChangeSet) : Option (Option OverlayedChangeSet) :=
  expectChild changeset.exitRuntime

/-- The shape of the transaction calls: the top change set's, whose error is returned, then every
child's and the offchain set's; a later refusal is the `expect`'s panic, `none`. -/
def lockstep {ε : Type} (top : Option (Except ε OverlayedChangeSet))
    (child : OverlayedChangeSet → Option (Option OverlayedChangeSet))
    (offchain : Option (Except ε OffchainOverlayedChanges))
    (children : AList (fun _ : StorageKey => OverlayedChangeSet)) :
    Option (Except ε OverlayedChanges) :=
  match top with
  | none => none
  | some (.error e) => some (.error e)
  | some (.ok top) =>
      (retainChildren child children).bind fun children =>
        match offchain with
        | some (.ok offchain) => some (.ok ⟨top, children, offchain⟩)
        | _ => none

def rollbackTransaction (c : OverlayedChanges) : Option (Except NoOpenTransaction OverlayedChanges) :=
  lockstep c.top.rollbackTransaction rollbackChild c.offchain.rollbackTransaction c.children

def commitTransaction (c : OverlayedChanges) : Option (Except NoOpenTransaction OverlayedChanges) :=
  lockstep c.top.commitTransaction commitChild c.offchain.commitTransaction c.children

def enterRuntime (c : OverlayedChanges) : Option (Except AlreadyInRuntime OverlayedChanges) :=
  lockstep (some c.top.enterRuntime) enterChild (some c.offchain.enterRuntime) c.children

def exitRuntime (c : OverlayedChanges) : Option (Except NotInRuntime OverlayedChanges) :=
  lockstep c.top.exitRuntime exitChild c.offchain.exitRuntime c.children

end OverlayedChanges

end Substrate.StateMachine
