import Mathlib

/-! # The transactional overlay of storage changes

`overlayed_changes::changeset`: an `OverlayedMap` keeps the versions of each key and the keys each
open transaction wrote; a commit merges a version into the enclosing one, a rollback drops it. A
`BTreeMap` is an association list in key order, a `HashSet` a list without repeats, a panic `none`.
-/

namespace Substrate.StateMachine

inductive ExecutionMode where
  | client
  | runtime
  deriving DecidableEq, Repr

inductive NoOpenTransaction where
  | noOpenTransaction
  deriving DecidableEq, Repr

inductive AlreadyInRuntime where
  | alreadyInRuntime
  deriving DecidableEq, Repr

inductive NotInRuntime where
  | notInRuntime
  deriving DecidableEq, Repr

/-- `Extrinsics::insert`: an index is not repeated right after itself. -/
def extrinsicsInsert (extrinsics : List Nat) (ext : Nat) : List Nat :=
  if extrinsics.getLast? = some ext then extrinsics else extrinsics ++ [ext]

/-- `InnerValue`: a version of a value, with the extrinsics that wrote it. -/
structure InnerValue (V : Type) where
  value : V
  extrinsics : List Nat
  deriving DecidableEq, Repr

/-- `OverlayedEntry`: the versions of a value, the innermost transaction's last. -/
structure OverlayedEntry (V : Type) where
  transactions : List (InnerValue V)
  deriving DecidableEq, Repr

namespace OverlayedEntry

variable {V : Type}

def valueRef (e : OverlayedEntry V) : Option V := e.transactions.getLast?.map (·.value)

/-- `extrinsics`: the indices of the extrinsics recorded in any version. -/
def extrinsics (e : OverlayedEntry V) : Finset Nat :=
  e.transactions.foldl (fun set tx => set ∪ tx.extrinsics.toFinset) ∅

/-- The last version changed, as through `value_mut` or `transaction_extrinsics_mut`; an entry
without versions is left as it is, and no caller passes one. -/
def modifyLast (f : InnerValue V → InnerValue V) (e : OverlayedEntry V) : OverlayedEntry V :=
  match e.transactions.getLast? with
  | some last => ⟨e.transactions.dropLast ++ [f last]⟩
  | none => e

/-- `set`: a new version for the first write in a transaction, or the last one overwritten. -/
def set (e : OverlayedEntry V) (value : V) (firstWriteInTx : Bool) (atExtrinsic : Option Nat) :
    OverlayedEntry V :=
  let e := if firstWriteInTx || e.transactions.isEmpty then ⟨e.transactions ++ [⟨value, []⟩]⟩
    else e.modifyLast fun tx => { tx with value }
  match atExtrinsic with
  | some extrinsic =>
      e.modifyLast fun tx => { tx with extrinsics := extrinsicsInsert tx.extrinsics extrinsic }
  | none => e

/-- `pop_transaction`: the last version and the entry without it; `none` is the panic. -/
def popTransaction (e : OverlayedEntry V) : Option (InnerValue V × OverlayedEntry V) :=
  e.transactions.getLast?.map fun last => (last, ⟨e.transactions.dropLast⟩)

/-- The merge of a committed version into its predecessor: the predecessor takes its value and
its extrinsics; `none` is the panic of an `expect`. -/
def merge (overlayed : OverlayedEntry V) : Option (OverlayedEntry V) :=
  match overlayed.popTransaction with
  | none => none
  | some (droppedTx, overlayed) =>
      match overlayed.transactions.getLast? with
      | none => none
      | some _ =>
          some (overlayed.modifyLast fun tx => ⟨droppedTx.value, tx.extrinsics ++ droppedTx.extrinsics⟩)

end OverlayedEntry

/-- `insert_dirty`: the key joins the set of the innermost open transaction; whether there is
one and the key was not in it. -/
def insertDirty {K : Type} [DecidableEq K] (sets : List (List K)) (key : K) :
    List (List K) × Bool :=
  match sets.getLast? with
  | none => (sets, false)
  | some set => if key ∈ set then (sets, false) else (sets.dropLast ++ [set ++ [key]], true)

/-- Whether `close_transaction` merges a committed key: it joins the enclosing transaction's dirty
set, which has a version if the key was there; with none left, if it has a second version. -/
def hasPredecessor {K : Type} [DecidableEq K] (dirtyKeys : List (List K)) (key : K) (versions : Nat) : List (List K) × Bool :=
  match dirtyKeys.getLast? with
  | some _ =>
      let (dirtyKeys, inserted) := insertDirty dirtyKeys key
      (dirtyKeys, !inserted)
  | none => (dirtyKeys, decide (1 < versions))

/-- `OverlayedMap`: the versions of each key, and the keys each open transaction wrote, the
innermost last. -/
structure OverlayedMap (K V : Type) where
  changes : AList (fun _ : K => OverlayedEntry V)
  dirtyKeys : List (List K)
  numClientTransactions : Nat
  executionMode : ExecutionMode

namespace OverlayedMap

variable {K V : Type} [DecidableEq K]

def empty : OverlayedMap K V := ⟨∅, [], 0, .client⟩

def transactionDepth (m : OverlayedMap K V) : Nat := m.dirtyKeys.length

/-- `spawn_child`: no change, at the same depth and mode. -/
def spawnChild (m : OverlayedMap K V) : OverlayedMap K V :=
  ⟨∅, List.replicate m.transactionDepth [], m.numClientTransactions, m.executionMode⟩

def isEmpty (m : OverlayedMap K V) : Bool := m.changes.keys.isEmpty

def get (m : OverlayedMap K V) (key : K) : Option (OverlayedEntry V) := m.changes.lookup key

def set (m : OverlayedMap K V) (key : K) (value : V) (atExtrinsic : Option Nat) :
    OverlayedMap K V :=
  let overlayed := (m.changes.lookup key).getD ⟨[]⟩
  let (dirtyKeys, firstWriteInTx) := insertDirty m.dirtyKeys key
  { m with
    changes := m.changes.insert key (overlayed.set value firstWriteInTx atExtrinsic)
    dirtyKeys }

def startTransaction (m : OverlayedMap K V) : OverlayedMap K V :=
  { m with dirtyKeys := m.dirtyKeys ++ [[]] }

def hasOpenRuntimeTransactions (m : OverlayedMap K V) : Bool :=
  decide (m.numClientTransactions < m.transactionDepth)

/-- One key of the set `close_transaction` pops: rolled back, its last version goes; committed, it
merges into the one before. `none` is a failed `expect`. -/
def closeKey (rollback : Bool)
    (acc : AList (fun _ : K => OverlayedEntry V) × List (List K)) (key : K) :
    Option (AList (fun _ : K => OverlayedEntry V) × List (List K)) :=
  let (changes, dirtyKeys) := acc
  match changes.lookup key with
  | none => none
  | some overlayed =>
      if rollback then
        match overlayed.popTransaction with
        | none => none
        | some (_, overlayed) =>
            if overlayed.transactions.isEmpty then some (changes.erase key, dirtyKeys)
            else some (changes.insert key overlayed, dirtyKeys)
      else
        let (dirtyKeys, predecessor) := hasPredecessor dirtyKeys key overlayed.transactions.length
        if predecessor then
          overlayed.merge.map fun overlayed => (changes.insert key overlayed, dirtyKeys)
        else some (changes, dirtyKeys)

/-- `close_transaction`: in runtime mode the client's transactions are protected. -/
def closeTransaction (m : OverlayedMap K V) (rollback : Bool) :
    Option (Except NoOpenTransaction (OverlayedMap K V)) :=
  if m.executionMode = .runtime ∧ m.hasOpenRuntimeTransactions = false then
    some (.error .noOpenTransaction)
  else
    match m.dirtyKeys.getLast? with
    | none => some (.error .noOpenTransaction)
    | some keys =>
        (keys.foldlM (closeKey rollback) (m.changes, m.dirtyKeys.dropLast)).map
          fun (changes, dirtyKeys) => .ok { m with changes, dirtyKeys }

def rollbackTransaction (m : OverlayedMap K V) : Option (Except NoOpenTransaction (OverlayedMap K V)) :=
  m.closeTransaction true

def commitTransaction (m : OverlayedMap K V) : Option (Except NoOpenTransaction (OverlayedMap K V)) :=
  m.closeTransaction false

/-- `enter_runtime`: the open transactions become the client's. -/
def enterRuntime (m : OverlayedMap K V) : Except AlreadyInRuntime (OverlayedMap K V) :=
  if m.executionMode = .runtime then .error .alreadyInRuntime
  else .ok { m with executionMode := .runtime, numClientTransactions := m.transactionDepth }

/-- The loop of `exit_runtime`: the runtime's open transactions are rolled back, and the `expect`
holds while one is open; the fuel, the depth, never runs out. -/
def rollbackRuntimeTransactions : Nat → OverlayedMap K V → Option (OverlayedMap K V)
  | 0, m => some m
  | fuel + 1, m =>
      if m.hasOpenRuntimeTransactions then
        match m.rollbackTransaction with
        | some (.ok m) => rollbackRuntimeTransactions fuel m
        | _ => none
      else some m

def exitRuntime (m : OverlayedMap K V) : Option (Except NotInRuntime (OverlayedMap K V)) :=
  if m.executionMode = .client then some (.error .notInRuntime)
  else
    let m := { m with executionMode := .client }
    (rollbackRuntimeTransactions m.transactionDepth m).map .ok

/-- `drain_commited`: the last version of each key, in key order; it asserts that no
transaction is open. -/
def drainCommited [LinearOrder K] (m : OverlayedMap K V) : Option (List (K × V)) :=
  if m.transactionDepth ≠ 0 then none
  else
    (m.changes.entries.insertionSort fun a b => a.1 ≤ b.1).mapM fun entry =>
      entry.2.popTransaction.map fun popped => (entry.1, popped.1.value)

/-! ## The change set of storage values -/

variable {W : Type}

/-- The first half of `modify`: the current value, or `init` for an entry without one, is
copied into a new version for the first write in a transaction. -/
def cloneIntoNewTx (overlayed : OverlayedEntry (Option W)) (init : W) (firstWriteInTx : Bool)
    (atExtrinsic : Option Nat) : OverlayedEntry (Option W) :=
  let cloneIntoNewTx : Option (Option W) :=
    match overlayed.transactions.getLast? with
    | some tx => if firstWriteInTx then some tx.value else none
    | none => some (some init)
  match cloneIntoNewTx with
  | some cloned => overlayed.set cloned firstWriteInTx atExtrinsic
  | none => overlayed

/-- `modify`: `mutate`, the caller's change through the reference returned, is applied to the
version `cloneIntoNewTx` prepares. -/
def modify (m : OverlayedMap K (Option W)) (key : K) (init : W) (atExtrinsic : Option Nat)
    (mutate : Option W → Option W) : OverlayedMap K (Option W) :=
  let overlayed := (m.changes.lookup key).getD ⟨[]⟩
  let (dirtyKeys, firstWriteInTx) := insertDirty m.dirtyKeys key
  let overlayed := cloneIntoNewTx overlayed init firstWriteInTx atExtrinsic
  { m with
    changes := m.changes.insert key (overlayed.modifyLast fun tx => { tx with value := mutate tx.value })
    dirtyKeys }

def clearEntry (predicate : K → Bool) (atExtrinsic : Option Nat)
    (acc : OverlayedMap K (Option W) × Nat) (entry : Sigma fun _ : K => OverlayedEntry (Option W)) :
    Option (OverlayedMap K (Option W) × Nat) :=
  let (m, count) := acc
  if predicate entry.1 then
    match entry.2.valueRef with
    | none => none
    | some value =>
        let count := if value.isSome then count + 1 else count
        let (dirtyKeys, firstWriteInTx) := insertDirty m.dirtyKeys entry.1
        some ({ m with
          changes := m.changes.insert entry.1 (entry.2.set none firstWriteInTx atExtrinsic)
          dirtyKeys }, count)
  else some (m, count)

/-- `clear_where`: every matching key is deleted; the keys that had a value are counted. -/
def clearWhere (m : OverlayedMap K (Option W)) (predicate : K → Bool) (atExtrinsic : Option Nat) :
    Option (OverlayedMap K (Option W) × Nat) :=
  m.changes.entries.foldlM (clearEntry predicate atExtrinsic) (m, 0)

end OverlayedMap

end Substrate.StateMachine
