import Substrate.StateMachine.OverlayedChanges
import Substrate.StateMachine.Transactions

/-! # The overlay refines the storage under transactions

Every call keeps the relation of the change sets to `Model`, the storage and offchain storage under
transactions, returns what the model returns and does not panic.
-/

namespace Substrate.StateMachine

namespace OverlayedChanges

abbrev Key := Option StorageKey × StorageKey

/-- The meaning of `OverlayedChanges`. -/
structure Model where
  storage : Transactions Key (Option StorageValue)
  offchain : Transactions (List UInt8 × List UInt8) OffchainOverlayedChange

namespace Model

def empty : Model := ⟨.empty, .empty⟩

def both {ε : Type} : Except ε (Transactions Key (Option StorageValue)) →
    Except ε (Transactions (List UInt8 × List UInt8) OffchainOverlayedChange) → Except ε Model
  | .ok storage, .ok offchain => .ok ⟨storage, offchain⟩
  | .error e, _ => .error e
  | .ok _, .error e => .error e

def set (M : Model) (key : Key) (value : Option StorageValue) : Model :=
  { M with storage := M.storage.set key value }

def clearWhere (M : Model) (predicate : Key → Bool) : Model :=
  { M with storage := M.storage.clearWhere predicate }

def setOffchain (M : Model) (key : List UInt8 × List UInt8) (change : OffchainOverlayedChange) :
    Model :=
  { M with offchain := M.offchain.set key change }

def start (M : Model) : Model := ⟨M.storage.start, M.offchain.start⟩

def close (M : Model) (rollback : Bool) : Except NoOpenTransaction Model :=
  both (M.storage.close rollback) (M.offchain.close rollback)

def enterRuntime (M : Model) : Except AlreadyInRuntime Model :=
  both M.storage.enterRuntime M.offchain.enterRuntime

def exitRuntime (M : Model) : Except NotInRuntime Model :=
  both M.storage.exitRuntime M.offchain.exitRuntime

end Model

def inTrie (child : Option StorageKey) (predicate : StorageKey → Bool) (key : Key) : Bool :=
  decide (key.1 = child) && predicate key.2

theorem inTrie_comp (child : Option StorageKey) (predicate : StorageKey → Bool) :
    inTrie child predicate ∘ (child, ·) = predicate := by
  funext k
  simp [inTrie]

theorem inTrie_of_ne {child child' : Option StorageKey} (hne : child' ≠ child)
    (predicate : StorageKey → Bool) (k : StorageKey) : inTrie child predicate (child', k) = false := by
  simp [inTrie, hne]

theorem exists_of_inTrie {child : Option StorageKey} {predicate : StorageKey → Bool} {key : Key}
    (h : inTrie child predicate key = true) : ∃ k, (child, k) = key := by
  simp only [inTrie, Bool.and_eq_true, decide_eq_true_eq] at h
  exact ⟨key.2, by rw [← h.1]⟩

/-! ## The refinement -/

/-- What a child has agrees with its part of the storage: a change set that keeps its invariant
and means that part, or none where that part has no value at any level. -/
def ChildAgrees (part : Transactions StorageKey (Option StorageValue)) :
    Option OverlayedChangeSet → Prop
  | some changeset => changeset.Inv ∧ StateMachine.Refines changeset part
  | none => ∀ k, part.Unwritten k

/-- Every child agrees with the storage read under its storage key. -/
def ChildrenRefine (children : AList (fun _ : StorageKey => OverlayedChangeSet))
    (t : Transactions Key (Option StorageValue)) : Prop :=
  ∀ storageKey, ChildAgrees (t.comap (some storageKey, ·)) (children.lookup storageKey)

/-- The overlay `c` means the model `M`, and every change set keeps its invariant. -/
structure Refines (c : OverlayedChanges) (M : Model) : Prop where
  topInv : c.top.Inv
  top : StateMachine.Refines c.top (M.storage.comap (none, ·))
  children : ChildrenRefine c.children M.storage
  offchainInv : c.offchain.Inv
  offchain : StateMachine.Refines c.offchain M.offchain
  aligned : M.offchain.control = M.storage.control

theorem Refines.empty : Refines empty Model.empty where
  topInv := OverlayedMap.Inv.empty
  top := StateMachine.Refines.empty
  children := fun _ _ => Transactions.unwritten_empty _
  offchainInv := OverlayedMap.Inv.empty
  offchain := StateMachine.Refines.empty
  aligned := rfl

/-! ### The children -/

namespace ChildrenRefine

variable {children : AList (fun _ : StorageKey => OverlayedChangeSet)}
  {t t' : Transactions Key (Option StorageValue)}

/-- Children keep agreeing with a model whose parts under their keys do not change. -/
theorem of_comap_eq (h : ChildrenRefine children t)
    (heq : ∀ storageKey, t'.comap (some storageKey, ·) = t.comap (some storageKey, ·)) :
    ChildrenRefine children t' := by
  intro storageKey
  rw [heq storageKey]
  exact h storageKey

theorem insert (h : ChildrenRefine children t) {storageKey : StorageKey}
    {changeset : OverlayedChangeSet}
    (hchangeset : ChildAgrees (t'.comap (some storageKey, ·)) (some changeset))
    (hother : ∀ storageKey' ≠ storageKey,
      t'.comap (some storageKey', ·) = t.comap (some storageKey', ·)) :
    ChildrenRefine (children.insert storageKey changeset) t' := by
  intro storageKey'
  by_cases hkey : storageKey' = storageKey
  · subst hkey
    rw [AList.lookup_insert]
    exact hchangeset
  · rw [AList.lookup_insert_ne hkey, hother storageKey' hkey]
    exact h storageKey'

end ChildrenRefine

theorem lookup_mapChildren (f : OverlayedChangeSet → OverlayedChangeSet)
    (children : AList (fun _ : StorageKey => OverlayedChangeSet)) (storageKey : StorageKey) :
    (mapChildren f children).lookup storageKey = (children.lookup storageKey).map f :=
  List.dlookup_map₂ (l := children.entries) (f := fun _ => f) storageKey

/-- A body of the loop changes what the loop has only under the child's key. -/
theorem retainChild_frame (f : OverlayedChangeSet → Option (Option OverlayedChangeSet)) :
    ∀ (acc : AList (fun _ : StorageKey => OverlayedChangeSet)) child acc' storageKey,
      retainChild f acc child = some acc' → storageKey ≠ child.1 →
        acc'.lookup storageKey = acc.lookup storageKey := by
  intro acc child acc' storageKey h hne
  obtain ⟨kept, -, rfl⟩ := Option.map_eq_some_iff.mp h
  cases kept with
  | none => rfl
  | some changeset => exact AList.lookup_insert_ne hne

/-- Under the child's key a body of the loop leaves the child changed, or what was there. -/
theorem retainChild_self (f : OverlayedChangeSet → Option (Option OverlayedChangeSet)) :
    ∀ (acc : AList (fun _ : StorageKey => OverlayedChangeSet)) child acc',
      retainChild f acc child = some acc' →
        acc'.lookup child.1 = ((f child.2).join).or (acc.lookup child.1) := by
  intro acc child acc' h
  obtain ⟨kept, hkept, rfl⟩ := Option.map_eq_some_iff.mp h
  cases kept with
  | none => simp [hkept]
  | some changeset => simp [hkept, AList.lookup_insert]

/-- What the loop over the children keeps of each. -/
theorem lookup_retainChildren {f : OverlayedChangeSet → Option (Option OverlayedChangeSet)}
    {children children' : AList (fun _ : StorageKey => OverlayedChangeSet)}
    (h : retainChildren f children = some children') (storageKey : StorageKey) :
    children'.lookup storageKey = (children.lookup storageKey).bind fun changeset => (f changeset).join := by
  cases hlookup : children.lookup storageKey with
  | none =>
    -- no body has the key
    have hkey : storageKey ∉ children.entries.map Sigma.fst :=
      fun hmem => (AList.lookup_eq_none.mp hlookup) (AList.mem_keys.mpr hmem)
    rw [Fold.foldlM_obs_of_not_mem Sigma.fst (fun acc k => AList.lookup k acc)
      (retainChild_frame f) _ _ _ h storageKey hkey]
    rfl
  | some changeset =>
    rw [Fold.foldlM_obs_of_mem Sigma.fst (fun acc k => AList.lookup k acc) (retainChild_frame f)
      (fun child found => ((f child.2).join).or found) (retainChild_self f) _ _ _
      children.nodupKeys h ⟨storageKey, changeset⟩ (AList.mem_lookup_iff.mp hlookup)]
    simp

/-- Children that each agree after their body keep agreeing after the loop, which does not
panic. -/
theorem ChildrenRefine.retainChildren {children : AList (fun _ : StorageKey => OverlayedChangeSet)}
    {t t' : Transactions Key (Option StorageValue)} (h : ChildrenRefine children t)
    {f : OverlayedChangeSet → Option (Option OverlayedChangeSet)}
    (hstep : ∀ storageKey changeset, ChildAgrees (t.comap (some storageKey, ·)) (some changeset) →
      ∃ kept, f changeset = some kept ∧ ChildAgrees (t'.comap (some storageKey, ·)) kept)
    (habsent : ∀ storageKey, ChildAgrees (t.comap (some storageKey, ·)) none →
      ChildAgrees (t'.comap (some storageKey, ·)) none) :
    ∃ children', OverlayedChanges.retainChildren f children = some children' ∧
      ChildrenRefine children' t' := by
  have hchild : ∀ child ∈ children.entries, ∃ kept, f child.2 = some kept ∧
      ChildAgrees (t'.comap (some child.1, ·)) kept := by
    intro child hmem
    have hagrees := h child.1
    rw [AList.mem_lookup_iff.mpr hmem] at hagrees
    exact hstep child.1 child.2 hagrees
  obtain ⟨children', hloop⟩ := Fold.foldlM_isSome Sigma.fst (fun acc k => AList.lookup k acc)
    (retainChild_frame f) (fun child _ => (f child.2).isSome)
    (fun acc child hsome => by
      obtain ⟨kept, hkept⟩ := Option.isSome_iff_exists.mp hsome
      exact ⟨kept.elim acc (acc.insert child.1), by rw [retainChild, hkept]; rfl⟩)
    children.entries ∅ children.nodupKeys
    (fun child hmem => by
      obtain ⟨kept, hkept, -⟩ := hchild child hmem
      simp [hkept])
  refine ⟨children', hloop, fun storageKey => ?_⟩
  rw [lookup_retainChildren hloop storageKey]
  cases hlookup : children.lookup storageKey with
  | none =>
    have hagrees := h storageKey
    rw [hlookup] at hagrees
    exact habsent storageKey hagrees
  | some changeset =>
    obtain ⟨kept, hkept, hagrees⟩ := hchild ⟨storageKey, changeset⟩ (AList.mem_lookup_iff.mp hlookup)
    rw [Option.bind_some, hkept, Option.join_some]
    exact hagrees

/-! ### A child's change set under a call -/

namespace ChildAgrees

variable {part part' : Transactions StorageKey (Option StorageValue)} {changeset : OverlayedChangeSet}

/-- A change set with no entry means a part with no value at any level. -/
theorem of_isEmpty (hr : StateMachine.Refines changeset part) (hempty : changeset.isEmpty = true) :
    ChildAgrees part none := by
  intro k x hx
  rw [← hr.levels k, OverlayedMap.levels_of_isEmpty hempty] at hx
  exact List.eq_of_mem_replicate hx

theorem close (h : ChildAgrees part (some changeset)) {rollback : Bool}
    (hpart : part.close rollback = .ok part') :
    ∃ changeset', changeset.closeTransaction rollback = some (.ok changeset') ∧
      ChildAgrees part' (some changeset') := by
  obtain ⟨r, hclose, hagrees⟩ := h.2.closeAgrees h.1 rollback
  rw [hpart] at hagrees
  obtain ⟨changeset', rfl, hagrees'⟩ := Agrees.of_ok hagrees
  exact ⟨changeset', hclose, hagrees'⟩

theorem enterRuntime (h : ChildAgrees part (some changeset)) (hpart : part.enterRuntime = .ok part') :
    ∃ changeset', changeset.enterRuntime = .ok changeset' ∧ ChildAgrees part' (some changeset') := by
  have hagrees := h.2.enterAgrees h.1
  rw [hpart] at hagrees
  obtain ⟨changeset', henter, hagrees'⟩ := Agrees.of_ok hagrees
  exact ⟨changeset', henter, hagrees'⟩

theorem exitRuntime (h : ChildAgrees part (some changeset)) (hpart : part.exitRuntime = .ok part') :
    ∃ changeset', changeset.exitRuntime = some (.ok changeset') ∧
      ChildAgrees part' (some changeset') := by
  obtain ⟨r, hexit, hagrees⟩ := h.2.exitAgrees h.1
  rw [hpart] at hagrees
  obtain ⟨changeset', rfl, hagrees'⟩ := Agrees.of_ok hagrees
  exact ⟨changeset', hexit, hagrees'⟩

/-- The loop body of `rollback_transaction`: a child left empty is dropped. -/
theorem rollbackChild (h : ChildAgrees part (some changeset)) (hpart : part.close true = .ok part') :
    ∃ kept, OverlayedChanges.rollbackChild changeset = some kept ∧ ChildAgrees part' kept := by
  obtain ⟨changeset', hclose, hinv, hr⟩ := h.close hpart
  refine ⟨if changeset'.isEmpty then none else some changeset', ?_, ?_⟩
  · rw [OverlayedChanges.rollbackChild, OverlayedMap.rollbackTransaction, hclose]
  · split
    · next hempty => exact of_isEmpty hr hempty
    · exact ⟨hinv, hr⟩

theorem commitChild (h : ChildAgrees part (some changeset)) (hpart : part.close false = .ok part') :
    ∃ kept, OverlayedChanges.commitChild changeset = some kept ∧ ChildAgrees part' kept := by
  obtain ⟨changeset', hclose, hagrees⟩ := h.close hpart
  exact ⟨some changeset', by rw [OverlayedChanges.commitChild, OverlayedMap.commitTransaction, hclose]; rfl,
    hagrees⟩

theorem enterChild (h : ChildAgrees part (some changeset)) (hpart : part.enterRuntime = .ok part') :
    ∃ kept, OverlayedChanges.enterChild changeset = some kept ∧ ChildAgrees part' kept := by
  obtain ⟨changeset', henter, hagrees⟩ := h.enterRuntime hpart
  exact ⟨some changeset', by rw [OverlayedChanges.enterChild, henter]; rfl, hagrees⟩

theorem exitChild (h : ChildAgrees part (some changeset)) (hpart : part.exitRuntime = .ok part') :
    ∃ kept, OverlayedChanges.exitChild changeset = some kept ∧ ChildAgrees part' kept := by
  obtain ⟨changeset', hexit, hagrees⟩ := h.exitRuntime hpart
  exact ⟨some changeset', by rw [OverlayedChanges.exitChild, hexit]; rfl, hagrees⟩

end ChildAgrees

/-! ### Each call -/

namespace Refines

variable {c : OverlayedChanges} {M : Model}

/-- The change set of a child, spawned from the top one where it has none, agrees with its
part. -/
theorem childChangeset (hR : Refines c M) (storageKey : StorageKey) :
    ChildAgrees (M.storage.comap (some storageKey, ·)) (some (c.childChangeset storageKey)) := by
  have hchild := hR.children storageKey
  rw [OverlayedChanges.childChangeset]
  cases hlookup : c.children.lookup storageKey with
  | some changeset =>
    rw [hlookup] at hchild
    exact hchild
  | none =>
    -- spawned at the depth, protection and mode of the top change set
    rw [hlookup] at hchild
    refine ⟨OverlayedMap.Inv.spawnChild c.top, hR.top.spawnChild ?_ rfl rfl hchild⟩
    rw [Transactions.depth_comap, Transactions.depth_comap]

theorem setStorage (hR : Refines c M) (key : StorageKey) (value : Option StorageValue)
    (extrinsicIndex : Option Nat) :
    Refines (c.setStorage key value extrinsicIndex) (M.set (none, key) value) where
  topInv := hR.topInv.set key value extrinsicIndex
  top := by
    rw [Model.set, Transactions.comap_set (Prod.mk_right_injective none)]
    exact hR.top.set key value extrinsicIndex
  children := hR.children.of_comap_eq fun storageKey => by
    have hne : ∀ k, ((some storageKey, k) : Key) ≠ (none, key) := fun k h => by cases h
    exact Transactions.comap_set_of_forall_ne _ M.storage hne value
  offchainInv := hR.offchainInv
  offchain := hR.offchain
  aligned := (Transactions.control_set M.storage _ value).symm ▸ hR.aligned

theorem setChildStorage (hR : Refines c M) (storageKey key : StorageKey)
    (value : Option StorageValue) (extrinsicIndex : Option Nat) :
    Refines (c.setChildStorage storageKey key value extrinsicIndex) (M.set (some storageKey, key) value) where
  topInv := hR.topInv
  top := by
    have hne : ∀ k, ((none, k) : Key) ≠ (some storageKey, key) := fun k h => by cases h
    rw [Model.set, Transactions.comap_set_of_forall_ne _ M.storage hne value]
    exact hR.top
  children := by
    obtain ⟨hinv, hr⟩ := hR.childChangeset storageKey
    refine hR.children.insert ⟨hinv.set key value extrinsicIndex, ?_⟩ ?_
    · rw [Model.set, Transactions.comap_set (Prod.mk_right_injective _)]
      exact hr.set key value extrinsicIndex
    · -- the write is in another child's part
      intro storageKey' hkey
      have hne : ∀ k, ((some storageKey', k) : Key) ≠ (some storageKey, key) :=
        fun k h => hkey (Option.some.inj (Prod.mk.inj h).1)
      exact Transactions.comap_set_of_forall_ne _ M.storage hne value
  offchainInv := hR.offchainInv
  offchain := hR.offchain
  aligned := (Transactions.control_set M.storage _ value).symm ▸ hR.aligned

/-- A clear of one child's keys clears them in its change set, spawned if it has none, and
counts what the model counts. -/
theorem clearChildWhere (hR : Refines c M) (storageKey : StorageKey) (predicate : StorageKey → Bool)
    (extrinsicIndex : Option Nat) :
    ∃ c', c.clearChildWhere storageKey predicate extrinsicIndex =
        some (c', M.storage.clearCount (inTrie (some storageKey) predicate)) ∧
      Refines c' (M.clearWhere (inTrie (some storageKey) predicate)) := by
  obtain ⟨hinv, hr⟩ := hR.childChangeset storageKey
  obtain ⟨⟨changeset', n⟩, hclear⟩ :
      ∃ r, (c.childChangeset storageKey).clearWhere predicate extrinsicIndex = some r :=
    hinv.clearWhere_isSome
  obtain ⟨hr', hn⟩ := hr.clearWhere hinv hclear
  have hcount : n = M.storage.clearCount (inTrie (some storageKey) predicate) := by
    rw [hn, Transactions.clearCount_comap (Prod.mk_right_injective _) _ (fun _ h => exists_of_inTrie h),
      inTrie_comp]
  -- the clear matches no key of the top trie and of the other children
  have hother : ∀ child ≠ some storageKey,
      (M.storage.clearWhere (inTrie (some storageKey) predicate)).comap (child, ·) =
        M.storage.comap (child, ·) := fun child hne =>
    Transactions.comap_clearWhere_of_forall_false _ _ (inTrie_of_ne hne predicate)
  refine ⟨{ c with children := c.children.insert storageKey changeset' }, ?_, ?_⟩
  · rw [OverlayedChanges.clearChildWhere, hclear, hcount]
    rfl
  · refine ⟨hR.topInv, ?_, ?_, hR.offchainInv, hR.offchain, hR.aligned⟩
    · show StateMachine.Refines c.top ((M.storage.clearWhere _).comap (none, ·))
      rw [hother none (by simp)]
      exact hR.top
    · refine hR.children.insert ⟨hinv.clearWhere hclear, ?_⟩
        (fun storageKey' hkey => hother (some storageKey') (by simpa using hkey))
      show StateMachine.Refines changeset' ((M.storage.clearWhere _).comap (some storageKey, ·))
      rw [Transactions.comap_clearWhere, inTrie_comp]
      exact hr'

theorem clearPrefix (hR : Refines c M) (pfx : List UInt8) (extrinsicIndex : Option Nat) :
    ∃ c', c.clearPrefix pfx extrinsicIndex =
        some (c', M.storage.clearCount (inTrie none fun key => pfx.isPrefixOf key)) ∧
      Refines c' (M.clearWhere (inTrie none fun key => pfx.isPrefixOf key)) := by
  obtain ⟨⟨top', n⟩, hclear⟩ :
      ∃ r, c.top.clearWhere (fun key => pfx.isPrefixOf key) extrinsicIndex = some r :=
    hR.topInv.clearWhere_isSome
  obtain ⟨hr', hn⟩ := hR.top.clearWhere hR.topInv hclear
  have hcount : n = M.storage.clearCount (inTrie none fun key => pfx.isPrefixOf key) := by
    rw [hn, Transactions.clearCount_comap (Prod.mk_right_injective _) _ (fun _ h => exists_of_inTrie h),
      inTrie_comp]
  refine ⟨{ c with top := top' }, ?_, ?_⟩
  · rw [OverlayedChanges.clearPrefix, hclear, hcount]
    rfl
  · refine ⟨hR.topInv.clearWhere hclear, ?_, ?_, hR.offchainInv, hR.offchain, hR.aligned⟩
    · show StateMachine.Refines top' ((M.storage.clearWhere _).comap (none, ·))
      rw [Transactions.comap_clearWhere, inTrie_comp]
      exact hr'
    · -- the clear matches no key of a child
      exact hR.children.of_comap_eq fun storageKey =>
        Transactions.comap_clearWhere_of_forall_false _ _ (inTrie_of_ne (by simp) _)

theorem setOffchainStorage (hR : Refines c M) (key : List UInt8) (value : Option (List UInt8)) :
    Refines (c.setOffchainStorage key value)
      (M.setOffchain (storagePrefix, key) (.ofValue value)) where
  topInv := hR.topInv
  top := hR.top
  children := hR.children
  offchainInv := hR.offchainInv.set _ _ none
  offchain := hR.offchain.set _ _ none
  aligned := (Transactions.control_set M.offchain _ _).symm ▸ hR.aligned

theorem start (hR : Refines c M) : Refines c.startTransaction M.start where
  topInv := hR.topInv.startTransaction
  top := by
    show StateMachine.Refines c.top.startTransaction (M.storage.start.comap (none, ·))
    rw [Transactions.comap_start]
    exact hR.top.start
  children := by
    intro storageKey
    have hchild := hR.children storageKey
    show ChildAgrees (M.storage.start.comap _)
      ((mapChildren OverlayedMap.startTransaction c.children).lookup storageKey)
    rw [lookup_mapChildren, Transactions.comap_start]
    cases hlookup : c.children.lookup storageKey with
    | none =>
      rw [hlookup] at hchild
      exact fun k => (hchild k).start
    | some changeset =>
      rw [hlookup] at hchild
      exact ⟨hchild.1.startTransaction, hchild.2.start⟩
  offchainInv := hR.offchainInv.startTransaction
  offchain := hR.offchain.start
  aligned := by
    show M.offchain.start.control = M.storage.start.control
    rw [Transactions.control_start, Transactions.control_start, hR.aligned]

/-- Where every part of the overlay agrees with its part of the model's call, ending under the same
transactions, the lockstep call does not panic and agrees with the model's. -/
theorem lockstep {ε : Type} (hR : Refines c M) {top : Option (Except ε OverlayedChangeSet)}
    {child : OverlayedChangeSet → Option (Option OverlayedChangeSet)}
    {offchain : Option (Except ε OffchainOverlayedChanges)}
    {storage : Except ε (Transactions Key (Option StorageValue))}
    {offchainModel : Except ε (Transactions (List UInt8 × List UInt8) OffchainOverlayedChange)}
    (htop : ∃ r, top = some r ∧
      Agrees (fun m t => m.Inv ∧ StateMachine.Refines m (t.comap (none, ·))) r storage)
    (hchild : ∀ t, storage = .ok t → ∀ storageKey changeset,
      ChildAgrees (M.storage.comap (some storageKey, ·)) (some changeset) →
        ∃ kept, child changeset = some kept ∧ ChildAgrees (t.comap (some storageKey, ·)) kept)
    (habsent : ∀ t, storage = .ok t → ∀ storageKey,
      ChildAgrees (M.storage.comap (some storageKey, ·)) none →
        ChildAgrees (t.comap (some storageKey, ·)) none)
    (hoffchain : ∃ r, offchain = some r ∧
      Agrees (fun m t => m.Inv ∧ StateMachine.Refines m t) r offchainModel)
    (hcontrol : storage.map Transactions.control = offchainModel.map Transactions.control) :
    ∃ r, OverlayedChanges.lockstep top child offchain c.children = some r ∧
      Agrees Refines r (Model.both storage offchainModel) := by
  obtain ⟨r, rfl, hr⟩ := htop
  cases storage with
  | error e =>
    -- the top change set refuses: its error is returned
    obtain ⟨e', rfl⟩ : ∃ e', r = .error e' := by
      cases r with
      | ok _ => exact hr.elim
      | error e' => exact ⟨e', rfl⟩
    exact ⟨.error e', rfl, hr⟩
  | ok t =>
    obtain ⟨top', rfl, htopInv, htop'⟩ := Agrees.of_ok hr
    -- the offchain model closes too, under the same transactions
    obtain ⟨o, rfl, haligned⟩ : ∃ o, offchainModel = .ok o ∧ o.control = t.control := by
      cases offchainModel with
      | error e => cases hcontrol
      | ok o => exact ⟨o, rfl, (Except.ok.inj hcontrol).symm⟩
    obtain ⟨r', hoff, hr'⟩ := hoffchain
    obtain ⟨off', rfl, hoffInv, hoff'⟩ := Agrees.of_ok hr'
    obtain ⟨children', hloop, hchildren'⟩ :=
      hR.children.retainChildren (hchild t rfl) (habsent t rfl)
    refine ⟨.ok ⟨top', children', off'⟩, ?_, htopInv, htop', hchildren', hoffInv, hoff', haligned⟩
    rw [OverlayedChanges.lockstep, hloop, Option.bind_some, hoff]

theorem close (hR : Refines c M) {rollback : Bool}
    {child : OverlayedChangeSet → Option (Option OverlayedChangeSet)}
    (hchild : ∀ {part part' : Transactions StorageKey (Option StorageValue)} {changeset},
      ChildAgrees part (some changeset) → part.close rollback = .ok part' →
        ∃ kept, child changeset = some kept ∧ ChildAgrees part' kept) :
    ∃ r, OverlayedChanges.lockstep (c.top.closeTransaction rollback) child
        (c.offchain.closeTransaction rollback) c.children = some r ∧
      Agrees Refines r (M.close rollback) := by
  -- each part of the model closes where the model does
  have hpart : ∀ t, M.storage.close rollback = .ok t → ∀ child : Option StorageKey,
      (M.storage.comap (child, ·)).close rollback = .ok (t.comap (child, ·)) := by
    intro t ht child
    rw [Transactions.comap_close, ht]
    rfl
  refine hR.lockstep ?_ ?_ ?_ (hR.offchain.closeAgrees hR.offchainInv rollback) ?_
  · obtain ⟨r, hclose, hagrees⟩ := hR.top.closeAgrees hR.topInv rollback
    rw [Transactions.comap_close, Agrees.map_iff] at hagrees
    exact ⟨r, hclose, hagrees⟩
  · exact fun t ht storageKey _ h => hchild h (hpart t ht _)
  · exact fun t ht storageKey habsent k => (habsent k).close (hpart t ht _)
  · rw [Transactions.close_map_control, Transactions.close_map_control, hR.aligned]

theorem rollbackTransaction (hR : Refines c M) :
    ∃ r, c.rollbackTransaction = some r ∧ Agrees Refines r (M.close true) :=
  hR.close ChildAgrees.rollbackChild

theorem commitTransaction (hR : Refines c M) :
    ∃ r, c.commitTransaction = some r ∧ Agrees Refines r (M.close false) :=
  hR.close ChildAgrees.commitChild

theorem enterRuntime (hR : Refines c M) :
    ∃ r, c.enterRuntime = some r ∧ Agrees Refines r M.enterRuntime := by
  have hpart : ∀ t, M.storage.enterRuntime = .ok t → ∀ child : Option StorageKey,
      (M.storage.comap (child, ·)).enterRuntime = .ok (t.comap (child, ·)) := by
    intro t ht child
    rw [Transactions.comap_enterRuntime, ht]
    rfl
  refine hR.lockstep ?_ ?_ ?_ ⟨_, rfl, hR.offchain.enterAgrees hR.offchainInv⟩ ?_
  · have hagrees := hR.top.enterAgrees hR.topInv
    rw [Transactions.comap_enterRuntime, Agrees.map_iff] at hagrees
    exact ⟨_, rfl, hagrees⟩
  · exact fun t ht storageKey _ h => h.enterChild (hpart t ht _)
  · exact fun t ht storageKey habsent k => (habsent k).enterRuntime (hpart t ht _)
  · rw [Transactions.enterRuntime_map_control, Transactions.enterRuntime_map_control, hR.aligned]

theorem exitRuntime (hR : Refines c M) :
    ∃ r, c.exitRuntime = some r ∧ Agrees Refines r M.exitRuntime := by
  have hpart : ∀ t, M.storage.exitRuntime = .ok t → ∀ child : Option StorageKey,
      (M.storage.comap (child, ·)).exitRuntime = .ok (t.comap (child, ·)) := by
    intro t ht child
    rw [Transactions.comap_exitRuntime, ht]
    rfl
  refine hR.lockstep ?_ ?_ ?_ (hR.offchain.exitAgrees hR.offchainInv) ?_
  · obtain ⟨r, hexit, hagrees⟩ := hR.top.exitAgrees hR.topInv
    rw [Transactions.comap_exitRuntime, Agrees.map_iff] at hagrees
    exact ⟨r, hexit, hagrees⟩
  · exact fun t ht storageKey _ h => h.exitChild (hpart t ht _)
  · exact fun t ht storageKey habsent k => (habsent k).exitRuntime (hpart t ht _)
  · rw [Transactions.exitRuntime_map_control, Transactions.exitRuntime_map_control, hR.aligned]

end Refines

/-! ## Runs of calls -/

/-- The calls on `OverlayedChanges`. -/
inductive Call where
  | setStorage (key : StorageKey) (value : Option StorageValue) (extrinsicIndex : Option Nat)
  | setChildStorage (storageKey key : StorageKey) (value : Option StorageValue)
      (extrinsicIndex : Option Nat)
  | clearPrefix (pfx : List UInt8) (extrinsicIndex : Option Nat)
  | clearChildStorage (storageKey : StorageKey) (extrinsicIndex : Option Nat)
  | clearChildPrefix (storageKey : StorageKey) (pfx : List UInt8) (extrinsicIndex : Option Nat)
  | setOffchainStorage (key : List UInt8) (value : Option (List UInt8))
  | startTransaction
  | commitTransaction
  | rollbackTransaction
  | enterRuntime
  | exitRuntime

namespace Call

/-- A call on the overlay; `none` is a panic. -/
def apply : Call → OverlayedChanges → Option (OverlayedChanges × Outcome)
  | .setStorage key value extrinsicIndex, c => some (c.setStorage key value extrinsicIndex, .done)
  | .setChildStorage storageKey key value extrinsicIndex, c =>
      some (c.setChildStorage storageKey key value extrinsicIndex, .done)
  | .clearPrefix pfx extrinsicIndex, c =>
      (c.clearPrefix pfx extrinsicIndex).map fun (c, count) => (c, .cleared count)
  | .clearChildStorage storageKey extrinsicIndex, c =>
      (c.clearChildStorage storageKey extrinsicIndex).map fun (c, count) => (c, .cleared count)
  | .clearChildPrefix storageKey pfx extrinsicIndex, c =>
      (c.clearChildPrefix storageKey pfx extrinsicIndex).map fun (c, count) => (c, .cleared count)
  | .setOffchainStorage key value, c => some (c.setOffchainStorage key value, .done)
  | .startTransaction, c => some (c.startTransaction, .done)
  | .commitTransaction, c => c.commitTransaction.map (settle c .noOpenTransaction)
  | .rollbackTransaction, c => c.rollbackTransaction.map (settle c .noOpenTransaction)
  | .enterRuntime, c => c.enterRuntime.map (settle c .alreadyInRuntime)
  | .exitRuntime, c => c.exitRuntime.map (settle c .notInRuntime)

noncomputable def clear (M : Model) (predicate : Key → Bool) : Model × Outcome :=
  (M.clearWhere predicate, .cleared (M.storage.clearCount predicate))

noncomputable def run : Call → Model → Model × Outcome
  | .setStorage key value _, M => (M.set (none, key) value, .done)
  | .setChildStorage storageKey key value _, M => (M.set (some storageKey, key) value, .done)
  | .clearPrefix pfx _, M => clear M (inTrie none fun key => pfx.isPrefixOf key)
  | .clearChildStorage storageKey _, M => clear M (inTrie (some storageKey) fun _ => true)
  | .clearChildPrefix storageKey pfx _, M =>
      clear M (inTrie (some storageKey) fun key => pfx.isPrefixOf key)
  | .setOffchainStorage key value, M => (M.setOffchain (storagePrefix, key) (.ofValue value), .done)
  | .startTransaction, M => (M.start, .done)
  | .commitTransaction, M => settle M .noOpenTransaction (M.close false)
  | .rollbackTransaction, M => settle M .noOpenTransaction (M.close true)
  | .enterRuntime, M => settle M .alreadyInRuntime M.enterRuntime
  | .exitRuntime, M => settle M .notInRuntime M.exitRuntime

theorem simulate_of_agrees {ε : Type} {c : OverlayedChanges} {M : Model}
    {r : Except ε OverlayedChanges} {r' : Except ε Model} (hR : Refines c M) (h : Agrees Refines r r')
    (failed : Outcome) :
    ∃ c', some (settle c failed r) = some (c', (settle M failed r').2) ∧
      Refines c' (settle M failed r').1 := by
  obtain ⟨hout, hR'⟩ := h.settle hR failed
  exact ⟨_, by rw [← hout], hR'⟩

theorem simulate_of_clear {c' : OverlayedChanges} {M : Model} {r : Option (OverlayedChanges × Nat)} {predicate : Key → Bool}
    (h : r = some (c', M.storage.clearCount predicate)) (hR' : Refines c' (M.clearWhere predicate)) :
    ∃ c', r.map (fun (c, count) => (c, Outcome.cleared count)) = some (c', (clear M predicate).2) ∧
      Refines c' (clear M predicate).1 :=
  ⟨c', by rw [h]; rfl, hR'⟩

/-- Every call, on an overlay that means a model, does not panic, returns what the model returns
and keeps the relation. -/
theorem simulate (call : Call) {c : OverlayedChanges} {M : Model} (hR : Refines c M) :
    ∃ c', call.apply c = some (c', (call.run M).2) ∧ Refines c' (call.run M).1 := by
  cases call with
  | setStorage key value extrinsicIndex =>
    exact ⟨_, rfl, hR.setStorage key value extrinsicIndex⟩
  | setChildStorage storageKey key value extrinsicIndex =>
    exact ⟨_, rfl, hR.setChildStorage storageKey key value extrinsicIndex⟩
  | clearPrefix pfx extrinsicIndex =>
    obtain ⟨c', h, hR'⟩ := hR.clearPrefix pfx extrinsicIndex
    exact simulate_of_clear h hR'
  | clearChildStorage storageKey extrinsicIndex =>
    obtain ⟨c', h, hR'⟩ := hR.clearChildWhere storageKey (fun _ => true) extrinsicIndex
    exact simulate_of_clear h hR'
  | clearChildPrefix storageKey pfx extrinsicIndex =>
    obtain ⟨c', h, hR'⟩ := hR.clearChildWhere storageKey (fun key => pfx.isPrefixOf key) extrinsicIndex
    exact simulate_of_clear h hR'
  | setOffchainStorage key value => exact ⟨_, rfl, hR.setOffchainStorage key value⟩
  | startTransaction => exact ⟨_, rfl, hR.start⟩
  | commitTransaction =>
    obtain ⟨r, h, hagrees⟩ := hR.commitTransaction
    rw [apply, run, h, Option.map_some]
    exact simulate_of_agrees hR hagrees _
  | rollbackTransaction =>
    obtain ⟨r, h, hagrees⟩ := hR.rollbackTransaction
    rw [apply, run, h, Option.map_some]
    exact simulate_of_agrees hR hagrees _
  | enterRuntime =>
    obtain ⟨r, h, hagrees⟩ := hR.enterRuntime
    rw [apply, run, h, Option.map_some]
    exact simulate_of_agrees hR hagrees _
  | exitRuntime =>
    obtain ⟨r, h, hagrees⟩ := hR.exitRuntime
    rw [apply, run, h, Option.map_some]
    exact simulate_of_agrees hR hagrees _

end Call

def applyCalls : List Call → OverlayedChanges → Option (OverlayedChanges × List Outcome)
  | [], c => some (c, [])
  | call :: calls, c =>
      (call.apply c).bind fun (c, outcome) =>
        (applyCalls calls c).map fun (c, outcomes) => (c, outcome :: outcomes)

noncomputable def runCalls : List Call → Model → Model × List Outcome
  | [], M => (M, [])
  | call :: calls, M =>
      let (M, outcome) := call.run M
      let (M, outcomes) := runCalls calls M
      (M, outcome :: outcomes)

/-- Every sequence of calls, on an overlay that means a model, does not panic, returns what the
model returns and keeps the relation. -/
theorem applyCalls_refines :
    ∀ (calls : List Call) {c : OverlayedChanges} {M : Model}, Refines c M →
      ∃ c', applyCalls calls c = some (c', (runCalls calls M).2) ∧ Refines c' (runCalls calls M).1
  | [], c, _, hR => ⟨c, rfl, hR⟩
  | call :: calls, c, M, hR => by
    obtain ⟨c₁, h₁, hR₁⟩ := call.simulate hR
    obtain ⟨c', h', hR'⟩ := applyCalls_refines calls hR₁
    refine ⟨c', ?_, hR'⟩
    simp [applyCalls, runCalls, h₁, h']

end OverlayedChanges

/-! ## The representation invariant -/

namespace OverlayedMap

variable {K V : Type} [DecidableEq K]

/-- Every entry has one version for each transaction whose dirty set holds its key, one more
when the key has a value below the first open transaction, and at least one. -/
def VersionsCounted (m : OverlayedMap K V) : Prop :=
  ∀ key e, m.get key = some e →
    e.transactions.length = (m.dirtyKeys.filter (key ∈ ·)).length +
      (if ((m.levels key).getLast?.join).isSome then 1 else 0) ∧ 1 ≤ e.transactions.length

theorem Inv.versionsCounted {m : OverlayedMap K V} (hm : m.Inv) : m.VersionsCounted :=
  fun _ _ he => hm.length_transactions he

omit [DecidableEq K] in
def InLockstep {K' V' : Type} (m : OverlayedMap K V) (m' : OverlayedMap K' V') : Prop :=
  m.transactionDepth = m'.transactionDepth ∧ m.numClientTransactions = m'.numClientTransactions ∧
    m.executionMode = m'.executionMode

end OverlayedMap

namespace OverlayedChanges

/-- The invariant of `OverlayedChanges`: every change set's versions are counted, and the children
and offchain set move in lockstep with the top one. -/
structure Inv (c : OverlayedChanges) : Prop where
  top : c.top.VersionsCounted
  children : ∀ storageKey changeset, c.children.lookup storageKey = some changeset →
    changeset.VersionsCounted ∧ changeset.InLockstep c.top
  offchain : c.offchain.VersionsCounted ∧ c.offchain.InLockstep c.top

namespace Refines

variable {c : OverlayedChanges} {M : Model}

theorem inv (hR : Refines c M) : c.Inv where
  top := hR.topInv.versionsCounted
  children := by
    intro storageKey changeset hlookup
    have hchild := hR.children storageKey
    rw [hlookup] at hchild
    obtain ⟨hinv, hr⟩ := hchild
    refine ⟨hinv.versionsCounted, ?_, ?_, ?_⟩
    · rw [hr.depth, hR.top.depth, Transactions.depth_comap, Transactions.depth_comap]
    · exact hr.numClientTransactions.trans hR.top.numClientTransactions.symm
    · exact hr.executionMode.trans hR.top.executionMode.symm
  offchain := by
    -- the offchain model is under the transactions of the storage
    have haligned := hR.aligned
    simp only [Transactions.control, Prod.mk.injEq] at haligned
    refine ⟨hR.offchainInv.versionsCounted, ?_, ?_, ?_⟩
    · rw [hR.offchain.depth, hR.top.depth, Transactions.depth_comap, haligned.1]
    · exact hR.offchain.numClientTransactions.trans (haligned.2.1.trans hR.top.numClientTransactions.symm)
    · exact hR.offchain.executionMode.trans (haligned.2.2.trans hR.top.executionMode.symm)

theorem storage (hR : Refines c M) (key : StorageKey) :
    c.storage key = M.storage.snapshots.top (none, key) :=
  hR.top.value key

theorem childStorage (hR : Refines c M) (storageKey key : StorageKey) :
    c.childStorage storageKey key = M.storage.snapshots.top (some storageKey, key) := by
  have hchild := hR.children storageKey
  rw [OverlayedChanges.childStorage]
  cases hlookup : c.children.lookup storageKey with
  | none =>
    -- no change set: the part has no value at any level
    rw [hlookup] at hchild
    exact ((hchild key).top_eq_none).symm
  | some changeset =>
    rw [hlookup] at hchild
    exact hchild.2.value key

end Refines

end OverlayedChanges

/-! ## Runs from the empty overlay -/

/-- Every sequence of calls on an `OverlayedChangeSet` from the empty one does not panic and returns
what the stack of snapshots returns; on `OverlayedChanges` every run returns what the model returns,
trie by trie. -/
theorem calls_refine_stack_of_snapshots :
    (∀ {K W : Type} [LinearOrder K] (ops : List (Op K W)),
      ∃ m, applyAll ops OverlayedMap.empty = some (m, (runAll ops Transactions.empty).2) ∧
        StateMachine.Refines m (runAll ops Transactions.empty).1 ∧
        (∀ k, (m.get k).bind OverlayedEntry.valueRef =
          (runAll ops Transactions.empty).1.snapshots.top k) ∧
        (∀ k, (∀ op ∈ ops, ¬op.Writes k) → m.get k = none) ∧
        ((runAll ops Transactions.empty).1.depth = 0 →
          ∃ l, m.drainCommited = some l ∧ (l.map Prod.fst).Pairwise (· < ·) ∧
            ∀ k v, (k, v) ∈ l ↔ (runAll ops Transactions.empty).1.snapshots.top k = some v)) ∧
    (∀ calls : List OverlayedChanges.Call,
      ∃ c, OverlayedChanges.applyCalls calls OverlayedChanges.empty =
          some (c, (OverlayedChanges.runCalls calls OverlayedChanges.Model.empty).2) ∧
        OverlayedChanges.Refines c (OverlayedChanges.runCalls calls OverlayedChanges.Model.empty).1 ∧
        (∀ key, c.storage key =
          (OverlayedChanges.runCalls calls OverlayedChanges.Model.empty).1.storage.snapshots.top
            (none, key)) ∧
        (∀ storageKey key, c.childStorage storageKey key =
          (OverlayedChanges.runCalls calls OverlayedChanges.Model.empty).1.storage.snapshots.top
            (some storageKey, key))) := by
  refine ⟨fun ops => ?_, fun calls => ?_⟩
  · obtain ⟨m, h, hinv, hr⟩ := applyAll_refines ops OverlayedMap.Inv.empty Refines.empty
    refine ⟨m, h, hr, hr.value, fun k hw => ?_, hr.drainCommited hinv⟩
    -- a key no call writes has no value at any level of the model
    exact hr.get_eq_none hinv (unwritten_runAll ops (Transactions.unwritten_empty k) hw)
  · obtain ⟨c, h, hR⟩ := OverlayedChanges.applyCalls_refines calls OverlayedChanges.Refines.empty
    exact ⟨c, h, hR, hR.storage, hR.childStorage⟩

/-- Every sequence of calls on `OverlayedChanges` from the empty one does not panic, counts the
versions of every change set and keeps the children and the offchain set in lockstep with the top
one. -/
theorem calls_keep_versions_counted_in_lockstep (calls : List OverlayedChanges.Call) :
    ∃ c outcomes, OverlayedChanges.applyCalls calls OverlayedChanges.empty = some (c, outcomes) ∧
      c.Inv := by
  obtain ⟨c, h, hR⟩ := OverlayedChanges.applyCalls_refines calls OverlayedChanges.Refines.empty
  exact ⟨c, _, h, hR.inv⟩

end Substrate.StateMachine
