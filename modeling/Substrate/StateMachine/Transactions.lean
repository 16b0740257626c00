import Substrate.StateMachine.ChangesetSpec

/-! # The overlay refines a stack of snapshots

`Transactions`: a stack of snapshots of the map (`Snapshots`) and the client's transactions, which
the runtime may not close. Each operation keeps `Refines` and the invariant, returns what the model
returns and does not panic, and so does every sequence of operations.
-/

namespace Substrate.StateMachine

/-- The meaning of an `OverlayedMap`. -/
structure Transactions (K V : Type) where
  snapshots : Snapshots K V
  numClientTransactions : Nat
  executionMode : ExecutionMode

namespace Transactions

variable {K V : Type} [DecidableEq K]

def empty : Transactions K V := ⟨Snapshots.empty, 0, .client⟩

def depth (t : Transactions K V) : Nat := t.snapshots.depth

def set (t : Transactions K V) (key : K) (value : V) : Transactions K V :=
  { t with snapshots := t.snapshots.write fun top => Function.update top key (some value) }

def start (t : Transactions K V) : Transactions K V := { t with snapshots := t.snapshots.start }

def close (t : Transactions K V) (rollback : Bool) : Except NoOpenTransaction (Transactions K V) :=
  if t.executionMode = .runtime ∧ t.depth ≤ t.numClientTransactions then .error .noOpenTransaction
  else
    match if rollback then t.snapshots.rollback else t.snapshots.commit with
    | none => .error .noOpenTransaction
    | some snapshots => .ok { t with snapshots }

def enterRuntime (t : Transactions K V) : Except AlreadyInRuntime (Transactions K V) :=
  if t.executionMode = .runtime then .error .alreadyInRuntime
  else .ok { t with executionMode := .runtime, numClientTransactions := t.depth }

/-- Leaving the runtime rolls back the transactions it left open. -/
def exitRuntime (t : Transactions K V) : Except NotInRuntime (Transactions K V) :=
  if t.executionMode = .client then .error .notInRuntime
  else .ok { t with
    executionMode := .client
    snapshots := t.snapshots.rollbackN (t.depth - t.numClientTransactions) }

section ChangeSet

variable {W : Type}

def comap {K' : Type} (f : K' → K) (t : Transactions K V) : Transactions K' V :=
  ⟨t.snapshots.comap f, t.numClientTransactions, t.executionMode⟩

def modify (t : Transactions K (Option W)) (key : K) (init : W) (mutate : Option W → Option W) :
    Transactions K (Option W) :=
  { t with snapshots := t.snapshots.write fun top =>
      Function.update top key (some (mutate ((top key).getD (some init)))) }

/-- Every matching key that has a value, a deletion included, is deleted. -/
def clearWhere (t : Transactions K (Option W)) (predicate : K → Bool) : Transactions K (Option W) :=
  { t with snapshots := t.snapshots.write fun top k =>
      if predicate k ∧ (top k).isSome then some none else top k }

/-- The number of matching keys with a value that is not a deletion. -/
noncomputable def clearCount (t : Transactions K (Option W)) (predicate : K → Bool) : Nat :=
  Set.ncard {k | predicate k = true ∧ ∃ w, t.snapshots.top k = some (some w)}

end ChangeSet

/-! ### Parts of the model

A part of the storage, such as one child trie, is the model read along an injective change of
keys; every call on the model is a call on each part, and what the calls do to the depth, the
protection and the mode depends on nothing else. -/

section Comap

variable {K' : Type} (f : K' → K)

variable (t : Transactions K V)

omit [DecidableEq K] in
@[simp]
theorem depth_comap : (t.comap f).depth = t.depth :=
  Snapshots.depth_comap f t.snapshots

theorem comap_set [DecidableEq K'] {f : K' → K} (hf : Function.Injective f) (t : Transactions K V)
    (key : K') (value : V) : (t.set (f key) value).comap f = (t.comap f).set key value := by
  simp only [set, comap, Snapshots.write, Snapshots.comap,
    Function.update_comp_eq_of_injective _ hf]

theorem comap_set_of_forall_ne {key : K} (hkey : ∀ k, f k ≠ key)
    (value : V) : (t.set key value).comap f = t.comap f := by
  simp only [set, comap, Snapshots.write, Snapshots.comap,
    Function.update_comp_eq_of_forall_ne _ _ hkey]

omit [DecidableEq K] in
theorem comap_start : t.start.comap f = (t.comap f).start := rfl

omit [DecidableEq K] in
/-- The runtime is stopped from closing a transaction of a part when it is stopped in the
model. -/
theorem comap_protected_iff :
    ((t.comap f).executionMode = .runtime ∧ (t.comap f).depth ≤ (t.comap f).numClientTransactions) ↔
      (t.executionMode = .runtime ∧ t.depth ≤ t.numClientTransactions) := by
  rw [depth_comap]
  rfl

omit [DecidableEq K] in
theorem comap_close (rollback : Bool) :
    (t.comap f).close rollback = (t.close rollback).map (comap f) := by
  rw [close, close]
  by_cases hguard : t.executionMode = .runtime ∧ t.depth ≤ t.numClientTransactions
  · rw [if_pos ((comap_protected_iff f t).mpr hguard), if_pos hguard]
    rfl
  · rw [if_neg (mt (comap_protected_iff f t).mp hguard), if_neg hguard]
    cases rollback
    · simp only [Bool.false_eq_true, if_false]
      rw [show (t.comap f).snapshots = t.snapshots.comap f from rfl, Snapshots.commit_comap]
      cases t.snapshots.commit <;> rfl
    · simp only [if_true]
      rw [show (t.comap f).snapshots = t.snapshots.comap f from rfl, Snapshots.rollback_comap]
      cases t.snapshots.rollback <;> rfl

omit [DecidableEq K] in
theorem comap_enterRuntime :
    (t.comap f).enterRuntime = t.enterRuntime.map (comap f) := by
  rw [enterRuntime, enterRuntime]
  by_cases hmode : t.executionMode = .runtime
  · rw [if_pos hmode, if_pos (show (t.comap f).executionMode = .runtime from hmode)]
    rfl
  · rw [if_neg hmode, if_neg (show ¬(t.comap f).executionMode = .runtime from hmode), depth_comap]
    rfl

omit [DecidableEq K] in
theorem comap_exitRuntime :
    (t.comap f).exitRuntime = t.exitRuntime.map (comap f) := by
  rw [exitRuntime, exitRuntime]
  by_cases hmode : t.executionMode = .client
  · rw [if_pos hmode, if_pos (show (t.comap f).executionMode = .client from hmode)]
    rfl
  · rw [if_neg hmode, if_neg (show ¬(t.comap f).executionMode = .client from hmode), depth_comap]
    show Except.ok (⟨(t.snapshots.comap f).rollbackN _, _, _⟩ : Transactions K' V) = _
    rw [Snapshots.rollbackN_comap]
    rfl

variable {W : Type}

omit [DecidableEq K] in
theorem comap_clearWhere (t : Transactions K (Option W)) (predicate : K → Bool) :
    (t.clearWhere predicate).comap f = (t.comap f).clearWhere (predicate ∘ f) := rfl

omit [DecidableEq K] in
/-- A clear that matches no key of a part leaves it as it was. -/
theorem comap_clearWhere_of_forall_false (t : Transactions K (Option W)) {predicate : K → Bool}
    (hpredicate : ∀ k, predicate (f k) = false) : (t.clearWhere predicate).comap f = t.comap f := by
  rw [comap_clearWhere]
  simp only [clearWhere, comap, Snapshots.write, Snapshots.comap, Function.comp_apply, hpredicate,
    Bool.false_eq_true, false_and, if_false]
  rfl

omit [DecidableEq K] in
/-- A clear that matches only keys of a part counts them in the part. -/
theorem clearCount_comap {f : K' → K} (hf : Function.Injective f) (t : Transactions K (Option W))
    {predicate : K → Bool} (hpredicate : ∀ k, predicate k = true → ∃ k', f k' = k) :
    t.clearCount predicate = (t.comap f).clearCount (predicate ∘ f) := by
  have himage : {k | predicate k = true ∧ ∃ w, t.snapshots.top k = some (some w)} =
      f '' {k' | predicate (f k') = true ∧ ∃ w, t.snapshots.top (f k') = some (some w)} := by
    ext k
    constructor
    · rintro ⟨hk, hvalue⟩
      obtain ⟨k', rfl⟩ := hpredicate k hk
      exact ⟨k', ⟨hk, hvalue⟩, rfl⟩
    · rintro ⟨k', hk', rfl⟩
      exact hk'
  rw [clearCount, clearCount, himage, Set.ncard_image_of_injective _ hf]
  rfl

end Comap

def control (t : Transactions K V) : Nat × Nat × ExecutionMode :=
  (t.depth, t.numClientTransactions, t.executionMode)

def startControl : Nat × Nat × ExecutionMode → Nat × Nat × ExecutionMode
  | (depth, numClient, mode) => (depth + 1, numClient, mode)

def closeControl : Nat × Nat × ExecutionMode → Except NoOpenTransaction (Nat × Nat × ExecutionMode)
  | (depth, numClient, mode) =>
      if (mode = .runtime ∧ depth ≤ numClient) ∨ depth = 0 then .error .noOpenTransaction
      else .ok (depth - 1, numClient, mode)

def enterControl : Nat × Nat × ExecutionMode → Except AlreadyInRuntime (Nat × Nat × ExecutionMode)
  | (depth, _, mode) => if mode = .runtime then .error .alreadyInRuntime else .ok (depth, depth, .runtime)

def exitControl : Nat × Nat × ExecutionMode → Except NotInRuntime (Nat × Nat × ExecutionMode)
  | (depth, numClient, mode) =>
      if mode = .client then .error .notInRuntime else .ok (depth - (depth - numClient), numClient, .client)

omit [DecidableEq K] in
@[simp]
theorem control_comap {K' : Type} (f : K' → K) (t : Transactions K V) :
    (t.comap f).control = t.control := by
  rw [control, control, depth_comap]
  rfl

variable (t : Transactions K V)

@[simp]
theorem control_set (key : K) (value : V) :
    (t.set key value).control = t.control := rfl

omit [DecidableEq K] in
@[simp]
theorem control_clearWhere {W : Type} (t : Transactions K (Option W)) (predicate : K → Bool) :
    (t.clearWhere predicate).control = t.control := rfl

omit [DecidableEq K] in
theorem control_start : t.start.control = startControl t.control := rfl

omit [DecidableEq K] in
theorem close_map_control (rollback : Bool) :
    (t.close rollback).map control = closeControl t.control := by
  rw [close, control, closeControl]
  by_cases hguard : t.executionMode = .runtime ∧ t.depth ≤ t.numClientTransactions
  · rw [if_pos hguard, if_pos (Or.inl hguard)]
    rfl
  · rw [if_neg hguard]
    cases hs : (if rollback then t.snapshots.rollback else t.snapshots.commit) with
    | none =>
      -- no transaction is open
      have h0 : t.depth = 0 := by
        cases rollback
        · exact (Snapshots.commit_eq_none_iff _).mp (by simpa using hs)
        · exact (Snapshots.rollback_eq_none_iff _).mp (by simpa using hs)
      rw [if_pos (Or.inr h0)]
      rfl
    | some s =>
      have hdepth : s.depth + 1 = t.depth := by
        cases rollback
        · exact Snapshots.depth_of_commit (by simpa using hs)
        · exact Snapshots.depth_of_rollback (by simpa using hs)
      rw [if_neg (not_or.mpr ⟨hguard, by omega⟩)]
      show Except.ok (s.depth, t.numClientTransactions, t.executionMode) = _
      rw [← hdepth, Nat.add_sub_cancel]

omit [DecidableEq K] in
theorem enterRuntime_map_control :
    t.enterRuntime.map control = enterControl t.control := by
  rw [enterRuntime, control, enterControl]
  split <;> rfl

omit [DecidableEq K] in
theorem exitRuntime_map_control :
    t.exitRuntime.map control = exitControl t.control := by
  rw [exitRuntime, control, exitControl]
  split
  · rfl
  · show Except.ok ((t.snapshots.rollbackN _).depth, t.numClientTransactions, ExecutionMode.client) = _
    rw [Snapshots.depth_rollbackN]
    rfl

end Transactions

variable {K V : Type} [DecidableEq K]

def Transactions.Unwritten (t : Transactions K V) (k : K) : Prop :=
  ∀ x ∈ t.snapshots.view k, x = none

/-- The overlay `m` means the transactions `t`. -/
structure Refines (m : OverlayedMap K V) (t : Transactions K V) : Prop where
  depth : m.transactionDepth = t.depth
  numClientTransactions : m.numClientTransactions = t.numClientTransactions
  executionMode : m.executionMode = t.executionMode
  levels : ∀ key, m.levels key = t.snapshots.view key

namespace Refines

variable {m : OverlayedMap K V} {t : Transactions K V}

theorem empty : Refines (OverlayedMap.empty : OverlayedMap K V) Transactions.empty where
  depth := rfl
  numClientTransactions := rfl
  executionMode := rfl
  levels := fun _ => rfl

theorem value (hr : Refines m t) (key : K) :
    (m.get key).bind OverlayedEntry.valueRef = t.snapshots.top key := by
  have hhead := congrArg List.head? (hr.levels key)
  rw [OverlayedMap.levels_eq_cons] at hhead
  simpa [Snapshots.view] using hhead

/-- The runtime is stopped from closing a transaction in both, or in neither. -/
theorem protects_iff (hr : Refines m t) :
    (m.executionMode = .runtime ∧ m.hasOpenRuntimeTransactions = false) ↔
      (t.executionMode = .runtime ∧ t.depth ≤ t.numClientTransactions) := by
  simp [OverlayedMap.hasOpenRuntimeTransactions, hr.executionMode, hr.depth,
    hr.numClientTransactions]

/-- Models that agree on the depth, the protection, the mode and what every key sees are
refined by the same overlays. -/
theorem congr (hr : Refines m t) {t' : Transactions K V} (hdepth : t'.depth = t.depth)
    (hclient : t'.numClientTransactions = t.numClientTransactions)
    (hmode : t'.executionMode = t.executionMode)
    (hview : ∀ k, t'.snapshots.view k = t.snapshots.view k) : Refines m t' where
  depth := hr.depth.trans hdepth.symm
  numClientTransactions := hr.numClientTransactions.trans hclient.symm
  executionMode := hr.executionMode.trans hmode.symm
  levels := fun k => (hr.levels k).trans (hview k).symm

/-- A spawned change set means an empty model at the depth, protection and mode of the one it is
spawned from. -/
theorem spawnChild (hr : Refines m t) {t' : Transactions K V} (hdepth : t'.depth = t.depth)
    (hclient : t'.numClientTransactions = t.numClientTransactions)
    (hmode : t'.executionMode = t.executionMode) (hempty : ∀ k, t'.Unwritten k) :
    Refines m.spawnChild t' where
  depth := (OverlayedMap.transactionDepth_spawnChild m).trans (hr.depth.trans hdepth.symm)
  numClientTransactions := hr.numClientTransactions.trans hclient.symm
  executionMode := hr.executionMode.trans hmode.symm
  levels := by
    intro k
    rw [OverlayedMap.levels_spawnChild, hr.depth, ← hdepth, eq_comm, List.eq_replicate_iff]
    exact ⟨by simp [Transactions.depth], hempty k⟩

theorem set (hr : Refines m t) (key : K) (value : V) (atExtrinsic : Option Nat) :
    Refines (m.set key value atExtrinsic) (t.set key value) where
  depth := by rw [OverlayedMap.transactionDepth_set, hr.depth]; rfl
  numClientTransactions := hr.numClientTransactions
  executionMode := hr.executionMode
  levels := by
    intro k
    by_cases hk : k = key
    · subst hk
      rw [OverlayedMap.levels_set_self, hr.levels, Transactions.set, Snapshots.view_write,
        Function.update_self]
    · rw [OverlayedMap.levels_set_of_ne m value atExtrinsic hk, hr.levels, Transactions.set,
        Snapshots.view_write, Function.update_of_ne hk]
      rfl

theorem start (hr : Refines m t) : Refines m.startTransaction t.start where
  depth := by rw [OverlayedMap.transactionDepth_startTransaction, hr.depth]; rfl
  numClientTransactions := hr.numClientTransactions
  executionMode := hr.executionMode
  levels := by
    intro k
    rw [OverlayedMap.levels_startTransaction, hr.value, hr.levels, Transactions.start,
      Snapshots.view_start]

theorem modify {W : Type} {m : OverlayedMap K (Option W)} {t : Transactions K (Option W)}
    (hr : Refines m t) (key : K) (init : W) (atExtrinsic : Option Nat)
    (mutate : Option W → Option W) :
    Refines (m.modify key init atExtrinsic mutate) (t.modify key init mutate) where
  depth := by rw [OverlayedMap.transactionDepth_modify, hr.depth]; rfl
  numClientTransactions := hr.numClientTransactions
  executionMode := hr.executionMode
  levels := by
    intro k
    by_cases hk : k = key
    · subst hk
      rw [OverlayedMap.levels_modify_self, hr.value, hr.levels, Transactions.modify,
        Snapshots.view_write, Function.update_self]
    · rw [OverlayedMap.levels_modify_of_ne m init atExtrinsic mutate hk, hr.levels,
        Transactions.modify, Snapshots.view_write, Function.update_of_ne hk]
      rfl

end Refines

namespace Refines

variable {W : Type} {m m' : OverlayedMap K (Option W)} {t : Transactions K (Option W)}
  {predicate : K → Bool} {atExtrinsic : Option Nat}

/-- The keys `clear_where` counts are the matching keys whose value in the top map is not a
deletion. -/
theorem clearCount (hr : Refines m t) (predicate : K → Bool) :
    (m.changes.entries.filter (OverlayedMap.Counted predicate)).length = t.clearCount predicate := by
  have hset : {k | predicate k = true ∧ ∃ w, t.snapshots.top k = some (some w)} =
      ↑(((m.changes.entries.filter (OverlayedMap.Counted predicate)).map Sigma.fst).toFinset) := by
    ext k
    simp only [Finset.mem_coe, List.mem_toFinset, List.mem_map, List.mem_filter]
    show (predicate k = true ∧ ∃ w, t.snapshots.top k = some (some w)) ↔ _
    rw [← hr.value k]
    constructor
    · rintro ⟨hpred, w, hw⟩
      cases hlookup : m.changes.lookup k with
      | none => simp [OverlayedMap.get, hlookup] at hw
      | some e =>
        simp only [OverlayedMap.get, hlookup, Option.bind_some] at hw
        exact ⟨⟨k, e⟩, ⟨AList.mem_lookup_iff.mp hlookup, by simp [OverlayedMap.Counted, hpred, hw]⟩,
          rfl⟩
    · rintro ⟨⟨k', e⟩, ⟨hmem, hcounted⟩, rfl⟩
      simp only [OverlayedMap.Counted, Bool.and_eq_true, Option.isSome_iff_exists] at hcounted
      obtain ⟨hpred, w, hw⟩ := hcounted
      refine ⟨hpred, w, ?_⟩
      rw [OverlayedMap.get, AList.mem_lookup_iff.mpr hmem, Option.bind_some]
      cases hvalue : e.valueRef with
      | none => simp [hvalue] at hw
      | some value =>
        simp only [hvalue, Option.join_some] at hw
        rw [hw]
  rw [Transactions.clearCount, hset, Set.ncard_coe_finset, List.toFinset_card_of_nodup
    ((List.filter_sublist.map Sigma.fst).nodup m.changes.nodupKeys), List.length_map]

theorem clearWhere (hm : m.Inv) (hr : Refines m t) {n : Nat}
    (h : m.clearWhere predicate atExtrinsic = some (m', n)) :
    Refines m' (t.clearWhere predicate) ∧ n = t.clearCount predicate := by
  obtain ⟨hdepth, hclient, hmode, -⟩ := OverlayedMap.clearWhere_keeps h
  refine ⟨⟨?_, hclient.trans hr.numClientTransactions, hmode.trans hr.executionMode, ?_⟩, ?_⟩
  · rw [hdepth, hr.depth]
    rfl
  · intro k
    have hsome : (m.view k).1.isSome = (t.snapshots.top k).isSome := by
      rw [← hr.value k, hm.value_isSome]
      simp [OverlayedMap.view, keyView, OverlayedMap.get]
    rw [OverlayedMap.levels_clearWhere h k, hsome, Transactions.clearWhere, Snapshots.view_write,
      hr.levels]
    split <;> rfl
  · rw [OverlayedMap.count_clearWhere h, hr.clearCount]

end Refines

namespace Refines

variable {m m' : OverlayedMap K V} {t : Transactions K V}

theorem close (hm : m.Inv) (hr : Refines m t) {rollback : Bool} {s : Snapshots K V}
    (hguard : ¬(t.executionMode = .runtime ∧ t.depth ≤ t.numClientTransactions))
    (hs : (if rollback then t.snapshots.rollback else t.snapshots.commit) = some s) :
    ∃ m', m.closeTransaction rollback = some (.ok m') ∧ m'.Inv ∧ Refines m' { t with snapshots := s } := by
  have hsdepth : s.depth + 1 = t.snapshots.depth := by
    cases rollback
    · exact Snapshots.depth_of_commit hs
    · exact Snapshots.depth_of_rollback hs
  have hdepth : m.transactionDepth ≠ 0 := by
    rw [hr.depth]
    exact fun h0 => by simp [Transactions.depth] at h0; omega
  obtain ⟨m', hm'⟩ := hm.closeTransaction_isOk rollback (fun h => hguard (hr.protects_iff.mp h)) hdepth
  obtain ⟨-, -, -, -, hclient, hmode⟩ := OverlayedMap.closeTransaction_eq_ok hm'
  refine ⟨m', hm', hm.closeTransaction hm', ⟨?_, hclient.trans hr.numClientTransactions,
    hmode.trans hr.executionMode, ?_⟩⟩
  · have hm'depth := OverlayedMap.transactionDepth_closeTransaction hm'
    have htdepth : m.transactionDepth = t.snapshots.depth := hr.depth
    show m'.transactionDepth = s.depth
    omega
  · intro k
    cases rollback
    · simp only [Bool.false_eq_true, if_false] at hs
      rw [OverlayedMap.levels_commitTransaction hm hm' k, hr.value, hr.levels,
        Snapshots.view_of_commit hs]
    · simp only [if_true] at hs
      rw [OverlayedMap.levels_rollbackTransaction hm hm' k, hr.levels, Snapshots.view_of_rollback hs]

/-- The loop of `exit_runtime` rolls back in the model as many transactions as the runtime left
open, whatever the fuel above that. -/
theorem rollbackRuntimeTransactions :
    ∀ (fuel : Nat) {m : OverlayedMap K V} {t : Transactions K V}, m.Inv → Refines m t →
      m.executionMode = .client → t.depth - t.numClientTransactions ≤ fuel →
      ∃ m', OverlayedMap.rollbackRuntimeTransactions fuel m = some m' ∧ m'.Inv ∧
        Refines m' { t with snapshots := t.snapshots.rollbackN (t.depth - t.numClientTransactions) }
  | 0, m, t, hm, hr, _, hfuel => by
    refine ⟨m, rfl, hm, ?_⟩
    rw [Nat.le_zero.mp hfuel]
    exact hr
  | fuel + 1, m, t, hm, hr, hmode, hfuel => by
    have hguard : ¬(t.executionMode = .runtime ∧ t.depth ≤ t.numClientTransactions) := by
      rw [← hr.executionMode, hmode]
      simp
    rw [OverlayedMap.rollbackRuntimeTransactions]
    by_cases hopen : t.numClientTransactions < t.depth
    · -- a transaction of the runtime is still open: one rollback, then the rest of the loop
      have hopen' : m.hasOpenRuntimeTransactions = true := by
        simp [OverlayedMap.hasOpenRuntimeTransactions, hr.numClientTransactions, hr.depth, hopen]
      obtain ⟨s, hs⟩ := Option.ne_none_iff_exists'.mp
        (mt (Snapshots.rollback_eq_none_iff t.snapshots).mp (by simp [Transactions.depth] at hopen; omega))
      have hs' : (if true then t.snapshots.rollback else t.snapshots.commit) = some s := hs
      obtain ⟨m₁, hm₁, hinv₁, hr₁⟩ := close hm hr hguard hs'
      have hmode₁ : m₁.executionMode = .client := by
        obtain ⟨-, -, -, -, -, hmode₁⟩ := OverlayedMap.closeTransaction_eq_ok hm₁
        exact hmode₁.trans hmode
      have hsdepth := Snapshots.depth_of_rollback hs
      obtain ⟨m', hloop, hinv', hr'⟩ := rollbackRuntimeTransactions fuel hinv₁ hr₁ hmode₁ (by
        simp only [Transactions.depth] at hfuel hopen ⊢
        omega)
      refine ⟨m', ?_, hinv', ?_⟩
      · simp only [hopen', if_true, OverlayedMap.rollbackTransaction, hm₁]
        exact hloop
      · have hcount : t.depth - t.numClientTransactions = (s.depth - t.numClientTransactions) + 1 := by
          simp only [Transactions.depth] at hopen ⊢
          omega
        rw [hcount, Snapshots.rollbackN_succ_of_rollback hs]
        exact hr'
    · -- none is open: the loop stops
      have hopen' : m.hasOpenRuntimeTransactions = false := by
        simp [OverlayedMap.hasOpenRuntimeTransactions, hr.numClientTransactions, hr.depth, hopen]
      refine ⟨m, by simp [hopen'], hm, ?_⟩
      rw [Nat.sub_eq_zero_of_le (Nat.le_of_not_lt hopen)]
      exact hr

/-- Under the invariant, `drain_commited` at depth 0 lists the top map in key order. -/
theorem drainCommited [LinearOrder K] (hm : m.Inv) (hr : Refines m t) (h0 : t.depth = 0) :
    ∃ l, m.drainCommited = some l ∧ (l.map Prod.fst).Pairwise (· < ·) ∧
      ∀ k v, (k, v) ∈ l ↔ t.snapshots.top k = some v := by
  let r := fun a b : Sigma (fun _ : K => OverlayedEntry V) => a.1 ≤ b.1
  have : Std.Total r := ⟨fun a b => le_total a.1 b.1⟩
  have : IsTrans _ r := ⟨fun _ _ _ hab hbc => le_trans hab hbc⟩
  let pop := fun entry : Sigma (fun _ : K => OverlayedEntry V) =>
    entry.2.popTransaction.map fun popped => (entry.1, popped.1.value)
  have hperm := List.perm_insertionSort r m.changes.entries
  have hpop : ∀ entry ∈ m.changes.entries.insertionSort r, (pop entry).isSome := by
    intro entry hentry
    obtain ⟨p, hp⟩ := OverlayedEntry.popTransaction_isSome
      (hm.entry_ne_nil (AList.mem_lookup_iff.mpr (hperm.mem_iff.mp hentry)))
    simp [pop, hp]
  -- the keys are sorted and distinct, so strictly increasing
  have hsorted : (m.changes.entries.insertionSort r).Pairwise (fun a b => a.1 < b.1) := by
    have hdistinct : (m.changes.entries.insertionSort r).Pairwise (fun a b => a.1 ≠ b.1) :=
      List.pairwise_map.mp ((hperm.map Sigma.fst).nodup_iff.mpr m.changes.nodupKeys)
    exact ((List.pairwise_insertionSort r _).and hdistinct).imp fun h => lt_of_le_of_ne h.1 h.2
  refine ⟨(m.changes.entries.insertionSort r).filterMap pop, ?_, ?_, ?_⟩
  · rw [OverlayedMap.drainCommited, if_neg (by rw [hr.depth, h0]; exact not_not.mpr rfl)]
    exact Fold.mapM_eq_some_filterMap _ hpop
  · refine List.pairwise_map.mpr (hsorted.filterMap pop ?_)
    intro a a' hlt b hb b' hb'
    simp only [pop, Option.map_eq_some_iff] at hb hb'
    obtain ⟨_, -, rfl⟩ := hb
    obtain ⟨_, -, rfl⟩ := hb'
    exact hlt
  · intro k v
    rw [List.mem_filterMap, ← hr.value k]
    constructor
    · rintro ⟨entry, hentry, hpopped⟩
      simp only [pop, Option.map_eq_some_iff, Prod.mk.injEq] at hpopped
      obtain ⟨⟨dropped, e'⟩, hp, rfl, rfl⟩ := hpopped
      rw [OverlayedMap.get, AList.mem_lookup_iff.mpr (hperm.mem_iff.mp hentry), Option.bind_some,
        OverlayedEntry.valueRef, ← OverlayedEntry.getLast?_values]
      exact (OverlayedEntry.popTransaction_eq_some hp).2
    · intro hvalue
      cases hlookup : m.changes.lookup k with
      | none => simp [OverlayedMap.get, hlookup] at hvalue
      | some e =>
        rw [OverlayedMap.get, hlookup, Option.bind_some] at hvalue
        obtain ⟨⟨dropped, e'⟩, hp⟩ := OverlayedEntry.popTransaction_isSome (hm.entry_ne_nil hlookup)
        have hlast := (OverlayedEntry.popTransaction_eq_some hp).2
        rw [OverlayedEntry.getLast?_values, ← OverlayedEntry.valueRef, hvalue, Option.some.injEq] at hlast
        refine ⟨⟨k, e⟩, hperm.mem_iff.mpr (AList.mem_lookup_iff.mp hlookup), ?_⟩
        simp [pop, hp, hlast]

end Refines

/-! ## Runs of calls -/

/-- What a call on a change set returns. -/
inductive Outcome where
  | done
  | cleared (count : Nat)
  | noOpenTransaction
  | alreadyInRuntime
  | notInRuntime
  deriving DecidableEq, Repr

def settle {σ ε : Type} (s : σ) (failed : Outcome) : Except ε σ → σ × Outcome
  | .ok s' => (s', .done)
  | .error _ => (s, failed)

/-- The calls on an `OverlayedChangeSet`. -/
inductive Op (K W : Type) where
  | set (key : K) (value : Option W) (atExtrinsic : Option Nat)
  | modify (key : K) (init : W) (atExtrinsic : Option Nat) (mutate : Option W → Option W)
  | clearWhere (predicate : K → Bool) (atExtrinsic : Option Nat)
  | startTransaction
  | commitTransaction
  | rollbackTransaction
  | enterRuntime
  | exitRuntime

namespace Op

variable {W : Type}

/-- A call on the overlay; `none` is a panic. -/
def apply : Op K W → OverlayedMap K (Option W) → Option (OverlayedMap K (Option W) × Outcome)
  | .set key value atExtrinsic, m => some (m.set key value atExtrinsic, .done)
  | .modify key init atExtrinsic mutate, m => some (m.modify key init atExtrinsic mutate, .done)
  | .clearWhere predicate atExtrinsic, m =>
      (m.clearWhere predicate atExtrinsic).map fun (m, count) => (m, .cleared count)
  | .startTransaction, m => some (m.startTransaction, .done)
  | .commitTransaction, m => m.commitTransaction.map (settle m .noOpenTransaction)
  | .rollbackTransaction, m => m.rollbackTransaction.map (settle m .noOpenTransaction)
  | .enterRuntime, m => some (settle m .alreadyInRuntime m.enterRuntime)
  | .exitRuntime, m => m.exitRuntime.map (settle m .notInRuntime)

noncomputable def run : Op K W → Transactions K (Option W) → Transactions K (Option W) × Outcome
  | .set key value _, t => (t.set key value, .done)
  | .modify key init _ mutate, t => (t.modify key init mutate, .done)
  | .clearWhere predicate _, t => (t.clearWhere predicate, .cleared (t.clearCount predicate))
  | .startTransaction, t => (t.start, .done)
  | .commitTransaction, t => settle t .noOpenTransaction (t.close false)
  | .rollbackTransaction, t => settle t .noOpenTransaction (t.close true)
  | .enterRuntime, t => settle t .alreadyInRuntime t.enterRuntime
  | .exitRuntime, t => settle t .notInRuntime t.exitRuntime

/-- Whether a call writes a key: only `set` and `modify` add one. -/
def Writes : Op K W → K → Prop
  | .set key _ _, k => k = key
  | .modify key _ _ _, k => k = key
  | _, _ => False

end Op

def applyAll {W : Type} :
    List (Op K W) → OverlayedMap K (Option W) → Option (OverlayedMap K (Option W) × List Outcome)
  | [], m => some (m, [])
  | op :: ops, m =>
      (op.apply m).bind fun (m, outcome) =>
        (applyAll ops m).map fun (m, outcomes) => (m, outcome :: outcomes)

noncomputable def runAll {W : Type} :
    List (Op K W) → Transactions K (Option W) → Transactions K (Option W) × List Outcome
  | [], t => (t, [])
  | op :: ops, t =>
      let (t, outcome) := op.run t
      let (t, outcomes) := runAll ops t
      (t, outcome :: outcomes)

def Agrees {α β ε : Type} (R : α → β → Prop) : Except ε α → Except ε β → Prop
  | .ok a, .ok b => R a b
  | .error e, .error e' => e = e'
  | _, _ => False

/-- Agreeing results, settled against related states the call started from. -/
theorem Agrees.settle {α β ε : Type} {R : α → β → Prop} {r : Except ε α} {r' : Except ε β}
    {a : α} {b : β} (hab : R a b) (h : Agrees R r r') (failed : Outcome) :
    (settle a failed r).2 = (settle b failed r').2 ∧ R (settle a failed r).1 (settle b failed r').1 := by
  cases r with
  | ok a' =>
    cases r' with
    | ok b' => exact ⟨rfl, h⟩
    | error e' => exact h.elim
  | error e =>
    cases r' with
    | ok b' => exact h.elim
    | error e' => exact ⟨rfl, hab⟩

/-- Where the model succeeds, so does the overlay, at a related state. -/
theorem Agrees.of_ok {α β ε : Type} {R : α → β → Prop} {r : Except ε α} {b : β}
    (h : Agrees R r (.ok b)) : ∃ a, r = .ok a ∧ R a b := by
  cases r with
  | ok a => exact ⟨a, rfl, h⟩
  | error e => exact h.elim

/-- A change of the model's result is a change of the relation. -/
theorem Agrees.map_iff {α β γ ε : Type} {R : α → γ → Prop} (f : β → γ) {r : Except ε α}
    {r' : Except ε β} : Agrees R r (r'.map f) ↔ Agrees (fun a b => R a (f b)) r r' := by
  cases r <;> cases r' <;> rfl

namespace Refines

variable {m : OverlayedMap K V} {t : Transactions K V}

theorem closeAgrees (hm : m.Inv) (hr : Refines m t) (rollback : Bool) :
    ∃ r, m.closeTransaction rollback = some r ∧
      Agrees (fun m t => m.Inv ∧ Refines m t) r (t.close rollback) := by
  by_cases hguard : t.executionMode = .runtime ∧ t.depth ≤ t.numClientTransactions
  · -- the runtime may not close a transaction of the client
    refine ⟨_, OverlayedMap.closeTransaction_of_protected rollback (hr.protects_iff.mpr hguard), ?_⟩
    rw [Transactions.close, if_pos hguard]
    rfl
  · cases hs : (if rollback then t.snapshots.rollback else t.snapshots.commit) with
    | none =>
      -- no transaction is open
      have h0 : t.depth = 0 := by
        cases rollback
        · exact (Snapshots.commit_eq_none_iff _).mp (by simpa using hs)
        · exact (Snapshots.rollback_eq_none_iff _).mp (by simpa using hs)
      refine ⟨_, OverlayedMap.closeTransaction_of_depth_eq_zero rollback (hr.depth.trans h0), ?_⟩
      rw [Transactions.close, if_neg hguard, hs]
      rfl
    | some s =>
      obtain ⟨m', hm', hinv', hr'⟩ := close hm hr hguard hs
      refine ⟨_, hm', ?_⟩
      rw [Transactions.close, if_neg hguard, hs]
      exact ⟨hinv', hr'⟩

theorem enterAgrees (hm : m.Inv) (hr : Refines m t) :
    Agrees (fun m t => m.Inv ∧ Refines m t) m.enterRuntime t.enterRuntime := by
  by_cases hmode : t.executionMode = .runtime
  · rw [OverlayedMap.enterRuntime, if_pos (hr.executionMode.trans hmode), Transactions.enterRuntime,
      if_pos hmode]
    rfl
  · rw [OverlayedMap.enterRuntime, if_neg (by rw [hr.executionMode]; exact hmode),
      Transactions.enterRuntime, if_neg hmode]
    exact ⟨⟨hm.nodup, hm.valid⟩, ⟨hr.depth, hr.depth, rfl, hr.levels⟩⟩

theorem exitAgrees (hm : m.Inv) (hr : Refines m t) :
    ∃ r, m.exitRuntime = some r ∧ Agrees (fun m t => m.Inv ∧ Refines m t) r t.exitRuntime := by
  by_cases hmode : t.executionMode = .client
  · refine ⟨_, by rw [OverlayedMap.exitRuntime, if_pos (hr.executionMode.trans hmode)], ?_⟩
    rw [Transactions.exitRuntime, if_pos hmode]
    rfl
  · -- the loop starts in client mode, at the same depth and protection
    have hr₀ : Refines { m with executionMode := .client } { t with executionMode := .client } :=
      ⟨hr.depth, hr.numClientTransactions, rfl, hr.levels⟩
    obtain ⟨m', hloop, hinv', hr'⟩ := rollbackRuntimeTransactions m.transactionDepth
      (m := { m with executionMode := .client }) ⟨hm.nodup, hm.valid⟩ hr₀ rfl
      (by rw [hr.depth]; exact Nat.sub_le _ _)
    refine ⟨.ok m', ?_, ?_⟩
    · rw [OverlayedMap.exitRuntime, if_neg (by rw [hr.executionMode]; exact hmode)]
      exact congrArg (Option.map Except.ok) hloop
    · rw [Transactions.exitRuntime, if_neg hmode]
      exact ⟨hinv', hr'⟩

end Refines

namespace Op

variable {W : Type}

theorem simulate_of_agrees {ε : Type} {m : OverlayedMap K (Option W)} {t : Transactions K (Option W)}
    {r : Except ε (OverlayedMap K (Option W))} {r' : Except ε (Transactions K (Option W))}
    (hm : m.Inv) (hr : Refines m t) (h : Agrees (fun m t => m.Inv ∧ Refines m t) r r')
    (failed : Outcome) :
    ∃ m', some (settle m failed r) = some (m', (settle t failed r').2) ∧ m'.Inv ∧
      Refines m' (settle t failed r').1 := by
  obtain ⟨hout, hinv, href⟩ := h.settle (a := m) ⟨hm, hr⟩ failed
  exact ⟨_, by rw [← hout], hinv, href⟩

/-- Every call, from a state with the invariant, does not panic, keeps the invariant and the
refinement, and returns what the model returns. -/
theorem simulate (op : Op K W) {m : OverlayedMap K (Option W)} {t : Transactions K (Option W)}
    (hm : m.Inv) (hr : Refines m t) :
    ∃ m', op.apply m = some (m', (op.run t).2) ∧ m'.Inv ∧ Refines m' (op.run t).1 := by
  cases op with
  | set key value atExtrinsic => exact ⟨_, rfl, hm.set key value atExtrinsic, hr.set key value atExtrinsic⟩
  | modify key init atExtrinsic mutate =>
    exact ⟨_, rfl, hm.modify key init atExtrinsic mutate, hr.modify key init atExtrinsic mutate⟩
  | clearWhere predicate atExtrinsic =>
    obtain ⟨⟨m', n⟩, h⟩ : ∃ r, m.clearWhere predicate atExtrinsic = some r := hm.clearWhere_isSome
    obtain ⟨hr', hn⟩ := hr.clearWhere hm h
    refine ⟨m', ?_, hm.clearWhere h, hr'⟩
    simp [apply, run, h, hn]
  | startTransaction => exact ⟨_, rfl, hm.startTransaction, hr.start⟩
  | commitTransaction =>
    obtain ⟨r, h, hagrees⟩ := hr.closeAgrees hm false
    rw [apply, run, OverlayedMap.commitTransaction, h, Option.map_some]
    exact simulate_of_agrees hm hr hagrees _
  | rollbackTransaction =>
    obtain ⟨r, h, hagrees⟩ := hr.closeAgrees hm true
    rw [apply, run, OverlayedMap.rollbackTransaction, h, Option.map_some]
    exact simulate_of_agrees hm hr hagrees _
  | enterRuntime =>
    rw [apply, run]
    exact simulate_of_agrees hm hr (hr.enterAgrees hm) _
  | exitRuntime =>
    obtain ⟨r, h, hagrees⟩ := hr.exitAgrees hm
    rw [apply, run, h, Option.map_some]
    exact simulate_of_agrees hm hr hagrees _

end Op

/-- Every sequence of calls, from a state with the invariant, does not panic, keeps the
invariant and the refinement, and returns what the model returns. -/
theorem applyAll_refines {W : Type} :
    ∀ (ops : List (Op K W)) {m : OverlayedMap K (Option W)} {t : Transactions K (Option W)},
      m.Inv → Refines m t →
      ∃ m', applyAll ops m = some (m', (runAll ops t).2) ∧ m'.Inv ∧ Refines m' (runAll ops t).1
  | [], m, _, hm, hr => ⟨m, rfl, hm, hr⟩
  | op :: ops, m, t, hm, hr => by
    obtain ⟨m₁, h₁, hinv₁, hr₁⟩ := op.simulate hm hr
    obtain ⟨m', h', hinv', hr'⟩ := applyAll_refines ops hinv₁ hr₁
    refine ⟨m', ?_, hinv', hr'⟩
    simp [applyAll, runAll, h₁, h']

/-! ## Keys never written -/

namespace Transactions

omit [DecidableEq K] in
theorem unwritten_empty (k : K) : (empty : Transactions K V).Unwritten k := by
  simp [Unwritten, empty]

omit [DecidableEq K] in
theorem Unwritten.top_eq_none {t : Transactions K V} {k : K} (ht : t.Unwritten k) :
    t.snapshots.top k = none :=
  ht _ List.mem_cons_self

omit [DecidableEq K] in
theorem Unwritten.of_sublist {t t' : Transactions K V} {k : K} (ht : t.Unwritten k)
    (h : (t'.snapshots.view k).Sublist (t.snapshots.view k)) : t'.Unwritten k :=
  fun x hx => ht x (h.subset hx)

omit [DecidableEq K] in
/-- A closed transaction leaves each key a part of what it saw. -/
theorem view_sublist_of_close {t t' : Transactions K V} {rollback : Bool}
    (h : t.close rollback = .ok t') (k : K) : (t'.snapshots.view k).Sublist (t.snapshots.view k) := by
  rw [close] at h
  split at h
  · cases h
  · split at h
    · cases h
    · next s hs =>
        cases h
        cases rollback
        · exact Snapshots.view_sublist_of_commit (by simpa using hs) k
        · exact Snapshots.view_sublist_of_rollback (by simpa using hs) k

namespace Unwritten

variable {t : Transactions K V} {k : K}

theorem set (ht : t.Unwritten k) {key : K} (hk : k ≠ key) (value : V) : (t.set key value).Unwritten k := by
  refine ht.of_sublist ?_
  rw [Transactions.set, Snapshots.view_write, Function.update_of_ne hk]
  exact List.Sublist.refl _

omit [DecidableEq K] in
theorem clearWhere {W : Type} {t : Transactions K (Option W)} (ht : t.Unwritten k)
    (predicate : K → Bool) : (t.clearWhere predicate).Unwritten k := by
  intro x hx
  simp only [Transactions.clearWhere, Snapshots.view_write, ht.top_eq_none, Option.isSome_none,
    Bool.false_eq_true, and_false, if_false, List.mem_cons] at hx
  rcases hx with rfl | hx
  · rfl
  · exact ht x (List.mem_of_mem_tail hx)

omit [DecidableEq K] in
theorem start (ht : t.Unwritten k) : t.start.Unwritten k := by
  intro x hx
  rw [Transactions.start, Snapshots.view_start, List.mem_cons] at hx
  rcases hx with rfl | hx
  · exact ht.top_eq_none
  · exact ht x hx

omit [DecidableEq K] in
theorem close (ht : t.Unwritten k) {rollback : Bool} {t' : Transactions K V}
    (h : t.close rollback = .ok t') : t'.Unwritten k :=
  ht.of_sublist (view_sublist_of_close h k)

omit [DecidableEq K] in
theorem enterRuntime (ht : t.Unwritten k) {t' : Transactions K V} (h : t.enterRuntime = .ok t') :
    t'.Unwritten k := by
  rw [Transactions.enterRuntime] at h
  split at h
  · cases h
  · cases h
    exact ht

omit [DecidableEq K] in
theorem exitRuntime (ht : t.Unwritten k) {t' : Transactions K V} (h : t.exitRuntime = .ok t') :
    t'.Unwritten k := by
  rw [Transactions.exitRuntime] at h
  split at h
  · cases h
  · cases h
    exact ht.of_sublist (Snapshots.view_sublist_rollbackN _ _ k)

end Unwritten

end Transactions

/-- Where a call fails, the model is left as it was. -/
theorem settle_of_ok {σ ε : Type} {P : σ → Prop} {s : σ} (hs : P s) {failed : Outcome}
    {r : Except ε σ} (hok : ∀ s', r = .ok s' → P s') : P (settle s failed r).1 := by
  cases r with
  | ok s' => exact hok s' rfl
  | error => exact hs

/-- A call that does not write a key leaves it without a value at every level. -/
theorem Op.unwritten_run {W : Type} (op : Op K W) {t : Transactions K (Option W)} {k : K}
    (ht : t.Unwritten k) (hw : ¬op.Writes k) : (op.run t).1.Unwritten k := by
  cases op with
  | set key value _ => exact ht.set hw value
  | modify key init _ mutate =>
    refine ht.of_sublist ?_
    simp only [Op.run, Transactions.modify, Snapshots.view_write, Function.update_of_ne hw]
    exact List.Sublist.refl _
  | clearWhere predicate _ => exact ht.clearWhere predicate
  | startTransaction => exact ht.start
  | commitTransaction => exact settle_of_ok (P := (·.Unwritten k)) ht fun _ h => ht.close h
  | rollbackTransaction => exact settle_of_ok (P := (·.Unwritten k)) ht fun _ h => ht.close h
  | enterRuntime => exact settle_of_ok (P := (·.Unwritten k)) ht fun _ h => ht.enterRuntime h
  | exitRuntime => exact settle_of_ok (P := (·.Unwritten k)) ht fun _ h => ht.exitRuntime h

theorem unwritten_runAll {W : Type} :
    ∀ (ops : List (Op K W)) {t : Transactions K (Option W)} {k : K}, t.Unwritten k →
      (∀ op ∈ ops, ¬op.Writes k) → (runAll ops t).1.Unwritten k
  | [], _, _, ht, _ => ht
  | op :: ops, _, _, ht, hw =>
    unwritten_runAll ops (op.unwritten_run ht (hw op List.mem_cons_self))
      (fun op' hop' => hw op' (List.mem_cons_of_mem op hop'))

/-- Under the invariant, a key with no value at any level has no entry. -/
theorem Refines.get_eq_none {m : OverlayedMap K V} {t : Transactions K V} (hm : m.Inv)
    (hr : Refines m t) {k : K} (ht : t.Unwritten k) :
    m.get k = none := by
  have hvalue : ((m.get k).bind OverlayedEntry.valueRef).isSome = false := by
    rw [hr.value k, ht.top_eq_none]
    rfl
  rw [hm.value_isSome k] at hvalue
  exact Option.not_isSome_iff_eq_none.mp (by simp [hvalue])

end Substrate.StateMachine
