import Substrate.StateMachine.Changeset
import Substrate.Lib.Fold
import Substrate.Lib.Snapshots

/-! # What the overlay keeps at each key

Every operation of an `OverlayedMap` acts key by key. From a key's versions and writers `expand`
rebuilds the stack `Snapshots` holds at the key; the invariant asks one version per writing
transaction and at most one more, committed before them.
-/

namespace Substrate.StateMachine

variable {K V : Type} [DecidableEq K]

def OverlayedEntry.values (e : OverlayedEntry V) : List V := e.transactions.map (·.value)

/-- Whether each transaction's dirty set holds the key, the innermost first. -/
def writtenBy (dirtyKeys : List (List K)) (key : K) : List Bool :=
  (dirtyKeys.map fun set => decide (key ∈ set)).reverse

def keyView (changes : AList (fun _ : K => OverlayedEntry V)) (dirtyKeys : List (List K))
    (key : K) : Option (List V) × List Bool :=
  ((changes.lookup key).map (·.values), writtenBy dirtyKeys key)

/-- The value at each level, the innermost first, from the values of the versions and whether
each transaction wrote the key: one that did owns the last version. -/
def expand : List V → List Bool → List (Option V)
  | vs, [] => [vs.getLast?]
  | vs, b :: bs => vs.getLast? :: expand (if b then vs.dropLast else vs) bs

def levelsOf (v : Option (List V) × List Bool) : List (Option V) := expand (v.1.getD []) v.2

/-- The invariant at one key: an entry has a version for each transaction that wrote the key and
at most one more; a key no transaction wrote may have no entry. -/
def KeyValid : Option (List V) × List Bool → Prop
  | (none, bs) => bs.count true = 0
  | (some vs, bs) => vs ≠ [] ∧ bs.count true ≤ vs.length ∧ vs.length ≤ bs.count true + 1

def markTop : List Bool → List Bool
  | [] => []
  | _ :: bs => true :: bs

def writeBase (vs : List V) (bs : List Bool) : List V :=
  if bs.head? = some false then vs else vs.dropLast

def mergeTop (vs : List V) : List V := vs.dropLast.dropLast ++ vs.getLast?.toList

/-! ## Levels -/

@[simp]
theorem length_expand : ∀ (vs : List V) (bs : List Bool), (expand vs bs).length = bs.length + 1
  | _, [] => rfl
  | vs, _ :: bs => by rw [expand, List.length_cons, length_expand _ bs, List.length_cons]

variable (vs : List V)

variable (bs : List Bool)

theorem expand_eq_cons :
    expand vs bs = vs.getLast? :: (expand vs bs).tail := by
  cases bs <;> rfl

/-- A write replaces what the innermost level sees and keeps the others. -/
theorem expand_write (v : V) :
    expand (writeBase vs bs ++ [v]) (markTop bs) = some v :: (expand vs bs).tail := by
  cases bs with
  | nil => simp [markTop, expand]
  | cons b bs =>
    cases b <;> simp [markTop, writeBase, expand]

theorem expand_nil : ∀ (bs : List Bool), expand ([] : List V) bs = List.replicate (bs.length + 1) none
  | [] => rfl
  | b :: bs => by
    rw [expand, List.dropLast_nil, ite_self, expand_nil bs]
    rfl

/-- The outermost level sees the last of the versions no open transaction wrote. -/
theorem getLast?_expand : ∀ (vs : List V) (bs : List Bool),
    (expand vs bs).getLast? = some (vs.take (vs.length - bs.count true)).getLast?
  | vs, [] => by simp [expand]
  | vs, b :: bs => by
    rw [expand, List.getLast?_cons, getLast?_expand _ bs]
    cases b
    · simp
    · rw [if_pos rfl, List.length_dropLast, List.dropLast_eq_take, List.take_take,
        Nat.min_eq_left (Nat.sub_le _ _), List.count_cons_self, Nat.sub_sub, Nat.add_comm 1]
      rfl

theorem keyValid_write {vs? : Option (List V)} {bs : List Bool} (h : KeyValid (vs?, bs)) (v : V) :
    KeyValid (some (writeBase (vs?.getD []) bs ++ [v]), markTop bs) := by
  cases vs? with
  | none =>
    have hcount : bs.count true = 0 := h
    cases bs with
    | nil => simp [KeyValid, markTop, writeBase]
    | cons b bs =>
      cases b
      · simp_all [KeyValid, markTop, writeBase]
      · simp at hcount
  | some vs =>
    obtain ⟨hne, hlow, hhigh⟩ := h
    cases bs with
    | nil =>
      -- no transaction is open: the only version is overwritten
      have hlen : vs.length = 1 := by
        have := List.length_pos_of_ne_nil hne
        simp at hhigh
        omega
      simp [KeyValid, markTop, writeBase, hlen]
    | cons b bs =>
      cases b
      · simp_all [KeyValid, markTop, writeBase]
      · simp only [List.count_cons_self] at hlow hhigh
        have := List.length_pos_of_ne_nil hne
        simp [KeyValid, markTop, writeBase]
        omega

/-! ## Entries and dirty sets -/

namespace OverlayedEntry

@[simp]
theorem values_mk (transactions : List (InnerValue V)) :
    (OverlayedEntry.mk transactions).values = transactions.map (·.value) := rfl

variable (e : OverlayedEntry V)

theorem values_eq_nil_iff : e.values = [] ↔ e.transactions = [] := by
  simp [values]

theorem getLast?_values :
    e.values.getLast? = e.transactions.getLast?.map (·.value) := by
  simp [values, List.getLast?_map]

theorem values_modifyLast (f : InnerValue V → InnerValue V) (e : OverlayedEntry V) :
    (e.modifyLast f).values =
      e.values.dropLast ++ (e.transactions.getLast?.map fun tx => (f tx).value).toList := by
  rw [modifyLast]
  cases h : e.transactions.getLast? with
  | none =>
    rw [List.getLast?_eq_none_iff] at h
    simp [values, h]
  | some last => simp [values, List.map_dropLast]

theorem values_modifyLast_of_value {f : InnerValue V → InnerValue V}
    (hf : ∀ tx, (f tx).value = tx.value) (e : OverlayedEntry V) : (e.modifyLast f).values = e.values := by
  rw [values_modifyLast]
  cases h : e.transactions.getLast? with
  | none =>
    rw [List.getLast?_eq_none_iff] at h
    simp [values, h]
  | some last =>
    rw [Option.map_some, hf, Option.toList_some]
    have hlast : e.values.getLast? = some last.value := by rw [getLast?_values, h, Option.map_some]
    exact List.dropLast_append_getLast? _ hlast

theorem values_modifyLast_value (g : V → V) (e : OverlayedEntry V) :
    (e.modifyLast fun tx => { tx with value := g tx.value }).values =
      e.values.dropLast ++ (e.values.getLast?.map g).toList := by
  rw [values_modifyLast, getLast?_values, Option.map_map]
  rfl

/-- `set` keeps the versions below the one it writes as `writeBase` says: a first write in the
transaction, or one to an entry without versions, adds a version. -/
theorem values_set (value : V) (firstWriteInTx : Bool)
    (atExtrinsic : Option Nat) :
    (e.set value firstWriteInTx atExtrinsic).values =
      (if firstWriteInTx || e.transactions.isEmpty then e.values else e.values.dropLast) ++ [value] := by
  have hwrite : (if firstWriteInTx || e.transactions.isEmpty then
      (⟨e.transactions ++ [⟨value, []⟩]⟩ : OverlayedEntry V) else
      e.modifyLast fun tx => { tx with value }).values =
      (if firstWriteInTx || e.transactions.isEmpty then e.values else e.values.dropLast) ++ [value] := by
    split
    · simp [values]
    · next hfirst =>
        obtain ⟨last, hlast⟩ : ∃ last, e.transactions.getLast? = some last := by
          simp only [Bool.or_eq_true, List.isEmpty_iff, not_or] at hfirst
          exact Option.ne_none_iff_exists'.mp (mt List.getLast?_eq_none_iff.mp hfirst.2)
        simp [values_modifyLast, hlast]
  cases atExtrinsic with
  | none =>
    rw [set]
    exact hwrite
  | some extrinsic =>
    rw [set]
    exact (values_modifyLast_of_value
      (f := fun tx => { tx with extrinsics := extrinsicsInsert tx.extrinsics extrinsic })
      (fun _ => rfl) _).trans hwrite

theorem popTransaction_eq_some {e e' : OverlayedEntry V} {dropped : InnerValue V}
    (h : e.popTransaction = some (dropped, e')) :
    e'.values = e.values.dropLast ∧ e.values.getLast? = some dropped.value := by
  rw [popTransaction] at h
  cases hlast : e.transactions.getLast? with
  | none => simp [hlast] at h
  | some last =>
    simp only [hlast, Option.map_some, Option.some.injEq, Prod.mk.injEq] at h
    obtain ⟨rfl, rfl⟩ := h
    exact ⟨by simp [values, List.map_dropLast], by rw [getLast?_values, hlast, Option.map_some]⟩

theorem popTransaction_isSome {e : OverlayedEntry V} (he : e.transactions ≠ []) :
    ∃ p, e.popTransaction = some p := by
  obtain ⟨last, hlast⟩ := Option.ne_none_iff_exists'.mp (mt List.getLast?_eq_none_iff.mp he)
  exact ⟨_, by rw [popTransaction, hlast, Option.map_some]⟩

theorem values_merge {e e' : OverlayedEntry V} (h : e.merge = some e') : e'.values = mergeTop e.values := by
  rw [merge] at h
  cases hpop : e.popTransaction with
  | none => simp [hpop] at h
  | some p =>
    obtain ⟨dropped, e₁⟩ := p
    obtain ⟨hvalues, hdropped⟩ := popTransaction_eq_some hpop
    simp only [hpop] at h
    cases hlast : e₁.transactions.getLast? with
    | none => simp [hlast] at h
    | some last =>
      simp only [hlast, Option.some.injEq] at h
      subst h
      rw [values_modifyLast, hlast, hvalues, mergeTop, hdropped]
      rfl

theorem merge_isSome {e : OverlayedEntry V} (he : 1 < e.transactions.length) : ∃ e', e.merge = some e' := by
  have hne : e.transactions ≠ [] := List.ne_nil_of_length_pos (by omega)
  obtain ⟨⟨dropped, e₁⟩, hpop⟩ := popTransaction_isSome hne
  have hlen : e₁.transactions ≠ [] := by
    intro hnil
    have hvalues := (popTransaction_eq_some hpop).1
    rw [(values_eq_nil_iff e₁).mpr hnil] at hvalues
    have := congrArg List.length hvalues
    simp [values] at this
    omega
  obtain ⟨last, hlast⟩ := Option.ne_none_iff_exists'.mp (mt List.getLast?_eq_none_iff.mp hlen)
  refine ⟨e₁.modifyLast fun tx => ⟨dropped.value, tx.extrinsics ++ dropped.extrinsics⟩, ?_⟩
  rw [merge, hpop]
  simp only [hlast]

end OverlayedEntry

theorem writeBase_of_firstWrite {isEmpty : Bool}
    (hempty : isEmpty = true → vs = []) :
    (if decide (bs.head? = some false) || isEmpty then vs else vs.dropLast) = writeBase vs bs := by
  by_cases hfirst : bs.head? = some false
  · simp [writeBase, hfirst]
  · cases isEmpty
    · simp [writeBase, hfirst]
    · simp [writeBase, hfirst, hempty rfl]

section DirtySets

variable (sets : List (List K)) (set : List K) (key : K) (versions : Nat)

@[simp]
theorem writtenBy_nil : writtenBy [] key = [] := rfl

@[simp]
theorem writtenBy_append_singleton :
    writtenBy (sets ++ [set]) key = decide (key ∈ set) :: writtenBy sets key := by
  simp [writtenBy]

@[simp]
theorem length_writtenBy : (writtenBy sets key).length = sets.length := by
  simp [writtenBy]

theorem count_writtenBy (dirtyKeys : List (List K)) (key : K) :
    (writtenBy dirtyKeys key).count true = (dirtyKeys.filter (key ∈ ·)).length := by
  rw [writtenBy, List.count_reverse, List.count_eq_countP, List.countP_map,
    List.countP_eq_length_filter]
  simp only [Function.comp_def, beq_true]

theorem insertDirty_nil : insertDirty ([] : List (List K)) key = ([], false) := rfl

theorem insertDirty_append :
    insertDirty (sets ++ [set]) key =
      if key ∈ set then (sets ++ [set], false) else (sets ++ [set ++ [key]], true) := by
  simp [insertDirty]

/-- `insert_dirty` reports a first write exactly when a transaction is open and had not written
the key. -/
theorem insertDirty_snd :
    (insertDirty sets key).2 = decide ((writtenBy sets key).head? = some false) := by
  rcases List.eq_nil_or_concat' sets with rfl | ⟨sets, set, rfl⟩
  · rfl
  · rw [insertDirty_append]
    by_cases hkey : key ∈ set <;> simp [hkey]

theorem writtenBy_insertDirty_self :
    writtenBy (insertDirty sets key).1 key = markTop (writtenBy sets key) := by
  rcases List.eq_nil_or_concat' sets with rfl | ⟨sets, set, rfl⟩
  · rfl
  · rw [insertDirty_append]
    by_cases hkey : key ∈ set <;> simp [hkey, markTop]

theorem writtenBy_insertDirty_of_ne {key k : K} (hne : k ≠ key) :
    writtenBy (insertDirty sets key).1 k = writtenBy sets k := by
  rcases List.eq_nil_or_concat' sets with rfl | ⟨sets, set, rfl⟩
  · rfl
  · rw [insertDirty_append]
    by_cases hkey : key ∈ set <;> simp [hkey, hne]

theorem length_insertDirty :
    (insertDirty sets key).1.length = sets.length := by
  rcases List.eq_nil_or_concat' sets with rfl | ⟨sets, set, rfl⟩
  · rfl
  · rw [insertDirty_append]
    split <;> simp

theorem nodup_insertDirty {sets : List (List K)} (h : ∀ set ∈ sets, set.Nodup) (key : K) :
    ∀ set ∈ (insertDirty sets key).1, set.Nodup := by
  rcases List.eq_nil_or_concat' sets with rfl | ⟨sets, set, rfl⟩
  · exact h
  · rw [insertDirty_append]
    split
    · exact h
    · next hkey =>
        intro set' hset'
        rcases List.mem_append.mp hset' with hset' | hset'
        · exact h set' (List.mem_append_left _ hset')
        · rw [List.mem_singleton] at hset'
          subst hset'
          exact (h set (by simp)).append (List.nodup_singleton key) (by simpa using hkey)

theorem hasPredecessor_append :
    hasPredecessor (sets ++ [set]) key versions =
      ((insertDirty (sets ++ [set]) key).1, !(insertDirty (sets ++ [set]) key).2) := by
  simp [hasPredecessor]

theorem writtenBy_hasPredecessor_self :
    writtenBy (hasPredecessor sets key versions).1 key = markTop (writtenBy sets key) := by
  rcases List.eq_nil_or_concat' sets with rfl | ⟨sets, set, rfl⟩
  · rfl
  · rw [hasPredecessor_append, writtenBy_insertDirty_self]

theorem writtenBy_hasPredecessor_of_ne {key k : K}
    (hne : k ≠ key) : writtenBy (hasPredecessor sets key versions).1 k = writtenBy sets k := by
  rcases List.eq_nil_or_concat' sets with rfl | ⟨sets, set, rfl⟩
  · rfl
  · rw [hasPredecessor_append, writtenBy_insertDirty_of_ne _ hne]

/-- A committed key has a predecessor when the enclosing transaction wrote it, or, with none
open, when it has a second version. -/
theorem hasPredecessor_snd :
    (hasPredecessor sets key versions).2 =
      match writtenBy sets key with
      | [] => decide (1 < versions)
      | b :: _ => b := by
  rcases List.eq_nil_or_concat' sets with rfl | ⟨sets, set, rfl⟩
  · rfl
  · rw [hasPredecessor_append, insertDirty_snd, writtenBy_append_singleton]
    cases decide (key ∈ set) <;> rfl

theorem length_hasPredecessor :
    (hasPredecessor sets key versions).1.length = sets.length := by
  rcases List.eq_nil_or_concat' sets with rfl | ⟨sets, set, rfl⟩
  · rfl
  · rw [hasPredecessor_append, length_insertDirty]

theorem nodup_hasPredecessor {sets : List (List K)} (h : ∀ set ∈ sets, set.Nodup) (key : K)
    (versions : Nat) : ∀ set ∈ (hasPredecessor sets key versions).1, set.Nodup := by
  rcases List.eq_nil_or_concat' sets with rfl | ⟨sets, set, rfl⟩
  · exact h
  · rw [hasPredecessor_append]
    exact nodup_insertDirty h key

/-! ## Closing a transaction, one key at a time -/

/-- What closing a transaction leaves at a key it wrote: rolled back, its last version goes;
committed, it merges into the one before if the enclosing transaction wrote the key. -/
def closeView (rollback : Bool) (v : Option (List V) × List Bool) : Option (List V) × List Bool :=
  if rollback then
    (v.1.bind fun vs => if vs.dropLast = [] then none else some vs.dropLast, v.2)
  else
    match v.2 with
    | [] => (v.1.map fun vs => if 1 < vs.length then mergeTop vs else vs, [])
    | b :: bs => (v.1.map fun vs => if b then mergeTop vs else vs, true :: bs)

/-- The loop body as it changes the changes and the dirty sets, one case per branch of the source:
a rollback, a commit with a merge, and a commit without one. -/
theorem closeKey_eq_some {rollback : Bool} {changes changes' : AList (fun _ : K => OverlayedEntry V)}
    {sets sets' : List (List K)} {key : K}
    (h : OverlayedMap.closeKey rollback (changes, sets) key = some (changes', sets')) :
    ∃ e, changes.lookup key = some e ∧
      ((rollback = true ∧ sets' = sets ∧ ∃ dropped e', e.popTransaction = some (dropped, e') ∧
          changes' = if e'.transactions.isEmpty then changes.erase key else changes.insert key e') ∨
        (rollback = false ∧ sets' = (hasPredecessor sets key e.transactions.length).1 ∧
          (((hasPredecessor sets key e.transactions.length).2 = true ∧
              ∃ e', e.merge = some e' ∧ changes' = changes.insert key e') ∨
            ((hasPredecessor sets key e.transactions.length).2 = false ∧ changes' = changes)))) := by
  simp only [OverlayedMap.closeKey] at h
  cases hlookup : changes.lookup key with
  | none => simp [hlookup] at h
  | some e =>
    simp only [hlookup] at h
    refine ⟨e, rfl, ?_⟩
    cases rollback
    · right
      generalize hp : hasPredecessor sets key e.transactions.length = p at h
      obtain ⟨setsP, predecessor⟩ := p
      cases predecessor
      · simp only [Bool.false_eq_true, if_false, Option.some.injEq, Prod.mk.injEq] at h
        exact ⟨rfl, h.2.symm, Or.inr ⟨rfl, h.1.symm⟩⟩
      · cases hmerge : e.merge with
        | none => simp [hmerge] at h
        | some e' =>
          simp only [Bool.false_eq_true, if_false, if_true, hmerge, Option.map_some,
            Option.some.injEq, Prod.mk.injEq] at h
          exact ⟨rfl, h.2.symm, Or.inl ⟨rfl, e', rfl, h.1.symm⟩⟩
    · left
      cases hpop : e.popTransaction with
      | none => simp [hpop] at h
      | some p =>
        obtain ⟨dropped, e'⟩ := p
        simp only [hpop, if_true] at h
        refine ⟨rfl, ?_, dropped, e', rfl, ?_⟩ <;> split at h <;> simp_all

def mergesOnCommit (bs : List Bool) (versions : Nat) : Bool :=
  match bs with
  | [] => decide (1 < versions)
  | b :: _ => b

theorem closeView_false_some (vs : List V) (bs : List Bool) :
    closeView false (some vs, bs) =
      (some (if mergesOnCommit bs vs.length then mergeTop vs else vs), markTop bs) := by
  cases bs with
  | nil => simp [closeView, mergesOnCommit, markTop]
  | cons b bs => cases b <;> rfl

theorem hasPredecessor_snd_eq_mergesOnCommit :
    (hasPredecessor sets key versions).2 = mergesOnCommit (writtenBy sets key) versions := by
  rw [hasPredecessor_snd]
  rfl

end DirtySets

section CloseKey

variable {rollback : Bool} {changes changes' : AList (fun _ : K => OverlayedEntry V)}
  {sets sets' : List (List K)} {key : K}

theorem closeKey_view_of_ne (h : OverlayedMap.closeKey rollback (changes, sets) key = some (changes', sets'))
    {k : K} (hne : k ≠ key) : keyView changes' sets' k = keyView changes sets k := by
  obtain ⟨e, -, hcases⟩ := closeKey_eq_some h
  rcases hcases with ⟨-, rfl, dropped, e', -, rfl⟩ | ⟨-, rfl, hcommit⟩
  · split <;> simp [keyView, AList.lookup_erase_ne hne, AList.lookup_insert_ne hne]
  · rcases hcommit with ⟨-, e', -, rfl⟩ | ⟨-, rfl⟩
    · simp [keyView, AList.lookup_insert_ne hne, writtenBy_hasPredecessor_of_ne _ _ hne]
    · simp [keyView, writtenBy_hasPredecessor_of_ne _ _ hne]

theorem closeKey_view_self (h : OverlayedMap.closeKey rollback (changes, sets) key = some (changes', sets')) :
    keyView changes' sets' key = closeView rollback (keyView changes sets key) := by
  obtain ⟨e, hlookup, hcases⟩ := closeKey_eq_some h
  rcases hcases with ⟨rfl, rfl, dropped, e', hpop, rfl⟩ | ⟨rfl, rfl, hcommit⟩
  · -- a rollback drops the last version, and the entry once it has none
    have hvalues := (OverlayedEntry.popTransaction_eq_some hpop).1
    simp only [keyView, hlookup, closeView, if_true, Option.map_some, Option.bind_some]
    split
    · next hempty =>
        rw [List.isEmpty_iff, ← OverlayedEntry.values_eq_nil_iff, hvalues] at hempty
        simp [hempty]
    · next hempty =>
        rw [List.isEmpty_iff, ← OverlayedEntry.values_eq_nil_iff, hvalues] at hempty
        simp [hempty, hvalues]
  · have hlength : e.values.length = e.transactions.length := by simp [OverlayedEntry.values]
    simp only [keyView, hlookup, Option.map_some, closeView_false_some, writtenBy_hasPredecessor_self,
      hlength]
    rw [hasPredecessor_snd_eq_mergesOnCommit] at hcommit
    rcases hcommit with ⟨hmerges, e', hmerge, rfl⟩ | ⟨hmerges, rfl⟩
    · simp [hmerges, OverlayedEntry.values_merge hmerge]
    · simp [hmerges, hlookup]

theorem closeKey_keeps (h : OverlayedMap.closeKey rollback (changes, sets) key = some (changes', sets')) :
    sets'.length = sets.length ∧ ((∀ set ∈ sets, set.Nodup) → ∀ set ∈ sets', set.Nodup) := by
  obtain ⟨e, -, hcases⟩ := closeKey_eq_some h
  rcases hcases with ⟨-, rfl, -⟩ | ⟨-, rfl, -⟩
  · exact ⟨rfl, id⟩
  · exact ⟨length_hasPredecessor _ _ _, fun hnodup => nodup_hasPredecessor hnodup _ _⟩

/-- A key the popped transaction wrote is closed without a panic when the invariant held at it. -/
theorem closeKey_isSome (rollback : Bool) (changes : AList (fun _ : K => OverlayedEntry V))
    (sets : List (List K)) (key : K)
    (hvalid : KeyValid ((keyView changes sets key).1, true :: (keyView changes sets key).2)) :
    ∃ acc', OverlayedMap.closeKey rollback (changes, sets) key = some acc' := by
  cases hlookup : changes.lookup key with
  | none => simp [keyView, hlookup, KeyValid] at hvalid
  | some e =>
    simp only [keyView, hlookup, Option.map_some, KeyValid, List.count_cons_self] at hvalid
    obtain ⟨hne, hlow, -⟩ := hvalid
    have hlength : e.values.length = e.transactions.length := by simp [OverlayedEntry.values]
    simp only [OverlayedMap.closeKey, hlookup]
    cases rollback
    · generalize hp : hasPredecessor sets key e.transactions.length = p
      obtain ⟨setsP, predecessor⟩ := p
      cases predecessor
      · exact ⟨_, rfl⟩
      · -- a merge needs a version before the last one
        have hmerges : mergesOnCommit (writtenBy sets key) e.transactions.length = true := by
          rw [← hasPredecessor_snd_eq_mergesOnCommit, hp]
        have htwo : 1 < e.transactions.length := by
          revert hmerges hlow
          cases writtenBy sets key with
          | nil => simp [mergesOnCommit]
          | cons b bs =>
            cases b
            · simp [mergesOnCommit]
            · simp only [mergesOnCommit, List.count_cons_self, forall_const]
              omega
        obtain ⟨e', hmerge⟩ := OverlayedEntry.merge_isSome htwo
        exact ⟨(changes.insert key e', setsP), by simp [hmerge]⟩
    · obtain ⟨⟨dropped, e'⟩, hpop⟩ :=
        OverlayedEntry.popTransaction_isSome (mt (OverlayedEntry.values_eq_nil_iff e).mpr hne)
      simp only [if_true, hpop]
      split
      · exact ⟨_, rfl⟩
      · exact ⟨_, rfl⟩

end CloseKey

def popView (rollback : Bool) (v : Option (List V) × List Bool) : Option (List V) × List Bool :=
  match v.2 with
  | [] => v
  | b :: bs => if b then closeView rollback (v.1, bs) else (v.1, bs)

theorem getLast?_mergeTop : (mergeTop vs).getLast? = vs.getLast? := by
  cases h : vs.getLast? with
  | none =>
    rw [List.getLast?_eq_none_iff.mp h]
    rfl
  | some last => simp [mergeTop, h]

theorem dropLast_mergeTop : (mergeTop vs).dropLast = vs.dropLast.dropLast := by
  cases h : vs.getLast? with
  | none =>
    rw [List.getLast?_eq_none_iff.mp h]
    rfl
  | some last => simp [mergeTop, h]

theorem length_mergeTop {vs : List V} (h : 1 < vs.length) : (mergeTop vs).length = vs.length - 1 := by
  have hne : vs ≠ [] := List.ne_nil_of_length_pos (by omega)
  obtain ⟨last, hlast⟩ := Option.ne_none_iff_exists'.mp (mt List.getLast?_eq_none_iff.mp hne)
  rw [mergeTop, hlast, List.length_append, List.length_dropLast, List.length_dropLast]
  simp only [Option.toList_some, List.length_singleton]
  omega

theorem mergeTop_ne_nil {vs : List V} (h : 1 < vs.length) : mergeTop vs ≠ [] := by
  intro hnil
  have hlen := congrArg List.length hnil
  rw [length_mergeTop h, List.length_nil] at hlen
  omega

variable {v : Option (List V) × List Bool}

/-- Closing a transaction keeps the invariant at every key. -/
theorem keyValid_popView (rollback : Bool) (h : KeyValid v) :
    KeyValid (popView rollback v) := by
  rcases v with ⟨_ | vs, _ | ⟨b, bs⟩⟩
  · exact h
  · -- a key without an entry was written by no transaction
    cases b
    · simpa [popView, KeyValid] using h
    · simp [KeyValid] at h
  · exact h
  · obtain ⟨hne, hlow, hhigh⟩ := h
    have hpos := List.length_pos_of_ne_nil hne
    cases b
    · simp_all [popView, KeyValid]
    · simp only [List.count_cons_self] at hlow hhigh
      cases rollback
      · -- a commit merges or keeps the versions, and marks the enclosing transaction
        simp only [popView, if_true, closeView_false_some]
        cases bs with
        | nil =>
          simp only [List.count_nil] at hlow hhigh
          by_cases htwo : 1 < vs.length
          · simp only [mergesOnCommit, htwo, decide_true, if_true, markTop, KeyValid,
              List.count_nil, length_mergeTop htwo]
            exact ⟨mergeTop_ne_nil htwo, by omega, by omega⟩
          · simp only [mergesOnCommit, htwo, decide_false, Bool.false_eq_true, if_false, markTop,
              KeyValid, List.count_nil]
            exact ⟨hne, by omega, by omega⟩
        | cons b' bs =>
          cases b'
          · simp_all [mergesOnCommit, markTop, KeyValid]
          · simp only [List.count_cons_self] at hlow hhigh
            have htwo : 1 < vs.length := by omega
            simp only [mergesOnCommit, if_true, markTop, KeyValid, List.count_cons_self,
              length_mergeTop htwo]
            exact ⟨mergeTop_ne_nil htwo, by omega, by omega⟩
      · -- a rollback drops the last version
        simp only [popView, if_true, closeView, Option.bind_some]
        split
        · next hnil =>
            have := congrArg List.length hnil
            simp only [List.length_dropLast, List.length_nil] at this
            show bs.count true = 0
            omega
        · next hnil =>
            refine ⟨hnil, ?_, ?_⟩ <;> simp only [List.length_dropLast] <;> omega

theorem levelsOf_popView_true (hv : v.2 ≠ []) :
    levelsOf (popView true v) = (levelsOf v).tail := by
  rcases v with ⟨vs?, _ | ⟨b, bs⟩⟩
  · exact absurd rfl hv
  · cases b
    · rfl
    · have hget : (vs?.bind fun vs => if vs.dropLast = [] then none else some vs.dropLast).getD [] =
          (vs?.getD []).dropLast := by
        cases vs? with
        | none => rfl
        | some vs => by_cases hnil : vs.dropLast = [] <;> simp [hnil]
      simp only [levelsOf, popView, if_true, closeView, hget]
      rfl

theorem levelsOf_popView_false (h : KeyValid v) (hv : v.2 ≠ []) :
    levelsOf (popView false v) = (v.1.getD []).getLast? :: (levelsOf v).drop 2 := by
  rcases v with ⟨vs?, _ | ⟨b, bs⟩⟩
  · exact absurd rfl hv
  · cases b
    · show expand (vs?.getD []) bs = (vs?.getD []).getLast? :: (expand (vs?.getD []) bs).drop 1
      rw [List.drop_one]
      exact expand_eq_cons _ _
    · cases vs? with
      | none => simp [KeyValid] at h
      | some vs =>
        simp only [levelsOf, popView, if_true, closeView_false_some, Option.getD_some]
        cases bs with
        | nil => split <;> simp [markTop, expand, getLast?_mergeTop]
        | cons b' bs =>
          cases b'
          · rfl
          · simp [mergesOnCommit, markTop, expand, getLast?_mergeTop, dropLast_mergeTop]

/-! ## The map at each key -/

namespace OverlayedMap

def view (m : OverlayedMap K V) (key : K) : Option (List V) × List Bool :=
  keyView m.changes m.dirtyKeys key

def levels (m : OverlayedMap K V) (key : K) : List (Option V) := levelsOf (m.view key)

/-- The representation invariant of `OverlayedMap`. -/
structure Inv (m : OverlayedMap K V) : Prop where
  nodup : ∀ set ∈ m.dirtyKeys, set.Nodup
  valid : ∀ key, KeyValid (m.view key)

theorem Inv.empty : Inv (empty : OverlayedMap K V) where
  nodup := by simp [OverlayedMap.empty]
  valid := by simp [view, keyView, OverlayedMap.empty, KeyValid]

variable (m : OverlayedMap K V)

@[simp]
theorem length_view_snd (key : K) :
    (m.view key).2.length = m.transactionDepth := by
  simp [view, keyView, transactionDepth]

theorem values_getD (o : Option (OverlayedEntry V)) :
    (o.map (·.values)).getD [] = (o.getD ⟨[]⟩).values := by
  cases o <;> rfl

theorem valueRef_get (key : K) :
    (m.get key).bind OverlayedEntry.valueRef = ((m.view key).1.getD []).getLast? := by
  simp only [get, view, keyView]
  cases m.changes.lookup key with
  | none => rfl
  | some e => simp [OverlayedEntry.valueRef, OverlayedEntry.getLast?_values]

theorem levels_eq_cons (key : K) :
    m.levels key = (m.get key).bind OverlayedEntry.valueRef :: (m.levels key).tail := by
  rw [valueRef_get, levels]
  exact expand_eq_cons _ _

/-! ### A new child -/
section Depth

variable {m m' : OverlayedMap K V} {rollback : Bool}



theorem view_spawnChild (m : OverlayedMap K V) (key : K) :
    m.spawnChild.view key = (none, List.replicate m.transactionDepth false) := by
  simp [spawnChild, view, keyView, writtenBy, List.map_replicate]

/-- A spawned change set is empty at every level, at the depth of the one it is spawned from. -/
theorem levels_spawnChild (m : OverlayedMap K V) (key : K) :
    m.spawnChild.levels key = List.replicate (m.transactionDepth + 1) none := by
  rw [levels, view_spawnChild, levelsOf, Option.getD_none, expand_nil, List.length_replicate]

theorem levels_of_isEmpty (hm : m.isEmpty = true) (key : K) :
    m.levels key = List.replicate (m.transactionDepth + 1) none := by
  have hlookup : m.changes.lookup key = none := by
    rw [AList.lookup_eq_none, AList.mem_keys]
    rw [isEmpty, List.isEmpty_iff] at hm
    rw [hm]
    exact List.not_mem_nil
  rw [levels, view, keyView, hlookup, Option.map_none, levelsOf, Option.getD_none, expand_nil,
    length_writtenBy]
  rfl

theorem Inv.spawnChild (m : OverlayedMap K V) : Inv m.spawnChild where
  nodup := by simp [OverlayedMap.spawnChild, List.mem_replicate]
  valid := by
    intro key
    rw [view_spawnChild]
    simp [KeyValid, List.count_replicate]

omit [DecidableEq K] in
theorem transactionDepth_spawnChild (m : OverlayedMap K V) :
    m.spawnChild.transactionDepth = m.transactionDepth := by
  simp [spawnChild, transactionDepth]

/-! ### Writes -/

theorem view_set_self (m : OverlayedMap K V) (key : K) (value : V) (atExtrinsic : Option Nat) :
    (m.set key value atExtrinsic).view key =
      (some (writeBase ((m.view key).1.getD []) (m.view key).2 ++ [value]), markTop (m.view key).2) := by
  simp only [set, view, keyView, AList.lookup_insert, Option.map_some, writtenBy_insertDirty_self]
  rw [OverlayedEntry.values_set, insertDirty_snd, values_getD, writeBase_of_firstWrite]
  intro hempty
  rw [List.isEmpty_iff] at hempty
  exact (OverlayedEntry.values_eq_nil_iff _).mpr hempty

theorem view_set_of_ne (m : OverlayedMap K V) {key k : K} (value : V) (atExtrinsic : Option Nat)
    (hne : k ≠ key) : (m.set key value atExtrinsic).view k = m.view k := by
  simp only [set, view, keyView, AList.lookup_insert_ne hne, writtenBy_insertDirty_of_ne _ hne]

theorem transactionDepth_set (m : OverlayedMap K V) (key : K) (value : V) (atExtrinsic : Option Nat) :
    (m.set key value atExtrinsic).transactionDepth = m.transactionDepth := by
  simp [set, transactionDepth, length_insertDirty]

theorem Inv.set (hm : Inv m) (key : K) (value : V) (atExtrinsic : Option Nat) :
    Inv (m.set key value atExtrinsic) where
  nodup := nodup_insertDirty hm.nodup key
  valid := by
    intro k
    by_cases hk : k = key
    · subst hk
      rw [view_set_self]
      exact keyValid_write (hm.valid k) value
    · rw [view_set_of_ne m value atExtrinsic hk]
      exact hm.valid k

theorem levels_set_self (m : OverlayedMap K V) (key : K) (value : V) (atExtrinsic : Option Nat) :
    (m.set key value atExtrinsic).levels key = some value :: (m.levels key).tail := by
  rw [levels, view_set_self, levelsOf, Option.getD_some, expand_write]
  rfl

theorem levels_set_of_ne (m : OverlayedMap K V) {key k : K} (value : V) (atExtrinsic : Option Nat)
    (hne : k ≠ key) : (m.set key value atExtrinsic).levels k = m.levels k := by
  rw [levels, view_set_of_ne m value atExtrinsic hne, levels]

/-! ### Starting a transaction and entering the runtime -/

theorem view_startTransaction (m : OverlayedMap K V) (key : K) :
    m.startTransaction.view key = ((m.view key).1, false :: (m.view key).2) := by
  simp [startTransaction, view, keyView]

theorem Inv.startTransaction (hm : Inv m) : Inv m.startTransaction where
  nodup := by
    intro set hset
    rcases List.mem_append.mp hset with hset | hset
    · exact hm.nodup set hset
    · rw [List.mem_singleton.mp hset]
      exact List.nodup_nil
  valid := by
    intro key
    rw [view_startTransaction]
    have h := hm.valid key
    revert h
    rcases m.view key with ⟨_ | vs, bs⟩ <;> simp [KeyValid]

theorem levels_startTransaction (m : OverlayedMap K V) (key : K) :
    m.startTransaction.levels key = (m.get key).bind OverlayedEntry.valueRef :: m.levels key := by
  rw [levels, view_startTransaction, valueRef_get]
  rfl

omit [DecidableEq K] in
theorem transactionDepth_startTransaction (m : OverlayedMap K V) :
    m.startTransaction.transactionDepth = m.transactionDepth + 1 := by
  simp [startTransaction, transactionDepth]

/-! ### Closing a transaction -/

theorem closeKey_frame (rollback : Bool) :
    ∀ (acc : AList (fun _ : K => OverlayedEntry V) × List (List K)) (key : K) acc' (k : K),
      closeKey rollback acc key = some acc' → k ≠ id key →
        keyView acc'.1 acc'.2 k = keyView acc.1 acc.2 k
  | (_, _), _, (_, _), _, h, hne => closeKey_view_of_ne h hne

theorem closeTransaction_eq_ok (h : m.closeTransaction rollback = some (.ok m')) :
    ∃ sets keys, m.dirtyKeys = sets ++ [keys] ∧
      keys.foldlM (closeKey rollback) (m.changes, sets) = some (m'.changes, m'.dirtyKeys) ∧
      m'.numClientTransactions = m.numClientTransactions ∧ m'.executionMode = m.executionMode := by
  rw [closeTransaction] at h
  split at h
  · simp at h
  · cases hlast : m.dirtyKeys.getLast? with
    | none => simp [hlast] at h
    | some keys =>
      simp only [hlast] at h
      obtain ⟨⟨changes, dirtyKeys⟩, hfold, hm'⟩ := Option.map_eq_some_iff.mp h
      simp only [Except.ok.injEq] at hm'
      subst hm'
      exact ⟨m.dirtyKeys.dropLast, keys, (List.dropLast_append_getLast? keys hlast).symm, hfold,
        rfl, rfl⟩

/-- The runtime may not close a transaction the client opened. -/
theorem closeTransaction_of_protected (rollback : Bool)
    (h : m.executionMode = .runtime ∧ m.hasOpenRuntimeTransactions = false) :
    m.closeTransaction rollback = some (.error .noOpenTransaction) := by
  rw [closeTransaction, if_pos h]

theorem closeTransaction_of_depth_eq_zero (rollback : Bool)
    (h : m.transactionDepth = 0) : m.closeTransaction rollback = some (.error .noOpenTransaction) := by
  have hnil : m.dirtyKeys = [] := List.eq_nil_of_length_eq_zero h
  rw [closeTransaction]
  split
  · rfl
  · rw [hnil]
    rfl

/-- Closing a transaction acts on each key by `popView`. -/
theorem view_closeTransaction (hm : Inv m)
    (h : m.closeTransaction rollback = some (.ok m')) (k : K) :
    m'.view k = popView rollback (m.view k) := by
  obtain ⟨sets, keys, hdirty, hfold, -⟩ := closeTransaction_eq_ok h
  have hnodup : (keys.map id).Nodup := by
    rw [List.map_id]
    exact hm.nodup keys (by rw [hdirty]; simp)
  have hview : m.view k = ((keyView m.changes sets k).1, decide (k ∈ keys) :: (keyView m.changes sets k).2) := by
    simp [view, keyView, hdirty]
  rw [hview]
  by_cases hk : k ∈ keys
  · -- closed by its own body of the loop
    have hclosed := Fold.foldlM_obs_of_mem id (fun acc k => keyView acc.1 acc.2 k)
      (closeKey_frame rollback) (fun _ => closeView rollback) (fun _ _ _ hs => closeKey_view_self hs)
      keys _ _ hnodup hfold k hk
    simp only [id] at hclosed
    simp [popView, hk, view, hclosed]
  · -- no body of the loop is about it
    have hkept := Fold.foldlM_obs_of_not_mem id (fun acc k => keyView acc.1 acc.2 k)
      (closeKey_frame rollback) keys _ _ hfold k (by simpa using hk)
    simp [popView, hk, view, hkept]

theorem transactionDepth_closeTransaction
    (h : m.closeTransaction rollback = some (.ok m')) : m'.transactionDepth + 1 = m.transactionDepth := by
  obtain ⟨sets, keys, hdirty, hfold, -⟩ := closeTransaction_eq_ok h
  have hlength := Fold.foldlM_rel
    (R := fun acc acc' : AList (fun _ : K => OverlayedEntry V) × List (List K) => acc'.2.length = acc.2.length)
    (fun _ => rfl) (fun _ _ _ h₁ h₂ => h₂.trans h₁)
    (fun ⟨_, _⟩ _ ⟨_, _⟩ hs => (closeKey_keeps hs).1) keys _ _ hfold
  simp only at hlength
  simp [transactionDepth, hdirty, hlength]

theorem Inv.closeTransaction (hm : Inv m)
    (h : m.closeTransaction rollback = some (.ok m')) : Inv m' where
  nodup := by
    obtain ⟨sets, keys, hdirty, hfold, -⟩ := closeTransaction_eq_ok h
    have hkeep := Fold.foldlM_rel
      (R := fun acc acc' : AList (fun _ : K => OverlayedEntry V) × List (List K) =>
        (∀ set ∈ acc.2, set.Nodup) → ∀ set ∈ acc'.2, set.Nodup)
      (fun _ => id) (fun _ _ _ h₁ h₂ hnodup => h₂ (h₁ hnodup))
      (fun ⟨_, _⟩ _ ⟨_, _⟩ hs => (closeKey_keeps hs).2) keys _ _ hfold
    exact hkeep fun set hset => hm.nodup set (by rw [hdirty]; exact List.mem_append_left _ hset)
  valid := by
    intro k
    rw [view_closeTransaction hm h k]
    exact keyValid_popView rollback (hm.valid k)

/-- Under the invariant, closing an open transaction the guard allows does not panic. -/
theorem Inv.closeTransaction_isOk (hm : Inv m) (rollback : Bool)
    (hguard : ¬(m.executionMode = .runtime ∧ m.hasOpenRuntimeTransactions = false))
    (hdepth : m.transactionDepth ≠ 0) : ∃ m', m.closeTransaction rollback = some (.ok m') := by
  obtain ⟨sets, keys, hdirty⟩ := (List.eq_nil_or_concat' m.dirtyKeys).resolve_left
    (fun hnil => hdepth (by simp [transactionDepth, hnil]))
  have hnodup : (keys.map id).Nodup := by
    rw [List.map_id]
    exact hm.nodup keys (by rw [hdirty]; simp)
  obtain ⟨acc', hfold⟩ := Fold.foldlM_isSome id (fun acc k => keyView acc.1 acc.2 k)
    (closeKey_frame rollback) (fun _ v => KeyValid (v.1, true :: v.2))
    (fun ⟨changes, sets⟩ key hvalid => closeKey_isSome rollback changes sets key hvalid) keys
    (m.changes, sets) hnodup (fun k hk => by
      have hvalid := hm.valid k
      simpa [view, keyView, hdirty, hk] using hvalid)
  refine ⟨{ m with changes := acc'.1, dirtyKeys := acc'.2 }, ?_⟩
  rw [OverlayedMap.closeTransaction, if_neg hguard, hdirty, List.getLast?_append_of_ne_nil _ (List.cons_ne_nil _ _)]
  simp [hfold]

theorem levels_rollbackTransaction (hm : Inv m)
    (h : m.rollbackTransaction = some (.ok m')) (k : K) : m'.levels k = (m.levels k).tail := by
  have hdepth := transactionDepth_closeTransaction h
  rw [levels, view_closeTransaction hm h k, levels]
  apply levelsOf_popView_true
  intro hnil
  have := congrArg List.length hnil
  rw [length_view_snd] at this
  simp at this
  omega

theorem levels_commitTransaction (hm : Inv m)
    (h : m.commitTransaction = some (.ok m')) (k : K) :
    m'.levels k = (m.get k).bind OverlayedEntry.valueRef :: (m.levels k).drop 2 := by
  have hdepth := transactionDepth_closeTransaction h
  rw [levels, view_closeTransaction hm h k, levels, valueRef_get]
  apply levelsOf_popView_false (hm.valid k)
  intro hnil
  have := congrArg List.length hnil
  rw [length_view_snd] at this
  simp at this
  omega

end Depth

/-! ### The change set's `modify` -/

section Modify

variable {W : Type}

/-- The version `modify` hands to its caller is a copy of the current value, or `init` for a key
without one, in a new version for a first write. -/
theorem values_cloneIntoNewTx (e : OverlayedEntry (Option W)) (init : W) (firstWriteInTx : Bool)
    (atExtrinsic : Option Nat) :
    (cloneIntoNewTx e init firstWriteInTx atExtrinsic).values =
      (if firstWriteInTx || e.transactions.isEmpty then e.values else e.values.dropLast) ++
        [e.values.getLast?.getD (some init)] := by
  rw [cloneIntoNewTx]
  cases h : e.transactions.getLast? with
  | none =>
    have hnil : e.transactions = [] := List.getLast?_eq_none_iff.mp h
    simp only
    rw [OverlayedEntry.values_set, (OverlayedEntry.values_eq_nil_iff e).mpr hnil]
    rfl
  | some tx =>
    have hlast : e.values.getLast? = some tx.value := by
      rw [OverlayedEntry.getLast?_values, h, Option.map_some]
    have hne : e.transactions.isEmpty = false := by
      rw [List.isEmpty_eq_false_iff, ne_eq, ← List.getLast?_eq_none_iff, h]
      exact Option.some_ne_none tx
    cases firstWriteInTx
    · simp only [Bool.false_eq_true, if_false, Bool.false_or, hne]
      rw [hlast, Option.getD_some]
      exact (List.dropLast_append_getLast? _ hlast).symm
    · simp only [if_true, Bool.true_or]
      rw [OverlayedEntry.values_set, hlast, Option.getD_some]
      rfl

variable (m : OverlayedMap K (Option W))

theorem view_modify_self (key : K) (init : W)
    (atExtrinsic : Option Nat) (mutate : Option W → Option W) :
    (m.modify key init atExtrinsic mutate).view key =
      (some (writeBase ((m.view key).1.getD []) (m.view key).2 ++
          [mutate ((((m.view key).1.getD []).getLast?).getD (some init))]),
        markTop (m.view key).2) := by
  simp only [modify, view, keyView, AList.lookup_insert, Option.map_some,
    writtenBy_insertDirty_self]
  rw [OverlayedEntry.values_modifyLast_value, values_cloneIntoNewTx, insertDirty_snd, values_getD,
    writeBase_of_firstWrite]
  · simp
  · intro hempty
    rw [List.isEmpty_iff] at hempty
    exact (OverlayedEntry.values_eq_nil_iff _).mpr hempty

theorem view_modify_of_ne {key k : K} (init : W)
    (atExtrinsic : Option Nat) (mutate : Option W → Option W) (hne : k ≠ key) :
    (m.modify key init atExtrinsic mutate).view k = m.view k := by
  simp only [modify, view, keyView, AList.lookup_insert_ne hne, writtenBy_insertDirty_of_ne _ hne]

theorem transactionDepth_modify (key : K) (init : W)
    (atExtrinsic : Option Nat) (mutate : Option W → Option W) :
    (m.modify key init atExtrinsic mutate).transactionDepth = m.transactionDepth := by
  simp [modify, transactionDepth, length_insertDirty]

theorem Inv.modify {m : OverlayedMap K (Option W)} (hm : Inv m) (key : K) (init : W)
    (atExtrinsic : Option Nat) (mutate : Option W → Option W) :
    Inv (m.modify key init atExtrinsic mutate) where
  nodup := nodup_insertDirty hm.nodup key
  valid := by
    intro k
    by_cases hk : k = key
    · subst hk
      rw [view_modify_self]
      exact keyValid_write (hm.valid k) _
    · rw [view_modify_of_ne m init atExtrinsic mutate hk]
      exact hm.valid k

/-- `modify` writes what the caller makes of the current value, or of `init`. -/
theorem levels_modify_self (key : K) (init : W)
    (atExtrinsic : Option Nat) (mutate : Option W → Option W) :
    (m.modify key init atExtrinsic mutate).levels key =
      some (mutate (((m.get key).bind OverlayedEntry.valueRef).getD (some init))) ::
        (m.levels key).tail := by
  rw [levels, view_modify_self, levelsOf, Option.getD_some, expand_write, valueRef_get]
  rfl

theorem levels_modify_of_ne {key k : K} (init : W)
    (atExtrinsic : Option Nat) (mutate : Option W → Option W) (hne : k ≠ key) :
    (m.modify key init atExtrinsic mutate).levels k = m.levels k := by
  rw [levels, view_modify_of_ne m init atExtrinsic mutate hne, levels]

end Modify

/-! ### The change set's `clear_where` -/

section Clear

variable {W : Type} {predicate : K → Bool} {atExtrinsic : Option Nat}
  {acc acc' : OverlayedMap K (Option W) × Nat} {entry : Sigma fun _ : K => OverlayedEntry (Option W)}

/-- What clearing one entry leaves at its key, from what the key saw before. -/
def clearView (predicate : K → Bool) (entry : Sigma fun _ : K => OverlayedEntry (Option W))
    (v : Option (List (Option W)) × List Bool) : Option (List (Option W)) × List Bool :=
  if predicate entry.1 then (some (writeBase entry.2.values v.2 ++ [none]), markTop v.2) else v

/-- Whether clearing an entry counts it: it matches and has a value. -/
def Counted (predicate : K → Bool) (entry : Sigma fun _ : K => OverlayedEntry (Option W)) : Bool :=
  predicate entry.1 && entry.2.valueRef.join.isSome

theorem clearEntry_eq_some (h : clearEntry predicate atExtrinsic acc entry = some acc') :
    (predicate entry.1 = false ∧ acc' = acc) ∨
      (predicate entry.1 = true ∧ ∃ value, entry.2.valueRef = some value ∧
        acc' = ({ acc.1 with
          changes := acc.1.changes.insert entry.1
            (entry.2.set none (insertDirty acc.1.dirtyKeys entry.1).2 atExtrinsic)
          dirtyKeys := (insertDirty acc.1.dirtyKeys entry.1).1 },
          if value.isSome then acc.2 + 1 else acc.2)) := by
  rw [clearEntry] at h
  split at h
  · next hpred =>
      right
      refine ⟨hpred, ?_⟩
      cases hvalue : entry.2.valueRef with
      | none => simp [hvalue] at h
      | some value =>
        simp only [hvalue, Option.some.injEq] at h
        exact ⟨value, rfl, h.symm⟩
  · next hpred =>
      left
      simp only [Option.some.injEq] at h
      exact ⟨by simpa using hpred, h.symm⟩

theorem clearEntry_view_of_ne
    (h : clearEntry predicate atExtrinsic acc entry = some acc') {k : K} (hne : k ≠ entry.1) :
    acc'.1.view k = acc.1.view k := by
  rcases clearEntry_eq_some h with ⟨-, rfl⟩ | ⟨-, value, -, rfl⟩
  · rfl
  · simp only [view, keyView, AList.lookup_insert_ne hne, writtenBy_insertDirty_of_ne _ hne]

theorem clearEntry_view_self (h : clearEntry predicate atExtrinsic acc entry = some acc') :
    acc'.1.view entry.1 = clearView predicate entry (acc.1.view entry.1) := by
  rcases clearEntry_eq_some h with ⟨hpred, rfl⟩ | ⟨hpred, value, -, rfl⟩
  · simp [clearView, hpred]
  · simp only [view, keyView, AList.lookup_insert, Option.map_some, writtenBy_insertDirty_self,
      clearView, hpred, if_true]
    rw [OverlayedEntry.values_set, insertDirty_snd, writeBase_of_firstWrite]
    intro hempty
    rw [List.isEmpty_iff] at hempty
    exact (OverlayedEntry.values_eq_nil_iff _).mpr hempty

theorem clearEntry_count (h : clearEntry predicate atExtrinsic acc entry = some acc') :
    acc'.2 = acc.2 + if Counted predicate entry then 1 else 0 := by
  rcases clearEntry_eq_some h with ⟨hpred, rfl⟩ | ⟨hpred, value, hvalue, rfl⟩
  · simp [Counted, hpred]
  · cases value <;> simp [Counted, hpred, hvalue]

/-- Clearing an entry keeps the depth, the protection of the client's transactions, and dirty sets
without repeats. -/
theorem clearEntry_keeps (h : clearEntry predicate atExtrinsic acc entry = some acc') :
    acc'.1.transactionDepth = acc.1.transactionDepth ∧
      acc'.1.numClientTransactions = acc.1.numClientTransactions ∧
      acc'.1.executionMode = acc.1.executionMode ∧
      ((∀ set ∈ acc.1.dirtyKeys, set.Nodup) → ∀ set ∈ acc'.1.dirtyKeys, set.Nodup) := by
  rcases clearEntry_eq_some h with ⟨-, rfl⟩ | ⟨-, value, -, rfl⟩
  · exact ⟨rfl, rfl, rfl, id⟩
  · exact ⟨length_insertDirty _ _, rfl, rfl, fun hnodup => nodup_insertDirty hnodup _⟩

theorem clearEntry_isSome (predicate : K → Bool) (atExtrinsic : Option Nat)
    (acc : OverlayedMap K (Option W) × Nat)
    (hentry : entry.2.transactions ≠ []) : ∃ acc', clearEntry predicate atExtrinsic acc entry = some acc' := by
  obtain ⟨last, hlast⟩ := Option.ne_none_iff_exists'.mp (mt List.getLast?_eq_none_iff.mp hentry)
  rw [clearEntry]
  split
  · simp [OverlayedEntry.valueRef, hlast]
  · exact ⟨_, rfl⟩

end Clear

section ClearWhere

variable {W : Type} {predicate : K → Bool} {atExtrinsic : Option Nat}
  {m m' : OverlayedMap K (Option W)} {n : Nat}

/-- No body of the loop changes what another key sees. -/
theorem clearEntry_frame : ∀ (s : OverlayedMap K (Option W) × Nat) a s' k,
    clearEntry predicate atExtrinsic s a = some s' → k ≠ a.1 → s'.1.view k = s.1.view k :=
  fun _ _ _ _ hs hne => clearEntry_view_of_ne hs hne

/-- `clear_where` writes `None` at every matching key that has an entry. -/
theorem view_clearWhere (h : m.clearWhere predicate atExtrinsic = some (m', n)) (k : K) :
    m'.view k = if predicate k ∧ (m.view k).1.isSome then
      (some (writeBase ((m.view k).1.getD []) (m.view k).2 ++ [none]), markTop (m.view k).2)
      else m.view k := by
  cases hlookup : m.changes.lookup k with
  | none =>
    have hk : k ∉ m.changes.entries.map Sigma.fst := AList.lookup_eq_none.mp hlookup
    rw [Fold.foldlM_obs_of_not_mem Sigma.fst (fun s k => s.1.view k) clearEntry_frame _ _ _ h k hk]
    simp [view, keyView, hlookup]
  | some e =>
    have hmem : (⟨k, e⟩ : Sigma fun _ : K => OverlayedEntry (Option W)) ∈ m.changes.entries :=
      AList.mem_lookup_iff.mp hlookup
    have hview := Fold.foldlM_obs_of_mem Sigma.fst (fun s k => s.1.view k) clearEntry_frame
      (clearView predicate) (fun _ _ _ hs => clearEntry_view_self hs) _ _ _ m.changes.nodupKeys
      h _ hmem
    rw [hview]
    simp [clearView, view, keyView, hlookup]

/-- The count `clear_where` returns is the number of matching entries that had a value. -/
theorem count_clearWhere (h : m.clearWhere predicate atExtrinsic = some (m', n)) :
    n = (m.changes.entries.filter (Counted predicate)).length := by
  suffices hloop : ∀ (l : List (Sigma fun _ : K => OverlayedEntry (Option W))) acc acc',
      l.foldlM (clearEntry predicate atExtrinsic) acc = some acc' →
        acc'.2 = acc.2 + (l.filter (Counted predicate)).length by
    simpa using hloop _ _ _ h
  intro l
  induction l with
  | nil =>
    intro acc acc' hloop
    cases hloop
    rfl
  | cons entry l ih =>
    intro acc acc'' hloop
    obtain ⟨acc', hfirst, hrest⟩ := Fold.foldlM_cons_eq_some hloop
    rw [ih acc' acc'' hrest, clearEntry_count hfirst, List.filter_cons]
    cases Counted predicate entry
    · simp
    · simp only [if_true, List.length_cons]
      omega

theorem clearWhere_keeps (h : m.clearWhere predicate atExtrinsic = some (m', n)) :
    m'.transactionDepth = m.transactionDepth ∧
      m'.numClientTransactions = m.numClientTransactions ∧
      m'.executionMode = m.executionMode ∧
      ((∀ set ∈ m.dirtyKeys, set.Nodup) → ∀ set ∈ m'.dirtyKeys, set.Nodup) :=
  Fold.foldlM_rel (R := fun s s' : OverlayedMap K (Option W) × Nat =>
      s'.1.transactionDepth = s.1.transactionDepth ∧
        s'.1.numClientTransactions = s.1.numClientTransactions ∧
        s'.1.executionMode = s.1.executionMode ∧
        ((∀ set ∈ s.1.dirtyKeys, set.Nodup) → ∀ set ∈ s'.1.dirtyKeys, set.Nodup))
    (fun _ => ⟨rfl, rfl, rfl, id⟩)
    (fun _ _ _ h₁ h₂ => ⟨h₂.1.trans h₁.1, h₂.2.1.trans h₁.2.1, h₂.2.2.1.trans h₁.2.2.1,
      fun hnodup => h₂.2.2.2 (h₁.2.2.2 hnodup)⟩)
    (fun _ _ _ hs => clearEntry_keeps hs) _ _ _ h

theorem Inv.entry_ne_nil {m : OverlayedMap K V} (hm : Inv m) {k : K} {e : OverlayedEntry V}
    (hlookup : m.changes.lookup k = some e) : e.transactions ≠ [] := by
  have hvalid := hm.valid k
  simp only [view, keyView, hlookup, Option.map_some] at hvalid
  exact mt (OverlayedEntry.values_eq_nil_iff e).mpr hvalid.1

/-- Under the invariant, a key has a value exactly when it has an entry. -/
theorem Inv.value_isSome {m : OverlayedMap K V} (hm : Inv m) (key : K) :
    ((m.get key).bind OverlayedEntry.valueRef).isSome = (m.get key).isSome := by
  cases hlookup : m.changes.lookup key with
  | none => simp [get, hlookup]
  | some e =>
    obtain ⟨last, hlast⟩ := Option.ne_none_iff_exists'.mp
      (mt List.getLast?_eq_none_iff.mp (hm.entry_ne_nil hlookup))
    simp [get, hlookup, OverlayedEntry.valueRef, hlast]

/-- Under the invariant, `clear_where` does not panic. -/
theorem Inv.clearWhere_isSome {m : OverlayedMap K (Option W)} (hm : Inv m) :
    ∃ r, m.clearWhere predicate atExtrinsic = some r :=
  Fold.foldlM_isSome Sigma.fst (fun s k => s.1.view k) clearEntry_frame
    (fun entry _ => entry.2.transactions ≠ [])
    (fun s _ hentry => clearEntry_isSome predicate atExtrinsic s hentry) _ _ m.changes.nodupKeys
    (fun _ hentry => hm.entry_ne_nil (AList.mem_lookup_iff.mpr hentry))

theorem Inv.clearWhere (hm : Inv m)
    (h : m.clearWhere predicate atExtrinsic = some (m', n)) : Inv m' where
  nodup := (clearWhere_keeps h).2.2.2 hm.nodup
  valid := by
    intro k
    rw [view_clearWhere h k]
    split
    · exact keyValid_write (hm.valid k) none
    · exact hm.valid k

theorem levels_clearWhere (h : m.clearWhere predicate atExtrinsic = some (m', n)) (k : K) :
    m'.levels k = if predicate k ∧ (m.view k).1.isSome then some none :: (m.levels k).tail
      else m.levels k := by
  rw [levels, view_clearWhere h k]
  split
  · rw [levelsOf, Option.getD_some, expand_write]
    rfl
  · rfl

end ClearWhere

/-! ### Versions -/

/-- Under the invariant an entry has one version per transaction that wrote its key, and one more
when the key has a value below the first open transaction. -/
theorem Inv.length_transactions {m : OverlayedMap K V} (hm : Inv m) {key : K}
    {e : OverlayedEntry V} (he : m.get key = some e) :
    e.transactions.length = (m.dirtyKeys.filter (key ∈ ·)).length +
      (if ((m.levels key).getLast?.join).isSome then 1 else 0) ∧ 1 ≤ e.transactions.length := by
  have hview : m.view key = (some e.values, writtenBy m.dirtyKeys key) := by
    rw [view, keyView, ← get, he]
    rfl
  obtain ⟨hne, hlow, hhigh⟩ : KeyValid (some e.values, writtenBy m.dirtyKeys key) :=
    hview ▸ hm.valid key
  have hlen : e.values.length = e.transactions.length := List.length_map _
  have hpos : 0 < e.values.length := List.length_pos_of_ne_nil hne
  rw [levels, hview, levelsOf, Option.getD_some, getLast?_expand, Option.join_some]
  rw [count_writtenBy] at hlow hhigh
  refine ⟨?_, by omega⟩
  split
  · -- a version below the open transactions: the outermost level sees it
    next hsome =>
      have : e.values.length - (m.dirtyKeys.filter (key ∈ ·)).length ≠ 0 := by
        intro h0
        rw [count_writtenBy, h0, List.take_zero] at hsome
        exact absurd hsome (by simp)
      omega
  · next hnone =>
      have : e.values.length - (m.dirtyKeys.filter (key ∈ ·)).length = 0 := by
        by_contra h0
        rw [count_writtenBy] at hnone
        exact hnone (List.getLast?_isSome.mpr (by simp [List.take_eq_nil_iff, h0, hne]))
      omega

end OverlayedMap

end Substrate.StateMachine
