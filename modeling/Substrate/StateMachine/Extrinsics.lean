import Substrate.StateMachine.Transactions

/-! # Which extrinsics wrote a key

`set` and `clear_where` record the extrinsic of every write; `modify` only through the `set` it
makes when it copies the value into a new version. A second `modify` of a key in one transaction
writes the value its caller makes and records nothing.
-/

namespace Substrate.StateMachine

variable {K V W : Type} [DecidableEq K]

namespace OverlayedEntry

theorem foldl_extrinsics (l : List (InnerValue V)) (set : Finset Nat) :
    l.foldl (fun set tx => set ∪ tx.extrinsics.toFinset) set =
      set ∪ (l.flatMap (·.extrinsics)).toFinset := by
  induction l generalizing set with
  | nil => simp
  | cons tx l ih =>
    rw [List.foldl_cons, ih, List.flatMap_cons, List.toFinset_append, Finset.union_assoc]

theorem extrinsics_eq (e : OverlayedEntry V) :
    e.extrinsics = (e.transactions.flatMap (·.extrinsics)).toFinset := by
  rw [extrinsics, foldl_extrinsics, Finset.empty_union]

theorem toFinset_extrinsicsInsert (l : List Nat) (ext : Nat) :
    (extrinsicsInsert l ext).toFinset = insert ext l.toFinset := by
  rw [extrinsicsInsert]
  split
  next hlast =>
    have hmem : ext ∈ l := List.mem_of_getLast? hlast
    rw [Finset.insert_eq_of_mem (List.mem_toFinset.mpr hmem)]
  next =>
    rw [List.toFinset_append, Finset.union_comm, Finset.insert_eq]
    simp

theorem extrinsics_append (l : List (InnerValue V)) (tx : InnerValue V) :
    (⟨l ++ [tx]⟩ : OverlayedEntry V).extrinsics = (⟨l⟩ : OverlayedEntry V).extrinsics ∪ tx.extrinsics.toFinset := by
  simp only [extrinsics_eq, List.flatMap_append, List.toFinset_append, List.flatMap_singleton]

/-- The extrinsics of an entry: those of the versions before the last, and the last's. -/
theorem extrinsics_of_getLast? {e : OverlayedEntry V} {last : InnerValue V}
    (h : e.transactions.getLast? = some last) :
    e.extrinsics = (⟨e.transactions.dropLast⟩ : OverlayedEntry V).extrinsics ∪ last.extrinsics.toFinset := by
  rw [← extrinsics_append, List.dropLast_append_getLast? _ h]

/-- Changing the last version changes the extrinsics by what it adds to that version. -/
theorem extrinsics_modifyLast (added : Finset Nat) {f : InnerValue V → InnerValue V}
    (hf : ∀ tx, (f tx).extrinsics.toFinset = added ∪ tx.extrinsics.toFinset)
    {e : OverlayedEntry V} (he : e.transactions ≠ []) :
    (e.modifyLast f).extrinsics = added ∪ e.extrinsics := by
  obtain ⟨last, hlast⟩ := Option.ne_none_iff_exists'.mp (mt List.getLast?_eq_none_iff.mp he)
  rw [modifyLast, hlast, extrinsics_append, extrinsics_of_getLast? hlast, hf]
  ac_rfl

theorem transactions_modifyLast_ne_nil (f : InnerValue V → InnerValue V) {e : OverlayedEntry V}
    (he : e.transactions ≠ []) : (e.modifyLast f).transactions ≠ [] := by
  obtain ⟨last, hlast⟩ := Option.ne_none_iff_exists'.mp (mt List.getLast?_eq_none_iff.mp he)
  simp [modifyLast, hlast]

/-- `set` records the extrinsic of the write, if it has one. -/
theorem extrinsics_set (e : OverlayedEntry V) (value : V) (firstWriteInTx : Bool)
    (atExtrinsic : Option Nat) :
    (e.set value firstWriteInTx atExtrinsic).extrinsics = atExtrinsic.toFinset ∪ e.extrinsics := by
  -- the version written to: a new one, with no extrinsics yet, or the last one
  set e' : OverlayedEntry V := if firstWriteInTx || e.transactions.isEmpty then
    ⟨e.transactions ++ [⟨value, []⟩]⟩ else e.modifyLast fun tx => { tx with value } with he'
  have hne : e'.transactions ≠ [] := by
    rw [he']
    split
    · simp
    · next hfirst =>
        simp only [Bool.or_eq_true, List.isEmpty_iff, not_or] at hfirst
        exact transactions_modifyLast_ne_nil _ hfirst.2
  have hext : e'.extrinsics = e.extrinsics := by
    rw [he']
    split
    · rw [extrinsics_append]
      simp
    · next hfirst =>
        simp only [Bool.or_eq_true, List.isEmpty_iff, not_or] at hfirst
        rw [extrinsics_modifyLast ∅ (f := fun tx => { tx with value })
          (fun _ => (Finset.empty_union _).symm) hfirst.2, Finset.empty_union]
  unfold OverlayedEntry.set
  rw [← he']
  cases atExtrinsic with
  | none => simpa using hext
  | some ext =>
    rw [extrinsics_modifyLast {ext} (fun tx => ?_) hne, hext]
    · rfl
    · rw [toFinset_extrinsicsInsert, Finset.insert_eq]

theorem extrinsics_modifyLast_value (g : V → V) (e : OverlayedEntry V) :
    (e.modifyLast fun tx => { tx with value := g tx.value }).extrinsics = e.extrinsics := by
  by_cases he : e.transactions = []
  · simp [modifyLast, he]
  · rw [extrinsics_modifyLast ∅ (f := fun tx => { tx with value := g tx.value })
      (fun _ => (Finset.empty_union _).symm) he, Finset.empty_union]

end OverlayedEntry

namespace OverlayedMap

/-- `set` records its extrinsic for the key it writes. -/
theorem extrinsics_set (m : OverlayedMap K V) (key : K) (value : V) (atExtrinsic : Option Nat) :
    ((m.set key value atExtrinsic).get key).map OverlayedEntry.extrinsics =
      some (atExtrinsic.toFinset ∪ ((m.get key).getD ⟨[]⟩).extrinsics) := by
  simp [set, get, OverlayedEntry.extrinsics_set]

/-- The version `modify` prepares records the extrinsic only where it is a new copy: for the first
write in the innermost transaction, or for an entry with no version. -/
theorem extrinsics_cloneIntoNewTx (e : OverlayedEntry (Option W)) (init : W) (firstWriteInTx : Bool)
    (atExtrinsic : Option Nat) :
    (cloneIntoNewTx e init firstWriteInTx atExtrinsic).extrinsics =
      if firstWriteInTx || e.transactions.isEmpty then atExtrinsic.toFinset ∪ e.extrinsics
      else e.extrinsics := by
  rw [cloneIntoNewTx]
  cases h : e.transactions.getLast? with
  | none =>
    have hnil : e.transactions.isEmpty = true := by
      simpa using List.getLast?_eq_none_iff.mp h
    simp only [hnil, Bool.or_true, if_true]
    exact OverlayedEntry.extrinsics_set _ _ _ _
  | some tx =>
    have hne : e.transactions.isEmpty = false := by
      rw [List.isEmpty_eq_false_iff, ne_eq, ← List.getLast?_eq_none_iff, h]
      exact Option.some_ne_none tx
    cases firstWriteInTx
    · simp [hne]
    · simp only [if_true, Bool.true_or]
      exact OverlayedEntry.extrinsics_set _ _ _ _

/-- `modify` records its extrinsic for the key it writes only where `cloneIntoNewTx` makes a new
version; otherwise the key's extrinsics stay as they were. -/
theorem extrinsics_modify (m : OverlayedMap K (Option W)) (key : K) (init : W)
    (atExtrinsic : Option Nat) (mutate : Option W → Option W) :
    ((m.modify key init atExtrinsic mutate).get key).map OverlayedEntry.extrinsics =
      some (if (insertDirty m.dirtyKeys key).2 || ((m.get key).getD ⟨[]⟩).transactions.isEmpty then
          atExtrinsic.toFinset ∪ ((m.get key).getD ⟨[]⟩).extrinsics
        else ((m.get key).getD ⟨[]⟩).extrinsics) := by
  simp only [modify, get, AList.lookup_insert, Option.map_some]
  rw [OverlayedEntry.extrinsics_modifyLast_value, extrinsics_cloneIntoNewTx]
  rfl

end OverlayedMap

/-- `set` records the extrinsic of every write, `modify` only where it makes a new version: two
`modify` calls on a fresh key outside transactions leave out the second extrinsic. -/
theorem modify_records_extrinsic_only_with_new_version :
    (∀ (m : OverlayedMap K V) (key : K) (value : V) (atExtrinsic : Option Nat),
      ((m.set key value atExtrinsic).get key).map OverlayedEntry.extrinsics =
        some (atExtrinsic.toFinset ∪ ((m.get key).getD ⟨[]⟩).extrinsics)) ∧
    (∀ (m : OverlayedMap K (Option W)) (key : K) (init : W) (atExtrinsic : Option Nat)
      (mutate : Option W → Option W),
      ((m.modify key init atExtrinsic mutate).get key).map OverlayedEntry.extrinsics =
        some (if (insertDirty m.dirtyKeys key).2 || ((m.get key).getD ⟨[]⟩).transactions.isEmpty
          then atExtrinsic.toFinset ∪ ((m.get key).getD ⟨[]⟩).extrinsics
          else ((m.get key).getD ⟨[]⟩).extrinsics) ∧
      (m.modify key init atExtrinsic mutate).levels key =
        some (mutate (((m.get key).bind OverlayedEntry.valueRef).getD (some init))) ::
          (m.levels key).tail) ∧
    (∀ (key : K) (init : W) (mutate mutate' : Option W → Option W) (ext ext' : Nat),
      ∃ m, applyAll [.modify key init (some ext) mutate, .modify key init (some ext') mutate']
          OverlayedMap.empty = some (m, [.done, .done]) ∧
        m.levels key = [some (mutate' (mutate (some init)))] ∧
        (m.get key).map OverlayedEntry.extrinsics = some {ext}) := by
  refine ⟨OverlayedMap.extrinsics_set, fun m key init atExtrinsic mutate =>
    ⟨OverlayedMap.extrinsics_modify m key init atExtrinsic mutate,
      OverlayedMap.levels_modify_self m key init atExtrinsic mutate⟩, ?_⟩
  intro key init mutate mutate' ext ext'
  set m₁ : OverlayedMap K (Option W) := OverlayedMap.empty.modify key init (some ext) mutate
  -- the first call makes the fresh key's only version, recording its extrinsic
  have hlevels₁ : m₁.levels key = [some (mutate (some init))] :=
    OverlayedMap.levels_modify_self _ _ _ _ _
  obtain ⟨hvalue₁, htail₁⟩ :=
    List.cons_eq_cons.mp ((OverlayedMap.levels_eq_cons m₁ key).symm.trans hlevels₁)
  have hext₁ : (m₁.get key).map OverlayedEntry.extrinsics = some {ext} := by
    rw [OverlayedMap.extrinsics_modify]
    simp [OverlayedMap.empty, OverlayedMap.get, insertDirty, OverlayedEntry.extrinsics]
  obtain ⟨e₁, he₁, hv₁⟩ := Option.bind_eq_some_iff.mp hvalue₁
  have hne₁ : e₁.transactions.isEmpty = false := by
    simp only [OverlayedEntry.valueRef, Option.map_eq_some_iff] at hv₁
    obtain ⟨tx, htx, -⟩ := hv₁
    rw [List.isEmpty_eq_false_iff, ne_eq, ← List.getLast?_eq_none_iff, htx]
    exact Option.some_ne_none tx
  -- with no transaction open, the second call is no first write: it records nothing
  have hdirty₁ : m₁.dirtyKeys = [] := rfl
  refine ⟨_, rfl, ?_, ?_⟩
  · rw [OverlayedMap.levels_modify_self, hvalue₁, htail₁]
    rfl
  · rw [OverlayedMap.extrinsics_modify, hdirty₁, he₁]
    simp only [insertDirty_nil, Option.getD_some, hne₁, Bool.or_false, Bool.false_eq_true, if_false]
    rw [he₁] at hext₁
    exact hext₁

end Substrate.StateMachine
