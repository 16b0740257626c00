import Mathlib
import Substrate.Lib.BinarySearch

/-! # The record of authority set changes

`AuthoritySetChanges` of `sc_consensus_grandpa::authorities`: the id and last block of each ended
set. `get_set_id` and `iter_from` answer what it determines when its ids are consecutive, as
`append` builds them; a gap between two entries makes `get_set_id` name the set after it.
-/

namespace Substrate.Grandpa

open BinarySearch

inductive AuthoritySetChangeId (N : Type) where
  | latest
  | set (setId : Nat) (blockNumber : N)
  | unknown
  deriving DecidableEq, Repr

structure AuthoritySetChanges (N : Type) where
  changes : List (Nat × N)
  deriving DecidableEq, Repr

namespace AuthoritySetChanges

variable {N : Type} [LinearOrder N]

def empty : AuthoritySetChanges N := ⟨[]⟩

def append (c : AuthoritySetChanges N) (setId : Nat) (blockNumber : N) : AuthoritySetChanges N :=
  ⟨c.changes ++ [(setId, blockNumber)]⟩

def getSetId (c : AuthoritySetChanges N) (blockNumber : N) : AuthoritySetChangeId N :=
  if (c.changes.getLast?.map fun last => decide (last.2 < blockNumber)).getD false then .latest
  else
    let idx := unwrapOrElse (binarySearchByKey c.changes blockNumber Prod.snd) id
    match c.changes[idx]? with
    | some (setId, blockNumber) =>
        -- the first entry is not the first set's: the data before it is missing
        if idx = 0 ∧ setId ≠ 0 then .unknown else .set setId blockNumber
    | none => .unknown

/-- `insert`: a set's last block recorded after the fact, with the id after the entry before it;
`none` where the source's assertion panics. -/
def insert (c : AuthoritySetChanges N) (blockNumber : N) : Option (AuthoritySetChanges N) :=
  let idx := unwrapOrElse (binarySearchByKey c.changes blockNumber Prod.snd) id
  let setId := if idx = 0 then 0 else ((c.changes[idx - 1]?).map (·.1 + 1)).getD 0
  if idx = c.changes.length ∨ (c.changes[idx]?.map (·.1)) ≠ some setId then
    some ⟨c.changes.insertIdx idx (setId, blockNumber)⟩
  else none

/-- `iter_from`: the entries of the sets ending after `blockNumber`, or `none` where the first of
them is not the first set's. -/
def iterFrom (c : AuthoritySetChanges N) (blockNumber : N) : Option (List (Nat × N)) :=
  -- an entry at the block itself ends before the blocks after it
  let idx := unwrapOrElse ((binarySearchByKey c.changes blockNumber Prod.snd).map (· + 1)) id
  match c.changes[idx]? with
  | some (setId, _) => if idx = 0 ∧ setId ≠ 0 then none else some (c.changes.drop idx)
  | none => some (c.changes.drop idx)

/-! ## What the record determines -/

/-- The record as `append` builds it: block numbers strictly increase, each id one more than the one
before. -/
structure Chained (c : AuthoritySetChanges N) : Prop where
  sorted : StrictlySorted c.changes Prod.snd
  consecutive : c.changes.IsChain fun a a' => a.1 + 1 = a'.1

/-- The set `s`, ending at `n`, begins after a block where `before` holds: `(s, n)` is the first
entry, or the entry before records `s - 1` ending at such a block. -/
def Begins (c : AuthoritySetChanges N) (before : N → Prop) (s : Nat) (n : N) : Prop :=
  (c.changes.head? = some (s, n) ∧ s = 0) ∨
    ∃ prev ∈ c.changes.zip c.changes.tail, prev.2 = (s, n) ∧ prev.1.1 + 1 = s ∧ before prev.1.2

/-- The record determines that block `b` is in the set `s`, whose last block is `n`. -/
def Determines (c : AuthoritySetChanges N) (b : N) (s : Nat) (n : N) : Prop :=
  b ≤ n ∧ c.Begins (· < b) s n

instance (c : AuthoritySetChanges N) (before : N → Prop) [DecidablePred before] (s : Nat) (n : N) :
    Decidable (c.Begins before s n) :=
  inferInstanceAs (Decidable ((c.changes.head? = some (s, n) ∧ s = 0) ∨
    ∃ prev ∈ c.changes.zip c.changes.tail, prev.2 = (s, n) ∧ prev.1.1 + 1 = s ∧ before prev.1.2))

instance (c : AuthoritySetChanges N) (b : N) (s : Nat) (n : N) : Decidable (c.Determines b s n) :=
  inferInstanceAs (Decidable (b ≤ n ∧ c.Begins (· < b) s n))

/-! ## The queries -/

theorem mem_zip_tail {α : Type} {l : List α} {p : α × α} :
    p ∈ l.zip l.tail ↔ ∃ k, ∃ hk : k + 1 < l.length, p = (l[k], l[k + 1]) := by
  rw [List.mem_iff_getElem]
  constructor
  · rintro ⟨k, hk, rfl⟩
    have hk' : k + 1 < l.length := by
      simp only [List.length_zip, List.length_tail] at hk
      omega
    exact ⟨k, hk', by simp [List.getElem_zip, List.getElem_tail]⟩
  · rintro ⟨k, hk, rfl⟩
    exact ⟨k, by simp only [List.length_zip, List.length_tail]; omega, by simp⟩

section Queries

variable {c : AuthoritySetChanges N} {b : N}

theorem latest_iff : (c.changes.getLast?.map fun last => decide (last.2 < b)).getD false = true ↔
    ∃ last, c.changes.getLast? = some last ∧ last.2 < b := by
  cases c.changes.getLast? with
  | none => simp
  | some last => simp

/-- Where the block is not after the last recorded one, `get_set_id` reads the entry at the lower
bound of the search. -/
theorem getSetId_of_getElem? (hle : ∀ last, c.changes.getLast? = some last → b ≤ last.2)
    {s : Nat} {n : N} (hget : c.changes[lowerBound c.changes Prod.snd b]? = some (s, n)) :
    c.getSetId b = if lowerBound c.changes Prod.snd b = 0 ∧ s ≠ 0 then .unknown else .set s n := by
  have hnot : ¬ (c.changes.getLast?.map fun last => decide (last.2 < b)).getD false = true := by
    rw [latest_iff]
    rintro ⟨last, hlast, hlt⟩
    exact absurd (hle last hlast) (not_le.mpr hlt)
  rw [getSetId, if_neg hnot]
  dsimp only
  rw [binarySearchByKey_index, hget]

theorem getSetId_of_getElem?_none (hle : ∀ last, c.changes.getLast? = some last → b ≤ last.2)
    (hget : c.changes[lowerBound c.changes Prod.snd b]? = none) : c.getSetId b = .unknown := by
  have hnot : ¬ (c.changes.getLast?.map fun last => decide (last.2 < b)).getD false = true := by
    rw [latest_iff]
    rintro ⟨last, hlast, hlt⟩
    exact absurd (hle last hlast) (not_le.mpr hlt)
  rw [getSetId, if_neg hnot]
  dsimp only
  rw [binarySearchByKey_index, hget]

/-- `get_set_id` answers `Latest` exactly for the blocks after the last recorded one. -/
theorem getSetId_eq_latest_iff :
    c.getSetId b = .latest ↔ ∃ last, c.changes.getLast? = some last ∧ last.2 < b := by
  by_cases hlatest : ∃ last, c.changes.getLast? = some last ∧ last.2 < b
  · rw [getSetId, if_pos (latest_iff.mpr hlatest)]
    exact iff_of_true rfl hlatest
  · have hle : ∀ last, c.changes.getLast? = some last → b ≤ last.2 :=
      fun last hlast => not_lt.mp fun hlt => hlatest ⟨last, hlast, hlt⟩
    refine iff_of_false ?_ hlatest
    cases hget : c.changes[lowerBound c.changes Prod.snd b]? with
    | none =>
      rw [getSetId_of_getElem?_none hle hget]
      exact nofun
    | some e =>
      rw [getSetId_of_getElem? hle hget]
      split <;> exact nofun

theorem le_last_of_mem (hsorted : StrictlySorted c.changes Prod.snd) {e last : Nat × N}
    (he : e ∈ c.changes) (hlast : c.changes.getLast? = some last) : e.2 ≤ last.2 := by
  obtain ⟨i, hi, rfl⟩ := List.getElem_of_mem he
  rw [List.getLast?_eq_getElem?] at hlast
  obtain ⟨hlen, rfl⟩ := List.getElem?_eq_some_iff.mp hlast
  rcases Nat.lt_or_ge i (c.changes.length - 1) with hlt | hge
  · exact (List.pairwise_iff_getElem.mp hsorted _ _ hi hlen hlt).le
  · have heq : i = c.changes.length - 1 := by omega
    simp only [heq, le_refl]

variable (hc : c.Chained)
include hc

/-- On a chained record `get_set_id` answers `Set(s, n)` exactly when the record determines the
block is in the set `s` ending at `n`. -/
theorem getSetId_eq_set_iff {s : Nat} {n : N} : c.getSetId b = .set s n ↔ c.Determines b s n := by
  constructor
  · intro h
    have hle : ∀ last, c.changes.getLast? = some last → b ≤ last.2 := by
      intro last hlast
      refine not_lt.mp fun hlt => ?_
      have hlatest := getSetId_eq_latest_iff.mpr ⟨last, hlast, hlt⟩
      rw [h] at hlatest
      cases hlatest
    cases hget : c.changes[lowerBound c.changes Prod.snd b]? with
    | none =>
      rw [getSetId_of_getElem?_none hle hget] at h
      cases h
    | some e =>
      obtain ⟨s', n'⟩ := e
      rw [getSetId_of_getElem? hle hget] at h
      split at h
      · cases h
      next hfirst =>
        cases h
        obtain ⟨hbound, hentry⟩ := List.getElem?_eq_some_iff.mp hget
        have hb : b ≤ n := by
          have hkey := le_key_of_lowerBound_le hc.sorted le_rfl hbound
          rw [hentry] at hkey
          exact hkey
        refine ⟨hb, ?_⟩
        -- the entry at the lower bound is the first one, or follows the entry before it
        by_cases hzero : lowerBound c.changes Prod.snd b = 0
        · refine .inl ⟨?_, ?_⟩
          · rw [List.head?_eq_getElem?, ← hzero, hget]
          · exact not_not.mp fun hne => hfirst ⟨hzero, hne⟩
        · obtain ⟨k, hsucc⟩ := Nat.exists_eq_add_one_of_ne_zero hzero
          rw [hsucc] at hget
          obtain ⟨hk, hnext⟩ := List.getElem?_eq_some_iff.mp hget
          refine .inr ⟨(c.changes[k], c.changes[k + 1]), mem_zip_tail.mpr ⟨k, hk, rfl⟩, hnext, ?_, ?_⟩
          · have hstep := hc.consecutive.getElem k hk
            rw [hnext] at hstep
            exact hstep
          · exact key_lt_of_lt_lowerBound (by omega) (by omega)
  · rintro ⟨hb, hbegins⟩
    -- the entry is recorded, and ends no later than the last one
    have hle : ∀ last, c.changes.getLast? = some last → b ≤ last.2 := by
      intro last hlast
      have hmem : (s, n) ∈ c.changes := by
        rcases hbegins with ⟨hhead, -⟩ | ⟨prev, hprev, hsnd, -⟩
        · exact List.mem_of_mem_head? hhead
        · obtain ⟨k, hk, rfl⟩ := mem_zip_tail.mp hprev
          rw [← hsnd]
          exact List.getElem_mem hk
      exact le_trans hb (le_last_of_mem hc.sorted hmem hlast)
    rcases hbegins with ⟨hhead, hzero⟩ | ⟨prev, hprev, hsnd, hid, hbefore⟩
    · have hpos : 0 < c.changes.length := List.length_pos_iff.mpr (by
        rintro hnil
        rw [hnil] at hhead
        cases hhead)
      have hentry : c.changes[0] = (s, n) := by
        rw [List.head?_eq_getElem?] at hhead
        exact (List.getElem?_eq_some_iff.mp hhead).2
      have hbound : lowerBound c.changes Prod.snd b = 0 :=
        lowerBound_eq hpos (by rw [hentry]; exact hb) (fun j hj => absurd hj (Nat.not_lt_zero j))
      have hget : c.changes[lowerBound c.changes Prod.snd b]? = some (s, n) := by
        rw [hbound, ← List.head?_eq_getElem?]
        exact hhead
      rw [getSetId_of_getElem? hle hget, if_neg (fun hfirst => hfirst.2 hzero)]
    · obtain ⟨k, hk, rfl⟩ := mem_zip_tail.mp hprev
      dsimp only at hsnd hid hbefore
      -- every entry up to the one before ends before the block
      have hbound : lowerBound c.changes Prod.snd b = k + 1 := by
        refine lowerBound_eq hk (by rw [hsnd]; exact hb) fun j hj => ?_
        rcases Nat.lt_succ_iff_lt_or_eq.mp hj with hlt | rfl
        · exact lt_trans (List.pairwise_iff_getElem.mp hc.sorted _ _ _ _ hlt) hbefore
        · exact hbefore
      have hget : c.changes[lowerBound c.changes Prod.snd b]? = some (s, n) := by
        rw [hbound, List.getElem?_eq_getElem hk]
        exact congrArg some hsnd
      rw [getSetId_of_getElem? hle hget, if_neg (fun hfirst => by omega)]

/-- On a chained record `get_set_id` answers `Unknown` exactly when the block is not after the last
one and the record does not determine its set. -/
theorem getSetId_eq_unknown_iff : c.getSetId b = .unknown ↔
    (∀ last, c.changes.getLast? = some last → b ≤ last.2) ∧ ∀ s n, ¬ c.Determines b s n := by
  constructor
  · intro h
    refine ⟨fun last hlast => not_lt.mp fun hlt => ?_, fun s n hdet => ?_⟩
    · have hlatest := getSetId_eq_latest_iff.mpr ⟨last, hlast, hlt⟩
      rw [h] at hlatest
      cases hlatest
    · have hset := (getSetId_eq_set_iff hc).mpr hdet
      rw [h] at hset
      cases hset
  · rintro ⟨hle, hnone⟩
    -- the answer is none of the other two
    cases hanswer : c.getSetId b with
    | latest =>
      obtain ⟨last, hlast, hlt⟩ := getSetId_eq_latest_iff.mp hanswer
      exact absurd (hle last hlast) (not_le.mpr hlt)
    | set s n => exact absurd ((getSetId_eq_set_iff hc).mp hanswer) (hnone s n)
    | unknown => rfl

/-- On a chained record `iter_from` lists, when it answers, the entries ending after the block, with
consecutive ids, starting at the set holding the next blocks. -/
theorem iterFrom_eq_some {rest : List (Nat × N)} (h : c.iterFrom b = some rest) :
    rest = c.changes.filter (fun e => b < e.2) ∧ rest.IsChain (fun a a' => a.1 + 1 = a'.1) ∧
      ∀ s n, rest.head? = some (s, n) → c.Begins (· ≤ b) s n := by
  rw [iterFrom] at h
  rw [binarySearchByKey_nextIndex hc.sorted] at h
  set idx := c.changes.findIdx fun e => b < e.2
  -- both answers are the entries from the first that ends after the block
  have hrest : rest = c.changes.drop idx ∧ (∀ s n, c.changes[idx]? = some (s, n) → idx = 0 → s = 0) := by
    cases hget : c.changes[idx]? with
    | none =>
      rw [hget] at h
      cases h
      exact ⟨rfl, fun _ _ hnone => by cases hnone⟩
    | some e =>
      obtain ⟨s, n⟩ := e
      rw [hget] at h
      dsimp only at h
      split at h
      · cases h
      next hfirst =>
        cases h
        refine ⟨rfl, fun s' n' hsome hzero => ?_⟩
        cases hsome
        exact not_not.mp fun hne => hfirst ⟨hzero, hne⟩
  obtain ⟨rfl, hfirst⟩ := hrest
  refine ⟨drop_findIdx_lt hc.sorted, hc.consecutive.drop idx, fun s n hhead => ?_⟩
  rw [List.head?_drop] at hhead
  obtain ⟨hbound, hentry⟩ := List.getElem?_eq_some_iff.mp hhead
  by_cases hzero : idx = 0
  · refine .inl ⟨?_, hfirst s n hhead hzero⟩
    rw [List.head?_eq_getElem?, ← hzero]
    exact hhead
  · obtain ⟨k, hsucc⟩ := Nat.exists_eq_add_one_of_ne_zero hzero
    have hget := hhead
    rw [hsucc] at hget
    obtain ⟨hk, hnext⟩ := List.getElem?_eq_some_iff.mp hget
    refine .inr ⟨(c.changes[k], c.changes[k + 1]), mem_zip_tail.mpr ⟨k, hk, rfl⟩, hnext, ?_, ?_⟩
    · have hstep := hc.consecutive.getElem k hk
      rw [hnext] at hstep
      exact hstep
    · -- the entry before ends no later than the block
      have hnot := List.not_of_lt_findIdx (show k < idx by omega)
      simpa using hnot

end Queries

/-! ## The record as sets end -/

theorem empty_chained : (empty : AuthoritySetChanges N).Chained :=
  ⟨List.Pairwise.nil, List.IsChain.nil⟩

/-- Appending the set after the last one, ending after it, keeps the record chained. -/
theorem Chained.append {c : AuthoritySetChanges N} (hc : c.Chained) {setId : Nat} {blockNumber : N}
    (hnext : ∀ last, c.changes.getLast? = some last → last.1 + 1 = setId ∧ last.2 < blockNumber) :
    (c.append setId blockNumber).Chained := by
  constructor
  · refine List.pairwise_append.mpr ⟨hc.sorted, List.pairwise_singleton _ _, ?_⟩
    intro e he e' he'
    rw [List.mem_singleton.mp he']
    obtain ⟨last, hlast⟩ := Option.isSome_iff_exists.mp
      (List.getLast?_isSome.mpr (List.ne_nil_of_mem he))
    exact lt_of_le_of_lt (le_last_of_mem hc.sorted he hlast) (hnext last hlast).2
  · refine List.isChain_append.mpr ⟨hc.consecutive, List.isChain_singleton _, ?_⟩
    intro last hlast e he
    rw [List.head?_singleton, Option.mem_some_iff] at he
    rw [← he]
    exact (hnext last hlast).1

def completeRecord : AuthoritySetChanges Nat := ⟨[(0, 41), (1, 81), (2, 121)]⟩

def insertTestRecord : AuthoritySetChanges Nat := ⟨[(0, 41), (1, 81), (2, 101), (4, 121)]⟩

end AuthoritySetChanges

end Substrate.Grandpa
