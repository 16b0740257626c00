import Mathlib

/-! # Binary search in a sorted list

`binary_search_by_key`: `Ok` with an index of the key, or `Err` with where it would go. On keys
that strictly increase both are fixed, and the model is that result: the first index whose key
is not below the one searched for.
-/

namespace BinarySearch

variable {α β : Type} [LinearOrder β]

/-- The first index whose key is not below `b`, or the length of the list. -/
def lowerBound (l : List α) (key : α → β) (b : β) : Nat :=
  l.findIdx fun a => b ≤ key a

def binarySearchByKey (l : List α) (b : β) (key : α → β) : Except Nat Nat :=
  match l[lowerBound l key b]? with
  | some a => if key a = b then .ok (lowerBound l key b) else .error (lowerBound l key b)
  | none => .error (lowerBound l key b)

def unwrapOrElse {ε γ : Type} (r : Except ε γ) (f : ε → γ) : γ :=
  match r with
  | .ok a => a
  | .error e => f e

@[simp] theorem unwrapOrElse_ok {ε γ : Type} (a : γ) (f : ε → γ) :
    unwrapOrElse (.ok a) f = a := rfl

@[simp] theorem unwrapOrElse_error {ε γ : Type} (e : ε) (f : ε → γ) :
    unwrapOrElse (.error e) f = f e := rfl

/-- `partition_point`: the index of the first element failing the predicate, the source's answer on
a slice where it holds on a prefix only. -/
def partitionPoint (l : List α) (p : α → Bool) : Nat :=
  l.findIdx fun a => !p a

theorem partitionPoint_lt_eq_lowerBound (l : List α) (key : α → β) (b : β) :
    partitionPoint l (fun a => decide (key a < b)) = lowerBound l key b := by
  rw [partitionPoint, lowerBound]
  congr 1
  funext a
  by_cases hlt : key a < b
  · simp [hlt, not_le.mpr hlt]
  · simp [hlt, not_lt.mp hlt]

def StrictlySorted (l : List α) (key : α → β) : Prop :=
  l.Pairwise fun a a' => key a < key a'

instance (l : List α) (key : α → β) : Decidable (StrictlySorted l key) :=
  inferInstanceAs (Decidable (l.Pairwise fun a a' => key a < key a'))

section LowerBound

variable {l : List α} {key : α → β} {b : β}

theorem lowerBound_le_length : lowerBound l key b ≤ l.length :=
  List.findIdx_le_length

theorem key_lt_of_lt_lowerBound {i : Nat} (hi : i < lowerBound l key b) (hlen : i < l.length) :
    key l[i] < b := by
  have hfalse := List.not_of_lt_findIdx hi
  simpa using hfalse

theorem le_key_of_lowerBound_le (hsorted : StrictlySorted l key) {i : Nat}
    (hi : lowerBound l key b ≤ i) (hlen : i < l.length) : b ≤ key l[i] := by
  have hbound : lowerBound l key b < l.length := lt_of_le_of_lt hi hlen
  have hfirst : b ≤ key l[lowerBound l key b] := by
    have htrue := List.findIdx_getElem (w := hbound)
    simp only [decide_eq_true_eq] at htrue
    exact htrue
  rcases Nat.lt_or_eq_of_le hi with hlt | heq
  · exact le_of_lt (lt_of_le_of_lt hfirst
      (List.pairwise_iff_getElem.mp hsorted _ _ hbound hlen hlt))
  · simp only [← heq]
    exact hfirst

theorem lowerBound_eq {i : Nat} (hlen : i < l.length) (hle : b ≤ key l[i])
    (hlt : ∀ j (hj : j < i), key l[j] < b) : lowerBound l key b = i := by
  rw [lowerBound, List.findIdx_eq hlen]
  refine ⟨by simpa using hle, fun j hj => ?_⟩
  simpa using hlt j hj

end LowerBound

section Search

variable {l : List α} {key : α → β} {b : β}

/-- The search answers at the lower bound: `Ok` when the key there is `b`. -/
theorem binarySearchByKey_eq :
    binarySearchByKey l b key = if l[lowerBound l key b]?.map key = some b
      then .ok (lowerBound l key b) else .error (lowerBound l key b) := by
  rw [binarySearchByKey]
  cases l[lowerBound l key b]? with
  | none => rfl
  | some a => simp

/-- `unwrap_or_else(|i| i)` of the search is the lower bound, found or not. -/
theorem binarySearchByKey_index :
    unwrapOrElse (binarySearchByKey l b key) id = lowerBound l key b := by
  rw [binarySearchByKey_eq]
  by_cases hfound : l[lowerBound l key b]?.map key = some b
  · rw [if_pos hfound, unwrapOrElse_ok]
  · rw [if_neg hfound, unwrapOrElse_error, id]

/-- `map(|i| i + 1).unwrap_or_else(|i| i)` of the search on a sorted list is the index of the
first key above `b`. -/
theorem binarySearchByKey_nextIndex (hsorted : StrictlySorted l key) :
    unwrapOrElse ((binarySearchByKey l b key).map (· + 1)) id = l.findIdx fun a => b < key a := by
  rw [binarySearchByKey_eq]
  by_cases hfound : l[lowerBound l key b]?.map key = some b
  · -- the key is found: the next one is the first above it
    rw [if_pos hfound]
    show lowerBound l key b + 1 = _
    obtain ⟨a, hget, heq⟩ := Option.map_eq_some_iff.mp hfound
    obtain ⟨hbound, rfl⟩ := List.getElem?_eq_some_iff.mp hget
    refine (?_ : _ = _).symm
    by_cases hnext : lowerBound l key b + 1 < l.length
    · rw [List.findIdx_eq hnext]
      refine ⟨?_, fun j hj => ?_⟩
      · have hgt := List.pairwise_iff_getElem.mp hsorted _ _ hbound hnext (Nat.lt_succ_self _)
        simpa [heq] using hgt
      · have hj' : j < l.length := Nat.lt_trans hj hnext
        rcases Nat.lt_succ_iff_lt_or_eq.mp hj with hlt | rfl
        · simpa using (key_lt_of_lt_lowerBound hlt hj').le
        · simp [heq]
    · have hlast : lowerBound l key b + 1 = l.length := by omega
      rw [hlast, List.findIdx_eq_length]
      intro a' ha'
      obtain ⟨j, hj, rfl⟩ := List.getElem_of_mem ha'
      rcases Nat.lt_or_ge j (lowerBound l key b) with hlt | hge
      · simpa using (key_lt_of_lt_lowerBound hlt hj).le
      · have hj' : j = lowerBound l key b := by omega
        simp [hj', heq]
  · -- not found: the key at the lower bound, if any, is above `b`
    rw [if_neg hfound]
    show lowerBound l key b = _
    by_cases hbound : lowerBound l key b < l.length
    · have hne : key l[lowerBound l key b] ≠ b := fun heq => hfound (by simp [hbound, heq])
      have hgt : b < key l[lowerBound l key b] :=
        lt_of_le_of_ne (le_key_of_lowerBound_le hsorted le_rfl hbound) (Ne.symm hne)
      refine ((List.findIdx_eq hbound).mpr ⟨by simpa using hgt, fun j hj => ?_⟩).symm
      simpa using (key_lt_of_lt_lowerBound hj (Nat.lt_trans hj hbound)).le
    · -- no key is at least `b`, so none is above it
      have hlen : l.length ≤ lowerBound l key b := Nat.le_of_not_lt hbound
      rw [le_antisymm lowerBound_le_length hlen, eq_comm, List.findIdx_eq_length]
      intro a ha
      obtain ⟨i, hi, rfl⟩ := List.getElem_of_mem ha
      simpa using (key_lt_of_lt_lowerBound (lt_of_lt_of_le hi hlen) hi).le

/-- On a sorted list, the elements from the first key above `b` on are those whose key is above
`b`. -/
theorem drop_findIdx_lt (hsorted : StrictlySorted l key) :
    l.drop (l.findIdx fun a => b < key a) = l.filter fun a => b < key a := by
  induction l with
  | nil => rfl
  | cons a rest ih =>
    have hrest : StrictlySorted rest key := (List.pairwise_cons.mp hsorted).2
    by_cases hgt : b < key a
    · -- every later key is above this one
      have hall : ∀ a' ∈ rest, b < key a' :=
        fun a' ha' => lt_trans hgt ((List.pairwise_cons.mp hsorted).1 a' ha')
      rw [List.findIdx_cons, List.filter_cons_of_pos (by simpa using hgt),
        List.filter_eq_self.mpr (fun a' ha' => by simpa using hall a' ha')]
      simp [hgt]
    · rw [List.findIdx_cons, List.filter_cons_of_neg (by simpa using hgt), ← ih hrest]
      simp [hgt]

end Search

section Insert

variable {l : List α} {key : α → β} {b : β}

omit [LinearOrder β] in
theorem insertIdx_eq_take_drop (a : α) : ∀ {l : List α} {i : Nat}, i ≤ l.length →
    l.insertIdx i a = l.take i ++ a :: l.drop i
  | _, 0, _ => by rw [List.insertIdx_zero, List.take_zero, List.drop_zero, List.nil_append]
  | [], _ + 1, h => by simp at h
  | x :: rest, i + 1, h => by
    rw [List.insertIdx_succ_cons, insertIdx_eq_take_drop a (by simpa using h)]
    rfl

theorem binarySearchByKey_of_mem (hsorted : StrictlySorted l key) {a : α} (ha : a ∈ l)
    (hkey : key a = b) : binarySearchByKey l b key = .ok (lowerBound l key b) := by
  obtain ⟨j, hj, rfl⟩ := List.getElem_of_mem ha
  -- the lower bound is `j`: every key before is below, being below `key l[j]`
  have hbound : lowerBound l key b = j := by
    refine lowerBound_eq hj (le_of_eq hkey.symm) fun i hi => ?_
    rw [← hkey]
    exact List.pairwise_iff_getElem.mp hsorted _ _ (Nat.lt_trans hi hj) hj hi
  rw [binarySearchByKey_eq, if_pos (by simp [hbound, hj, hkey])]

theorem binarySearchByKey_eq_error {pos : Nat} (h : binarySearchByKey l b key = .error pos) :
    pos = lowerBound l key b ∧ l[lowerBound l key b]?.map key ≠ some b := by
  rw [binarySearchByKey_eq] at h
  split at h
  · cases h
  · rename_i hne
    cases h
    exact ⟨rfl, hne⟩

/-- Inserting where the search fails an element with the searched key keeps the list sorted. -/
theorem strictlySorted_insertIdx (hsorted : StrictlySorted l key) {pos : Nat}
    (hsearch : binarySearchByKey l b key = .error pos) {a : α} (hkey : key a = b) :
    StrictlySorted (l.insertIdx pos a) key := by
  obtain ⟨rfl, hne⟩ := binarySearchByKey_eq_error hsearch
  have hlen : lowerBound l key b ≤ l.length := lowerBound_le_length
  rw [StrictlySorted, insertIdx_eq_take_drop a hlen]
  have hparts := List.take_append_drop (lowerBound l key b) l
  rw [StrictlySorted, ← hparts, List.pairwise_append] at hsorted
  obtain ⟨htake, hdrop, hcross⟩ := hsorted
  -- the keys before the lower bound are below `b`
  have hbelow : ∀ x ∈ l.take (lowerBound l key b), key x < b := by
    intro x hx
    obtain ⟨i, hi, rfl⟩ := List.getElem_of_mem hx
    rw [List.getElem_take]
    rw [List.length_take] at hi
    exact key_lt_of_lt_lowerBound (lt_of_lt_of_le hi (min_le_left _ _))
      (lt_of_lt_of_le hi (min_le_right _ _))
  -- those from it on are above `b`, since `b` itself is not there
  have habove : ∀ y ∈ l.drop (lowerBound l key b), b < key y := by
    intro y hy
    obtain ⟨i, hi, rfl⟩ := List.getElem_of_mem hy
    rw [List.getElem_drop]
    rw [List.length_drop] at hi
    have hidx : lowerBound l key b + i < l.length := by omega
    have hsorted' : StrictlySorted l key := by
      rw [StrictlySorted, ← hparts, List.pairwise_append]
      exact ⟨htake, hdrop, hcross⟩
    refine lt_of_le_of_ne (le_key_of_lowerBound_le hsorted' (Nat.le_add_right _ _) hidx) ?_
    intro heq
    have hfirst : lowerBound l key b < l.length := by omega
    rcases Nat.eq_zero_or_pos i with rfl | hpos
    · apply hne
      rw [List.getElem?_eq_getElem hfirst, Option.map_some, Option.some.injEq]
      simpa using heq.symm
    · -- a later key equal to `b` would put the key at the lower bound below `b`
      have hlt := List.pairwise_iff_getElem.mp hsorted' _ _ hfirst hidx (by omega)
      have hle := le_key_of_lowerBound_le hsorted' le_rfl hfirst
      rw [← heq] at hlt
      exact absurd (lt_of_le_of_lt hle hlt) (lt_irrefl b)
  refine List.pairwise_append.mpr ⟨htake, List.pairwise_cons.mpr ⟨fun y hy => ?_, hdrop⟩, ?_⟩
  · rw [hkey]
    exact habove y hy
  · intro x hx y hy
    rcases List.mem_cons.mp hy with rfl | hy
    · rw [hkey]
      exact hbelow x hx
    · exact hcross x hx y hy

def Sorted (l : List α) (key : α → β) : Prop :=
  l.Pairwise fun a a' => key a ≤ key a'

/-- The search, with its failure taken as the insertion point, answers the lower bound. -/
theorem unwrapOrElse_binarySearchByKey :
    unwrapOrElse (binarySearchByKey l b key) id = lowerBound l key b := by
  rw [binarySearchByKey_eq]
  split <;> rfl

theorem le_key_of_sorted (hsorted : Sorted l key) {i : Nat} (hi : lowerBound l key b ≤ i)
    (hlen : i < l.length) : b ≤ key l[i] := by
  have hbound : lowerBound l key b < l.length := lt_of_le_of_lt hi hlen
  have hfirst : b ≤ key l[lowerBound l key b] := by
    have htrue := List.findIdx_getElem (w := hbound)
    simp only [decide_eq_true_eq] at htrue
    exact htrue
  rcases Nat.lt_or_eq_of_le hi with hlt | heq
  · exact le_trans hfirst (List.pairwise_iff_getElem.mp hsorted _ _ hbound hlen hlt)
  · simp only [← heq]
    exact hfirst

/-- Inserting at the lower bound an element with the key searched for keeps the list sorted: the
keys before it are below it and those from it on are at least it. -/
theorem sorted_insertIdx (hsorted : Sorted l key) {a : α} (hkey : key a = b) :
    Sorted (l.insertIdx (lowerBound l key b) a) key := by
  have hlen : lowerBound l key b ≤ l.length := lowerBound_le_length
  rw [Sorted, insertIdx_eq_take_drop a hlen]
  have hparts := List.take_append_drop (lowerBound l key b) l
  have hsorted' := hsorted
  rw [Sorted, ← hparts, List.pairwise_append] at hsorted'
  obtain ⟨htake, hdrop, hcross⟩ := hsorted'
  have hbelow : ∀ x ∈ l.take (lowerBound l key b), key x ≤ b := by
    intro x hx
    obtain ⟨i, hi, rfl⟩ := List.getElem_of_mem hx
    rw [List.getElem_take]
    rw [List.length_take] at hi
    exact le_of_lt (key_lt_of_lt_lowerBound (lt_of_lt_of_le hi (min_le_left _ _))
      (lt_of_lt_of_le hi (min_le_right _ _)))
  have habove : ∀ y ∈ l.drop (lowerBound l key b), b ≤ key y := by
    intro y hy
    obtain ⟨i, hi, rfl⟩ := List.getElem_of_mem hy
    rw [List.getElem_drop]
    rw [List.length_drop] at hi
    exact le_key_of_sorted hsorted (Nat.le_add_right _ _) (by omega)
  refine List.pairwise_append.mpr ⟨htake, List.pairwise_cons.mpr ⟨fun y hy => ?_, hdrop⟩, ?_⟩
  · rw [hkey]
    exact habove y hy
  · intro x hx y hy
    rcases List.mem_cons.mp hy with rfl | hy
    · rw [hkey]
      exact hbelow x hx
    · exact hcross x hx y hy

end Insert

end BinarySearch
