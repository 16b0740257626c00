import Mathlib

/-! # Rust collections as lists

`Vec`, `BTreeSet` and `BTreeMap` on lists: a `BTreeSet` under `cmp` has no two elements comparing
equal, a `BTreeMap` is its entries in key order. `swap_remove` keeps the elements as a multiset.
-/

namespace Collections

variable {α : Type}

namespace BTreeSet

variable (cmp : α → α → Ordering)

/-- `BTreeSet::insert`: an element equal to one in the set is not added. -/
def insert (x : α) (s : List α) : List α :=
  if s.any (fun y => cmp y x == .eq) then s else x :: s

def remove (x : α) (s : List α) : List α :=
  s.filter (fun y => cmp y x != .eq)

def last? (s : List α) : Option α :=
  s.foldl (fun m y => match m with
    | none => some y
    | some m => if cmp m y == .lt then some y else some m) none

end BTreeSet

namespace BTreeMap

variable {β : Type} (cmp : α → α → Ordering)

/-- `BTreeMap::entry(key).or_insert(init)` followed by a change `f` of the value: the entries
stay in key order, and an entry already there keeps its key. -/
def alter (key : α) (init : β) (f : β → β) : List (α × β) → List (α × β)
  | [] => [(key, f init)]
  | (k, v) :: rest =>
    match cmp key k with
    | .lt => (key, f init) :: (k, v) :: rest
    | .eq => (k, f v) :: rest
    | .gt => (k, v) :: alter key init f rest

end BTreeMap

def swapRemove (l : List α) (i : Nat) : List α :=
  match l.getLast? with
  | none => l
  | some last => if i + 1 = l.length then l.dropLast else (l.set i last).dropLast

/-- Setting an entry and erasing it differ by the value moved to the end. -/
theorem set_perm_eraseIdx (l : List α) {i : Nat} (hi : i < l.length) (v : α) :
    List.Perm (l.set i v) (l.eraseIdx i ++ [v]) := by
  rw [List.set_eq_take_append_cons_drop, if_pos hi, List.eraseIdx_eq_take_drop_succ,
    List.append_assoc]
  exact List.Perm.append_left _ (List.perm_append_singleton _ _).symm

theorem swapRemove_perm (l : List α) {i : Nat} (hi : i < l.length) :
    List.Perm (swapRemove l i) (l.eraseIdx i) := by
  obtain ⟨d, last, rfl⟩ : ∃ d last, l = d ++ [last] := by
    rcases List.eq_nil_or_concat l with h | ⟨d, last, h⟩
    · subst h
      simp at hi
    · exact ⟨d, last, by rw [h, List.concat_eq_append]⟩
  rw [swapRemove, List.getLast?_concat]
  dsimp only
  simp only [List.length_append, List.length_singleton] at hi ⊢
  split
  next hlast =>
    -- the last entry: only the copy at the end goes
    rw [List.dropLast_concat, show i = d.length by omega,
      List.eraseIdx_append_of_length_le (Nat.le_refl _), Nat.sub_self]
    simp
  next hlt =>
    have hd : i < d.length := by omega
    rw [List.set_append_left _ _ hd, List.dropLast_concat, List.eraseIdx_append_of_lt_length hd]
    exact set_perm_eraseIdx d hd last

namespace BTreeMap

variable {β γ : Type} (cmp : α → α → Ordering)

/-- `BTreeMap::insert`: the entry of an equal key takes the value, and a new entry goes in key
order. -/
def insert (key : α) (value : β) : List (α × β) → List (α × β)
  | [] => [(key, value)]
  | (k, v) :: rest =>
    match cmp key k with
    | .lt => (key, value) :: (k, v) :: rest
    | .eq => (k, value) :: rest
    | .gt => (k, v) :: insert key value rest

def get? (key : α) (m : List (α × β)) : Option β :=
  (m.find? fun e => cmp e.1 key == .eq).map (·.2)

def remove (key : α) (m : List (α × β)) : List (α × β) :=
  m.filter fun e => cmp e.1 key != .eq

def modify (key : α) (f : β → β) (m : List (α × β)) : List (α × β) :=
  m.map fun e => if cmp e.1 key == .eq then (e.1, f e.2) else e

section Order

variable [LinearOrder α]

variable {m : List (α × β)}

/-- On keys in increasing order, `insert` puts the entry between the smaller and the greater
keys, and drops the entry of its own key. -/
theorem insert_eq_filter (key : α) (value : β)
    (hm : m.Pairwise (·.1 < ·.1)) :
    insert compare key value m =
      m.filter (fun e => e.1 < key) ++ (key, value) :: m.filter (fun e => key < e.1) := by
  induction m with
  | nil => rfl
  | cons entry rest ih =>
    obtain ⟨k, v⟩ := entry
    rw [List.pairwise_cons] at hm
    obtain ⟨hk, hrest⟩ := hm
    rw [insert]
    rcases lt_trichotomy key k with hlt | rfl | hgt
    · -- the key comes first: every key of the map is greater
      rw [(compare_lt_iff_lt).mpr hlt]
      have hsmaller : ((k, v) :: rest).filter (fun e => e.1 < key) = [] := by
        rw [List.filter_eq_nil_iff]
        intro e he
        rcases List.mem_cons.mp he with rfl | he
        · simpa using hlt.le
        · simpa using (hlt.trans (hk e he)).le
      have hgreater : ((k, v) :: rest).filter (fun e => key < e.1) = (k, v) :: rest := by
        rw [List.filter_eq_self]
        intro e he
        rcases List.mem_cons.mp he with rfl | he
        · simpa using hlt
        · simpa using hlt.trans (hk e he)
      rw [hsmaller, hgreater, List.nil_append]
    · -- the key's own entry takes the value
      rw [compare_eq_iff_eq.mpr rfl]
      have hsmaller : ((key, v) :: rest).filter (fun e => e.1 < key) = [] := by
        rw [List.filter_eq_nil_iff]
        intro e he
        rcases List.mem_cons.mp he with rfl | he
        · simp
        · simpa using (hk e he).le
      have hgreater : ((key, v) :: rest).filter (fun e => key < e.1) = rest := by
        rw [List.filter_cons_of_neg (by simp), List.filter_eq_self]
        intro e he
        simpa using hk e he
      rw [hsmaller, hgreater, List.nil_append]
    · -- the key comes later
      rw [(compare_gt_iff_gt).mpr hgt, ih hrest,
        List.filter_cons_of_pos (by simpa using hgt),
        List.filter_cons_of_neg (by simpa using hgt.le)]
      rfl

theorem mem_insert {key : α} {value : β} (hm : m.Pairwise (·.1 < ·.1))
    {e : α × β} : e ∈ insert compare key value m ↔ e = (key, value) ∨ (e ∈ m ∧ e.1 ≠ key) := by
  rw [insert_eq_filter key value hm, List.mem_append, List.mem_cons, List.mem_filter,
    List.mem_filter, decide_eq_true_iff, decide_eq_true_iff]
  constructor
  · rintro (⟨he, hlt⟩ | rfl | ⟨he, hgt⟩)
    · exact .inr ⟨he, hlt.ne⟩
    · exact .inl rfl
    · exact .inr ⟨he, hgt.ne'⟩
  · rintro (rfl | ⟨he, hne⟩)
    · exact .inr (.inl rfl)
    · rcases lt_or_gt_of_ne hne with hlt | hgt
      · exact .inl ⟨he, hlt⟩
      · exact .inr (.inr ⟨he, hgt⟩)

theorem pairwise_insert (key : α) (value : β)
    (hm : m.Pairwise (·.1 < ·.1)) : (insert compare key value m).Pairwise (·.1 < ·.1) := by
  rw [insert_eq_filter key value hm, List.pairwise_append, List.pairwise_cons]
  refine ⟨hm.filter _, ⟨?_, hm.filter _⟩, ?_⟩
  · intro e he
    simpa using (List.mem_filter.mp he).2
  · intro a ha b hb
    have hlt : a.1 < key := by simpa using (List.mem_filter.mp ha).2
    rcases List.mem_cons.mp hb with rfl | hb
    · exact hlt
    · exact hlt.trans (by simpa using (List.mem_filter.mp hb).2)

theorem get?_eq_some_iff {key : α} {value : β}
    (hm : m.Pairwise (·.1 < ·.1)) : get? compare key m = some value ↔ (key, value) ∈ m := by
  induction m with
  | nil => simp [get?]
  | cons entry rest ih =>
    obtain ⟨k, v⟩ := entry
    rw [List.pairwise_cons] at hm
    rw [get?, List.find?_cons]
    by_cases hkey : k = key
    · -- the first entry is the key's, and no later one is
      subst hkey
      rw [compare_eq_iff_eq.mpr rfl]
      simp only [BEq.rfl, Option.map_some, Option.some.injEq, List.mem_cons, Prod.mk.injEq,
        true_and]
      constructor
      · rintro rfl
        exact .inl rfl
      · rintro (rfl | hmem)
        · rfl
        · exact absurd (hm.1 _ hmem) (lt_irrefl _)
    · have hne : (compare k key == .eq) = false := by simpa using hkey
      rw [hne, ← get?, ih hm.2, List.mem_cons]
      simp [Ne.symm hkey]

theorem eq_of_mem_of_fst_eq (hm : m.Pairwise (·.1 < ·.1)) {a b : α × β}
    (ha : a ∈ m) (hb : b ∈ m) (hkey : a.1 = b.1) : a = b := by
  induction m with
  | nil => cases ha
  | cons entry rest ih =>
    rw [List.pairwise_cons] at hm
    rcases List.mem_cons.mp ha with rfl | ha' <;> rcases List.mem_cons.mp hb with rfl | hb'
    · rfl
    · exact absurd hkey (hm.1 b hb').ne
    · exact absurd hkey (hm.1 a ha').ne'
    · exact ih hm.2 ha' hb'

end Order

end BTreeMap

end Collections
