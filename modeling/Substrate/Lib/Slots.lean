import Mathlib

/-! # Lists of slots

A list of optional values read by `getD` with the default `none`: a slot
past the end is empty. The lemmas say how the slots change under `set`, an
append and a truncation after the last value, and which indices `filterMap`
keeps.
-/

namespace Slots

variable {α : Type}

variable {l : List (Option α)} {x : Option α}

theorem getD_append_singleton_ne {j : Nat}
    (h : j ≠ l.length) : (l ++ [x]).getD j none = l.getD j none := by
  simp only [List.getD_eq_getElem?_getD, List.getElem?_append, List.getElem?_singleton]
  split
  · rfl
  · rw [List.getElem?_eq_none (by omega), if_neg (by omega)]

theorem getD_set_ne {i j : Nat} (h : i ≠ j) :
    (l.set i x).getD j none = l.getD j none := by
  simp only [List.getD_eq_getElem?_getD, List.getElem?_set_ne h]

variable {i : Nat}

theorem getD_set_self (h : i < l.length) : (l.set i x).getD i none = x := by
  simp only [List.getD_eq_getElem?_getD, List.getElem?_set_self h, Option.getD_some]

theorem getD_set_none (l : List (Option α)) (i j : Nat) :
    (l.set i none).getD j none = if j = i then none else l.getD j none := by
  split
  · rename_i hji
    subst hji
    by_cases hj : j < l.length
    · exact getD_set_self hj
    · rw [List.set_eq_of_length_le (by omega), List.getD_eq_getElem?_getD,
        List.getElem?_eq_none (by omega)]
      rfl
  · exact getD_set_ne (Ne.symm (by assumption))

theorem lt_length_of_getD_eq_some {x : α}
    (h : l.getD i none = some x) : i < l.length := by
  by_contra hge
  rw [List.getD_eq_getElem?_getD, List.getElem?_eq_none (by omega)] at h
  cases h

theorem filterMap_sublist_map {β : Type} (f : α → Option β) (g : α → β)
    (hfg : ∀ a b, f a = some b → b = g a) : ∀ l : List α, (l.filterMap f).Sublist (l.map g)
  | [] => List.Sublist.slnil
  | a :: l => by
    rw [List.filterMap_cons, List.map_cons]
    cases h : f a with
    | none => exact (filterMap_sublist_map f g hfg l).cons _
    | some b =>
      rw [hfg a b h]
      exact (filterMap_sublist_map f g hfg l).cons_cons _

/-- `Iterator::rposition`: the last index whose item satisfies `p`. -/
def rposition (l : List α) (p : α → Bool) : Option Nat :=
  (l.reverse.findIdx? p).map fun k => l.length - 1 - k

theorem rposition_eq_none {l : List α} {p : α → Bool} (h : rposition l p = none) :
    ∀ x ∈ l, p x = false := by
  rw [rposition, Option.map_eq_none_iff, List.findIdx?_eq_none_iff] at h
  intro x hx
  exact h x (List.mem_reverse.mpr hx)

/-- The last index satisfying `p` is in range, and no later item satisfies `p`. -/
theorem rposition_eq_some {l : List α} {p : α → Bool} (h : rposition l p = some i) :
    i < l.length ∧ ∀ j (hj : j < l.length), i < j → p l[j] = false := by
  rw [rposition, Option.map_eq_some_iff] at h
  obtain ⟨k, hk, rfl⟩ := h
  obtain ⟨hlt, -, hbefore⟩ := List.findIdx?_eq_some_iff_getElem.mp hk
  rw [List.length_reverse] at hlt
  refine ⟨by omega, fun j hj hij => ?_⟩
  -- the item `j` is the item `length - 1 - j` of the reversed list, which comes before `k`
  have hrev := hbefore (l.length - 1 - j) (by omega)
  rw [List.getElem_reverse] at hrev
  have hidx : l.length - 1 - (l.length - 1 - j) = j := by omega
  simp only [hidx, Bool.not_eq_true] at hrev
  exact hrev

theorem getD_eq_none_of_forall {l : List (Option α)} (h : ∀ x ∈ l, x = none) (j : Nat) :
    l.getD j none = none := by
  rw [List.getD_eq_getElem?_getD]
  cases hj : l[j]? with
  | none => rfl
  | some x => exact (Option.getD_some).trans (h x (List.mem_of_getElem? hj))

/-- Cutting a list of slots where only empty slots follow keeps every slot. -/
theorem getD_take_of_none_after {l : List (Option α)} {n : Nat}
    (h : ∀ j (hj : j < l.length), n ≤ j → l[j] = none) (j : Nat) :
    (l.take n).getD j none = l.getD j none := by
  simp only [List.getD_eq_getElem?_getD, List.getElem?_take]
  split
  · rfl
  · rename_i hjn
    by_cases hj : j < l.length
    · rw [List.getElem?_eq_getElem hj, h j hj (by omega)]
      rfl
    · rw [List.getElem?_eq_none (by omega)]

end Slots
