import Substrate.Lib.Collections
import Mathlib

/-! # Ranges keyed by their first number

`Separated`: increasing keys, no empty range, no overlap; kept by inserting what meets no other
range, by taking entries out, and by keeping keys and lengths.
-/

namespace Ranges

open Collections

variable {β γ : Type} (len : β → Nat)

/-- The ranges `[key, key + len value)` of a map: keys in increasing order, none empty, and each
ending before the next begins. -/
structure Separated (m : List (Nat × β)) : Prop where
  sorted : m.Pairwise (·.1 < ·.1)
  nonempty : ∀ e ∈ m, 0 < len e.2
  disjoint : ∀ a ∈ m, ∀ b ∈ m, a.1 < b.1 → a.1 + len a.2 ≤ b.1

variable {len}

theorem Separated.nil : Separated len ([] : List (Nat × β)) where
  sorted := List.Pairwise.nil
  nonempty := by simp
  disjoint := by simp

/-- Taking entries out keeps the ranges apart. -/
theorem Separated.sublist {m m' : List (Nat × β)} (h : Separated len m) (hsub : m'.Sublist m) :
    Separated len m' where
  sorted := h.sorted.sublist hsub
  nonempty := fun e he => h.nonempty e (hsub.subset he)
  disjoint := fun a ha b hb => h.disjoint a (hsub.subset ha) b (hsub.subset hb)

theorem Separated.remove {m : List (Nat × β)} (h : Separated len m) (key : Nat) :
    Separated len (BTreeMap.remove compare key m) :=
  h.sublist List.filter_sublist

/-- A range put in at `key` that meets no range of another key keeps the ranges apart. -/
theorem Separated.insert {m : List (Nat × β)} (h : Separated len m) {key : Nat} {value : β}
    (hlen : 0 < len value)
    (hfree : ∀ e ∈ m, e.1 ≠ key → e.1 + len e.2 ≤ key ∨ key + len value ≤ e.1) :
    Separated len (BTreeMap.insert compare key value m) where
  sorted := BTreeMap.pairwise_insert key value h.sorted
  nonempty := by
    intro e he
    rcases (BTreeMap.mem_insert h.sorted).mp he with rfl | ⟨he, -⟩
    · exact hlen
    · exact h.nonempty e he
  disjoint := by
    intro a ha b hb hlt
    rcases (BTreeMap.mem_insert h.sorted).mp ha with rfl | ⟨ha, hakey⟩ <;>
      rcases (BTreeMap.mem_insert h.sorted).mp hb with rfl | ⟨hb, hbkey⟩
    · exact absurd hlt (lt_irrefl _)
    · -- the new range comes first: the later one starts after it
      rcases hfree b hb hbkey with hbefore | hafter
      · have := h.nonempty b hb
        omega
      · exact hafter
    · -- the new range comes last: the earlier one ends before it
      rcases hfree a ha hakey with hbefore | hafter
      · exact hbefore
      · have := hlen
        omega
    · exact h.disjoint a ha b hb hlt

theorem forall₂_mem_right {R : β → γ → Prop} {l : List β} {l' : List γ}
    (h : List.Forall₂ R l l') {b : γ} (hb : b ∈ l') : ∃ a ∈ l, R a b := by
  induction h with
  | nil => cases hb
  | cons hab _ ih =>
    rcases List.mem_cons.mp hb with rfl | hb
    · exact ⟨_, List.mem_cons_self, hab⟩
    · obtain ⟨a, ha, hr⟩ := ih hb
      exact ⟨a, List.mem_cons_of_mem _ ha, hr⟩

/-- A map with the same keys and the same lengths, in the same order, keeps the ranges apart. -/
theorem Separated.of_forall₂ {len' : γ → Nat} {m : List (Nat × β)} {m' : List (Nat × γ)}
    (h : Separated len m)
    (hsame : List.Forall₂ (fun a b => a.1 = b.1 ∧ len' b.2 = len a.2) m m') :
    Separated len' m' := by
  -- each entry of the new map has its counterpart in the old one
  have hback : ∀ b ∈ m', ∃ a ∈ m, a.1 = b.1 ∧ len' b.2 = len a.2 :=
    fun b hb => forall₂_mem_right hsame hb
  refine ⟨?_, ?_, ?_⟩
  · -- the keys are the same, in the same order
    have hsorted := h.sorted
    clear hback
    induction hsame with
    | nil => exact List.Pairwise.nil
    | cons hab hrest ih =>
      rw [List.pairwise_cons] at hsorted ⊢
      refine ⟨?_, ih (h.sublist (List.sublist_cons_self _ _)) hsorted.2⟩
      intro b' hb'
      obtain ⟨a', ha', hkey', -⟩ := forall₂_mem_right hrest hb'
      rw [← hab.1, ← hkey']
      exact hsorted.1 a' ha'
  · intro b hb
    obtain ⟨a, ha, -, hlen⟩ := hback b hb
    rw [hlen]
    exact h.nonempty a ha
  · intro a' ha' b' hb' hlt
    obtain ⟨a, ha, hakey, halen⟩ := hback a' ha'
    obtain ⟨b, hb, hbkey, -⟩ := hback b' hb'
    have := h.disjoint a ha b hb (by omega)
    omega

/-- Around an entry, the ranges before it end where it starts at the latest, and those after it
start where it ends at the earliest. -/
theorem Separated.around {init rest : List (Nat × β)} {p : Nat × β}
    (h : Separated len (init ++ p :: rest)) :
    (∀ e ∈ init, e.1 + len e.2 ≤ p.1) ∧ ∀ e ∈ rest, p.1 + len p.2 ≤ e.1 := by
  have hsorted := h.sorted
  rw [List.pairwise_append, List.pairwise_cons] at hsorted
  have hp : p ∈ init ++ p :: rest := List.mem_append_right _ List.mem_cons_self
  refine ⟨?_, ?_⟩
  · intro e he
    exact h.disjoint e (List.mem_append_left _ he) p hp
      (hsorted.2.2 e he p List.mem_cons_self)
  · intro e he
    exact h.disjoint p hp e (List.mem_append_right _ (List.mem_cons_of_mem _ he))
      (hsorted.2.1.1 e he)

end Ranges
