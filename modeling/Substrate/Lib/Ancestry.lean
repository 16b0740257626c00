import Mathlib

/-! # Ancestry in a tree of blocks

The laws of `BlockTree`, a descent oracle next to each block's height: a block is an ancestor of
another or itself, a strict descendant, or on another fork, exclusively.
-/

namespace Ancestry

/-- A strict-descendant oracle of a tree of blocks, with the blocks' heights. -/
structure BlockTree (H N : Type) [LinearOrder N] where
  isDescendentOf : H → H → Bool
  height : H → N
  irrefl : ∀ a, isDescendentOf a a = false
  trans : ∀ {a b c}, isDescendentOf a b = true → isDescendentOf b c = true → isDescendentOf a c = true
  /-- Two ancestors of one block are one block, or one descends from the other. -/
  ancestors_total : ∀ {a b c}, isDescendentOf a c = true → isDescendentOf b c = true →
    a = b ∨ isDescendentOf a b = true ∨ isDescendentOf b a = true
  height_lt : ∀ {a b}, isDescendentOf a b = true → height a < height b

namespace BlockTree

variable {H N : Type} [LinearOrder N] (B : BlockTree H N)

/-- `base` is `target` or one of its ancestors. -/
def AncestorOrSelf (base target : H) : Prop :=
  base = target ∨ B.isDescendentOf base target = true

instance [DecidableEq H] (base target : H) : Decidable (B.AncestorOrSelf base target) :=
  inferInstanceAs (Decidable (base = target ∨ B.isDescendentOf base target = true))

variable {B}

theorem AncestorOrSelf.refl (a : H) : B.AncestorOrSelf a a := .inl rfl

variable {a b c : H}

theorem AncestorOrSelf.trans (hab : B.AncestorOrSelf a b) (hbc : B.AncestorOrSelf b c) :
    B.AncestorOrSelf a c := by
  rcases hab with rfl | hab
  · exact hbc
  · rcases hbc with rfl | hbc
    · exact .inr hab
    · exact .inr (B.trans hab hbc)

theorem AncestorOrSelf.height_le {a b : H} (h : B.AncestorOrSelf a b) : B.height a ≤ B.height b := by
  rcases h with rfl | h
  · exact le_rfl
  · exact (B.height_lt h).le

theorem not_ancestorOrSelf_of_isDescendentOf {a b : H} (h : B.isDescendentOf a b = true) :
    ¬B.AncestorOrSelf b a := by
  rintro (rfl | hba)
  · rw [B.irrefl] at h
    cases h
  · exact lt_asymm (B.height_lt h) (B.height_lt hba)

/-- Descent from a block passes down to the descendants of its descendants. -/
theorem isDescendentOf_of_ancestorOrSelf (hab : B.isDescendentOf a b = true)
    (hbc : B.AncestorOrSelf b c) : B.isDescendentOf a c = true := by
  rcases hbc with rfl | hbc
  · exact hab
  · exact B.trans hab hbc

theorem AncestorOrSelf.isDescendentOf_trans (hab : B.AncestorOrSelf a b)
    (hbc : B.isDescendentOf b c = true) : B.isDescendentOf a c = true := by
  rcases hab with rfl | hab
  · exact hbc
  · exact B.trans hab hbc

/-- An ancestor or the block itself, and an ancestor, of one block: one is the other or an ancestor
of it. -/
theorem ancestorOrSelf_total (hac : B.AncestorOrSelf a c)
    (hbc : B.isDescendentOf b c = true) :
    a = b ∨ B.isDescendentOf a b = true ∨ B.isDescendentOf b a = true := by
  rcases hac with rfl | hac
  · exact .inr (.inr hbc)
  · exact B.ancestors_total hac hbc

/-- A block on another fork than `a`, neither an ancestor of it nor a descendant, has no
descendant that descends from `a`. -/
theorem not_isDescendentOf_of_unrelated (hanc : ¬B.AncestorOrSelf b a)
    (hdesc : B.isDescendentOf a b = false) (hbc : B.AncestorOrSelf b c) :
    B.isDescendentOf a c = false := by
  by_contra hac
  rw [Bool.not_eq_false] at hac
  rcases hbc with rfl | hbc
  · rw [hac] at hdesc
    cases hdesc
  · -- `a` and `b` are both ancestors of `c`, so one of them descends from the other
    rcases B.ancestors_total hac hbc with rfl | hab | hba
    · exact hanc (.refl _)
    · rw [hab] at hdesc
      cases hdesc
    · exact hanc (.inr hba)

variable (B) in
/-- Two blocks on forks apart: distinct, and neither descends from the other. -/
def Apart (a b : H) : Prop :=
  a ≠ b ∧ B.isDescendentOf a b = false ∧ B.isDescendentOf b a = false

/-- Blocks on forks apart have no common descendant. -/
theorem Apart.not_both_ancestors (h : B.Apart a b) (hac : B.isDescendentOf a c = true) :
    B.isDescendentOf b c ≠ true := by
  intro hbc
  obtain ⟨hne, hab, hba⟩ := h
  rcases B.ancestors_total hac hbc with heq | hab' | hba'
  · exact hne heq
  · rw [hab] at hab'
    cases hab'
  · rw [hba] at hba'
    cases hba'

theorem Apart.not_both_ancestorOrSelf (h : B.Apart a b) (hac : B.AncestorOrSelf a c) :
    ¬B.AncestorOrSelf b c := by
  obtain ⟨hne, hab, hba⟩ := h
  rintro (rfl | hbc)
  · rcases hac with rfl | hab'
    · exact hne rfl
    · rw [hab] at hab'
      cases hab'
  · rcases hac with rfl | hac
    · rw [hba] at hbc
      cases hbc
    · exact Apart.not_both_ancestors ⟨hne, hab, hba⟩ hac hbc

theorem Apart.symm {a b : H} (h : B.Apart a b) : B.Apart b a :=
  ⟨fun heq => h.1 heq.symm, h.2.2, h.2.1⟩

variable (B) in
def onBranch [DecidableEq H] (a b : H) : Bool :=
  B.isDescendentOf a b || decide (a = b) || B.isDescendentOf b a

theorem onBranch_eq_true_iff [DecidableEq H] {a b : H} :
    B.onBranch a b = true ↔
      B.isDescendentOf a b = true ∨ a = b ∨ B.isDescendentOf b a = true := by
  rw [onBranch, Bool.or_eq_true, Bool.or_eq_true, decide_eq_true_iff, or_assoc]

/-- Below a block `a` that is no ancestor of `b`, a block is on the branch of `b` exactly when `a`
is `b` or one of its descendants. -/
theorem onBranch_iff_of_ancestorOrSelf [DecidableEq H] {a b x : H}
    (hab : B.isDescendentOf a b = false) (hax : B.AncestorOrSelf a x) :
    B.onBranch x b = true ↔ B.AncestorOrSelf b a := by
  rw [onBranch_eq_true_iff]
  constructor
  · rintro (hxb | rfl | hbx)
    · -- an ancestor of `b` below `a` would make `a` one
      rw [hax.isDescendentOf_trans hxb] at hab
      cases hab
    · rcases hax with rfl | hax
      · exact .refl _
      · rw [hax] at hab
        cases hab
    · rcases ancestorOrSelf_total hax hbx with rfl | hab' | hba
      · exact .refl _
      · rw [hab'] at hab
        cases hab
      · exact .inr hba
  · intro hba
    rcases hba.trans hax with heq | hbx
    · exact .inr (.inl heq.symm)
    · exact .inr (.inr hbx)

/-- A block on a fork apart from an ancestor of `b` is not on the branch of `b`. -/
theorem Apart.onBranch_eq_false [DecidableEq H] (h : B.Apart a c)
    (hcb : B.isDescendentOf c b = true) : B.onBranch a b = false := by
  rw [onBranch, Bool.or_eq_false_iff, Bool.or_eq_false_iff, decide_eq_false_iff_not]
  refine ⟨⟨?_, fun heq => ?_⟩, ?_⟩
  · rw [← Bool.not_eq_true]
    intro hab
    exact h.not_both_ancestors hab hcb
  · obtain ⟨-, -, hca⟩ := h
    subst heq
    rw [hcb] at hca
    cases hca
  · rw [← Bool.not_eq_true]
    intro hba
    obtain ⟨-, -, hca⟩ := h
    rw [B.trans hcb hba] at hca
    cases hca

def chain : BlockTree Nat Nat where
  isDescendentOf base target := decide (base < target)
  height := id
  irrefl a := by simp
  trans hab hbc := by
    simp only [decide_eq_true_eq] at hab hbc ⊢
    omega
  ancestors_total {a b _} _ _ := by
    rcases lt_trichotomy a b with hlt | rfl | hgt
    · exact .inr (.inl (decide_eq_true hlt))
    · exact .inl rfl
    · exact .inr (.inr (decide_eq_true hgt))
  height_lt h := of_decide_eq_true h

end BlockTree

end Ancestry
