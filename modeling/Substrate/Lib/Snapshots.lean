import Mathlib

/-! # A map under nested transactions

A non-empty stack of maps: writes change the top, starting a transaction copies it, rolling back
restores the copy and committing drops it. What one key sees is the stack read at that key.
-/

/-- The map the innermost transaction sees, and the copies saved when the open transactions
started, the innermost first. -/
structure Snapshots (κ ν : Type) where
  top : κ → Option ν
  saved : List (κ → Option ν)

namespace Snapshots

variable {κ ν : Type}

def empty : Snapshots κ ν := ⟨fun _ => none, []⟩

def depth (s : Snapshots κ ν) : Nat := s.saved.length

def view (s : Snapshots κ ν) (k : κ) : List (Option ν) := s.top k :: s.saved.map (· k)

def write (s : Snapshots κ ν) (f : (κ → Option ν) → κ → Option ν) : Snapshots κ ν :=
  { s with top := f s.top }

def start (s : Snapshots κ ν) : Snapshots κ ν := ⟨s.top, s.top :: s.saved⟩

/-- Rolling back restores the last copy; there is none at depth 0. -/
def rollback (s : Snapshots κ ν) : Option (Snapshots κ ν) :=
  match s.saved with
  | [] => none
  | top :: saved => some ⟨top, saved⟩

/-- Committing keeps the top map and drops the last copy; there is none at depth 0. -/
def commit (s : Snapshots κ ν) : Option (Snapshots κ ν) :=
  match s.saved with
  | [] => none
  | _ :: saved => some ⟨s.top, saved⟩

def rollbackN : Nat → Snapshots κ ν → Snapshots κ ν
  | 0, s => s
  | n + 1, s =>
      match s.rollback with
      | some s => rollbackN n s
      | none => s

def comap {κ' : Type} (f : κ' → κ) (s : Snapshots κ ν) : Snapshots κ' ν :=
  ⟨s.top ∘ f, s.saved.map (· ∘ f)⟩

@[simp]
theorem view_comap {κ' : Type} (f : κ' → κ) (s : Snapshots κ ν) (k : κ') :
    (s.comap f).view k = s.view (f k) := by
  simp [comap, view, Function.comp_def]

@[simp]
theorem depth_comap {κ' : Type} (f : κ' → κ) (s : Snapshots κ ν) : (s.comap f).depth = s.depth := by
  simp [comap, depth]

theorem rollback_comap {κ' : Type} (f : κ' → κ) (s : Snapshots κ ν) :
    (s.comap f).rollback = s.rollback.map (comap f) := by
  rcases s with ⟨top, _ | ⟨saved₀, saved⟩⟩ <;> rfl

theorem commit_comap {κ' : Type} (f : κ' → κ) (s : Snapshots κ ν) :
    (s.comap f).commit = s.commit.map (comap f) := by
  rcases s with ⟨top, _ | ⟨saved₀, saved⟩⟩ <;> rfl

theorem rollbackN_comap {κ' : Type} (f : κ' → κ) :
    ∀ (n : Nat) (s : Snapshots κ ν), (s.comap f).rollbackN n = (s.rollbackN n).comap f
  | 0, _ => rfl
  | n + 1, s => by
    rw [rollbackN, rollbackN, rollback_comap]
    cases s.rollback with
    | none => rfl
    | some s' => exact rollbackN_comap f n s'

@[simp]
theorem view_empty (k : κ) : (empty : Snapshots κ ν).view k = [none] := rfl

variable (s : Snapshots κ ν)

@[simp]
theorem length_view (k : κ) : (s.view k).length = s.depth + 1 := by
  simp [view, depth]

@[simp]
theorem view_write (f : (κ → Option ν) → κ → Option ν) (k : κ) :
    (s.write f).view k = f s.top k :: (s.view k).tail := rfl

@[simp]
theorem depth_write (f : (κ → Option ν) → κ → Option ν) :
    (s.write f).depth = s.depth := rfl

@[simp]
theorem view_start (k : κ) : s.start.view k = s.top k :: s.view k := rfl

@[simp]
theorem depth_start : s.start.depth = s.depth + 1 := rfl

theorem rollback_eq_none_iff : s.rollback = none ↔ s.depth = 0 := by
  rcases s with ⟨top, _ | ⟨saved₀, saved⟩⟩ <;> simp [rollback, depth]

theorem commit_eq_none_iff : s.commit = none ↔ s.depth = 0 := by
  rcases s with ⟨top, _ | ⟨saved₀, saved⟩⟩ <;> simp [commit, depth]

theorem view_of_rollback {s s' : Snapshots κ ν} (h : s.rollback = some s') (k : κ) :
    s'.view k = (s.view k).tail := by
  rcases s with ⟨top, _ | ⟨saved₀, saved⟩⟩
  · cases h
  · cases h
    rfl

theorem depth_of_rollback {s s' : Snapshots κ ν} (h : s.rollback = some s') :
    s'.depth + 1 = s.depth := by
  rcases s with ⟨top, _ | ⟨saved₀, saved⟩⟩
  · cases h
  · cases h
    rfl

theorem view_of_commit {s s' : Snapshots κ ν} (h : s.commit = some s') (k : κ) :
    s'.view k = s.top k :: (s.view k).drop 2 := by
  rcases s with ⟨top, _ | ⟨saved₀, saved⟩⟩
  · cases h
  · cases h
    rfl

theorem depth_of_commit {s s' : Snapshots κ ν} (h : s.commit = some s') :
    s'.depth + 1 = s.depth := by
  rcases s with ⟨top, _ | ⟨saved₀, saved⟩⟩
  · cases h
  · cases h
    rfl

/-- What a key sees after a rollback it saw before. -/
theorem view_sublist_of_rollback {s s' : Snapshots κ ν} (h : s.rollback = some s') (k : κ) :
    (s'.view k).Sublist (s.view k) := by
  rw [view_of_rollback h]
  exact List.tail_sublist _

theorem view_sublist_of_commit {s s' : Snapshots κ ν} (h : s.commit = some s') (k : κ) :
    (s'.view k).Sublist (s.view k) := by
  rw [view_of_commit h, view]
  exact (List.drop_sublist 1 _).cons_cons _

theorem view_sublist_rollbackN : ∀ (n : Nat) (s : Snapshots κ ν) (k : κ),
    ((s.rollbackN n).view k).Sublist (s.view k)
  | 0, _, _ => List.Sublist.refl _
  | n + 1, s, k => by
    rw [rollbackN]
    cases h : s.rollback with
    | none => exact List.Sublist.refl _
    | some s' => exact (view_sublist_rollbackN n s' k).trans (view_sublist_of_rollback h k)

theorem rollbackN_succ_of_rollback {s s' : Snapshots κ ν} (h : s.rollback = some s') (n : Nat) :
    s.rollbackN (n + 1) = s'.rollbackN n := by
  rw [rollbackN, h]

/-- Rolling back `n` of the open transactions forgets the `n` innermost levels. -/
theorem view_rollbackN : ∀ (n : Nat) (s : Snapshots κ ν) (k : κ), n ≤ s.depth →
    (s.rollbackN n).view k = (s.view k).drop n
  | 0, _, _, _ => rfl
  | n + 1, s, k, h => by
    obtain ⟨s', hs'⟩ : ∃ s', s.rollback = some s' :=
      Option.ne_none_iff_exists'.mp (by rw [ne_eq, rollback_eq_none_iff]; omega)
    have hdepth := depth_of_rollback hs'
    rw [rollbackN_succ_of_rollback hs', view_rollbackN n s' k (by omega), view_of_rollback hs',
      List.drop_tail]

theorem depth_rollbackN : ∀ (n : Nat) (s : Snapshots κ ν), (s.rollbackN n).depth = s.depth - n
  | 0, s => rfl
  | n + 1, s => by
    rw [rollbackN]
    cases h : s.rollback with
    | none =>
      rw [(rollback_eq_none_iff s).mp h]
      exact (Nat.zero_sub _).symm
    | some s' =>
      rw [depth_rollbackN n s', ← depth_of_rollback h]
      omega

end Snapshots
