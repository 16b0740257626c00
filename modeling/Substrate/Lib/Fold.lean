import Mathlib

/-! # Loops over lists

A `for` loop carrying a state is a `foldl`, or a `foldlM` in `Option` when its body can panic;
what it does is said one body at a time.
-/

namespace Fold

variable {σ α : Type}

/-- A loop that did not panic ran its first body without a panic. -/
theorem foldlM_cons_eq_some {step : σ → α → Option σ} {a : α} {l : List α} {s s'' : σ}
    (h : (a :: l).foldlM step s = some s'') :
    ∃ s', step s a = some s' ∧ l.foldlM step s' = some s'' := by
  rw [List.foldlM_cons] at h
  exact Option.bind_eq_some_iff.mp h

/-- A `map` in `Option` none of whose bodies panics returns what each body returns. -/
theorem mapM_eq_some_filterMap {β : Type} {f : α → Option β} :
    ∀ (l : List α), (∀ a ∈ l, (f a).isSome) → l.mapM f = some (l.filterMap f)
  | [], _ => rfl
  | a :: l, h => by
    obtain ⟨b, hb⟩ := Option.isSome_iff_exists.mp (h a List.mem_cons_self)
    rw [List.mapM_cons, hb, mapM_eq_some_filterMap l (fun a' ha' => h a' (List.mem_cons_of_mem a ha')),
      List.filterMap_cons_some hb]
    rfl

section Relation

variable {R : σ → σ → Prop} (hrefl : ∀ s, R s s) (htrans : ∀ s s' s'', R s s' → R s' s'' → R s s'')
include hrefl htrans

theorem foldl_rel {step : σ → α → σ} (hstep : ∀ s a, R s (step s a)) :
    ∀ (l : List α) (s : σ), R s (l.foldl step s)
  | [], s => hrefl s
  | a :: l, s => htrans _ _ _ (hstep s a) (foldl_rel hstep l (step s a))

theorem foldlM_rel {step : σ → α → Option σ} (hstep : ∀ s a s', step s a = some s' → R s s') :
    ∀ (l : List α) (s s' : σ), l.foldlM step s = some s' → R s s'
  | [], s, s', h => by
    rw [List.foldlM_nil] at h
    cases h
    exact hrefl s
  | a :: l, s, s'', h => by
    obtain ⟨s', hfirst, hrest⟩ := foldlM_cons_eq_some h
    exact htrans _ _ _ (hstep s a s' hfirst) (foldlM_rel hstep l s' s'' hrest)

end Relation

section Established

variable (P : σ → Prop) (Q : α → σ → Prop)

/-- A fact the body makes true at an element, from a state with the invariant `P`, and that every
later body keeps, holds at the end of the loop. -/
theorem foldl_mem {step : σ → α → σ} (hinv : ∀ s a, P s → P (step s a))
    (hmake : ∀ s a, P s → Q a (step s a)) (hkeep : ∀ s a b, Q b s → Q b (step s a)) :
    ∀ (l : List α) (s : σ), P s → ∀ b ∈ l, Q b (l.foldl step s)
  | [], _, _, b, hb => absurd hb List.not_mem_nil
  | a :: l, s, hs, b, hb => by
    rw [List.foldl_cons]
    rcases List.mem_cons.mp hb with rfl | hb
    · -- made by the first body, kept by the others
      exact foldl_rel (R := fun s s' => Q b s → Q b s') (fun _ h => h)
        (fun _ _ _ h h' hq => h' (h hq)) (fun s a hq => hkeep s a b hq) l _ (hmake s b hs)
    · exact foldl_mem hinv hmake hkeep l (step s a) (hinv s a hs) b hb

theorem foldlM_mem {step : σ → α → Option σ} (hinv : ∀ s a s', P s → step s a = some s' → P s')
    (hmake : ∀ s a s', P s → step s a = some s' → Q a s')
    (hkeep : ∀ s a s' b, Q b s → step s a = some s' → Q b s') :
    ∀ (l : List α) (s s' : σ), P s → l.foldlM step s = some s' → ∀ b ∈ l, Q b s'
  | [], _, _, _, _, b, hb => absurd hb List.not_mem_nil
  | a :: l, s, s'', hs, h, b, hb => by
    obtain ⟨s', hfirst, hrest⟩ := foldlM_cons_eq_some h
    rcases List.mem_cons.mp hb with rfl | hb
    · -- made by the first body, kept by the others
      exact foldlM_rel (R := fun s s' => Q b s → Q b s') (fun _ h => h)
        (fun _ _ _ h h' hq => h' (h hq)) (fun s a s' hstep hq => hkeep s a s' b hq hstep) l s' s''
        hrest (hmake s b s' hs hfirst)
    · exact foldlM_mem hinv hmake hkeep l s' s'' (hinv s a s' hs hfirst) hrest b hb

end Established

section Keyed

/-! A loop whose body at an element changes only what is seen at the element's key: over
elements with distinct keys, each key ends as its own body left it, and a key of no element
as it was. -/

variable {κ β : Type} (key : α → κ) (obs : σ → κ → β) {step : σ → α → Option σ}
  (hframe : ∀ s a s' k, step s a = some s' → k ≠ key a → obs s' k = obs s k)
include hframe

theorem foldlM_obs_of_not_mem : ∀ (l : List α) (s s' : σ), l.foldlM step s = some s' →
    ∀ k, k ∉ l.map key → obs s' k = obs s k
  | [], s, s', h, _, _ => by
    rw [List.foldlM_nil] at h
    cases h
    rfl
  | a :: l, s, s'', h, k, hk => by
    obtain ⟨s', hfirst, hrest⟩ := foldlM_cons_eq_some h
    rw [List.map_cons, List.mem_cons, not_or] at hk
    rw [foldlM_obs_of_not_mem l s' s'' hrest k hk.2, hframe s a s' k hfirst hk.1]

theorem foldlM_obs_of_mem (g : α → β → β)
    (hself : ∀ s a s', step s a = some s' → obs s' (key a) = g a (obs s (key a))) :
    ∀ (l : List α) (s s' : σ), (l.map key).Nodup → l.foldlM step s = some s' →
      ∀ a ∈ l, obs s' (key a) = g a (obs s (key a))
  | [], _, _, _, _, a, ha => absurd ha List.not_mem_nil
  | b :: l, s, s'', hnodup, h, a, ha => by
    obtain ⟨s', hfirst, hrest⟩ := foldlM_cons_eq_some h
    rw [List.map_cons, List.nodup_cons] at hnodup
    rcases List.mem_cons.mp ha with rfl | ha
    · -- set by the first body, and no later body has its key
      rw [foldlM_obs_of_not_mem key obs hframe l s' s'' hrest _ hnodup.1, hself s a s' hfirst]
    · have hne : key a ≠ key b := fun h => hnodup.1 (h ▸ List.mem_map_of_mem ha)
      rw [foldlM_obs_of_mem g hself l s' s'' hnodup.2 hrest a ha, hframe s b s' _ hfirst hne]

/-- The loop does not panic when no body panics at what its key sees, since no earlier body
changes that. -/
theorem foldlM_isSome (pre : α → β → Prop)
    (hstep : ∀ s a, pre a (obs s (key a)) → ∃ s', step s a = some s') :
    ∀ (l : List α) (s : σ), (l.map key).Nodup → (∀ a ∈ l, pre a (obs s (key a))) →
      ∃ s', l.foldlM step s = some s'
  | [], s, _, _ => ⟨s, rfl⟩
  | a :: l, s, hnodup, hpre => by
    rw [List.map_cons, List.nodup_cons] at hnodup
    obtain ⟨s', hfirst⟩ := hstep s a (hpre a List.mem_cons_self)
    have hrest : ∀ b ∈ l, pre b (obs s' (key b)) := by
      intro b hb
      have hne : key b ≠ key a := fun h => hnodup.1 (h ▸ List.mem_map_of_mem hb)
      rw [hframe s a s' _ hfirst hne]
      exact hpre b (List.mem_cons_of_mem a hb)
    obtain ⟨s'', hs''⟩ := foldlM_isSome pre hstep l s' hnodup.2 hrest
    refine ⟨s'', ?_⟩
    rw [List.foldlM_cons, hfirst]
    exact hs''

end Keyed

section Update

variable {κ ν : Type} [DecidableEq κ] (v : ν)

theorem foldl_update_of_not_mem {k : κ} :
    ∀ (l : List κ) (m : κ → ν), k ∉ l → (l.foldl (fun m t => Function.update m t v) m) k = m k
  | [], _, _ => rfl
  | t :: l, m, hk => by
    have hne : k ≠ t := fun h => hk (h ▸ List.mem_cons_self)
    rw [List.foldl_cons, foldl_update_of_not_mem l _ (fun h => hk (List.mem_cons_of_mem t h)),
      Function.update_of_ne hne]

theorem foldl_update_of_mem {k : κ} :
    ∀ (l : List κ) (m : κ → ν), k ∈ l → (l.foldl (fun m t => Function.update m t v) m) k = v
  | [], _, hk => absurd hk List.not_mem_nil
  | t :: l, m, hk => by
    rw [List.foldl_cons]
    by_cases hl : k ∈ l
    · exact foldl_update_of_mem l _ hl
    · -- the key is the first one, and no later one sets it again
      have hkt : k = t := by simpa [hl] using hk
      rw [foldl_update_of_not_mem v l _ hl, hkt, Function.update_self]

/-- A value read after a key was cleared was there before, under another key. -/
theorem update_none_eq_some {m : κ → Option ν} {k t : κ} {x : ν}
    (h : Function.update m k none t = some x) : m t = some x ∧ t ≠ k := by
  by_cases htk : t = k
  · subst htk
    rw [Function.update_self] at h
    cases h
  · rw [Function.update_of_ne htk] at h
    exact ⟨h, htk⟩

end Update

end Fold
