import Mathlib
import Substrate.TransactionPool.ReadySpec
import Substrate.TransactionPool.BasePool

/-! # What the base pool keeps

Every call keeps the pool well formed, and one returning normally reports every transaction it
took out. `import_to_ready` ending in `CycleDetected` reports none, as the source's test expects.
-/

namespace Substrate.TransactionPool

open Fold

namespace Imported

variable {Hash Tag : Type}

/-- The transactions an import reports as replaced in the ready queue. -/
def removed : Imported Hash Tag → List (Transaction Hash Tag)
  | .ready _ _ _ removed => removed
  | .future _ => []

/-- The hashes of the transactions an import failed to promote. -/
def failed : Imported Hash Tag → List Hash
  | .ready _ _ failed _ => failed
  | .future _ => []

end Imported

namespace BasePool

variable {Hash Tag : Type} [DecidableEq Hash] {pool pool' : BasePool Hash Tag}
  {w : WaitingTransaction Hash Tag} {future' : FutureTransactions Hash Tag} {t : Transaction Hash Tag}
  {became : List (WaitingTransaction Hash Tag)}

/-- A transaction is in the pool when it is ready or waiting under some hash. -/
def Contains (pool : BasePool Hash Tag) (t : Transaction Hash Tag) : Prop :=
  (∃ hash, pool.ready.txAt hash = some t) ∨ ∃ hash, pool.future.txAt hash = some t

def Reported (t : Transaction Hash Tag) (promoted : List (Imported Hash Tag)) : Prop :=
  ∃ imported ∈ promoted, t ∈ imported.removed ∨ t.hash ∈ imported.failed

omit [DecidableEq Hash] in
theorem Reported.append {promoted : List (Imported Hash Tag)}
    (h : Reported t promoted) (more : List (Imported Hash Tag)) : Reported t (promoted ++ more) := by
  obtain ⟨imported, hmem, hreported⟩ := h
  exact ⟨imported, List.mem_append_left _ hmem, hreported⟩

/-- The pool's invariant: both queues are well formed, no hash is both ready and waiting, and no
waiting transaction misses a tag that a ready transaction provides. -/
structure WellFormed (pool : BasePool Hash Tag) : Prop where
  ready : pool.ready.WellFormed
  future : pool.future.WellFormed
  disjoint : ∀ hash, pool.ready.txAt hash ≠ none → pool.future.waiting.lookup hash = none
  satisfied : ∀ hash t tag, pool.ready.txAt hash = some t → tag ∈ t.provides →
    ∀ other w, pool.future.waiting.lookup other = some w → tag ∉ w.missingTags

theorem new_wellFormed (rejectFutureTransactions : Bool) :
    (new rejectFutureTransactions : BasePool Hash Tag).WellFormed where
  ready := ReadyTransactions.empty_wellFormed
  future := FutureTransactions.empty_wellFormed
  disjoint _ _ := by simp [new, FutureTransactions.empty]
  satisfied _ _ _ h := by simp [new, ReadyTransactions.txAt, ReadyTransactions.empty] at h

/-- A pool whose queues only lost transactions, and are well formed, is well formed. -/
theorem WellFormed.of_shrinks (hwf : pool.WellFormed)
    (hready : pool.ready.Shrinks pool'.ready) (hfuture : pool.future.Shrinks pool'.future)
    (hrwf : pool'.ready.WellFormed) (hfwf : pool'.future.WellFormed) : pool'.WellFormed := by
  refine ⟨hrwf, hfwf, ?_, ?_⟩
  · intro hash hsome
    refine hfuture.lookup_eq_none (hwf.disjoint hash fun hnone => hsome ?_)
    exact hready.txAt_eq_none hnone
  · intro hash t tag ht htag other w' hw' hmissing
    obtain ⟨w, hw, -, hsub⟩ := hfuture other w' hw'
    exact hwf.satisfied hash t tag (hready hash t ht) htag other w hw (hsub tag hmissing)

theorem contains_of_lookup {hash : Hash}
    (h : pool.future.waiting.lookup hash = some w) :
    pool.Contains w.transaction :=
  .inr ⟨hash, by simp [FutureTransactions.txAt, h]⟩

/-! ## `remove_subtree` -/

/-- What removals do between two pools and the removed list: the pool stays well formed, the list
only grows, and every transaction is still there or in the list. -/
def RemovesFrom (s s' : BasePool Hash Tag × List (Transaction Hash Tag)) : Prop :=
  s.1.WellFormed → s'.1.WellFormed ∧ (∀ t ∈ s.2, t ∈ s'.2) ∧
    ∀ t, s.1.Contains t → s'.1.Contains t ∨ t ∈ s'.2

theorem RemovesFrom.refl (s : BasePool Hash Tag × List (Transaction Hash Tag)) : RemovesFrom s s :=
  fun hwf => ⟨hwf, fun _ h => h, fun _ h => .inl h⟩

theorem RemovesFrom.trans {s s' s'' : BasePool Hash Tag × List (Transaction Hash Tag)}
    (h : RemovesFrom s s') (h' : RemovesFrom s' s'') : RemovesFrom s s'' := by
  intro hwf
  obtain ⟨hwf', hgrow, hkeep⟩ := h hwf
  obtain ⟨hwf'', hgrow', hkeep'⟩ := h' hwf'
  refine ⟨hwf'', fun t ht => hgrow' t (hgrow t ht), fun t ht => ?_⟩
  rcases hkeep t ht with ht' | hmem
  · exact hkeep' t ht'
  · exact .inr (hgrow' t hmem)

variable [DecidableEq Tag]

/-- `remove_subtree` removes from both queues into the list it returns. -/
theorem removeSubtree_removesFrom (pool : BasePool Hash Tag) (hashes : List Hash)
    (removed : List (Transaction Hash Tag)) :
    RemovesFrom (pool, removed) ((pool.removeSubtree hashes).1, removed ++ (pool.removeSubtree hashes).2) := by
  intro hwf
  have hready := ReadyTransactions.removeSubtreeWithTagFilter_removes none pool.ready hashes
  have hfuture := FutureTransactions.remove_spec pool.future hashes
  refine ⟨hwf.of_shrinks hready.shrinks (FutureTransactions.remove_shrinks _ _)
      (ReadyTransactions.removeSubtreeWithTagFilter_wellFormed none _ _ hwf.ready)
      (FutureTransactions.remove_wellFormed hwf.future _),
    fun t ht => List.mem_append_left _ ht, ?_⟩
  intro t ht
  rcases ht with ⟨hash, ht⟩ | ⟨hash, ht⟩
  · rcases hready.keeps hash t ht with ht' | hmem
    · exact .inl (.inl ⟨hash, ht'⟩)
    · exact .inr (List.mem_append_right _ (List.mem_append_left _ hmem))
  · obtain ⟨w, hw, rfl⟩ := Option.map_eq_some_iff.mp ht
    rcases hfuture.keeps hash w hw with hw' | hmem
    · exact .inl (contains_of_lookup hw')
    · exact .inr (List.mem_append_right _ (List.mem_append_right _ hmem))

theorem removeSubtree_wellFormed (hwf : pool.WellFormed)
    (hashes : List Hash) : (pool.removeSubtree hashes).1.WellFormed :=
  (removeSubtree_removesFrom pool hashes [] hwf).1

theorem removeSubtree_keeps (pool : BasePool Hash Tag) (hashes : List Hash) (hwf : pool.WellFormed)
    (ht : pool.Contains t) :
    (pool.removeSubtree hashes).1.Contains t ∨ t ∈ (pool.removeSubtree hashes).2 := by
  simpa using (removeSubtree_removesFrom pool hashes [] hwf).2.2 t ht

/-! ## `import_to_ready` -/

/-- A round of `import_to_ready` that imported its transaction keeps the pool well formed: what it
provides is no longer missed in the future queue. -/
theorem WellFormed.importRound
    {ready' : ReadyTransactions Hash Tag} {replaced : List (Transaction Hash Tag)}
    (hwf : pool.WellFormed) (hfresh : pool.future.waiting.lookup w.transaction.hash = none)
    (hsat : pool.future.satisfyTags w.transaction.provides = some (future', became))
    (himport : pool.ready.import w = some (ready', .ok replaced)) :
    ({ pool with future := future', ready := ready' } : BasePool Hash Tag).WellFormed := by
  obtain ⟨hfwf, hshrinks, hprovided, -, -⟩ := FutureTransactions.satisfyTags_spec hwf.future hsat
  obtain ⟨-, -, -, hnew, hrwf⟩ := ReadyTransactions.import_ok_spec himport
  refine ⟨hrwf hwf.ready, hfwf, ?_, ?_⟩
  · intro hash hsome
    obtain ⟨t, ht⟩ := Option.ne_none_iff_exists'.mp hsome
    rcases hnew hash t ht with hold | ⟨rfl, -⟩
    · exact hshrinks.lookup_eq_none (hwf.disjoint hash (by simp [hold]))
    · exact hshrinks.lookup_eq_none hfresh
  · intro hash t tag ht htag other w' hw'
    rcases hnew hash t ht with hold | ⟨-, rfl⟩
    · obtain ⟨w₀, hw₀, -, hsub⟩ := hshrinks other w' hw'
      exact fun hmissing => hwf.satisfied hash t tag hold htag other w₀ hw₀ (hsub tag hmissing)
    · exact hprovided tag htag other w' hw'

/-- Promoting from the future queue while the ready queue keeps its transactions keeps the pool
well formed. -/
theorem WellFormed.satisfyRound {tags : List Tag}
    {ready' : ReadyTransactions Hash Tag} (hwf : pool.WellFormed)
    (hsat : pool.future.satisfyTags tags = some (future', became))
    (hready : pool.ready.Shrinks ready') (hrwf : ready'.WellFormed) :
    ({ pool with future := future', ready := ready' } : BasePool Hash Tag).WellFormed :=
  hwf.of_shrinks hready (FutureTransactions.satisfyTags_spec hwf.future hsat).2.1 hrwf
    (FutureTransactions.satisfyTags_spec hwf.future hsat).1

/-- What the rounds of `import_to_ready` end in: the lists only grow, and every transaction of the
pool or stack is in the pool or reported replaced or failed. -/
structure Promotes (pool : BasePool Hash Tag) (stack : List (WaitingTransaction Hash Tag))
    (acc : Promotion Hash Tag) (pool' : BasePool Hash Tag) (acc' : Promotion Hash Tag) : Prop where
  keeps : ∀ t, pool.Contains t ∨ (∃ w ∈ stack, w.transaction = t) →
    pool'.Contains t ∨ t ∈ acc'.removed ∨ t.hash ∈ acc'.failed
  removed : ∀ t ∈ acc.removed, t ∈ acc'.removed
  failed : ∀ hash ∈ acc.failed, hash ∈ acc'.failed

namespace Promotes

omit [DecidableEq Tag] in
theorem nil (pool : BasePool Hash Tag) (acc : Promotion Hash Tag) : Promotes pool [] acc pool acc where
  keeps t ht := by
    rcases ht with ht | ⟨w, hw, -⟩
    · exact .inl ht
    · cases hw
  removed _ h := h
  failed _ h := h

omit [DecidableEq Tag] in
/-- A round that leaves each transaction in the pool, on the stack or in the lists, followed by
the rest of the run. -/
theorem round {pool pool₁ pool' : BasePool Hash Tag} {stack stack₁ : List (WaitingTransaction Hash Tag)}
    {acc acc₁ acc' : Promotion Hash Tag}
    (hround : ∀ t, pool.Contains t ∨ (∃ w ∈ stack, w.transaction = t) →
      pool₁.Contains t ∨ (∃ w ∈ stack₁, w.transaction = t) ∨ t ∈ acc₁.removed ∨ t.hash ∈ acc₁.failed)
    (hremoved : ∀ t ∈ acc.removed, t ∈ acc₁.removed) (hfailed : ∀ hash ∈ acc.failed, hash ∈ acc₁.failed)
    (hrest : Promotes pool₁ stack₁ acc₁ pool' acc') : Promotes pool stack acc pool' acc' where
  keeps t ht := by
    rcases hround t ht with ht₁ | ht₁ | hmem | hmem
    · exact hrest.keeps t (.inl ht₁)
    · exact hrest.keeps t (.inr ht₁)
    · exact .inr (.inl (hrest.removed t hmem))
    · exact .inr (.inr (hrest.failed _ hmem))
  removed t ht := hrest.removed t (hremoved t ht)
  failed hash h := hrest.failed hash (hfailed hash h)

end Promotes

/-- Popping a transaction and promoting what it unlocks keeps every transaction of the pool and
of the stack, in the future queue, on the new stack, or as the popped one. -/
theorem satisfyRound_keeps {rest : List (WaitingTransaction Hash Tag)}
    (hwf : pool.WellFormed)
    (hsat : pool.future.satisfyTags w.transaction.provides = some (future', became))
    (ht : pool.Contains t ∨ ∃ w' ∈ w :: rest, w'.transaction = t) :
    (∃ hash, pool.ready.txAt hash = some t) ∨ (∃ hash, future'.txAt hash = some t) ∨
      (∃ w' ∈ became.reverse ++ rest, w'.transaction = t) ∨ t = w.transaction := by
  rcases ht with (hready | ⟨hash, hfuture⟩) | ⟨w', hw', rfl⟩
  · exact .inl hready
  · rcases FutureTransactions.satisfyTags_keeps hwf.future hsat hfuture with hfuture' | ⟨w', hw', hwt⟩
    · exact .inr (.inl ⟨hash, hfuture'⟩)
    · exact .inr (.inr (.inl ⟨w', List.mem_append_left _ (List.mem_reverse.mpr hw'), hwt⟩))
  · rcases List.mem_cons.mp hw' with rfl | hrest
    · exact .inr (.inr (.inr rfl))
    · exact .inr (.inr (.inl ⟨w', List.mem_append_right _ hrest, rfl⟩))

/-- With enough fuel, the rounds of `import_to_ready` from a well-formed pool keep it well formed,
shrink the future queue, and lose no transaction. -/
theorem importToReadyLoop_spec :
    ∀ (fuel : Nat) (stack : List (WaitingTransaction Hash Tag)) (first : Bool)
      (pool pool' : BasePool Hash Tag) (acc : Promotion Hash Tag)
      (result : Except Error (Promotion Hash Tag)),
      importToReadyLoop fuel stack first pool acc = some (pool', result) → pool.WellFormed →
      (∀ w ∈ stack, pool.future.waiting.lookup w.transaction.hash = none) →
      stack.length + pool.future.len ≤ fuel →
      pool'.WellFormed ∧ pool.future.Shrinks pool'.future ∧
        ∀ acc', result = .ok acc' → Promotes pool stack acc pool' acc'
  | 0, stack, _, pool, pool', acc, result, h, hwf, _, hfuel => by
    -- no fuel is left only when the stack is empty
    have hnil : stack = [] := List.eq_nil_of_length_eq_zero (by omega)
    subst hnil
    cases h
    refine ⟨hwf, .refl _, fun acc' hacc => ?_⟩
    cases hacc
    exact Promotes.nil pool acc
  | _ + 1, [], _, pool, pool', acc, result, h, hwf, _, _ => by
    cases h
    refine ⟨hwf, .refl _, fun acc' hacc => ?_⟩
    cases hacc
    exact Promotes.nil pool acc
  | fuel + 1, w :: rest, first, pool, pool', acc, result, h, hwf, hfresh, hfuel => by
    rw [importToReadyLoop] at h
    cases hsat : pool.future.satisfyTags w.transaction.provides with
    | none =>
      rw [hsat] at h
      cases h
    | some s =>
      obtain ⟨future', became⟩ := s
      rw [hsat] at h
      dsimp only at h
      have hlen := FutureTransactions.satisfyTags_len hsat
      have hshrinks := (FutureTransactions.satisfyTags_spec hwf.future hsat).2.1
      -- the new stack: what became ready, waiting nowhere, and the rest of the old one
      have hfresh' : ∀ w' ∈ became.reverse ++ rest, future'.waiting.lookup w'.transaction.hash = none := by
        intro w' hw'
        rcases List.mem_append.mp hw' with hbecame | hrest
        · exact FutureTransactions.satisfyTags_fresh hwf.future hsat w' (List.mem_reverse.mp hbecame)
        · exact hshrinks.lookup_eq_none (hfresh w' (List.mem_cons_of_mem w hrest))
      have hfuel' : (became.reverse ++ rest).length + future'.len ≤ fuel := by
        simp only [List.length_append, List.length_reverse, List.length_cons] at hfuel ⊢
        omega
      cases himport : pool.ready.import w with
      | none =>
        rw [himport] at h
        cases h
      | some r =>
        obtain ⟨ready', result'⟩ := r
        rw [himport] at h
        cases result' with
        | ok replaced =>
          have hwf₁ := hwf.importRound (hfresh w List.mem_cons_self) hsat himport
          obtain ⟨hwf', hshrinks', hpromotes⟩ :=
            importToReadyLoop_spec fuel _ false _ pool' _ result h hwf₁ hfresh' hfuel'
          refine ⟨hwf', hshrinks.trans hshrinks', fun acc' hacc => ?_⟩
          obtain ⟨-, himported, hkeeps, -, -⟩ := ReadyTransactions.import_ok_spec himport
          refine Promotes.round ?_ ?_ ?_ (hpromotes acc' hacc)
          · intro t ht
            rcases satisfyRound_keeps hwf hsat ht with ⟨hash, hready⟩ | hfuture | hstack | rfl
            · rcases hkeeps hash t hready with hready' | hreplaced
              · exact .inl (.inl ⟨hash, hready'⟩)
              · exact .inr (.inr (.inl (List.mem_append_right _ hreplaced)))
            · exact .inl (.inr hfuture)
            · exact .inr (.inl hstack)
            · exact .inl (.inl ⟨_, himported⟩)
          · exact fun t ht => List.mem_append_left _ ht
          · exact fun _ h => h
        | error e =>
          -- the ready queue keeps its transactions
          have hready := ReadyTransactions.import_eq_error himport
          subst hready
          have hwf₁ : BasePool.WellFormed
              { pool with
                future := future'
                ready := { pool.ready with insertionId := pool.ready.insertionId + 1 } } :=
            hwf.satisfyRound hsat (fun _ _ ht => ht) (hwf.ready.of_eq (fun _ => rfl) rfl)
          cases first with
          | true =>
            cases h
            exact ⟨hwf₁, hshrinks, fun acc' hacc => by cases hacc⟩
          | false =>
            obtain ⟨hwf', hshrinks', hpromotes⟩ :=
              importToReadyLoop_spec fuel _ false _ pool' _ result h hwf₁ hfresh' hfuel'
            refine ⟨hwf', hshrinks.trans hshrinks', fun acc' hacc => ?_⟩
            refine Promotes.round ?_ ?_ ?_ (hpromotes acc' hacc)
            · intro t ht
              rcases satisfyRound_keeps hwf hsat ht with hready | hfuture | hstack | rfl
              · exact .inl (.inl hready)
              · exact .inl (.inr hfuture)
              · exact .inr (.inl hstack)
              · exact .inr (.inr (.inr (List.mem_append_right _ (List.mem_singleton_self _))))
            · exact fun _ h => h
            · exact fun _ h => List.mem_append_left _ h

/-- The rounds of `import_to_ready` fail only at the first transaction, because its priority is
too low, and then leave the ready queue's transactions as they were. -/
theorem importToReadyLoop_eq_error :
    ∀ (fuel : Nat) (stack : List (WaitingTransaction Hash Tag)) (first : Bool)
      (pool pool' : BasePool Hash Tag) (acc : Promotion Hash Tag) (e : Error),
      importToReadyLoop fuel stack first pool acc = some (pool', .error e) →
      first = true ∧ (∃ w ∈ stack, ∃ old, e = .tooLowPriority old w.transaction.priority) ∧
        ∀ hash, pool'.ready.txAt hash = pool.ready.txAt hash
  | 0, _, _, _, _, _, _, h => by cases h
  | _ + 1, [], _, _, _, _, _, h => by cases h
  | fuel + 1, w :: rest, first, pool, pool', acc, e, h => by
    rw [importToReadyLoop] at h
    cases hsat : pool.future.satisfyTags w.transaction.provides with
    | none =>
      rw [hsat] at h
      cases h
    | some s =>
      rw [hsat] at h
      dsimp only at h
      cases himport : pool.ready.import w with
      | none =>
        rw [himport] at h
        cases h
      | some r =>
        obtain ⟨ready', result'⟩ := r
        rw [himport] at h
        cases result' with
        | ok replaced =>
          -- the later rounds run with `first` false and cannot fail
          cases (importToReadyLoop_eq_error fuel _ false _ pool' _ e h).1
        | error e' =>
          cases first with
          | true =>
            simp only [if_true, Option.some.injEq, Prod.mk.injEq, Except.error.injEq] at h
            obtain ⟨rfl, rfl⟩ := h
            have hready := ReadyTransactions.import_eq_error himport
            subst hready
            exact ⟨rfl, ⟨w, List.mem_cons_self,
              ReadyTransactions.import_eq_error_tooLowPriority himport⟩, fun _ => rfl⟩
          | false => cases (importToReadyLoop_eq_error fuel _ false _ pool' _ e h).1

/-- From a well-formed pool, `import_to_ready` keeps it well formed and shrinks the future queue; on
success every transaction is in the pool or reported; its errors leave the ready queue. -/
theorem importToReady_spec
    {result : Except Error (Imported Hash Tag)} (h : pool.importToReady w = some (pool', result))
    (hwf : pool.WellFormed) (hfresh : pool.future.waiting.lookup w.transaction.hash = none) :
    pool'.WellFormed ∧ pool.future.Shrinks pool'.future ∧
      (∀ imported, result = .ok imported → ∀ t, pool.Contains t ∨ t = w.transaction →
        pool'.Contains t ∨ t ∈ imported.removed ∨ t.hash ∈ imported.failed) ∧
      ∀ e, result = .error e → e = .cycleDetected ∨
        (∃ old, e = .tooLowPriority old w.transaction.priority) ∧
          ∀ hash, pool'.ready.txAt hash = pool.ready.txAt hash := by
  rw [importToReady] at h
  have hstack : ∀ w' ∈ [w], pool.future.waiting.lookup w'.transaction.hash = none := by
    intro w' hw'
    rw [List.mem_singleton.mp hw']
    exact hfresh
  have hfuel : [w].length + pool.future.len ≤ pool.future.len + 1 := by
    simp only [List.length_singleton]
    omega
  cases hloop : importToReadyLoop (pool.future.len + 1) [w] true pool ⟨[], [], []⟩ with
  | none =>
    rw [hloop] at h
    cases h
  | some r =>
    obtain ⟨pool₁, result₁⟩ := r
    rw [hloop] at h
    obtain ⟨hwf₁, hshrinks, hpromotes⟩ := importToReadyLoop_spec _ _ _ _ _ _ _ hloop hwf hstack hfuel
    cases result₁ with
    | error e =>
      simp only [Option.some.injEq, Prod.mk.injEq] at h
      obtain ⟨rfl, rfl⟩ := h
      obtain ⟨-, ⟨w', hw', hkind⟩, hready⟩ := importToReadyLoop_eq_error _ _ _ _ _ _ _ hloop
      rw [List.mem_singleton.mp hw'] at hkind
      refine ⟨hwf₁, hshrinks, fun _ himported => (by cases himported), ?_⟩
      intro e' he'
      cases he'
      exact .inr ⟨hkind, hready⟩
    | ok acc =>
      dsimp only at h
      have hkeeps : ∀ t, pool.Contains t ∨ t = w.transaction →
          pool₁.Contains t ∨ t ∈ acc.removed ∨ t.hash ∈ acc.failed := by
        intro t ht
        refine (hpromotes acc rfl).keeps t ?_
        rcases ht with hpool | rfl
        · exact .inl hpool
        · exact .inr ⟨w, List.mem_singleton_self _, rfl⟩
      by_cases hcycle : (acc.removed.any fun removed => removed.hash = w.transaction.hash) = true
      · -- the cycle: the promoted transactions leave the ready queue again
        rw [if_pos hcycle] at h
        simp only [Option.some.injEq, Prod.mk.injEq] at h
        obtain ⟨rfl, rfl⟩ := h
        have hremoves := ReadyTransactions.removeSubtreeWithTagFilter_removes none pool₁.ready acc.promoted
        refine ⟨hwf₁.of_shrinks hremoves.shrinks (.refl _)
            (ReadyTransactions.removeSubtreeWithTagFilter_wellFormed _ _ _ hwf₁.ready) hwf₁.future,
          hshrinks, fun _ himported => (by cases himported), ?_⟩
        intro e he
        cases he
        exact .inl rfl
      · rw [if_neg hcycle] at h
        simp only [Option.some.injEq, Prod.mk.injEq] at h
        obtain ⟨rfl, rfl⟩ := h
        refine ⟨hwf₁, hshrinks, ?_, fun _ he => by cases he⟩
        intro imported himported
        cases himported
        exact hkeeps

/-! ## `import` -/

/-- Putting a transaction into the future queue keeps the pool well formed when it is not ready and
misses no tag that a ready transaction provides. -/
theorem WellFormed.importFuture (hwf : pool.WellFormed)
    (hready : pool.ready.txAt w.transaction.hash = none)
    (hprovided : ∀ tag ∈ w.missingTags, pool.ready.providedTags tag = none)
    (h : pool.future.import w = some future') :
    ({ pool with future := future' } : BasePool Hash Tag).WellFormed := by
  have hlookup := FutureTransactions.import_lookup h
  refine ⟨hwf.ready, FutureTransactions.import_wellFormed hwf.future h, ?_, ?_⟩
  · intro hash hsome
    show future'.waiting.lookup hash = none
    rw [hlookup, if_neg]
    · exact hwf.disjoint hash hsome
    · rintro rfl
      exact hsome hready
  · intro hash t tag ht htag other w' hw'
    change future'.waiting.lookup other = some w' at hw'
    rw [hlookup] at hw'
    split at hw'
    · -- the new transaction misses only tags that no ready transaction provides
      cases hw'
      intro hmissing
      have hmapped := hwf.ready.provides hash t ht tag htag
      rw [hprovided tag hmissing] at hmapped
      cases hmapped
    · exact hwf.satisfied hash t tag ht htag other w' hw'

/-- `import` keeps the pool well formed and on success keeps or reports every transaction;
`AlreadyImported` and `RejectedFutureTransaction` change nothing; other errors but `CycleDetected`
keep the ready queue. -/
theorem import_spec {tx : Transaction Hash Tag} {now : Nat}
    {result : Except Error (Imported Hash Tag)} (h : pool.import tx now = some (pool', result))
    (hwf : pool.WellFormed) :
    pool'.WellFormed ∧
      (∀ imported, result = .ok imported → ∀ t, pool.Contains t →
        pool'.Contains t ∨ t ∈ imported.removed ∨ t.hash ∈ imported.failed) ∧
      (result = .error .alreadyImported ∨ result = .error .rejectedFutureTransaction → pool' = pool) ∧
      ∀ e, result = .error e → e ≠ .cycleDetected →
        ∀ hash, pool'.ready.txAt hash = pool.ready.txAt hash := by
  rw [«import»] at h
  by_cases himported : pool.isImported tx.hash = true
  · rw [if_pos himported] at h
    simp only [Option.some.injEq, Prod.mk.injEq] at h
    obtain ⟨rfl, rfl⟩ := h
    exact ⟨hwf, fun _ he => (by cases he), fun _ => rfl, fun _ _ _ _ => rfl⟩
  rw [if_neg himported] at h
  dsimp only at h
  -- the transaction is neither waiting nor ready
  simp only [isImported, Bool.or_eq_true, decide_eq_true_eq, not_or] at himported
  obtain ⟨hnotwaiting, hnotready⟩ := himported
  set w := WaitingTransaction.new tx pool.ready.providedTags (List.ofFn pool.recentlyPruned) now
  have hfresh : pool.future.waiting.lookup w.transaction.hash = none :=
    AList.lookup_eq_none.mpr hnotwaiting
  by_cases hwaits : (!w.isReady) = true
  · rw [if_pos hwaits] at h
    by_cases hreject : pool.rejectFutureTransactions = true
    · rw [if_pos hreject] at h
      simp only [Option.some.injEq, Prod.mk.injEq] at h
      obtain ⟨rfl, rfl⟩ := h
      exact ⟨hwf, fun _ he => (by cases he), fun _ => rfl, fun _ _ _ _ => rfl⟩
    rw [if_neg hreject] at h
    obtain ⟨future', hfuture, hpool⟩ := Option.map_eq_some_iff.mp h
    simp only [Prod.mk.injEq] at hpool
    obtain ⟨rfl, rfl⟩ := hpool
    have hprovided : ∀ tag ∈ w.missingTags, pool.ready.providedTags tag = none := by
      intro tag hmissing
      by_contra hsome
      exact WaitingTransaction.new_not_missing hsome hmissing
    refine ⟨hwf.importFuture (ReadyTransactions.txAt_eq_none.mpr (AList.lookup_eq_none.mpr hnotready))
        hprovided hfuture, ?_, fun hresult => (by rcases hresult with he | he <;> cases he),
      fun _ he => (by cases he)⟩
    intro imported _ t ht
    -- the transactions that were waiting keep their hashes
    have hlookup := FutureTransactions.import_lookup hfuture
    refine .inl ?_
    rcases ht with hready | ⟨hash, hwaiting⟩
    · exact .inl hready
    · refine .inr ⟨hash, ?_⟩
      have hne : hash ≠ w.transaction.hash := by
        rintro rfl
        rw [FutureTransactions.txAt, hfresh] at hwaiting
        cases hwaiting
      show (future'.waiting.lookup hash).map _ = some t
      rw [hlookup, if_neg hne]
      exact hwaiting
  · rw [if_neg hwaits] at h
    obtain ⟨hwf', -, hkeeps, herror⟩ := importToReady_spec h hwf hfresh
    refine ⟨hwf', fun imported himported t ht => hkeeps imported himported t (.inl ht), ?_, ?_⟩
    · -- `import_to_ready` fails only with `CycleDetected` or `TooLowPriority`
      intro hresult
      rcases hresult with he | he
      · rcases herror _ he with hcycle | ⟨⟨_, hkind⟩, -⟩
        · cases hcycle
        · cases hkind
      · rcases herror _ he with hcycle | ⟨⟨_, hkind⟩, -⟩
        · cases hcycle
        · cases hkind
    · intro e he hne
      rcases herror e he with hcycle | ⟨-, hready⟩
      · exact absurd hcycle hne
      · exact hready

/-! ## `prune_tags` -/

/-- The loop of `prune_tags` over the tags keeps the pool well formed and every transaction in the
pool, to promote, or pruned. -/
theorem pruneTagsEach_spec (slot : Fin recentlyPrunedTags) :
    ∀ (tags : List Tag) (pool pool' : BasePool Hash Tag)
      (toImport toImport' : List (WaitingTransaction Hash Tag))
      (pruned pruned' : List (Transaction Hash Tag)),
      pruneTagsEach slot tags pool toImport pruned = some (pool', toImport', pruned') →
      pool.WellFormed → (∀ w ∈ toImport, pool.future.waiting.lookup w.transaction.hash = none) →
      pool'.WellFormed ∧ (∀ w ∈ toImport', pool'.future.waiting.lookup w.transaction.hash = none) ∧
        (∀ t ∈ pruned, t ∈ pruned') ∧
        ∀ t, pool.Contains t ∨ (∃ w ∈ toImport, w.transaction = t) →
          pool'.Contains t ∨ (∃ w ∈ toImport', w.transaction = t) ∨ t ∈ pruned'
  | [], pool, pool', toImport, toImport', pruned, pruned', h, hwf, hfresh => by
    cases h
    exact ⟨hwf, hfresh, fun _ h => h, fun t ht => by
      rcases ht with ht | ht
      · exact .inl ht
      · exact .inr (.inl ht)⟩
  | tag :: rest, pool, pool', toImport, toImport', pruned, pruned', h, hwf, hfresh => by
    rw [pruneTagsEach] at h
    cases hsat : pool.future.satisfyTags [tag] with
    | none =>
      rw [hsat] at h
      cases h
    | some s =>
      obtain ⟨future', became⟩ := s
      rw [hsat] at h
      dsimp only at h
      cases hprune : pool.ready.pruneTags tag with
      | none =>
        rw [hprune] at h
        cases h
      | some r =>
        obtain ⟨ready', removed⟩ := r
        rw [hprune] at h
        dsimp only at h
        obtain ⟨hremoves, hrwf⟩ := ReadyTransactions.pruneTags_spec pool.ready tag hprune
        have hshrinks := (FutureTransactions.satisfyTags_spec hwf.future hsat).2.1
        have hfresh' : ∀ w ∈ toImport ++ became, future'.waiting.lookup w.transaction.hash = none := by
          intro w hw
          rcases List.mem_append.mp hw with hold | hbecame
          · exact hshrinks.lookup_eq_none (hfresh w hold)
          · exact FutureTransactions.satisfyTags_fresh hwf.future hsat w hbecame
        obtain ⟨hwf', hfresh'', hgrows, hkeeps⟩ := pruneTagsEach_spec slot rest _ pool' _ toImport' _
          pruned' h (hwf.of_shrinks hremoves.shrinks hshrinks (hrwf hwf.ready)
            (FutureTransactions.satisfyTags_spec hwf.future hsat).1) hfresh'
        refine ⟨hwf', hfresh'', fun t ht => hgrows t (List.mem_append_left _ ht), ?_⟩
        -- after this tag: still in the pool, to promote, or pruned
        intro t ht
        rcases ht with (⟨hash, hready⟩ | ⟨hash, hfuture⟩) | ⟨w, hw, rfl⟩
        · rcases hremoves.keeps hash t hready with hready' | hpruned
          · exact hkeeps t (.inl (.inl ⟨hash, hready'⟩))
          · exact .inr (.inr (hgrows t (List.mem_append_right _ hpruned)))
        · rcases FutureTransactions.satisfyTags_keeps hwf.future hsat hfuture with
            hfuture' | ⟨w, hw, hwt⟩
          · exact hkeeps t (.inl (.inr ⟨hash, hfuture'⟩))
          · exact hkeeps t (.inr ⟨w, List.mem_append_right _ hw, hwt⟩)
        · exact hkeeps _ (.inr ⟨w, List.mem_append_left _ hw, rfl⟩)

/-- The loop of `prune_tags` over the transactions to promote keeps the pool well formed; when the
failed list did not grow, every transaction is in the pool or reported. -/
theorem promoteEach_spec :
    ∀ (toImport : List (WaitingTransaction Hash Tag)) (pool pool' : BasePool Hash Tag)
      (promoted promoted' : List (Imported Hash Tag)) (failed failed' : List Hash),
      promoteEach toImport pool promoted failed = some (pool', promoted', failed') →
      pool.WellFormed → (∀ w ∈ toImport, pool.future.waiting.lookup w.transaction.hash = none) →
      pool'.WellFormed ∧ failed.length ≤ failed'.length ∧
        (failed' = failed → ∀ t, pool.Contains t ∨ (∃ w ∈ toImport, w.transaction = t) ∨
          Reported t promoted → pool'.Contains t ∨ Reported t promoted')
  | [], pool, pool', promoted, promoted', failed, failed', h, hwf, _ => by
    cases h
    refine ⟨hwf, le_rfl, fun _ t ht => ?_⟩
    rcases ht with ht | ⟨w, hw, -⟩ | ht
    · exact .inl ht
    · cases hw
    · exact .inr ht
  | w :: rest, pool, pool', promoted, promoted', failed, failed', h, hwf, hfresh => by
    rw [promoteEach] at h
    cases himport : pool.importToReady w with
    | none =>
      rw [himport] at h
      cases h
    | some r =>
      obtain ⟨pool₁, result⟩ := r
      rw [himport] at h
      obtain ⟨hwf₁, hshrinks, hkeeps, -⟩ :=
        importToReady_spec himport hwf (hfresh w List.mem_cons_self)
      have hfresh' : ∀ w' ∈ rest, pool₁.future.waiting.lookup w'.transaction.hash = none :=
        fun w' hw' => hshrinks.lookup_eq_none (hfresh w' (List.mem_cons_of_mem w hw'))
      cases result with
      | ok imported =>
        obtain ⟨hwf', hlen, hrest⟩ := promoteEach_spec rest _ pool' _ promoted' _ failed' h hwf₁ hfresh'
        refine ⟨hwf', hlen, fun hsame t ht => hrest hsame t ?_⟩
        -- the promoted transaction and those it replaced are reported by its result
        have hreported : ∀ t, pool.Contains t ∨ t = w.transaction →
            pool₁.Contains t ∨ Reported t (promoted ++ [imported]) := by
          intro t ht
          rcases hkeeps imported rfl t ht with hpool | hreported
          · exact .inl hpool
          · exact .inr ⟨imported, List.mem_append_right _ (List.mem_singleton_self _), hreported⟩
        rcases ht with ht | ⟨w', hw', rfl⟩ | ht
        · rcases hreported t (.inl ht) with hpool | hreported
          · exact .inl hpool
          · exact .inr (.inr hreported)
        · rcases List.mem_cons.mp hw' with rfl | hrest'
          · rcases hreported _ (.inr rfl) with hpool | hreported
            · exact .inl hpool
            · exact .inr (.inr hreported)
          · exact .inr (.inl ⟨w', hrest', rfl⟩)
        · exact .inr (.inr (ht.append _))
      | error e =>
        -- the failed hash makes the failed list longer
        obtain ⟨hwf', hlen, -⟩ := promoteEach_spec rest _ pool' _ promoted' _ failed' h hwf₁ hfresh'
        simp only [List.length_append, List.length_singleton] at hlen
        refine ⟨hwf', by omega, fun hsame => ?_⟩
        rw [hsame] at hlen
        omega

/-- `prune_tags` keeps a pool well formed, and when no promotion failed every transaction is in it,
pruned, or reported by a promotion. -/
theorem pruneTags_keeps {tags : List Tag}
    {status : PruneStatus Hash Tag} (h : pool.pruneTags tags = some (pool', status))
    (hwf : pool.WellFormed) :
    pool'.WellFormed ∧ (status.failed = [] → ∀ t, pool.Contains t →
      pool'.Contains t ∨ t ∈ status.pruned ∨ Reported t status.promoted) := by
  rw [pruneTags] at h
  cases hloop : pruneTagsEach pool.recentlyPrunedIndex tags
      { pool with
        recentlyPrunedIndex := ⟨(pool.recentlyPrunedIndex.val + 1) % recentlyPrunedTags,
          Nat.mod_lt _ (by decide)⟩
        recentlyPruned := Function.update pool.recentlyPruned pool.recentlyPrunedIndex [] } [] [] with
  | none =>
    rw [hloop] at h
    cases h
  | some r =>
    obtain ⟨pool₁, toImport, pruned⟩ := r
    rw [hloop] at h
    dsimp only at h
    obtain ⟨result, hpromote, hstatus⟩ := Option.map_eq_some_iff.mp h
    obtain ⟨pool₂, promoted, failed⟩ := result
    simp only [Prod.mk.injEq] at hstatus
    obtain ⟨rfl, rfl⟩ := hstatus
    -- clearing the slot of the recently pruned tags changes neither queue
    obtain ⟨hwf₁, hfresh, -, hkeeps⟩ :=
      pruneTagsEach_spec _ _ _ _ _ _ _ _ hloop ⟨hwf.ready, hwf.future, hwf.disjoint, hwf.satisfied⟩
        (fun _ hw => by cases hw)
    obtain ⟨hwf₂, -, hrest⟩ := promoteEach_spec _ _ _ _ _ _ _ hpromote hwf₁ hfresh
    refine ⟨hwf₂, fun hfailed t ht => ?_⟩
    rcases hkeeps t (.inl ht) with hpool | htoImport | hpruned
    · rcases hrest hfailed t (.inl hpool) with hpool' | hreported
      · exact .inl hpool'
      · exact .inr (.inr hreported)
    · rcases hrest hfailed t (.inr (.inl htoImport)) with hpool' | hreported
      · exact .inl hpool'
      · exact .inr (.inr hreported)
    · exact .inr (.inl hpruned)

/-! ## `enforce_limits` -/

theorem enforceReadyLoop_removesFrom (limit : Limit) {fuel : Nat}
    {removed removed' : List (Transaction Hash Tag)}
    (h : enforceReadyLoop limit fuel pool removed = some (pool', removed')) :
    RemovesFrom (pool, removed) (pool', removed') := by
  induction fuel generalizing pool removed with
  | zero =>
    unfold enforceReadyLoop at h
    by_cases hex : limit.isExceeded pool.ready.len pool.ready.bytes = true
    · rw [if_pos hex] at h
      cases hw : worstReady pool.ready with
      | none =>
        rw [hw] at h
        cases h
        exact RemovesFrom.refl _
      | some worst =>
        rw [hw] at h
        cases h
    · rw [if_neg hex] at h
      cases h
      exact RemovesFrom.refl _
  | succ fuel ih =>
    unfold enforceReadyLoop at h
    by_cases hex : limit.isExceeded pool.ready.len pool.ready.bytes = true
    · rw [if_pos hex] at h
      cases hw : worstReady pool.ready with
      | none =>
        rw [hw] at h
        cases h
        exact RemovesFrom.refl _
      | some worst =>
        -- one round removes the worst transaction and what depends on it
        rw [hw] at h
        exact (removeSubtree_removesFrom pool [worst.transaction.hash] removed).trans (ih h)
    · rw [if_neg hex] at h
      cases h
      exact RemovesFrom.refl _

theorem enforceFutureLoop_removesFrom (limit : Limit) {fuel : Nat}
    {removed removed' : List (Transaction Hash Tag)}
    (h : enforceFutureLoop limit fuel pool removed = some (pool', removed')) :
    RemovesFrom (pool, removed) (pool', removed') := by
  induction fuel generalizing pool removed with
  | zero =>
    unfold enforceFutureLoop at h
    by_cases hex : limit.isExceeded pool.future.len pool.future.bytes = true
    · rw [if_pos hex] at h
      cases hw : worstFuture pool.future with
      | none =>
        rw [hw] at h
        cases h
        exact RemovesFrom.refl _
      | some worst =>
        rw [hw] at h
        cases h
    · rw [if_neg hex] at h
      cases h
      exact RemovesFrom.refl _
  | succ fuel ih =>
    unfold enforceFutureLoop at h
    by_cases hex : limit.isExceeded pool.future.len pool.future.bytes = true
    · rw [if_pos hex] at h
      cases hw : worstFuture pool.future with
      | none =>
        rw [hw] at h
        cases h
        exact RemovesFrom.refl _
      | some worst =>
        rw [hw] at h
        exact (removeSubtree_removesFrom pool [worst.transaction.hash] removed).trans (ih h)
    · rw [if_neg hex] at h
      cases h
      exact RemovesFrom.refl _

theorem enforceLimits_removesFrom {readyLimit futureLimit : Limit}
    {removed : List (Transaction Hash Tag)}
    (h : pool.enforceLimits readyLimit futureLimit = some (pool', removed)) :
    RemovesFrom (pool, []) (pool', removed) := by
  rw [enforceLimits] at h
  split at h
  · cases h
  next pool₁ removed₁ hready =>
    exact (enforceReadyLoop_removesFrom _ hready).trans (enforceFutureLoop_removesFrom _ h)

/-! ## Every call -/

/-- Every call of the base pool keeps it well formed. A successful `import` keeps or reports every
transaction, `AlreadyImported` and `RejectedFutureTransaction` change nothing, and other errors but
`CycleDetected` keep the ready queue; the other calls keep, prune, return or report each transaction
unless a promotion failed. -/
theorem pool_calls_keep_or_report (pool : BasePool Hash Tag) (hwf : pool.WellFormed) :
    (∀ tx now pool' result, pool.import tx now = some (pool', result) →
      pool'.WellFormed ∧
        (∀ imported, result = .ok imported → ∀ t, pool.Contains t →
          pool'.Contains t ∨ t ∈ imported.removed ∨ t.hash ∈ imported.failed) ∧
        (result = .error .alreadyImported ∨ result = .error .rejectedFutureTransaction →
          pool' = pool) ∧
        ∀ e, result = .error e → e ≠ .cycleDetected →
          ∀ hash, pool'.ready.txAt hash = pool.ready.txAt hash) ∧
    (∀ hashes, (pool.removeSubtree hashes).1.WellFormed ∧ ∀ t, pool.Contains t →
      (pool.removeSubtree hashes).1.Contains t ∨ t ∈ (pool.removeSubtree hashes).2) ∧
    (∀ tags pool' status, pool.pruneTags tags = some (pool', status) →
      pool'.WellFormed ∧ (status.failed = [] → ∀ t, pool.Contains t →
        pool'.Contains t ∨ t ∈ status.pruned ∨ Reported t status.promoted)) ∧
    ∀ readyLimit futureLimit pool' removed,
      pool.enforceLimits readyLimit futureLimit = some (pool', removed) →
        pool'.WellFormed ∧ ∀ t, pool.Contains t → pool'.Contains t ∨ t ∈ removed := by
  refine ⟨fun _ _ _ _ h => import_spec h hwf, fun hashes => ?_,
    fun _ _ _ h => pruneTags_keeps h hwf, fun _ _ _ _ h => ?_⟩
  · exact ⟨removeSubtree_wellFormed hwf hashes, fun t ht => removeSubtree_keeps pool hashes hwf ht⟩
  · obtain ⟨hwf', -, hkeeps⟩ := enforceLimits_removesFrom h hwf
    exact ⟨hwf', hkeeps⟩

def readyTransaction : Transaction Nat Nat := ⟨64, 1, 5, 100, [], [0]⟩

def waitingTransaction : Transaction Nat Nat := ⟨64, 2, 5, 100, [7], [8]⟩

/-- The new pool after importing `readyTransaction`, which is ready, and then `waitingTransaction`,
which waits for tag `7`. -/
def readyAndWaitingPool : BasePool Nat Nat :=
  (((new false).import readyTransaction 0).bind fun r =>
    (r.1.import waitingTransaction 0).map (·.1)).getD (new false)

theorem readyAndWaitingPool_wellFormed : readyAndWaitingPool.WellFormed := by
  -- each import keeps the pool well formed; a failed one leaves the new pool
  have hnew : (new false : BasePool Nat Nat).WellFormed := new_wellFormed false
  rw [readyAndWaitingPool]
  rcases h₁ : (new false).import readyTransaction 0 with _ | ⟨pool₁, result₁⟩
  · exact hnew
  · have hwf₁ := (import_spec h₁ hnew).1
    rcases h₂ : pool₁.import waitingTransaction 0 with _ | ⟨pool₂, result₂⟩
    · simpa [h₂] using hnew
    · simpa [h₂] using (import_spec h₂ hwf₁).1

theorem ready_and_waiting_pool_calls_keep_or_report :
    readyAndWaitingPool.Contains readyTransaction ∧ readyAndWaitingPool.Contains waitingTransaction ∧
      readyAndWaitingPool.WellFormed ∧
      (∀ tx now pool' result, readyAndWaitingPool.import tx now = some (pool', result) →
        pool'.WellFormed ∧
          (∀ imported, result = .ok imported → ∀ t, readyAndWaitingPool.Contains t →
            pool'.Contains t ∨ t ∈ imported.removed ∨ t.hash ∈ imported.failed) ∧
          (result = .error .alreadyImported ∨ result = .error .rejectedFutureTransaction →
            pool' = readyAndWaitingPool) ∧
          ∀ e, result = .error e → e ≠ .cycleDetected →
            ∀ hash, pool'.ready.txAt hash = readyAndWaitingPool.ready.txAt hash) ∧
      (∀ hashes, (readyAndWaitingPool.removeSubtree hashes).1.WellFormed ∧
        ∀ t, readyAndWaitingPool.Contains t →
          (readyAndWaitingPool.removeSubtree hashes).1.Contains t ∨
            t ∈ (readyAndWaitingPool.removeSubtree hashes).2) ∧
      (∀ tags pool' status, readyAndWaitingPool.pruneTags tags = some (pool', status) →
        pool'.WellFormed ∧ (status.failed = [] → ∀ t, readyAndWaitingPool.Contains t →
          pool'.Contains t ∨ t ∈ status.pruned ∨ Reported t status.promoted)) ∧
      ∀ readyLimit futureLimit pool' removed,
        readyAndWaitingPool.enforceLimits readyLimit futureLimit = some (pool', removed) →
          pool'.WellFormed ∧ ∀ t, readyAndWaitingPool.Contains t →
            pool'.Contains t ∨ t ∈ removed :=
  ⟨.inl ⟨1, by decide⟩, .inr ⟨2, by decide⟩, readyAndWaitingPool_wellFormed,
    pool_calls_keep_or_report readyAndWaitingPool readyAndWaitingPool_wellFormed⟩

def cycleTransactions : List (Transaction Nat Nat) :=
  [⟨1, 1, 5, 64, [0], [1]⟩, ⟨1, 3, 5, 64, [1], [2]⟩, ⟨1, 2, 5, 64, [2], [0]⟩]

/-- A transaction closing a cycle with lower priority than `2` is replaced, and `CycleDetected`
leaves both queues empty: the three waiting transactions are neither kept nor reported. -/
theorem import_cycle_drops_unreported :
    (cycleTransactions.foldlM (fun (pool : BasePool Nat Nat) tx => (pool.import tx 0).map (·.1))
        (new false)).bind (fun pool => (pool.import ⟨1, 4, 1, 64, [], [0]⟩ 0).map fun r =>
        (pool.ready.ready.keys ++ pool.future.waiting.keys,
          r.1.ready.ready.keys ++ r.1.future.waiting.keys, r.2)) =
      some ([2, 3, 1], [], (.error .cycleDetected : Except Error (Imported Nat Nat))) := by
  decide

end BasePool

end Substrate.TransactionPool
