import Substrate.Allocator.FreeingBump

/-! # What the freeing-bump allocator guarantees

Against a runtime rewriting memory between calls: an error poisons for good, `allocate` returns a
whole chunk inside the memory, and the one panic left is the bumper's `u32` increase at 4 GiB.
-/

namespace Substrate.Allocator

variable {s s' : FreeingBumpHeapAllocator} {mem mem' : Memory}

/-! ## Poisoning -/

@[simp] theorem disarmOrPoison_mem {α : Type}
    (r : FreeingBumpHeapAllocator × Memory × Except Error α) :
    (disarmOrPoison r).2.1 = r.2.1 := by
  obtain ⟨s, mem, _ | _⟩ := r <;> rfl

@[simp] theorem disarmOrPoison_result {α : Type}
    (r : FreeingBumpHeapAllocator × Memory × Except Error α) :
    (disarmOrPoison r).2.2 = r.2.2 := by
  obtain ⟨s, mem, _ | _⟩ := r <;> rfl

theorem disarmOrPoison_poisoned {α : Type}
    (r : FreeingBumpHeapAllocator × Memory × Except Error α) :
    (disarmOrPoison r).1.poisoned = (r.1.poisoned || !r.2.2.toBool) := by
  obtain ⟨s, mem, _ | _⟩ := r <;> simp [disarmOrPoison, Except.toBool]

theorem allocate_of_poisoned (size : Nat) (h : s.poisoned = true) :
    allocate s mem size = some (s, mem, .error (.other "the allocator has been poisoned")) := by
  simp [allocate, h]

theorem deallocate_of_poisoned (ptr : Nat) (h : s.poisoned = true) :
    deallocate s mem ptr = (s, mem, .error (.other "the allocator has been poisoned")) := by
  simp [deallocate, h]

variable {size : Nat}

/-- After an `allocate` that returns an error the allocator is poisoned. -/
theorem allocate_poisoned_of_error {r : Except Error Nat}
    (h : allocate s mem size = some (s', mem', r)) (herr : r.toBool = false) :
    s'.poisoned = true := by
  rw [allocate] at h
  split at h
  · -- already poisoned: the state comes back unchanged
    cases h
    assumption
  · obtain ⟨armed, -, hdisarm⟩ := Option.map_eq_some_iff.mp h
    have hflag := disarmOrPoison_poisoned armed
    have hres : armed.2.2 = r := by rw [← disarmOrPoison_result, hdisarm]
    rw [hdisarm, hres, herr] at hflag
    simpa using hflag

theorem deallocate_poisoned_of_error {ptr : Nat}
    (herr : (deallocate s mem ptr).2.2.toBool = false) :
    (deallocate s mem ptr).1.poisoned = true := by
  rw [deallocate] at herr ⊢
  split
  · assumption
  · rename_i hpoisoned
    simp only [hpoisoned, Bool.false_eq_true, if_false, disarmOrPoison_result] at herr
    simp [disarmOrPoison_poisoned, herr]

/-! ## Runs

The runtime drives the allocator with a sequence of calls and hands each
call a memory of its own choice: the previous one with any bytes rewritten,
or any other. A panic ends the run. -/

/-- A call of the runtime into the allocator. -/
inductive Call where
  | allocate (size : Nat)
  | deallocate (ptr : Nat)

def runCall (s : FreeingBumpHeapAllocator) (mem : Memory) :
    Call → Option (FreeingBumpHeapAllocator × Bool)
  | .allocate size => (allocate s mem size).map fun r => (r.1, r.2.2.toBool)
  | .deallocate ptr => some ((deallocate s mem ptr).1, (deallocate s mem ptr).2.2.toBool)

/-- The results of the calls of a run, up to the first panic. -/
def runCalls : FreeingBumpHeapAllocator → List (Memory × Call) → List Bool
  | _, [] => []
  | s, (mem, call) :: calls =>
      match runCall s mem call with
      | none => []
      | some (s', ok) => ok :: runCalls s' calls

theorem runCall_of_poisoned (call : Call) (h : s.poisoned = true) :
    runCall s mem call = some (s, false) := by
  cases call with
  | allocate size => simp [runCall, allocate_of_poisoned size h, Except.toBool]
  | deallocate ptr => simp [runCall, deallocate_of_poisoned ptr h, Except.toBool]

/-- The step lemma: a call that fails leaves the allocator poisoned. -/
theorem runCall_poisoned_of_error {call : Call} (h : runCall s mem call = some (s', false)) :
    s'.poisoned = true := by
  cases call with
  | allocate size =>
    obtain ⟨⟨s₁, mem₁, r⟩, halloc, hrun⟩ := Option.map_eq_some_iff.mp h
    simp only [Prod.mk.injEq] at hrun
    obtain ⟨rfl, herr⟩ := hrun
    exact allocate_poisoned_of_error halloc herr
  | deallocate ptr =>
    simp only [runCall, Option.some.injEq, Prod.mk.injEq] at h
    obtain ⟨rfl, herr⟩ := h
    exact deallocate_poisoned_of_error herr

/-- A poisoned allocator fails every call of a run and stays poisoned. -/
theorem runCalls_of_poisoned (h : s.poisoned = true) (calls : List (Memory × Call)) :
    runCalls s calls = List.replicate calls.length false := by
  induction calls with
  | nil => rfl
  | cons call calls ih =>
    obtain ⟨mem, call⟩ := call
    simp [runCalls, runCall_of_poisoned call h, ih, List.replicate_succ]

/-- Once a call of a run has returned an error, every later call returns one too, whatever memories
the runtime passes. -/
theorem runCalls_error_sticky (s : FreeingBumpHeapAllocator) (calls : List (Memory × Call))
    (before after : List Bool) (h : runCalls s calls = before ++ false :: after) :
    ∀ ok ∈ after, ok = false := by
  -- induction on the run; the state is generalized since every call changes it
  induction calls generalizing s before with
  | nil => simp [runCalls] at h
  | cons call calls ih =>
    obtain ⟨mem, call⟩ := call
    simp only [runCalls] at h
    split at h
    · simp at h
    · rename_i s₁ ok hrun
      cases before with
      | nil =>
        -- the failing call is this one: the rest of the run is poisoned
        simp only [List.nil_append, List.cons.injEq] at h
        obtain ⟨rfl, hafter⟩ := h
        rw [runCalls_of_poisoned (runCall_poisoned_of_error hrun)] at hafter
        intro ok hok
        rw [← hafter] at hok
        exact List.eq_of_mem_replicate hok
      | cons b before =>
        simp only [List.cons_append, List.cons.injEq] at h
        exact ih s₁ before h.2

/-! ## The chunk behind a returned pointer -/

theorem le_size_orderOfClamped {clamped : Nat} (h : clamped ≤ maxPossibleAllocation) :
    clamped ≤ minPossibleAllocation * 2 ^ orderOfClamped clamped := by
  have hlt : orderOfClamped clamped < (List.range nOrders).length := by
    simpa using orderOfClamped_lt h
  unfold orderOfClamped at hlt ⊢
  -- the index found is the first order whose size holds the clamped size
  have hfound := @List.findIdx_getElem _ _ _ hlt
  rw [List.getElem_range] at hfound
  simpa using hfound

variable {order : Order}

theorem Order.fromSize_size (h : Order.fromSize size = .ok order) :
    size ≤ order.size := by
  rw [Order.fromSize] at h
  split at h
  · cases h
  · rename_i hmax
    cases h
    simp only [Order.size]
    -- sizes below the minimum are raised to it
    by_cases hmin : size < minPossibleAllocation
    · rw [if_pos hmin]
      have hclamped := le_size_orderOfClamped
        (show minPossibleAllocation ≤ maxPossibleAllocation by decide)
      omega
    · rw [if_neg hmin]
      exact le_size_orderOfClamped (by omega)

theorem growToFit_size {requiredSize : Nat} (h : growToFit requiredSize mem = .ok mem') :
    requiredSize ≤ mem'.size := by
  rw [growToFit] at h
  split at h
  · rename_i hsmall
    split at h
    · cases h
    · rename_i requiredPages hpages
      simp only [pagesFromSize] at hpages
      dsimp only at h
      split at h
      · cases h
      split at h
      · cases h
      split at h
      · cases h
      · rename_i hmax hreq grown hgrow
        cases h
        have hgrown := Memory.grow_pages hgrow
        -- the pages grow to at least the pages required, which hold the bytes
        have hreqPages : requiredSize ≤ requiredPages * pageSize := by
          split at hpages
          · cases hpages
            simp only [pageSize]
            omega
          · cases hpages
        simp only [Memory.size] at hsmall ⊢
        rw [hgrown]
        have hnext : requiredPages ≤ mem.pages + (max (min (mem.pages * 2)
            (mem.maxPages.getD maxWasmPages)) requiredPages - mem.pages) := by omega
        exact Nat.le_trans hreqPages (Nat.mul_le_mul_right pageSize hnext)
  · cases h
    omega

theorem bump_eq_ok {bumper size bumper' : Nat} (h : bump bumper size mem = some (.ok (bumper', mem'))) :
    bumper' = bumper + size ∧ bumper + size ≤ mem'.size := by
  rw [bump] at h
  split at h
  · cases h
  · rename_i grown hgrow
    obtain ⟨sum, hsum, hres⟩ := Option.map_eq_some_iff.mp h
    cases hres
    exact ⟨(Unsigned.checkedAdd_eq_some.mp hsum).2.symm, growToFit_size hgrow⟩

theorem takeChunk_eq_ok {headerPtr : Nat} {s₁ : FreeingBumpHeapAllocator}
    (h : takeChunk s mem order = some (.ok (headerPtr, s₁, mem'))) :
    headerPtr + order.size + headerSize ≤ mem'.size := by
  rw [takeChunk] at h
  split at h
  · -- the head of the free list, checked against the memory size
    split at h
    · cases h
    · rename_i hfits
      split at h
      all_goals simp only [Option.some.injEq, Except.ok.injEq, Prod.mk.injEq,
        reduceCtorEq] at h
      obtain ⟨rfl, -, rfl⟩ := h
      omega
  · -- a new chunk from the bumper
    obtain ⟨r, hbump, hres⟩ := Option.map_eq_some_iff.mp h
    cases r with
    | error e => cases hres
    | ok r =>
      obtain ⟨bumper, mem₁⟩ := r
      simp only [Except.map, Except.ok.injEq, Prod.mk.injEq] at hres
      obtain ⟨rfl, -, rfl⟩ := hres
      have := (bump_eq_ok hbump).2
      omega

theorem disarmOrPoison_eq_ok {α : Type} {r : FreeingBumpHeapAllocator × Memory × Except Error α}
    {a : α} (h : disarmOrPoison r = (s', mem', .ok a)) : r = (s', mem', .ok a) := by
  obtain ⟨s, mem, _ | _⟩ := r
  · cases h
  · exact h

/-- The inversion of a successful `allocate`: memory observed, order found, chunk taken, header
marked, allocation recorded. -/
theorem allocateArmed_eq_ok {size ptr : Nat}
    (h : allocateArmed s mem size = some (s', mem', .ok ptr)) :
    ∃ order headerPtr s₁ mem₁ stats, Order.fromSize size = .ok order ∧
      takeChunk { s with lastObservedMemorySize := mem.size } mem order =
        some (.ok (headerPtr, s₁, mem₁)) ∧
      (Header.occupied order).writeInto mem₁ headerPtr = .ok mem' ∧
      recordAllocation s₁.stats order s₁.bumper s₁.originalHeapBase = some stats ∧
      s' = { s₁ with stats := stats } ∧ ptr = headerPtr + headerSize := by
  rw [allocateArmed] at h
  split at h
  · cases h
  rename_i observed hobs
  obtain ⟨-, rfl⟩ := observeMemorySize_eq_ok hobs
  split at h
  · cases h
  rename_i order horder
  dsimp only at h
  split at h
  · cases h
  · cases h
  rename_i headerPtr s₁ mem₁ htake
  split at h
  · cases h
  rename_i mem₂ hwrite
  -- the statistics and the pointer are the two checked steps left
  obtain ⟨stats, hstats, h⟩ := Option.bind_eq_some_iff.mp h
  obtain ⟨pointer, hpointer, h⟩ := Option.bind_eq_some_iff.mp h
  simp only [pure, Option.some.injEq, Prod.mk.injEq, Except.ok.injEq] at h
  obtain ⟨rfl, rfl, rfl⟩ := h
  exact ⟨order, headerPtr, s₁, mem₁, stats, horder, htake, hwrite, hstats, rfl,
    (Unsigned.checkedAdd_eq_some.mp hpointer).2.symm⟩

/-- A pointer `allocate` returns is preceded by its header and followed by the whole chunk of its
order, all inside the memory returned. -/
theorem allocate_ok_chunk {size ptr : Nat} (h : allocate s mem size = some (s', mem', .ok ptr)) :
    ∃ order, Order.fromSize size = .ok order ∧ size ≤ order.size ∧
      headerSize ≤ ptr ∧ ptr + order.size ≤ mem'.size := by
  rw [allocate] at h
  split at h
  · cases h
  obtain ⟨armed, harmed, hdisarm⟩ := Option.map_eq_some_iff.mp h
  rw [disarmOrPoison_eq_ok hdisarm] at harmed
  obtain ⟨order, headerPtr, s₁, mem₁, stats, horder, htake, hwrite, -, -, rfl⟩ :=
    allocateArmed_eq_ok harmed
  have hchunk := takeChunk_eq_ok htake
  refine ⟨order, horder, Order.fromSize_size horder, by omega, ?_⟩
  rw [Header.writeInto_size hwrite]
  omega

/-! ## The bumper overflow

`bump` compares the end of the new chunk with the memory size as a `u64`,
so a chunk may end exactly at 4 GiB, one past the largest `u32`; the bumper,
a `u32`, is then increased to `2 ^ 32`. -/

theorem growToFit_ok {requiredSize : Nat}
    (h : requiredSize ≤ mem.maxPages.getD maxWasmPages * pageSize) :
    ∃ mem', growToFit requiredSize mem = .ok mem' := by
  have hmaxLe := mem.maxPages_le
  -- the pages that hold the bytes fit a `u32` and the maximum
  have hpages : pagesFromSize requiredSize = some ((requiredSize + pageSize - 1) / pageSize) := by
    rw [pagesFromSize, if_pos]
    simp only [Unsigned.maxValue, maxWasmPages, pageSize] at h hmaxLe ⊢
    omega
  have hreq : (requiredSize + pageSize - 1) / pageSize ≤ mem.maxPages.getD maxWasmPages := by
    simp only [maxWasmPages, pageSize] at h hmaxLe ⊢
    omega
  rw [growToFit]
  split
  · rename_i hsmall
    have hcur : mem.pages < mem.maxPages.getD maxWasmPages := by
      simp only [Memory.size, maxWasmPages, pageSize] at h hsmall ⊢
      omega
    rw [hpages]
    dsimp only
    rw [if_neg (by omega), if_neg (by omega)]
    simp only [Memory.grow]
    rw [dif_pos (by omega)]
    exact ⟨_, rfl⟩
  · exact ⟨mem, rfl⟩

/-- A chunk ending at 4 GiB, in a memory that may grow to 4 GiB: the memory grows, then the bumper's
increase overflows and panics. -/
theorem bump_eq_none_of_end {bumper size : Nat}
    (hmax : mem.maxPages.getD maxWasmPages = maxWasmPages) (hend : bumper + size = 2 ^ 32) :
    bump bumper size mem = none := by
  have hfits : bumper + size ≤ mem.maxPages.getD maxWasmPages * pageSize := by
    rw [hmax, hend]
    decide
  obtain ⟨grown, hgrow⟩ := growToFit_ok hfits
  rw [bump]
  rw [hgrow]
  simp only [Option.map_eq_none_iff, Unsigned.checkedAdd_eq_none, hend]
  decide

theorem Order.fromSize_of_le_min (h : size ≤ minPossibleAllocation) :
    Order.fromSize size = .ok ⟨0, by decide⟩ := by
  have hclamped : (if size < minPossibleAllocation then minPossibleAllocation else size) =
      minPossibleAllocation := by
    split <;> omega
  rw [Order.fromSize]
  rw [dif_neg (by simp only [minPossibleAllocation, maxPossibleAllocation] at h ⊢; omega)]
  simp only [hclamped]
  rfl

/-- An allocation whose chunk comes from a bump that panics panics too. -/
theorem allocate_eq_none_of_bump (hpoisoned : s.poisoned = false)
    (hobserved : s.lastObservedMemorySize ≤ mem.size) (horder : Order.fromSize size = .ok order)
    (hfree : s.freeLists.heads order = .nil)
    (hbump : bump s.bumper (order.size + headerSize) mem = none) :
    allocate s mem size = none := by
  rw [allocate, if_neg (by simp [hpoisoned]), allocateArmed, observeMemorySize_of_le hobserved]
  dsimp only
  rw [horder]
  dsimp only
  rw [takeChunk]
  simp only [hfree, hbump, Option.map_none]

/-- With the heap base 16 bytes below 4 GiB, the first allocation of at most 8 bytes takes a 16-byte
chunk ending at 4 GiB. -/
theorem allocate_panics_at_top {size : Nat} (hmax : mem.maxPages.getD maxWasmPages = maxWasmPages)
    (hsize : size ≤ minPossibleAllocation) :
    (FreeingBumpHeapAllocator.new (2 ^ 32 - 16)).bind (fun s => allocate s mem size) = none := by
  have hnew : FreeingBumpHeapAllocator.new (2 ^ 32 - 16) =
      some ⟨4294967280, 4294967280, FreeLists.new, false, 0, ⟨0, 0, 0, 0⟩⟩ := rfl
  rw [hnew, Option.bind_some]
  -- the free lists start empty, so the chunk comes from the bumper
  exact allocate_eq_none_of_bump rfl (Nat.zero_le _) (Order.fromSize_of_le_min hsize) rfl
    (bump_eq_none_of_end hmax (by decide))

def fullMemory : Memory where
  bytes _ := 0
  pages := maxWasmPages
  maxPages := none
  pages_le := Nat.le_refl _
  maxPages_le := Nat.le_refl _

theorem allocate_panics_at_top_full_memory :
    fullMemory.maxPages.getD maxWasmPages = maxWasmPages ∧ 8 ≤ minPossibleAllocation ∧
      (FreeingBumpHeapAllocator.new (2 ^ 32 - 16)).bind (fun s => allocate s fullMemory 8) =
        none :=
  ⟨rfl, by decide, allocate_panics_at_top rfl (by decide)⟩

/-- Whatever the calls before, an allocator with an empty free list for the order, whose next bumper
chunk ends at 4 GiB, panics on the request. -/
theorem allocate_panics_when_chunk_ends_at_top {size : Nat} {order : Order}
    (hpoisoned : s.poisoned = false) (hobserved : s.lastObservedMemorySize ≤ mem.size)
    (hmax : mem.maxPages.getD maxWasmPages = maxWasmPages)
    (horder : Order.fromSize size = .ok order) (hfree : s.freeLists.heads order = .nil)
    (hend : s.bumper + order.size + headerSize = 2 ^ 32) :
    allocate s mem size = none := by
  have hbump : bump s.bumper (order.size + headerSize) mem = none := by
    apply bump_eq_none_of_end hmax
    rw [← Nat.add_assoc]
    exact hend
  exact allocate_eq_none_of_bump hpoisoned hobserved horder hfree hbump

theorem Memory.writeLeU64_maxPages {m m' : Memory} {ptr val : Nat}
    (h : m.writeLeU64 ptr val = .ok m') : m'.maxPages = m.maxPages := by
  unfold Memory.writeLeU64 at h
  split at h
  · cases h
  · cases h
    rfl

theorem Header.writeInto_maxPages {h : Header} {m m' : Memory} {headerPtr : Nat}
    (hw : h.writeInto m headerPtr = .ok m') : m'.maxPages = m.maxPages := by
  unfold Header.writeInto at hw
  exact Memory.writeLeU64_maxPages hw

def afterFirstAllocation : FreeingBumpHeapAllocator where
  originalHeapBase := 2 ^ 32 - 32
  bumper := 2 ^ 32 - 16
  freeLists := FreeLists.new
  poisoned := false
  lastObservedMemorySize := 2 ^ 32
  stats := ⟨16, 16, 16, 16⟩

/-- The first allocation of 8 bytes from the heap base `2 ^ 32 - 32` takes a chunk from the bumper.
-/
theorem first_allocation_reaches_top :
    ∃ mem₁, (FreeingBumpHeapAllocator.new (2 ^ 32 - 32)).bind (fun s => allocate s fullMemory 8) =
        some (afterFirstAllocation, mem₁, .ok (2 ^ 32 - 24)) ∧
      mem₁.size = fullMemory.size ∧ mem₁.maxPages = none := by
  have hnew : FreeingBumpHeapAllocator.new (2 ^ 32 - 32) =
      some ⟨2 ^ 32 - 32, 2 ^ 32 - 32, FreeLists.new, false, 0, ⟨0, 0, 0, 0⟩⟩ := rfl
  rw [hnew, Option.bind_some, allocate, if_neg (by decide), allocateArmed,
    observeMemorySize_of_le (Nat.zero_le _)]
  dsimp only
  rw [Order.fromSize_of_le_min (by decide)]
  dsimp only
  -- the free lists are empty: the chunk comes from the bumper, in the memory as it is
  rw [takeChunk]
  have hgrow : growToFit (2 ^ 32 - 32 + ((⟨0, by decide⟩ : Order).size + headerSize)) fullMemory =
      .ok fullMemory := by
    rw [growToFit, if_neg (by decide)]
  simp only [FreeLists.new, bump, hgrow]
  rw [Unsigned.checkedAdd_of_le (by decide)]
  simp only [Option.map_some, Except.map]
  have hwrite : ∃ mem₁, (Header.occupied ⟨0, by decide⟩).writeInto fullMemory (2 ^ 32 - 32) =
      .ok mem₁ := by
    rw [Header.writeInto]
    dsimp only
    rw [Memory.writeLeU64, heapRange, Unsigned.checkedAdd_of_le (by decide)]
    dsimp only
    rw [if_pos (by decide)]
    exact ⟨_, rfl⟩
  obtain ⟨mem₁, hmem₁⟩ := hwrite
  refine ⟨mem₁, ?_, Header.writeInto_size hmem₁, Header.writeInto_maxPages hmem₁⟩
  -- the statistics and the pointer: sums well inside their widths
  simp only [hmem₁, recordAllocation]
  rw [Unsigned.checkedAdd_of_le (by decide), Unsigned.checkedAdd_of_le (by decide),
    Unsigned.checkedSub_of_le (by decide), Unsigned.checkedAdd_of_le (by decide)]
  rfl

theorem second_allocation_panics_at_top :
    ∃ mem₁, (FreeingBumpHeapAllocator.new (2 ^ 32 - 32)).bind (fun s => allocate s fullMemory 8) =
        some (afterFirstAllocation, mem₁, .ok (2 ^ 32 - 24)) ∧
      allocate afterFirstAllocation mem₁ 8 = none := by
  obtain ⟨mem₁, hfirst, hsize, hmax⟩ := first_allocation_reaches_top
  refine ⟨mem₁, hfirst, ?_⟩
  have hobserved : afterFirstAllocation.lastObservedMemorySize ≤ mem₁.size := by
    rw [hsize]
    decide
  exact allocate_panics_when_chunk_ends_at_top rfl hobserved (by rw [hmax]; rfl)
    (Order.fromSize_of_le_min (by decide)) rfl (by decide)

end Substrate.Allocator
