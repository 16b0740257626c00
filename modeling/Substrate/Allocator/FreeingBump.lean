import Substrate.Lib.Unsigned

/-! # The freeing-bump heap allocator

`src/client/allocator/src/freeing_bump.rs`: a chunk is a power of two of at least 8 bytes after an
8-byte header, occupied or a link in its order's free list; the runtime may rewrite any of it.
Checked arithmetic returns `none`, the panic of an overflow-checked build; an error poisons.
-/

namespace Substrate.Allocator

def pageSize : Nat := 65536

def maxWasmPages : Nat := 65536

def alignment : Nat := 8

def headerSize : Nat := 8

def nOrders : Nat := 23

def minPossibleAllocation : Nat := 8

def maxPossibleAllocation : Nat := 33554432

def nilMarker : Nat := 2 ^ 32 - 1

inductive Error where
  | requestedAllocationTooLarge
  | allocatorOutOfSpace
  | memoryShrinked
  | other (msg : String)
  deriving DecidableEq, Repr

/-! ## The linear memory -/

/-- A wasm linear memory (`Memory`): its bytes, its pages, and the maximum it may grow to, at most
65536 pages and at least the current number. -/
structure Memory where
  bytes : Nat → UInt8
  pages : Nat
  maxPages : Option Nat
  pages_le : pages ≤ maxPages.getD maxWasmPages
  maxPages_le : maxPages.getD maxWasmPages ≤ maxWasmPages

def Memory.size (m : Memory) : Nat := m.pages * pageSize

/-- `Memory::grow`, with the wasm semantics: it fails beyond the maximum. -/
def Memory.grow (m : Memory) (additional : Nat) : Option Memory :=
  if h : m.pages + additional ≤ m.maxPages.getD maxWasmPages then
    some { m with pages := m.pages + additional, pages_le := h }
  else none

theorem Memory.grow_pages {m m' : Memory} {additional : Nat} (h : m.grow additional = some m') :
    m'.pages = m.pages + additional := by
  unfold Memory.grow at h
  split at h
  · cases h
    rfl
  · cases h

/-- `heap_range`: the range of `length` bytes at `offset`, if its end fits
a `u32` and lies within the heap. -/
def heapRange (offset length heapLen : Nat) : Option (Nat × Nat) :=
  match Unsigned.checkedAdd 32 offset length with
  | none => none
  | some stop => if stop ≤ heapLen then some (offset, stop) else none

def Memory.leU64At (m : Memory) (ptr : Nat) : Nat :=
  (List.range 8).foldr (fun i acc => (m.bytes (ptr + i)).toNat + 256 * acc) 0

def Memory.readLeU64 (m : Memory) (ptr : Nat) : Except Error Nat :=
  match heapRange ptr 8 m.size with
  | none => .error (.other "read out of heap bounds")
  | some _ => .ok (m.leU64At ptr)

/-- `MemoryExt::write_le_u64`: the bytes of `u64::to_le_bytes` at `ptr`. -/
def Memory.writeLeU64 (m : Memory) (ptr val : Nat) : Except Error Memory :=
  match heapRange ptr 8 m.size with
  | none => .error (.other "write out of heap bounds")
  | some _ => .ok { m with
      bytes := fun a => if ptr ≤ a ∧ a < ptr + 8 then UInt8.ofNat (val / 256 ^ (a - ptr))
        else m.bytes a }

@[simp] theorem Memory.writeLeU64_size {m m' : Memory} {ptr val : Nat}
    (h : m.writeLeU64 ptr val = .ok m') : m'.size = m.size := by
  unfold Memory.writeLeU64 at h
  split at h
  · cases h
  · cases h
    rfl

/-! ## Orders, links and headers -/

/-- `Order`: a chunk of `MIN_POSSIBLE_ALLOCATION << raw` bytes. -/
structure Order where
  raw : Nat
  lt : raw < nOrders
  deriving DecidableEq

def Order.fromRaw (order : Nat) : Except Error Order :=
  if h : order < nOrders then .ok ⟨order, h⟩ else .error (.other "invalid order")

def Order.size (o : Order) : Nat := minPossibleAllocation * 2 ^ o.raw

/-- `next_power_of_two().trailing_zeros()` of a clamped size, less the three trailing zeros of
`MIN_POSSIBLE_ALLOCATION`: the least order holding it. -/
def orderOfClamped (clamped : Nat) : Nat :=
  (List.range nOrders).findIdx fun k => decide (clamped ≤ minPossibleAllocation * 2 ^ k)

theorem orderOfClamped_lt {clamped : Nat} (h : clamped ≤ maxPossibleAllocation) :
    orderOfClamped clamped < nOrders := by
  have hfits : ∃ k ∈ List.range nOrders, decide (clamped ≤ minPossibleAllocation * 2 ^ k) = true :=
    ⟨22, List.mem_range.mpr (by decide), decide_eq_true (by
      simp only [minPossibleAllocation, maxPossibleAllocation] at h ⊢
      omega)⟩
  simpa [orderOfClamped] using List.findIdx_lt_length_of_exists hfits

/-- `Order::from_size`: sizes above 32 MiB are refused, sizes below 8 bytes
are raised to 8. -/
def Order.fromSize (size : Nat) : Except Error Order :=
  if h : maxPossibleAllocation < size then .error .requestedAllocationTooLarge
  else
    let clamped := if size < minPossibleAllocation then minPossibleAllocation else size
    .ok ⟨orderOfClamped clamped, orderOfClamped_lt (by
      simp only [clamped]
      split
      all_goals simp only [minPossibleAllocation, maxPossibleAllocation] at *
      all_goals omega)⟩

/-- `Link`: the end of a free list, or the header of the next free chunk. -/
inductive Link where
  | nil
  | ptr (headerPtr : Nat)
  deriving DecidableEq

def Link.fromRaw (raw : Nat) : Link := if raw ≠ nilMarker then .ptr raw else .nil

def Link.intoRaw : Link → Nat
  | .nil => nilMarker
  | .ptr headerPtr => headerPtr

/-- `Header`: bit 32 tells an occupied header from a free one, the low 32
bits hold the order or the link. -/
inductive Header where
  | free (link : Link)
  | occupied (order : Order)

/-- `Header::read_from`; the order of an occupied header is checked. -/
def Header.readFrom (m : Memory) (headerPtr : Nat) : Except Error Header :=
  match m.readLeU64 headerPtr with
  | .error e => .error e
  | .ok rawHeader =>
      let headerData := rawHeader % 2 ^ 32
      if rawHeader / 2 ^ 32 % 2 ≠ 0 then
        match Order.fromRaw headerData with
        | .error e => .error e
        | .ok order => .ok (.occupied order)
      else .ok (.free (Link.fromRaw headerData))

def Header.writeInto (h : Header) (m : Memory) (headerPtr : Nat) : Except Error Memory :=
  let (headerData, occupiedMask) := match h with
    | .occupied order => (order.raw, 2 ^ 32)
    | .free link => (link.intoRaw, 0)
  m.writeLeU64 headerPtr (headerData ||| occupiedMask)

theorem Header.writeInto_size {h : Header} {m m' : Memory} {headerPtr : Nat}
    (hw : h.writeInto m headerPtr = .ok m') : m'.size = m.size :=
  Memory.writeLeU64_size hw

/-! ## The allocator -/

/-- `FreeLists`: the head of the free list of every order. -/
structure FreeLists where
  heads : Order → Link

def FreeLists.new : FreeLists := ⟨fun _ => .nil⟩

def FreeLists.set (lists : FreeLists) (order : Order) (new : Link) : FreeLists :=
  ⟨fun o => if o = order then new else lists.heads o⟩

@[simp] theorem FreeLists.set_heads (lists : FreeLists) (order : Order) (new : Link) (o : Order) :
    (lists.set order new).heads o = if o = order then new else lists.heads o := rfl

structure AllocationStats where
  bytesAllocated : Nat
  bytesAllocatedPeak : Nat
  bytesAllocatedSum : Nat
  addressSpaceUsed : Nat

structure FreeingBumpHeapAllocator where
  originalHeapBase : Nat
  bumper : Nat
  freeLists : FreeLists
  poisoned : Bool
  lastObservedMemorySize : Nat
  stats : AllocationStats

/-- `FreeingBumpHeapAllocator::new`: the heap base rounded up to the alignment, a `u32` sum. -/
def FreeingBumpHeapAllocator.new (heapBase : Nat) : Option FreeingBumpHeapAllocator :=
  (Unsigned.checkedAdd 32 heapBase (alignment - 1)).map fun rounded =>
    let alignedHeapBase := rounded / alignment * alignment
    { originalHeapBase := alignedHeapBase, bumper := alignedHeapBase,
      freeLists := FreeLists.new, poisoned := false, lastObservedMemorySize := 0,
      stats := ⟨0, 0, 0, 0⟩ }

/-- `pages_from_size`: the pages that hold `size` bytes, if they fit a `u32`. -/
def pagesFromSize (size : Nat) : Option Nat :=
  let pages := (size + pageSize - 1) / pageSize
  if pages ≤ Unsigned.maxValue 32 then some pages else none

/-- The first half of `bump`: a memory too small for `requiredSize` bytes (a `u64` sum) grows to
double its pages, or more if required. -/
def growToFit (requiredSize : Nat) (memory : Memory) : Except Error Memory :=
  if memory.size < requiredSize then
    match pagesFromSize requiredSize with
    | none => .error .allocatorOutOfSpace
    | some requiredPages =>
        let currentPages := memory.pages
        let maxPages := memory.maxPages.getD maxWasmPages
        if maxPages ≤ currentPages then .error .allocatorOutOfSpace
        else if maxPages < requiredPages then .error .allocatorOutOfSpace
        else
          let nextPages := max (min (currentPages * 2) maxPages) requiredPages
          match memory.grow (nextPages - currentPages) with
          | none => .error .allocatorOutOfSpace
          | some memory => .ok memory
  else .ok memory

/-- `bump`: the bumper moves up by `size` once the memory holds the chunk, which starts at the old
bumper; the increase is a `u32` one. -/
def bump (bumper size : Nat) (memory : Memory) : Option (Except Error (Nat × Memory)) :=
  match growToFit (bumper + size) memory with
  | .error e => some (.error e)
  | .ok memory => (Unsigned.checkedAdd 32 bumper size).map fun bumper => .ok (bumper, memory)

/-- `observe_memory_size`: the memory may not shrink between calls. -/
def observeMemorySize (lastObservedMemorySize : Nat) (mem : Memory) : Except Error Nat :=
  if mem.size < lastObservedMemorySize then .error .memoryShrinked else .ok mem.size

theorem observeMemorySize_eq_ok {last observed : Nat} {mem : Memory}
    (h : observeMemorySize last mem = .ok observed) : last ≤ mem.size ∧ observed = mem.size := by
  unfold observeMemorySize at h
  split at h
  · cases h
  · cases h
    exact ⟨by omega, rfl⟩

theorem observeMemorySize_of_le {last : Nat} {mem : Memory} (h : last ≤ mem.size) :
    observeMemorySize last mem = .ok mem.size := by
  rw [observeMemorySize, if_neg (Nat.not_lt.mpr h)]

/-- The chunk `allocate` hands out: the head of the free list of its order, which must lie in memory
and be free, or a new chunk from the bumper. -/
def takeChunk (s : FreeingBumpHeapAllocator) (mem : Memory) (order : Order) :
    Option (Except Error (Nat × FreeingBumpHeapAllocator × Memory)) :=
  match s.freeLists.heads order with
  | .ptr headerPtr =>
      if mem.size < headerPtr + order.size + headerSize then
        some (.error (.other "Invalid header pointer detected"))
      else
        match Header.readFrom mem headerPtr with
        | .error e => some (.error e)
        | .ok (.occupied _) => some (.error (.other "free list points to a occupied header"))
        | .ok (.free nextFree) =>
            some (.ok (headerPtr, { s with freeLists := s.freeLists.set order nextFree }, mem))
  | .nil =>
      (bump s.bumper (order.size + headerSize) mem).map fun r =>
        r.map fun (bumper, mem) => (s.bumper, { s with bumper := bumper }, mem)

/-- The statistics after handing out a chunk: the `u32` count of allocated bytes, the `u128` sum and
the address space used, checked. -/
def recordAllocation (stats : AllocationStats) (order : Order) (bumper originalHeapBase : Nat) :
    Option AllocationStats := do
  let bytesAllocated ← Unsigned.checkedAdd 32 stats.bytesAllocated (order.size + headerSize)
  let bytesAllocatedSum ← Unsigned.checkedAdd 128 stats.bytesAllocatedSum (order.size + headerSize)
  let addressSpaceUsed ← Unsigned.checkedSub bumper originalHeapBase
  pure
    { bytesAllocated := bytesAllocated
      bytesAllocatedPeak := max stats.bytesAllocatedPeak bytesAllocated
      bytesAllocatedSum := bytesAllocatedSum
      addressSpaceUsed := addressSpaceUsed }

/-- The body of `allocate` while the `PoisonBomb` is armed: the state when it
stops and the result. -/
def allocateArmed (s : FreeingBumpHeapAllocator) (mem : Memory) (size : Nat) :
    Option (FreeingBumpHeapAllocator × Memory × Except Error Nat) :=
  match observeMemorySize s.lastObservedMemorySize mem with
  | .error e => some (s, mem, .error e)
  | .ok observed =>
      let s := { s with lastObservedMemorySize := observed }
      match Order.fromSize size with
      | .error e => some (s, mem, .error e)
      | .ok order =>
          match takeChunk s mem order with
          | none => none
          | some (.error e) => some (s, mem, .error e)
          | some (.ok (headerPtr, s, mem)) =>
              match (Header.occupied order).writeInto mem headerPtr with
              | .error e => some (s, mem, .error e)
              | .ok mem => do
                  let stats ← recordAllocation s.stats order s.bumper s.originalHeapBase
                  let pointer ← Unsigned.checkedAdd 32 headerPtr headerSize
                  pure ({ s with stats := stats }, mem, .ok pointer)

/-- Dropping the armed `PoisonBomb` on an error return poisons the allocator. -/
def disarmOrPoison {α : Type} :
    FreeingBumpHeapAllocator × Memory × Except Error α →
      FreeingBumpHeapAllocator × Memory × Except Error α
  | (s, mem, .error e) => ({ s with poisoned := true }, mem, .error e)
  | (s, mem, .ok a) => (s, mem, .ok a)

/-- `allocate`: a pointer to a chunk of at least `size` bytes. -/
def allocate (s : FreeingBumpHeapAllocator) (mem : Memory) (size : Nat) :
    Option (FreeingBumpHeapAllocator × Memory × Except Error Nat) :=
  if s.poisoned then some (s, mem, .error (.other "the allocator has been poisoned"))
  else (allocateArmed s mem size).map disarmOrPoison

/-- `deallocate` while the `PoisonBomb` is armed: the chunk goes to the head of its order's free
list; the byte count is checked for underflow. -/
def deallocateArmed (s : FreeingBumpHeapAllocator) (mem : Memory) (ptr : Nat) :
    FreeingBumpHeapAllocator × Memory × Except Error Unit :=
  match observeMemorySize s.lastObservedMemorySize mem with
  | .error e => (s, mem, .error e)
  | .ok observed =>
      let s := { s with lastObservedMemorySize := observed }
      match Unsigned.checkedSub ptr headerSize with
      | none => (s, mem, .error (.other "Invalid pointer for deallocation"))
      | some headerPtr =>
          match Header.readFrom mem headerPtr with
          | .error e => (s, mem, .error e)
          | .ok (.free _) => (s, mem, .error (.other "the allocation points to an empty header"))
          | .ok (.occupied order) =>
              let prevHead := s.freeLists.heads order
              let s := { s with freeLists := s.freeLists.set order (.ptr headerPtr) }
              match (Header.free prevHead).writeInto mem headerPtr with
              | .error e => (s, mem, .error e)
              | .ok mem =>
                  match Unsigned.checkedSub s.stats.bytesAllocated (order.size + headerSize) with
                  | none => (s, mem, .error (.other "underflow of the currently allocated bytes count"))
                  | some bytesAllocated =>
                      ({ s with stats := { s.stats with bytesAllocated := bytesAllocated } }, mem, .ok ())

/-- `deallocate`; it has no unchecked arithmetic, so it never panics. -/
def deallocate (s : FreeingBumpHeapAllocator) (mem : Memory) (ptr : Nat) :
    FreeingBumpHeapAllocator × Memory × Except Error Unit :=
  if s.poisoned then (s, mem, .error (.other "the allocator has been poisoned"))
  else disarmOrPoison (deallocateArmed s mem ptr)

end Substrate.Allocator
