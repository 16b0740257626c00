import Mathlib

/-! # The pages of the message queue

`Page` of `src/frame/message-queue/src/lib.rs`: messages in a heap, each behind an `ItemHeader`,
walked by byte offsets as in the source. The `Size` counters are `Nat`: they count at most
`HeapSize` bytes and never saturate.
-/

namespace Substrate.MessageQueue

/-- An item of a heap: its header's `is_processed` flag and its payload, whose length is the
header's `payload_len`. -/
structure Item where
  isProcessed : Bool
  payload : List UInt8
  deriving DecidableEq, Repr

structure Page where
  remaining : Nat
  remainingSize : Nat
  firstIndex : Nat
  first : Nat
  last : Nat
  heap : List Item
  deriving DecidableEq, Repr

section Heap

-- `ItemHeader::<Size>::max_encoded_len()`, the length of an encoded header
variable (headerLen : Nat)

def Item.encodedLen (item : Item) : Nat := headerLen + item.payload.length

def heapLen (heap : List Item) : Nat := (heap.map (Item.encodedLen headerLen)).sum

def itemAt : List Item → Nat → Option Item
  | [], _ => none
  | item :: _, 0 => some item
  | item :: rest, offset + 1 =>
      if item.encodedLen headerLen ≤ offset + 1 then
        itemAt rest (offset + 1 - item.encodedLen headerLen)
      else none

def markProcessedAt : List Item → Nat → List Item
  | [], _ => []
  | item :: rest, 0 => { item with isProcessed := true } :: rest
  | item :: rest, offset + 1 =>
      if item.encodedLen headerLen ≤ offset + 1 then
        item :: markProcessedAt rest (offset + 1 - item.encodedLen headerLen)
      else item :: rest

@[simp] theorem heapLen_nil : heapLen headerLen [] = 0 := rfl

variable (item : Item)

@[simp] theorem heapLen_cons (heap : List Item) :
    heapLen headerLen (item :: heap) = item.encodedLen headerLen + heapLen headerLen heap := by
  simp [heapLen]

@[simp] theorem heapLen_append (heap heap' : List Item) :
    heapLen headerLen (heap ++ heap') = heapLen headerLen heap + heapLen headerLen heap' := by
  simp [heapLen]

@[simp] theorem itemAt_cons_zero (rest : List Item) :
    itemAt headerLen (item :: rest) 0 = some item := rfl

/-- An item starts where the items before it end. -/
theorem itemAt_cons_add (rest : List Item) (offset : Nat) :
    itemAt headerLen (item :: rest) (item.encodedLen headerLen + offset) =
      if item.encodedLen headerLen = 0 ∧ offset = 0 then some item
      else itemAt headerLen rest offset := by
  cases hoffset : item.encodedLen headerLen + offset with
  | zero =>
    have hlen : item.encodedLen headerLen = 0 := by omega
    have hzero : offset = 0 := by omega
    simp [hlen, hzero]
  | succ n =>
    rw [itemAt, if_pos (by omega)]
    by_cases hzero : item.encodedLen headerLen = 0 ∧ offset = 0
    · omega
    · rw [if_neg hzero, show n + 1 - item.encodedLen headerLen = offset by omega]

/-- The header of an appended item starts at the end of the heap. -/
theorem itemAt_append_heapLen (hpos : 0 < headerLen) :
    ∀ (heap : List Item) (item : Item) (rest : List Item),
      itemAt headerLen (heap ++ item :: rest) (heapLen headerLen heap) = some item
  | [], _, _ => rfl
  | first :: heap, item, rest => by
    rw [List.cons_append, heapLen_cons, itemAt_cons_add,
      if_neg (by simp [Item.encodedLen]; omega)]
    exact itemAt_append_heapLen hpos heap item rest

theorem take_append_getElem_cons_drop (heap : List Item) {k : Nat} (hk : k < heap.length) :
    heap.take k ++ heap[k] :: heap.drop (k + 1) = heap := by
  rw [← List.drop_eq_getElem_cons hk, List.take_append_drop]

/-- The header of item `k` starts where the `k` items before it end. -/
theorem itemAt_take (hpos : 0 < headerLen) (heap : List Item) {k : Nat} (hk : k < heap.length) :
    itemAt headerLen heap (heapLen headerLen (heap.take k)) = some heap[k] := by
  calc itemAt headerLen heap (heapLen headerLen (heap.take k))
      = itemAt headerLen (heap.take k ++ heap[k] :: heap.drop (k + 1))
          (heapLen headerLen (heap.take k)) := by rw [take_append_getElem_cons_drop heap hk]
    _ = some heap[k] := itemAt_append_heapLen headerLen hpos _ _ _

theorem itemAt_heapLen (hpos : 0 < headerLen) :
    ∀ heap : List Item, itemAt headerLen heap (heapLen headerLen heap) = none
  | [] => rfl
  | item :: rest => by
    rw [heapLen_cons, itemAt_cons_add, if_neg (by simp [Item.encodedLen]; omega)]
    exact itemAt_heapLen hpos rest

/-- A header the offset decoder finds starts an item, at the end of the items before it. -/
theorem exists_of_itemAt_eq_some :
    ∀ {heap : List Item} {offset : Nat} {item : Item}, itemAt headerLen heap offset = some item →
      ∃ pre rest, heap = pre ++ item :: rest ∧ offset = heapLen headerLen pre
  | [], _, _, h => by cases h
  | first :: rest, 0, item, h => by
    cases h
    exact ⟨[], rest, rfl, rfl⟩
  | first :: rest, offset + 1, item, h => by
    rw [itemAt] at h
    split at h
    · obtain ⟨pre, post, rfl, hoffset⟩ := exists_of_itemAt_eq_some h
      exact ⟨first :: pre, post, rfl, by rw [heapLen_cons]; omega⟩
    · cases h

/-- Rewriting the header at the offset of an item marks that item alone. -/
theorem markProcessedAt_append (hpos : 0 < headerLen) :
    ∀ (heap : List Item) (item : Item) (rest : List Item),
      markProcessedAt headerLen (heap ++ item :: rest) (heapLen headerLen heap) =
        heap ++ { item with isProcessed := true } :: rest
  | [], _, _ => rfl
  | first :: heap, item, rest => by
    have hlen : 0 < first.encodedLen headerLen := by simp [Item.encodedLen]; omega
    obtain ⟨n, hn⟩ : ∃ n, heapLen headerLen (first :: heap) = n + 1 :=
      ⟨_, (Nat.succ_pred_eq_of_pos (by rw [heapLen_cons]; omega)).symm⟩
    have hsum : first.encodedLen headerLen + heapLen headerLen heap = n + 1 := by
      rw [← heapLen_cons, hn]
    rw [List.cons_append, List.cons_append, hn, markProcessedAt, if_pos (by omega),
      show n + 1 - first.encodedLen headerLen = heapLen headerLen heap by omega,
      markProcessedAt_append hpos heap item rest]

/-- Rewriting the header of item `k` marks item `k`. -/
theorem markProcessedAt_take (hpos : 0 < headerLen) (heap : List Item) {k : Nat}
    (hk : k < heap.length) :
    markProcessedAt headerLen heap (heapLen headerLen (heap.take k)) =
      heap.set k { heap[k] with isProcessed := true } := by
  calc markProcessedAt headerLen heap (heapLen headerLen (heap.take k))
      = markProcessedAt headerLen (heap.take k ++ heap[k] :: heap.drop (k + 1))
          (heapLen headerLen (heap.take k)) := by rw [take_append_getElem_cons_drop heap hk]
    _ = heap.take k ++ { heap[k] with isProcessed := true } :: heap.drop (k + 1) :=
      markProcessedAt_append headerLen hpos _ _ _
    _ = heap.set k { heap[k] with isProcessed := true } := by
      rw [List.set_eq_take_append_cons_drop, if_pos hk]

theorem map_payload_markProcessedAt : ∀ (heap : List Item) (offset : Nat),
    (markProcessedAt headerLen heap offset).map Item.payload = heap.map Item.payload
  | [], _ => rfl
  | _ :: _, 0 => rfl
  | item :: rest, offset + 1 => by
    rw [markProcessedAt]
    split
    · rw [List.map_cons, List.map_cons, map_payload_markProcessedAt rest]
    · rfl

@[simp] theorem length_markProcessedAt (heap : List Item) (offset : Nat) :
    (markProcessedAt headerLen heap offset).length = heap.length := by
  simpa using congrArg List.length (map_payload_markProcessedAt headerLen heap offset)

/-- The length of a heap depends only on its payloads. -/
theorem heapLen_congr : ∀ {heap heap' : List Item}, heap.map Item.payload = heap'.map Item.payload →
    heapLen headerLen heap = heapLen headerLen heap'
  | [], [], _ => rfl
  | [], _ :: _, h => by simp at h
  | _ :: _, [], h => by simp at h
  | item :: heap, item' :: heap', h => by
    simp only [List.map_cons, List.cons.injEq] at h
    rw [heapLen_cons, heapLen_cons, heapLen_congr h.2, Item.encodedLen, Item.encodedLen, h.1]

theorem heapLen_take_le (heap : List Item) (k : Nat) :
    heapLen headerLen (heap.take k) ≤ heapLen headerLen heap := by
  conv_rhs => rw [← List.take_append_drop k heap]
  rw [heapLen_append]
  exact Nat.le_add_right _ _

theorem heapLen_take_succ (heap : List Item) {k : Nat} (hk : k < heap.length) :
    heapLen headerLen (heap.take (k + 1)) =
      heapLen headerLen (heap.take k) + heap[k].encodedLen headerLen := by
  rw [List.take_add_one, List.getElem?_eq_getElem hk, Option.toList_some, heapLen_append,
    heapLen_cons, heapLen_nil, Nat.add_zero]

end Heap

def unprocessed (heap : List Item) : List (List UInt8) :=
  (heap.filter fun item => !item.isProcessed).map Item.payload

namespace Page

variable (headerLen : Nat)

/-- `Page::from_message`. The source truncates the heap to `HeapSize`, which a message of at most
`MaxMessageLen` bytes and its header fit. -/
def fromMessage (message : List UInt8) : Page :=
  { remaining := 1, remainingSize := message.length, firstIndex := 0, first := 0, last := 0,
    heap := [⟨false, message⟩] }

/-- `Page::try_append_message`: `none` where the message and its header do not fit the room
`HeapSize` leaves. -/
def tryAppendMessage (heapSize : Nat) (page : Page) (message : List UInt8) : Option Page :=
  let pos := heapLen headerLen page.heap
  if heapSize - pos < headerLen + message.length then none
  else
    some { page with
      heap := page.heap ++ [⟨false, message⟩], last := pos, remaining := page.remaining + 1,
      remainingSize := page.remainingSize + message.length }

/-- `Page::peek_first`: the payload at `first`, none past `last`. -/
def peekFirst (page : Page) : Option (List UInt8) :=
  if page.last < page.first then none
  else (itemAt headerLen page.heap (min page.first (heapLen headerLen page.heap))).map Item.payload

/-- `Page::skip_first`: move `first` past the item there, marking it processed first if
`is_processed`. -/
def skipFirst (page : Page) (isProcessed : Bool) : Page :=
  let f := min page.first (heapLen headerLen page.heap)
  match itemAt headerLen page.heap f with
  | none => page
  | some h =>
      let page :=
        if isProcessed && !h.isProcessed then
          { page with
            heap := markProcessedAt headerLen page.heap f, remaining := page.remaining - 1,
            remainingSize := page.remainingSize - h.payload.length }
        else page
      { page with
        first := page.first + headerLen + h.payload.length, firstIndex := page.firstIndex + 1 }

def peekIndex (page : Page) (index : Nat) : Option (Nat × Bool × List UInt8) :=
  page.heap[index]?.map fun h => (heapLen headerLen (page.heap.take index), h.isProcessed, h.payload)

/-- `Page::note_processed_at_pos`. The source slices the heap at `pos`, which `peek_index`
returned, so within the heap. -/
def noteProcessedAtPos (page : Page) (pos : Nat) : Page :=
  match itemAt headerLen page.heap pos with
  | none => page
  | some h =>
      if !h.isProcessed then
        { page with
          heap := markProcessedAt headerLen page.heap pos, remaining := page.remaining - 1,
          remainingSize := page.remainingSize - h.payload.length }
      else page

def isComplete (page : Page) : Bool := page.remaining == 0

/-! ## A page of one message -/

variable (message : List UInt8)

@[simp] theorem isComplete_fromMessage :
    (fromMessage message).isComplete = false := rfl

@[simp] theorem peekFirst_fromMessage :
    (fromMessage message).peekFirst headerLen = some message := by
  simp [peekFirst, fromMessage]

/-- Skipping the message of a one-message page moves `first` past its end and marks it as
asked. -/
theorem skipFirst_fromMessage (isProcessed : Bool) :
    (fromMessage message).skipFirst headerLen isProcessed =
      { remaining := if isProcessed then 0 else 1,
        remainingSize := if isProcessed then 0 else message.length, firstIndex := 1,
        first := headerLen + message.length, last := 0, heap := [⟨isProcessed, message⟩] } := by
  cases isProcessed <;> simp [skipFirst, fromMessage, markProcessedAt]

/-- Skipping the one message completes the page exactly when the message was processed. -/
@[simp] theorem isComplete_skipFirst_fromMessage (isProcessed : Bool) :
    ((fromMessage message).skipFirst headerLen isProcessed).isComplete = isProcessed := by
  rw [skipFirst_fromMessage]
  cases isProcessed <;> rfl

/-- Past its one message, a page has nothing to service. -/
theorem peekFirst_skipFirst_fromMessage (hpos : 0 < headerLen) (message : List UInt8)
    (isProcessed : Bool) :
    ((fromMessage message).skipFirst headerLen isProcessed).peekFirst headerLen = none := by
  rw [skipFirst_fromMessage, peekFirst, if_pos (by dsimp only; omega)]

/-- A second message fits a one-message page when both and their headers fit the heap. -/
theorem tryAppendMessage_fromMessage {heapSize : Nat} (message message' : List UInt8)
    (hfits : headerLen + message.length + (headerLen + message'.length) ≤ heapSize) :
    (fromMessage message).tryAppendMessage headerLen heapSize message' =
      some ⟨2, message.length + message'.length, 0, 0, headerLen + message.length,
        [⟨false, message⟩, ⟨false, message'⟩]⟩ := by
  have hroom : ¬heapSize - heapLen headerLen (fromMessage message).heap <
      headerLen + message'.length := by
    simp only [fromMessage, heapLen_cons, heapLen_nil, Item.encodedLen]
    omega
  rw [tryAppendMessage, if_neg hroom]
  simp [fromMessage, Item.encodedLen]

/-! ## The pages the pallet builds -/

/-- A page as `from_message` and the calls after it leave it: `last` at the last item, `first` at
item `first_index`, the counters counting the unprocessed messages. -/
structure Wf (heapSize : Nat) (page : Page) : Prop where
  heap_ne_nil : page.heap ≠ []
  heapLen_le : heapLen headerLen page.heap ≤ heapSize
  last_eq : page.last = heapLen headerLen page.heap.dropLast
  firstIndex_le : page.firstIndex ≤ page.heap.length
  first_eq : page.first = heapLen headerLen (page.heap.take page.firstIndex)
  remaining_eq : page.remaining = (unprocessed page.heap).length
  remainingSize_eq : page.remainingSize = ((unprocessed page.heap).map List.length).sum

/-- The calls the pallet makes on a page after `from_message`. -/
inductive Call where
  | tryAppendMessage (message : List UInt8)
  | skipFirst (isProcessed : Bool)
  | noteProcessedAtPos (pos : Nat)

def Call.run (heapSize : Nat) : Call → Page → Page
  | .tryAppendMessage message, page => (page.tryAppendMessage headerLen heapSize message).getD page
  | .skipFirst isProcessed, page => page.skipFirst headerLen isProcessed
  | .noteProcessedAtPos pos, page => page.noteProcessedAtPos headerLen pos

theorem map_payload_skipFirst (page : Page) (isProcessed : Bool) :
    (page.skipFirst headerLen isProcessed).heap.map Item.payload = page.heap.map Item.payload := by
  simp only [Page.skipFirst]
  split
  · rfl
  · split <;> simp [map_payload_markProcessedAt]

section Wf

variable {headerLen} {heapSize : Nat} {page : Page}

theorem wf_fromMessage {message : List UInt8} (hfits : headerLen + message.length ≤ heapSize) :
    (fromMessage message).Wf headerLen heapSize where
  heap_ne_nil := List.cons_ne_nil _ _
  heapLen_le := by simpa [Page.fromMessage, Item.encodedLen] using hfits
  last_eq := rfl
  firstIndex_le := Nat.zero_le _
  first_eq := rfl
  remaining_eq := rfl
  remainingSize_eq := by simp [Page.fromMessage, unprocessed]

theorem Wf.tryAppendMessage_eq_none_iff (hw : page.Wf headerLen heapSize) (message : List UInt8) :
    page.tryAppendMessage headerLen heapSize message = none ↔
      heapSize < heapLen headerLen page.heap + (headerLen + message.length) := by
  have hle := hw.heapLen_le
  rw [Page.tryAppendMessage]
  split
  · simp only [true_iff]
    omega
  · simp only [reduceCtorEq, false_iff]
    omega

/-- An appended message is one more unprocessed item, at the end of the heap. -/
theorem Wf.tryAppendMessage_eq_some (hw : page.Wf headerLen heapSize) {message : List UInt8}
    {page' : Page} (h : page.tryAppendMessage headerLen heapSize message = some page') :
    page'.heap = page.heap ++ [⟨false, message⟩] ∧ page'.Wf headerLen heapSize := by
  rw [Page.tryAppendMessage] at h
  split at h
  · cases h
  · rename_i hroom
    cases h
    have hle := hw.heapLen_le
    refine ⟨rfl, ⟨by simp, ?_, by simp, ?_, ?_, ?_, ?_⟩⟩
    · simp only [heapLen_append, heapLen_cons, heapLen_nil, Item.encodedLen]
      omega
    · simp only [List.length_append, List.length_singleton]
      exact Nat.le_succ_of_le hw.firstIndex_le
    · rw [List.take_append_of_le_length hw.firstIndex_le]
      exact hw.first_eq
    · simp [hw.remaining_eq, unprocessed]
    · simp [hw.remainingSize_eq, unprocessed]

/-- Marking an unprocessed item processed counts it and its payload off the counters. -/
theorem Wf.markProcessed (hw : page.Wf headerLen heapSize) (hpos : 0 < headerLen) {pos : Nat}
    {item : Item} (hitem : itemAt headerLen page.heap pos = some item)
    (hnew : item.isProcessed = false) :
    ({ page with
        heap := markProcessedAt headerLen page.heap pos, remaining := page.remaining - 1,
        remainingSize := page.remainingSize - item.payload.length } : Page).Wf headerLen heapSize := by
  have hpayloads := map_payload_markProcessedAt headerLen page.heap pos
  obtain ⟨pre, rest, hheap, hoffset⟩ := exists_of_itemAt_eq_some headerLen hitem
  have hmark : markProcessedAt headerLen page.heap pos =
      pre ++ { item with isProcessed := true } :: rest := by
    rw [hoffset, hheap]
    exact markProcessedAt_append headerLen hpos pre item rest
  refine ⟨?_, ?_, ?_, ?_, ?_, ?_, ?_⟩
  · simp [hmark]
  · rw [heapLen_congr headerLen hpayloads]
    exact hw.heapLen_le
  · have hlast : (markProcessedAt headerLen page.heap pos).dropLast.map Item.payload =
        page.heap.dropLast.map Item.payload := by
      rw [List.map_dropLast, List.map_dropLast, hpayloads]
    rw [heapLen_congr headerLen hlast]
    exact hw.last_eq
  · simpa using hw.firstIndex_le
  · have hfirst : ((markProcessedAt headerLen page.heap pos).take page.firstIndex).map Item.payload =
        (page.heap.take page.firstIndex).map Item.payload := by
      rw [List.map_take, List.map_take, hpayloads]
    rw [heapLen_congr headerLen hfirst]
    exact hw.first_eq
  · rw [hw.remaining_eq, hmark, hheap]
    simp [unprocessed, hnew]
  · rw [hw.remainingSize_eq, hmark, hheap]
    simp [unprocessed, hnew]
    omega

/-- Moving `first` past item `first_index`, whose payload is `payload`. -/
theorem Wf.advance (hw : page.Wf headerLen heapSize) (hk : page.firstIndex < page.heap.length)
    {payload : List UInt8} (hpayload : (page.heap.map Item.payload)[page.firstIndex]? = some payload) :
    ({ page with
        first := page.first + headerLen + payload.length,
        firstIndex := page.firstIndex + 1 } : Page).Wf headerLen heapSize where
  heap_ne_nil := hw.heap_ne_nil
  heapLen_le := hw.heapLen_le
  last_eq := hw.last_eq
  firstIndex_le := hk
  first_eq := by
    rw [List.getElem?_map, List.getElem?_eq_getElem hk, Option.map_some, Option.some.injEq]
      at hpayload
    rw [heapLen_take_succ headerLen _ hk, ← hw.first_eq, Item.encodedLen, hpayload, Nat.add_assoc]
  remaining_eq := hw.remaining_eq
  remainingSize_eq := hw.remainingSize_eq

/-- The offset `skip_first` reads, `first` within the heap, ends the items before
`first_index`. -/
theorem Wf.min_first (hw : page.Wf headerLen heapSize) :
    min page.first (heapLen headerLen page.heap) =
      heapLen headerLen (page.heap.take page.firstIndex) := by
  rw [min_eq_left (by rw [hw.first_eq]; exact heapLen_take_le headerLen _ _), hw.first_eq]

/-- Before the last item is skipped, the header at `first` is item `first_index`. -/
theorem Wf.itemAt_first (hw : page.Wf headerLen heapSize) (hpos : 0 < headerLen)
    (hk : page.firstIndex < page.heap.length) :
    itemAt headerLen page.heap (min page.first (heapLen headerLen page.heap)) =
      some page.heap[page.firstIndex] := by
  rw [hw.min_first]
  exact itemAt_take headerLen hpos _ hk

/-- After it, `first` is the end of the heap, where no header starts. -/
theorem Wf.itemAt_first_of_le (hw : page.Wf headerLen heapSize) (hpos : 0 < headerLen)
    (hk : page.heap.length ≤ page.firstIndex) :
    itemAt headerLen page.heap (min page.first (heapLen headerLen page.heap)) = none := by
  rw [hw.first_eq, List.take_of_length_le hk, min_self]
  exact itemAt_heapLen headerLen hpos _

theorem Wf.skipFirst (hw : page.Wf headerLen heapSize) (hpos : 0 < headerLen)
    (isProcessed : Bool) : (page.skipFirst headerLen isProcessed).Wf headerLen heapSize := by
  rcases Nat.lt_or_ge page.firstIndex page.heap.length with hk | hk
  · have hpayload : (page.heap.map Item.payload)[page.firstIndex]? =
        some page.heap[page.firstIndex].payload := by
      simp [hk]
    simp only [Page.skipFirst, hw.itemAt_first hpos hk]
    split
    · rename_i hmark
      have hnew : page.heap[page.firstIndex].isProcessed = false := by
        simp only [Bool.and_eq_true, Bool.not_eq_true'] at hmark
        exact hmark.2
      exact (hw.markProcessed hpos (hw.itemAt_first hpos hk) hnew).advance (by simpa using hk)
        (by simpa [map_payload_markProcessedAt] using hpayload)
    · exact hw.advance hk hpayload
  · simp only [Page.skipFirst, hw.itemAt_first_of_le hpos hk]
    exact hw

theorem Wf.firstIndex_skipFirst (hw : page.Wf headerLen heapSize) (hpos : 0 < headerLen)
    (isProcessed : Bool) :
    (page.skipFirst headerLen isProcessed).firstIndex = min (page.firstIndex + 1) page.heap.length := by
  rcases Nat.lt_or_ge page.firstIndex page.heap.length with hk | hk
  · simp only [Page.skipFirst, hw.itemAt_first hpos hk]
    split <;> exact (min_eq_left hk).symm
  · have hle := hw.firstIndex_le
    simp only [Page.skipFirst, hw.itemAt_first_of_le hpos hk]
    omega

theorem Wf.noteProcessedAtPos (hw : page.Wf headerLen heapSize) (hpos : 0 < headerLen)
    (pos : Nat) : (page.noteProcessedAtPos headerLen pos).Wf headerLen heapSize := by
  rw [Page.noteProcessedAtPos]
  split
  · exact hw
  · rename_i item hitem
    split
    · rename_i hnew
      exact hw.markProcessed hpos hitem (by simpa using hnew)
    · exact hw

/-- `page'` is `page` with `item`, at `index`, marked processed, and counted off the counters
unless it already was. -/
structure Marked (page : Page) (index : Nat) (item : Item) (page' : Page) : Prop where
  heap_eq : page'.heap = page.heap.set index { item with isProcessed := true }
  remaining_eq : page'.remaining = page.remaining - if item.isProcessed then 0 else 1
  remainingSize_eq :
    page'.remainingSize = page.remainingSize - if item.isProcessed then 0 else item.payload.length

omit heapSize in
/-- What `note_processed_at_pos` and `skip_first(true)` do to item `index` once they have found
its header. -/
theorem marked_of_getElem (hpos : 0 < headerLen) (page : Page) {index : Nat}
    (hindex : index < page.heap.length) :
    Marked page index page.heap[index]
      (if !page.heap[index].isProcessed then
        { page with
          heap := markProcessedAt headerLen page.heap (heapLen headerLen (page.heap.take index)),
          remaining := page.remaining - 1,
          remainingSize := page.remainingSize - page.heap[index].payload.length }
      else page) := by
  cases hflag : page.heap[index].isProcessed with
  | false => exact ⟨by simp [markProcessedAt_take headerLen hpos _ hindex], by simp [hflag],
      by simp [hflag]⟩
  | true =>
    -- an item already processed is written back as it was
    have hsame : { page.heap[index] with isProcessed := true } = page.heap[index] := by
      rw [← hflag]
    exact ⟨by simp [hsame], by simp [hflag], by simp [hflag]⟩

omit heapSize in
/-- `note_processed_at_pos` at the offset `peek_index` gives for item `index` marks that item. -/
theorem noteProcessedAtPos_take (hpos : 0 < headerLen) (page : Page) {index : Nat}
    (hindex : index < page.heap.length) :
    Marked page index page.heap[index]
      (page.noteProcessedAtPos headerLen (heapLen headerLen (page.heap.take index))) := by
  rw [Page.noteProcessedAtPos, itemAt_take headerLen hpos _ hindex]
  exact marked_of_getElem hpos page hindex

/-- `skip_first(true)` marks item `first_index` and moves past it. -/
theorem Wf.skipFirst_true (hw : page.Wf headerLen heapSize) (hpos : 0 < headerLen)
    (hk : page.firstIndex < page.heap.length) :
    Marked page page.firstIndex page.heap[page.firstIndex] (page.skipFirst headerLen true) ∧
      (page.skipFirst headerLen true).firstIndex = page.firstIndex + 1 := by
  have hmarked := marked_of_getElem hpos page hk
  simp only [Page.skipFirst, hw.min_first, itemAt_take headerLen hpos _ hk, Bool.true_and]
  exact ⟨⟨hmarked.heap_eq, hmarked.remaining_eq, hmarked.remainingSize_eq⟩, by split <;> rfl⟩

/-- The step lemma: every call keeps a page well formed. -/
theorem Wf.run (hw : page.Wf headerLen heapSize) (hpos : 0 < headerLen) (call : Call) :
    (call.run headerLen heapSize page).Wf headerLen heapSize := by
  cases call with
  | tryAppendMessage message =>
    cases happend : page.tryAppendMessage headerLen heapSize message with
    | none => simpa [Call.run, happend] using hw
    | some page' => simpa [Call.run, happend] using (hw.tryAppendMessage_eq_some happend).2
  | skipFirst isProcessed => exact hw.skipFirst hpos isProcessed
  | noteProcessedAtPos pos => exact hw.noteProcessedAtPos hpos pos

/-- `peek_first` reads item `first_index`, and nothing past the last item. -/
theorem Wf.peekFirst_eq (hw : page.Wf headerLen heapSize) (hpos : 0 < headerLen) :
    page.peekFirst headerLen = (page.heap.map Item.payload)[page.firstIndex]? := by
  rcases Nat.lt_or_ge page.firstIndex page.heap.length with hk | hk
  · -- `first` is at most `last`: the items before it are among those before the last
    have hle : page.first ≤ page.last := by
      have htake : page.heap.take page.firstIndex =
          (page.heap.take (page.heap.length - 1)).take page.firstIndex := by
        rw [List.take_take, min_eq_left (by omega)]
      rw [hw.first_eq, hw.last_eq, List.dropLast_eq_take, htake]
      exact heapLen_take_le headerLen _ _
    rw [Page.peekFirst, if_neg (Nat.not_lt.mpr hle), hw.itemAt_first hpos hk]
    simp [hk]
  · -- `first` is past `last` by the length of the last item
    have hlt : page.last < page.first := by
      rw [hw.first_eq, hw.last_eq, List.take_of_length_le hk]
      conv_rhs => rw [← List.dropLast_append_getLast hw.heap_ne_nil]
      simp only [heapLen_append, heapLen_cons, heapLen_nil, Item.encodedLen]
      omega
    rw [Page.peekFirst, if_pos hlt, List.getElem?_eq_none (by simpa using hk)]

/-- The run lemma: a page stays well formed over every sequence of calls. -/
theorem Wf.runCalls (hpos : 0 < headerLen) : ∀ (calls : List Call) {page : Page},
    page.Wf headerLen heapSize →
      (calls.foldl (fun page call => call.run headerLen heapSize page) page).Wf headerLen heapSize
  | [], _, hw => hw
  | call :: calls, _, hw => Wf.runCalls hpos calls (hw.run hpos call)

/-- Appending messages one after another puts those that fit after the items, in order. -/
theorem Wf.heap_foldl_tryAppendMessage : ∀ (messages : List (List UInt8)) {page : Page},
    page.Wf headerLen heapSize → ∃ appended : List (List UInt8), appended.Sublist messages ∧
      (messages.foldl (fun page message => (Call.tryAppendMessage message).run headerLen heapSize page)
        page).heap = page.heap ++ appended.map (⟨false, ·⟩)
  | [], page, _ => ⟨[], List.Sublist.slnil, by simp⟩
  | message :: messages, page, hw => by
    rw [List.foldl_cons]
    cases happend : page.tryAppendMessage headerLen heapSize message with
    | none =>
      -- refused: the page is as it was
      have hrun : (Call.tryAppendMessage message).run headerLen heapSize page = page := by
        simp [Call.run, happend]
      obtain ⟨appended, hsub, hheap⟩ := Wf.heap_foldl_tryAppendMessage messages hw
      exact ⟨appended, hsub.cons message, by rw [hrun, hheap]⟩
    | some page' =>
      obtain ⟨happ, hw'⟩ := hw.tryAppendMessage_eq_some happend
      have hrun : (Call.tryAppendMessage message).run headerLen heapSize page = page' := by
        simp [Call.run, happend]
      obtain ⟨appended, hsub, hheap⟩ := Wf.heap_foldl_tryAppendMessage messages hw'
      exact ⟨message :: appended, hsub.cons_cons message, by simp [hrun, hheap, happ]⟩

/-- `peek_first` after skipping `flags.length` items reads the item that many after
`first_index`, and nothing once they run past the last one. -/
theorem Wf.peekFirst_foldl_skipFirst (hpos : 0 < headerLen) : ∀ (flags : List Bool) {page : Page},
    page.Wf headerLen heapSize →
      (flags.foldl (Page.skipFirst headerLen) page).peekFirst headerLen =
        (page.heap.map Item.payload)[page.firstIndex + flags.length]?
  | [], _, hw => hw.peekFirst_eq hpos
  | flag :: flags, page, hw => by
    rw [List.foldl_cons, Wf.peekFirst_foldl_skipFirst hpos flags (hw.skipFirst hpos flag),
      map_payload_skipFirst, hw.firstIndex_skipFirst hpos, List.length_cons]
    rcases Nat.lt_or_ge page.firstIndex page.heap.length with hk | hk
    · rw [min_eq_left hk, Nat.add_assoc, Nat.add_comm 1]
    · rw [List.getElem?_eq_none (by simp; omega), List.getElem?_eq_none (by simp; omega)]

end Wf

/-- What `from_message`, `try_append_message`, `peek_index`, `peek_first`, `skip_first`,
`note_processed_at_pos` and the counters do on the pages the pallet builds. -/
structure Spec (heapSize : Nat) : Prop where
  fromMessage : ∀ message : List UInt8, headerLen + message.length ≤ heapSize →
    (Page.fromMessage message).heap = [⟨false, message⟩] ∧
      (Page.fromMessage message).Wf headerLen heapSize
  tryAppendMessage : ∀ page : Page, page.Wf headerLen heapSize → ∀ message : List UInt8,
    (page.tryAppendMessage headerLen heapSize message = none ↔
      heapSize < heapLen headerLen page.heap + (headerLen + message.length)) ∧
    ∀ page', page.tryAppendMessage headerLen heapSize message = some page' →
      page'.heap = page.heap ++ [⟨false, message⟩]
  appended : ∀ page : Page, page.Wf headerLen heapSize → ∀ messages : List (List UInt8),
    ∃ appended : List (List UInt8), appended.Sublist messages ∧
      (messages.foldl (fun page message => (Call.tryAppendMessage message).run headerLen heapSize page)
        page).heap = page.heap ++ appended.map (⟨false, ·⟩)
  peekIndex : ∀ (page : Page) (index : Nat) (hindex : index < page.heap.length), ∃ pos,
    page.peekIndex headerLen index =
      some (pos, page.heap[index].isProcessed, page.heap[index].payload) ∧
    itemAt headerLen page.heap pos = some page.heap[index]
  peekFirst : ∀ page : Page, page.Wf headerLen heapSize → ∀ flags : List Bool,
    (flags.foldl (Page.skipFirst headerLen) page).peekFirst headerLen =
      (page.heap.map Item.payload)[page.firstIndex + flags.length]?
  noteProcessedAtPos : ∀ (page : Page) (index : Nat) (hindex : index < page.heap.length),
    Marked page index page.heap[index]
      (page.noteProcessedAtPos headerLen (heapLen headerLen (page.heap.take index)))
  skipFirst : ∀ page : Page, page.Wf headerLen heapSize →
    ∀ hk : page.firstIndex < page.heap.length,
      Marked page page.firstIndex page.heap[page.firstIndex] (page.skipFirst headerLen true) ∧
        (page.skipFirst headerLen true).firstIndex = page.firstIndex + 1
  run : ∀ page : Page, page.Wf headerLen heapSize → ∀ calls : List Call,
    (calls.foldl (fun page call => call.run headerLen heapSize page) page).Wf headerLen heapSize

/-- `peek_index` gives item `index` at the offset where the decoder of `peek_first`, `skip_first`
and `note_processed_at_pos` finds it. -/
theorem peekIndex_eq (hpos : 0 < headerLen) (page : Page) {index : Nat}
    (hindex : index < page.heap.length) : ∃ pos,
      page.peekIndex headerLen index =
        some (pos, page.heap[index].isProcessed, page.heap[index].payload) ∧
      itemAt headerLen page.heap pos = some page.heap[index] :=
  ⟨_, by simp [Page.peekIndex, hindex], itemAt_take headerLen hpos _ hindex⟩

theorem page_items_and_counters {headerLen : Nat} (hpos : 0 < headerLen) (heapSize : Nat) :
    Spec headerLen heapSize where
  fromMessage _ hfits := ⟨rfl, wf_fromMessage hfits⟩
  tryAppendMessage _ hw message :=
    ⟨hw.tryAppendMessage_eq_none_iff message, fun _ happend => (hw.tryAppendMessage_eq_some happend).1⟩
  appended _ hw messages := hw.heap_foldl_tryAppendMessage messages
  peekIndex page _ hindex := peekIndex_eq headerLen hpos page hindex
  peekFirst _ hw flags := Wf.peekFirst_foldl_skipFirst hpos flags hw
  noteProcessedAtPos page _ hindex := noteProcessedAtPos_take hpos page hindex
  skipFirst _ hw hk := hw.skipFirst_true hpos hk
  run _ hw calls := Wf.runCalls hpos calls hw

theorem page_items_and_counters_of_header_five : 0 < 5 ∧ Spec 5 100 :=
  ⟨by decide, page_items_and_counters (by decide) 100⟩

end Page

end Substrate.MessageQueue
