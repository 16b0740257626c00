import Substrate.MessageQueue.Page
import Substrate.Weights.WeightMeter
import Mathlib

/-! # The message-queue pallet

`src/frame/message-queue/src/lib.rs`: a book of pages per origin, the origins with ready pages knit
into a ring. `service_queues` walks the ring within a weight meter. The runtime is a parameter,
whose `MessageProcessor` may call back into the pallet. `QueueChangeHandler` is not modelled;
indices and `Size` counters are `Nat`.
-/

namespace Substrate.MessageQueue

open Substrate.Weights

/-- `Neighbours`: a link of the ready ring. -/
structure Neighbours (Origin : Type) where
  prev : Origin
  next : Origin
  deriving DecidableEq, Repr

structure BookState (Origin : Type) where
  begin : Nat
  «end» : Nat
  count : Nat
  readyNeighbours : Option (Neighbours Origin)
  messageCount : Nat
  size : Nat
  deriving DecidableEq, Repr

/-- `BookState::default`. -/
instance {Origin : Type} : Inhabited (BookState Origin) := ⟨⟨0, 0, 0, none, 0, 0⟩⟩

inductive ProcessMessageError where
  | badFormat
  | corrupt
  | unsupported
  | overweight (weight : Weight)
  | yield
  deriving DecidableEq, Repr

/-- The events of the pallet. -/
inductive Event (Origin : Type) where
  | processingFailed (id : List UInt8) (origin : Origin) (error : ProcessMessageError)
  | processed (id : List UInt8) (origin : Origin) (weightUsed : Weight) (success : Bool)
  | overweightEnqueued (id : List UInt8) (origin : Origin) (pageIndex messageIndex : Nat)
  | pageReaped (origin : Origin) (index : Nat)
  deriving DecidableEq, Repr

/-- The errors of the pallet. -/
inductive Error where
  | notReapable
  | noPage
  | noMessage
  | alreadyProcessed
  | queued
  | insufficientWeight
  | temporarilyUnprocessable
  | queuePaused
  deriving DecidableEq, Repr

inductive ExecuteOverweightError where
  | notFound
  | alreadyProcessed
  | insufficientWeight
  | queuePaused
  | other
  deriving DecidableEq, Repr

inductive PageExecutionStatus where
  | bailed
  | noProgress
  | noMore
  deriving DecidableEq, Repr

inductive ItemExecutionStatus where
  | bailed
  | noProgress
  | noItem
  | executed (isProcessed : Bool)
  deriving DecidableEq, Repr

inductive MessageExecutionStatus where
  | insufficientWeight
  | overweight
  | processed
  | unprocessable (permanent : Bool)
  deriving DecidableEq, Repr

structure Footprint where
  count : Nat
  size : Nat
  deriving DecidableEq, Repr

structure WeightInfo where
  readyRingKnit : Weight
  readyRingUnknit : Weight
  serviceQueueBase : Weight
  servicePageBaseCompletion : Weight
  servicePageBaseNoCompletion : Weight
  servicePageItem : Weight
  bumpServiceHead : Weight
  reapPage : Weight
  executeOverweightPageRemoved : Weight
  executeOverweightPageUpdated : Weight

def WeightInfo.zero : WeightInfo :=
  ⟨Weight.zero, Weight.zero, Weight.zero, Weight.zero, Weight.zero, Weight.zero, Weight.zero,
    Weight.zero, Weight.zero, Weight.zero⟩

/-- What the pallet takes from its `Config`. -/
structure Config (Origin : Type) where
  weights : WeightInfo
  /-- `ItemHeader::<Size>::max_encoded_len()`: a `Size` and a flag, so at least a byte. -/
  headerLen : Nat
  headerLen_pos : 0 < headerLen
  heapSize : Nat
  maxStale : Nat
  /-- `QueuePausedQuery::is_paused`. -/
  isPaused : Origin → Bool
  blake2256 : List UInt8 → List UInt8

/-- `MaxMessageLen`: what a page leaves for a payload after its header. -/
def Config.maxMessageLen {Origin : Type} (cfg : Config Origin) : Nat := cfg.heapSize - cfg.headerLen

/-- The storage of the pallet: `BookStateFor`, `ServiceHead` and `Pages`, and the events
deposited. -/
structure State (Origin : Type) where
  bookStateFor : Origin → Option (BookState Origin)
  serviceHead : Option Origin
  pages : Origin → Nat → Option Page
  events : List (Event Origin)

/-- `ProcessMessage::process_message`, with the pallet's storage, which a processor calling back
into the pallet reads and writes. -/
def MessageProcessor (Origin : Type) : Type :=
  List UInt8 → Origin → WeightMeter → List UInt8 → State Origin →
    Except ProcessMessageError Bool × WeightMeter × List UInt8 × State Origin

variable {Origin : Type} [DecidableEq Origin]

namespace State

def book (s : State Origin) (origin : Origin) : BookState Origin := (s.bookStateFor origin).getD default

def insertBook (s : State Origin) (origin : Origin) (book : BookState Origin) : State Origin :=
  { s with bookStateFor := Function.update s.bookStateFor origin (some book) }

def mutateBook (s : State Origin) (origin : Origin) (f : BookState Origin → BookState Origin) :
    State Origin :=
  s.insertBook origin (f (s.book origin))

def insertPage (s : State Origin) (origin : Origin) (index : Nat) (page : Page) : State Origin :=
  { s with pages := Function.update s.pages origin (Function.update (s.pages origin) index (some page)) }

def removePage (s : State Origin) (origin : Origin) (index : Nat) : State Origin :=
  { s with pages := Function.update s.pages origin (Function.update (s.pages origin) index none) }

def deposit (s : State Origin) (event : Event Origin) : State Origin :=
  { s with events := s.events ++ [event] }

section Frame

variable (s : State Origin) (origin origin' : Origin) (index index' : Nat) (page : Page)
  (book : BookState Origin) (event : Event Origin) (head : Option Origin)

@[simp] theorem book_insertBook :
    (s.insertBook origin book).book origin' = if origin' = origin then book else s.book origin' := by
  by_cases h : origin' = origin
  · subst h
    simp [State.book, insertBook]
  · simp [State.book, insertBook, h]

@[simp] theorem book_insertPage :
    (s.insertPage origin index page).book origin' = s.book origin' := rfl

@[simp] theorem book_removePage :
    (s.removePage origin index).book origin' = s.book origin' := rfl

omit [DecidableEq Origin] in
@[simp] theorem book_setServiceHead :
    ({ s with serviceHead := head } : State Origin).book origin = s.book origin := rfl

omit [DecidableEq Origin] in
@[simp] theorem book_deposit :
    (s.deposit event).book origin = s.book origin := rfl

@[simp] theorem pages_insertBook :
    (s.insertBook origin book).pages = s.pages := rfl

omit [DecidableEq Origin] in
@[simp] theorem pages_deposit :
    (s.deposit event).pages = s.pages := rfl

@[simp] theorem pages_insertPage :
    (s.insertPage origin index page).pages origin' index' =
      if origin' = origin ∧ index' = index then some page else s.pages origin' index' := by
  by_cases h : origin' = origin
  · subst h
    by_cases hi : index' = index
    · subst hi
      simp [insertPage]
    · simp [insertPage, hi]
  · simp [insertPage, h]

@[simp] theorem pages_removePage :
    (s.removePage origin index).pages origin' index' =
      if origin' = origin ∧ index' = index then none else s.pages origin' index' := by
  by_cases h : origin' = origin
  · subst h
    by_cases hi : index' = index
    · subst hi
      simp [removePage]
    · simp [removePage, hi]
  · simp [removePage, h]

@[simp] theorem serviceHead_insertBook :
    (s.insertBook origin book).serviceHead = s.serviceHead := rfl

@[simp] theorem serviceHead_insertPage :
    (s.insertPage origin index page).serviceHead = s.serviceHead := rfl

@[simp] theorem serviceHead_removePage :
    (s.removePage origin index).serviceHead = s.serviceHead := rfl

omit [DecidableEq Origin] in
@[simp] theorem serviceHead_deposit :
    (s.deposit event).serviceHead = s.serviceHead := rfl

@[simp] theorem events_insertBook :
    (s.insertBook origin book).events = s.events := rfl

@[simp] theorem events_insertPage :
    (s.insertPage origin index page).events = s.events := rfl

@[simp] theorem events_removePage :
    (s.removePage origin index).events = s.events := rfl

omit [DecidableEq Origin] in
@[simp] theorem events_deposit :
    (s.deposit event).events = s.events ++ [event] := rfl

end Frame

end State

/-! ## The ready ring -/

/-- `ready_ring_knit`: knit `origin` into the ring before the head, and return its neighbours.
An error leaves the writes made before it. -/
def readyRingKnit (s : State Origin) (origin : Origin) :
    Except Unit (Neighbours Origin) × State Origin :=
  match s.serviceHead with
  | some head =>
      let headBookState := s.book head
      match headBookState.readyNeighbours with
      | none => (.error (), s)
      | some headNeighbours =>
          let tail := headNeighbours.prev
          let s := s.insertBook head
            { headBookState with readyNeighbours := some { headNeighbours with prev := origin } }
          let tailBookState := s.book tail
          match tailBookState.readyNeighbours with
          | none => (.error (), s)
          | some tailNeighbours =>
              (.ok { prev := tail, next := head }, s.insertBook tail
                { tailBookState with readyNeighbours := some { tailNeighbours with next := origin } })
  | none => (.ok { prev := origin, next := origin }, { s with serviceHead := some origin })

/-- `ready_ring_unknit`: link the neighbours of `origin` to each other and move the head off
`origin`; the ring of `origin` alone empties the head. -/
def readyRingUnknit (s : State Origin) (origin : Origin) (neighbours : Neighbours Origin) :
    State Origin :=
  if origin = neighbours.next then { s with serviceHead := none }
  else
    let s := s.mutateBook neighbours.next fun book =>
      match book.readyNeighbours with
      | some n => { book with readyNeighbours := some { n with prev := neighbours.prev } }
      | none => book
    let s := s.mutateBook neighbours.prev fun book =>
      match book.readyNeighbours with
      | some n => { book with readyNeighbours := some { n with next := neighbours.next } }
      | none => book
    match s.serviceHead with
    | some head => if head = origin then { s with serviceHead := some neighbours.next } else s
    | none => s

variable (cfg : Config Origin)

/-- `bump_service_head`: move the head to its next neighbour and return the old head. -/
def bumpServiceHead (s : State Origin) (meter : WeightMeter) :
    Option Origin × WeightMeter × State Origin :=
  match meter.tryConsume cfg.weights.bumpServiceHead with
  | none => (none, meter, s)
  | some meter =>
      match s.serviceHead with
      | some head =>
          match (s.book head).readyNeighbours with
          | some headNeighbours => (some head, meter, { s with serviceHead := some headNeighbours.next })
          | none => (none, meter, s)
      | none => (none, meter, s)

/-! ## Enqueueing -/

def BoundedMessage : Type := { message : List UInt8 // message.length ≤ cfg.maxMessageLen }

/-- The end of `do_enqueue_message`: a new page of the message after the book's last. -/
def linkNewPage (s : State Origin) (origin : Origin) (book : BookState Origin)
    (message : List UInt8) : State Origin :=
  let book := { book with «end» := book.end + 1, count := book.count + 1 }
  (s.insertPage origin (book.end - 1) (Page.fromMessage message)).insertBook origin book

/-- `do_enqueue_message`: count the message, then append it to the last page if it fits, or
put it on a new page, knitting the queue into the ring if it had no ready page. -/
def doEnqueueMessage (s : State Origin) (origin : Origin) (message : BoundedMessage cfg) :
    State Origin :=
  let book := s.book origin
  let book := { book with
    messageCount := Unsigned.saturatingAdd 64 book.messageCount 1,
    size := Unsigned.saturatingAdd 64 book.size message.val.length }
  if book.begin < book.end then
    match s.pages origin (book.end - 1) with
    | none => s
    | some page =>
        match Page.tryAppendMessage cfg.headerLen cfg.heapSize page message.val with
        | some page => (s.insertPage origin (book.end - 1) page).insertBook origin book
        | none => linkNewPage s origin book message.val
  else
    let (knit, s) := readyRingKnit s origin
    let book := match knit with
      | .ok neighbours => { book with readyNeighbours := some neighbours }
      | .error () => book
    linkNewPage s origin book message.val

def enqueueMessage (s : State Origin) (message : BoundedMessage cfg) (origin : Origin) :
    State Origin :=
  doEnqueueMessage cfg s origin message

def enqueueMessages (s : State Origin) (messages : List (BoundedMessage cfg)) (origin : Origin) :
    State Origin :=
  messages.foldl (fun s message => doEnqueueMessage cfg s origin message) s

/-- `EnqueueMessage::sweep_queue`: drop the ready pages of a stored book from the ring. -/
def sweepQueue (s : State Origin) (origin : Origin) : State Origin :=
  if (s.bookStateFor origin).isNone then s
  else
    let book := s.book origin
    let book := { book with begin := book.end }
    match book.readyNeighbours with
    | some neighbours =>
        (readyRingUnknit s origin neighbours).insertBook origin { book with readyNeighbours := none }
    | none => s.insertBook origin book

def footprint (s : State Origin) (origin : Origin) : Footprint :=
  ⟨(s.book origin).messageCount, (s.book origin).size⟩

/-! ## Processing a message -/

/-- `process_message_payload`: hand the message to the processor and sort its result;
a message heavier than `overweight_limit` is permanently overweight. -/
def processMessagePayload (proc : MessageProcessor Origin) (s : State Origin) (origin : Origin)
    (pageIndex messageIndex : Nat) (message : List UInt8) (meter : WeightMeter)
    (overweightLimit : Weight) : MessageExecutionStatus × WeightMeter × State Origin :=
  let prevConsumed := meter.consumed
  let (result, meter, id, s) := proc message origin meter (cfg.blake2256 message) s
  match result with
  | .error (.overweight w) =>
      if w.anyGt overweightLimit then
        (.overweight, meter, s.deposit (.overweightEnqueued id origin pageIndex messageIndex))
      else (.insufficientWeight, meter, s)
  | .error .yield => (.unprocessable false, meter, s)
  | .error error => (.unprocessable true, meter, s.deposit (.processingFailed id origin error))
  | .ok success =>
      (.processed, meter,
        s.deposit (.processed id origin (meter.consumed.saturatingSub prevConsumed) success))

/-- `service_page_item`: service the first message of the page held by the caller. -/
def servicePageItem (proc : MessageProcessor Origin) (s : State Origin) (origin : Origin)
    (pageIndex : Nat) (book : BookState Origin) (page : Page) (meter : WeightMeter)
    (overweightLimit : Weight) :
    ItemExecutionStatus × BookState Origin × Page × WeightMeter × State Origin :=
  if page.isComplete then (.noItem, book, page, meter, s)
  else
    match meter.tryConsume cfg.weights.servicePageItem with
    | none => (.bailed, book, page, meter, s)
    | some meter =>
        match page.peekFirst cfg.headerLen with
        | none => (.noItem, book, page, meter, s)
        | some payload =>
            let (status, meter, s) := processMessagePayload cfg proc s origin pageIndex
              page.firstIndex payload meter overweightLimit
            match status with
            | .insufficientWeight => (.bailed, book, page, meter, s)
            | .unprocessable false => (.noProgress, book, page, meter, s)
            | .processed | .unprocessable true =>
                let book := { book with
                  messageCount := book.messageCount - 1, size := book.size - payload.length }
                (.executed true, book, page.skipFirst cfg.headerLen true, meter, s)
            | .overweight => (.executed false, book, page.skipFirst cfg.headerLen false, meter, s)

/-- The loop of `service_page` over the items, with the number processed. Each executed item moves
`first` forward, so `fuel` past the heap's length suffices. -/
def servicePageLoop (proc : MessageProcessor Origin) (origin : Origin) (pageIndex : Nat)
    (overweightLimit : Weight) :
    Nat → Nat → BookState Origin → Page → WeightMeter → State Origin →
      Nat × PageExecutionStatus × BookState Origin × Page × WeightMeter × State Origin
  | 0, total, book, page, meter, s => (total, .noMore, book, page, meter, s)
  | fuel + 1, total, book, page, meter, s =>
      match servicePageItem cfg proc s origin pageIndex book page meter overweightLimit with
      | (.bailed, book, page, meter, s) => (total, .bailed, book, page, meter, s)
      | (.noItem, book, page, meter, s) => (total, .noMore, book, page, meter, s)
      | (.noProgress, book, page, meter, s) => (total, .noProgress, book, page, meter, s)
      | (.executed true, book, page, meter, s) =>
          servicePageLoop proc origin pageIndex overweightLimit fuel (total + 1) book page meter s
      | (.executed false, book, page, meter, s) =>
          servicePageLoop proc origin pageIndex overweightLimit fuel total book page meter s

/-- `service_page`: service the messages of the book's `begin` page, then store the page, or
remove it once complete. -/
def servicePage (proc : MessageProcessor Origin) (s : State Origin) (origin : Origin)
    (book : BookState Origin) (meter : WeightMeter) (overweightLimit : Weight) :
    Nat × PageExecutionStatus × BookState Origin × WeightMeter × State Origin :=
  match meter.tryConsume
      (cfg.weights.servicePageBaseCompletion.max cfg.weights.servicePageBaseNoCompletion) with
  | none => (0, .bailed, book, meter, s)
  | some meter =>
      let pageIndex := book.begin
      match s.pages origin pageIndex with
      | none => (0, .noMore, book, meter, s)
      | some page =>
          let (total, status, book, page, meter, s) := servicePageLoop cfg proc origin pageIndex
            overweightLimit (heapLen cfg.headerLen page.heap + 1) 0 book page meter s
          if page.isComplete then
            (total, status, { book with count := book.count - 1 }, meter, s.removePage origin pageIndex)
          else (total, status, book, meter, s.insertPage origin pageIndex page)

/-- The loop of `service_queue` over the ready pages, with the number processed. Each round moves
`begin` forward, so `fuel` past `end - begin` suffices. -/
def serviceQueueLoop (proc : MessageProcessor Origin) (origin : Origin) (overweightLimit : Weight) :
    Nat → Nat → BookState Origin → WeightMeter → State Origin →
      Nat × BookState Origin × WeightMeter × State Origin
  | 0, total, book, meter, s => (total, book, meter, s)
  | fuel + 1, total, book, meter, s =>
      if book.begin < book.end then
        let (processed, status, book, meter, s) :=
          servicePage cfg proc s origin book meter overweightLimit
        match status with
        | .bailed | .noProgress => (total + processed, book, meter, s)
        | .noMore =>
            serviceQueueLoop proc origin overweightLimit fuel (total + processed)
              { book with begin := book.begin + 1 } meter s
      else (total, book, meter, s)

/-- `service_queue`: service `origin`'s ready pages, unknit the queue once none is left, and return
whether a message was processed and the next queue. A paused queue is passed over. -/
def serviceQueue (proc : MessageProcessor Origin) (s : State Origin) (origin : Origin)
    (meter : WeightMeter) (overweightLimit : Weight) :
    Bool × Option Origin × WeightMeter × State Origin :=
  match meter.tryConsume (cfg.weights.serviceQueueBase.saturatingAdd cfg.weights.readyRingUnknit) with
  | none => (false, none, meter, s)
  | some meter =>
      let book := s.book origin
      if cfg.isPaused origin then (false, book.readyNeighbours.map Neighbours.next, meter, s)
      else
        let (total, book, meter, s) := serviceQueueLoop cfg proc origin overweightLimit
          (book.end - book.begin + 1) 0 book meter s
        let nextReady := book.readyNeighbours.map Neighbours.next
        let (book, s) :=
          if book.end ≤ book.begin then
            match book.readyNeighbours with
            | some neighbours => ({ book with readyNeighbours := none }, readyRingUnknit s origin neighbours)
            | none => (book, s)
          else (book, s)
        (decide (0 < total), nextReady, meter, s.insertBook origin book)

/-- The loop of `service_queues`, at most `fuel` calls of `service_queue`. It stops with no next
queue, or at the queue recorded in `last_no_progress`. -/
def serviceQueuesLoop (proc : MessageProcessor Origin) (overweightLimit : Weight) :
    Nat → Origin → Option Origin → WeightMeter → State Origin → Option (WeightMeter × State Origin)
  | 0, _, _, _, _ => none
  | fuel + 1, next, lastNoProgress, meter, s =>
      let (progressed, n, meter, s) := serviceQueue cfg proc s next meter overweightLimit
      match n with
      | none => some (meter, s)
      | some n =>
          if !progressed then
            if lastNoProgress = some n then some (meter, s)
            else
              let lastNoProgress := if lastNoProgress.isNone then some next else lastNoProgress
              serviceQueuesLoop proc overweightLimit fuel n lastNoProgress meter s
          else serviceQueuesLoop proc overweightLimit fuel n none meter s

/-- `ServiceQueues::service_queues` with `fuel` calls of `service_queue`: the weight consumed and
the storage, or `none`. Every message may take the whole `weight_limit`. -/
def serviceQueues (proc : MessageProcessor Origin) (s : State Origin) (weightLimit : Weight)
    (fuel : Nat) : Option (Weight × State Origin) :=
  let overweightLimit := weightLimit
  match bumpServiceHead cfg s (WeightMeter.fromLimit weightLimit) with
  | (none, meter, s) => some (meter.consumed, s)
  | (some next, meter, s) =>
      (serviceQueuesLoop cfg proc overweightLimit fuel next none meter s).map
        fun result => (result.1.consumed, result.2)

/-! ## Overweight messages and reaping -/

/-- `do_execute_overweight`: run the unprocessed message `index` of a page behind `begin`, or
skipped on it, with `weight_limit`; mark it processed unless it failed for now. -/
def doExecuteOverweight (proc : MessageProcessor Origin) (s : State Origin) (origin : Origin)
    (pageIndex index : Nat) (weightLimit : Weight) : Except Error Weight × State Origin :=
  let book := s.book origin
  if cfg.isPaused origin then (.error .queuePaused, s)
  else
    match s.pages origin pageIndex with
    | none => (.error .noPage, s)
    | some page =>
        match page.peekIndex cfg.headerLen index with
        | none => (.error .noMessage, s)
        | some (pos, isProcessed, payload) =>
            if ¬(pageIndex < book.begin ∨ (pageIndex = book.begin ∧ pos < page.first)) then
              (.error .queued, s)
            else if isProcessed then (.error .alreadyProcessed, s)
            else
              let (status, meter, s) := processMessagePayload cfg proc s origin pageIndex index
                payload (WeightMeter.fromLimit weightLimit) Weight.MAX
              match status with
              | .overweight | .insufficientWeight => (.error .insufficientWeight, s)
              | .unprocessable false => (.error .temporarilyUnprocessable, s)
              | .unprocessable true | .processed =>
                  let page := page.noteProcessedAtPos cfg.headerLen pos
                  let book := { book with
                    messageCount := book.messageCount - 1, size := book.size - payload.length }
                  if page.remaining = 0 then
                    (.ok (meter.consumed.saturatingAdd cfg.weights.executeOverweightPageRemoved),
                      (s.removePage origin pageIndex).insertBook origin
                        { book with count := book.count - 1 })
                  else
                    (.ok (meter.consumed.saturatingAdd cfg.weights.executeOverweightPageUpdated),
                      (s.insertPage origin pageIndex page).insertBook origin book)

/-- `ServiceQueues::execute_overweight`: pay for the bookkeeping, then run the message with what
is left. -/
def executeOverweight (proc : MessageProcessor Origin) (s : State Origin) (weightLimit : Weight)
    (address : Origin × Nat × Nat) : Except ExecuteOverweightError Weight × State Origin :=
  match (WeightMeter.fromLimit weightLimit).tryConsume
      (cfg.weights.executeOverweightPageRemoved.max cfg.weights.executeOverweightPageUpdated) with
  | none => (.error .insufficientWeight, s)
  | some meter =>
      let (result, s) := doExecuteOverweight cfg proc s address.1 address.2.1 address.2.2 meter.remaining
      let result := result.mapError fun
        | .insufficientWeight => .insufficientWeight
        | .alreadyProcessed => .alreadyProcessed
        | .queuePaused => .queuePaused
        | .noPage | .noMessage | .queued => .notFound
        | _ => .other
      (result, s)

/-- The `cullable` closure of `do_reap_page` in `u32`: the page lies deeper behind `begin` than
`MaxStale` allows; `none` where an operation overflows. -/
def cullable (book : BookState Origin) (pageIndex : Nat) : Option Bool := do
  let totalPages := book.count
  let readyPages := min (book.end - book.begin) totalPages
  let stalePages := totalPages - readyPages
  let maxStale := cfg.maxStale
  let maxStalePlusOne ← Unsigned.checkedAdd 32 maxStale 1
  match Unsigned.checkedSub stalePages maxStalePlusOne with
  | none => return false
  | some x =>
      let overflow ← Unsigned.checkedAdd 32 x 1
      let square ← Unsigned.checkedMul 32 maxStale maxStale
      let backlog := Nat.max (square / overflow) maxStale
      let watermark := book.begin - backlog
      return decide (pageIndex < watermark)

/-- `do_reap_page`: remove a page behind `begin` that has no message left or is cullable, and
uncount its messages; `none` where `cullable` panics. -/
def doReapPage (s : State Origin) (origin : Origin) (pageIndex : Nat) :
    Option (Except Error Unit × State Origin) :=
  let book := s.book origin
  if ¬pageIndex < book.begin then some (.error .notReapable, s)
  else
    match s.pages origin pageIndex with
    | none => some (.error .noPage, s)
    | some page =>
        let reapable := decide (page.remaining = 0)
        -- `reapable || cullable()` calls the closure only for a page with messages left
        (if reapable then some true else cullable cfg book pageIndex).map fun reap =>
          if !reap then (.error .notReapable, s)
          else
            let book := { book with
              count := book.count - 1, messageCount := book.messageCount - page.remaining,
              size := book.size - page.remainingSize }
            (.ok (), (((s.removePage origin pageIndex).insertBook origin book).deposit
              (.pageReaped origin pageIndex)))

end Substrate.MessageQueue
