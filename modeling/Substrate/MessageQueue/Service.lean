import Substrate.MessageQueue.Pallet
import Mathlib

/-! # Servicing, step by step

One call of each servicing function, for the cases the results take apart. Each loop lemma is one
round, so a run is taken apart without unfolding the functions it calls.
-/

namespace Substrate.MessageQueue

open Substrate.Weights

variable {Origin : Type} (cfg : Config Origin) (proc : MessageProcessor Origin)

/-! ## A message -/

section Payload

variable {s s' : State Origin} {origin : Origin} {pageIndex messageIndex : Nat}
  {message id : List UInt8} {meter meter' : WeightMeter} {overweightLimit : Weight}

/-- A message heavier than the overweight limit is permanently overweight, and reported. -/
theorem processMessagePayload_overweight {w : Weight}
    (hproc : proc message origin meter (cfg.blake2256 message) s =
      (.error (.overweight w), meter', id, s'))
    (hw : w.anyGt overweightLimit = true) :
    processMessagePayload cfg proc s origin pageIndex messageIndex message meter overweightLimit =
      (.overweight, meter', s'.deposit (.overweightEnqueued id origin pageIndex messageIndex)) := by
  rw [processMessagePayload, hproc]
  simp only [hw, if_true]

/-- A message the processor accepts is processed, and reported with the weight it used. -/
theorem processMessagePayload_ok {success : Bool}
    (hproc : proc message origin meter (cfg.blake2256 message) s = (.ok success, meter', id, s')) :
    processMessagePayload cfg proc s origin pageIndex messageIndex message meter overweightLimit =
      (.processed, meter',
        s'.deposit (.processed id origin (meter'.consumed.saturatingSub meter.consumed) success)) := by
  rw [processMessagePayload, hproc]

end Payload

/-! ## An item of a page -/

section Item

variable {s s' : State Origin} {origin : Origin} {pageIndex : Nat} {book : BookState Origin}
  {page : Page} {meter meter' meter'' : WeightMeter} {overweightLimit : Weight}
  {payload : List UInt8}

/-- A complete page has no item to service. -/
theorem servicePageItem_of_isComplete (hcomplete : page.isComplete = true) :
    servicePageItem cfg proc s origin pageIndex book page meter overweightLimit =
      (.noItem, book, page, meter, s) := by
  rw [servicePageItem, if_pos hcomplete]

/-- A page with nothing at `first` has no item to service, once the item is paid for. -/
theorem servicePageItem_of_peekFirst_none (hcomplete : page.isComplete = false)
    (hmeter : meter.tryConsume cfg.weights.servicePageItem = some meter')
    (hpeek : page.peekFirst cfg.headerLen = none) :
    servicePageItem cfg proc s origin pageIndex book page meter overweightLimit =
      (.noItem, book, page, meter', s) := by
  rw [servicePageItem, if_neg (by simp [hcomplete]), hmeter]
  simp only [hpeek]

/-- A permanently overweight item is skipped, and stays unprocessed. -/
theorem servicePageItem_of_overweight (hcomplete : page.isComplete = false)
    (hmeter : meter.tryConsume cfg.weights.servicePageItem = some meter')
    (hpeek : page.peekFirst cfg.headerLen = some payload)
    (hstatus : processMessagePayload cfg proc s origin pageIndex page.firstIndex payload meter'
      overweightLimit = (.overweight, meter'', s')) :
    servicePageItem cfg proc s origin pageIndex book page meter overweightLimit =
      (.executed false, book, page.skipFirst cfg.headerLen false, meter'', s') := by
  rw [servicePageItem, if_neg (by simp [hcomplete]), hmeter]
  simp only [hpeek, hstatus]

/-- A processed item is uncounted from the book held by the caller and marked in its page. -/
theorem servicePageItem_of_processed (hcomplete : page.isComplete = false)
    (hmeter : meter.tryConsume cfg.weights.servicePageItem = some meter')
    (hpeek : page.peekFirst cfg.headerLen = some payload)
    (hstatus : processMessagePayload cfg proc s origin pageIndex page.firstIndex payload meter'
      overweightLimit = (.processed, meter'', s')) :
    servicePageItem cfg proc s origin pageIndex book page meter overweightLimit =
      (.executed true,
        { book with messageCount := book.messageCount - 1, size := book.size - payload.length },
        page.skipFirst cfg.headerLen true, meter'', s') := by
  rw [servicePageItem, if_neg (by simp [hcomplete]), hmeter]
  simp only [hpeek, hstatus]

end Item

/-! ## The loops, one round at a time -/

section Loops

variable [DecidableEq Origin] {s s' : State Origin} {origin : Origin} {pageIndex : Nat}
  {book book' : BookState Origin} {page page' : Page} {meter meter' : WeightMeter}
  {overweightLimit : Weight} {fuel total : Nat}

omit [DecidableEq Origin] in
/-- An executed item lets the page loop go on, counting it if it was processed. -/
theorem servicePageLoop_of_executed {isProcessed : Bool}
    (hitem : servicePageItem cfg proc s origin pageIndex book page meter overweightLimit =
      (.executed isProcessed, book', page', meter', s')) :
    servicePageLoop cfg proc origin pageIndex overweightLimit (fuel + 1) total book page meter s =
      servicePageLoop cfg proc origin pageIndex overweightLimit fuel
        (if isProcessed then total + 1 else total) book' page' meter' s' := by
  rw [servicePageLoop, hitem]
  cases isProcessed <;> rfl

omit [DecidableEq Origin] in
/-- No item left ends the page loop with nothing more on the page. -/
theorem servicePageLoop_of_noItem
    (hitem : servicePageItem cfg proc s origin pageIndex book page meter overweightLimit =
      (.noItem, book', page', meter', s')) :
    servicePageLoop cfg proc origin pageIndex overweightLimit (fuel + 1) total book page meter s =
      (total, .noMore, book', page', meter', s') := by
  rw [servicePageLoop, hitem]

/-- A page done with lets the queue loop go on to the next page. -/
theorem serviceQueueLoop_of_noMore {processed : Nat} (hready : book.begin < book.end)
    (hpage : servicePage cfg proc s origin book meter overweightLimit =
      (processed, .noMore, book', meter', s')) :
    serviceQueueLoop cfg proc origin overweightLimit (fuel + 1) total book meter s =
      serviceQueueLoop cfg proc origin overweightLimit fuel (total + processed)
        { book' with begin := book'.begin + 1 } meter' s' := by
  rw [serviceQueueLoop, if_pos hready, hpage]

/-- Without ready pages the queue loop stops. -/
theorem serviceQueueLoop_of_not_ready (hready : ¬book.begin < book.end) :
    serviceQueueLoop cfg proc origin overweightLimit (fuel + 1) total book meter s =
      (total, book, meter, s) := by
  rw [serviceQueueLoop, if_neg hready]

/-- A queue that made no progress and names a next queue other than the recorded one lets
`service_queues` go on, recording the queue if none was. -/
theorem serviceQueuesLoop_of_noProgress {next n : Origin} {lastNoProgress : Option Origin}
    (hqueue : serviceQueue cfg proc s next meter overweightLimit = (false, some n, meter', s'))
    (hlast : lastNoProgress ≠ some n) :
    serviceQueuesLoop cfg proc overweightLimit (fuel + 1) next lastNoProgress meter s =
      serviceQueuesLoop cfg proc overweightLimit fuel n
        (if lastNoProgress.isNone then some next else lastNoProgress) meter' s' := by
  rw [serviceQueuesLoop, hqueue]
  simp only [Bool.not_false, if_true, if_neg hlast]

end Loops

/-- A page of one message is serviced in two rounds: the message, then nothing; it is removed if the
message was processed, kept past it if skipped. -/
theorem servicePage_fromMessage [DecidableEq Origin] {s s' s'' : State Origin} {origin : Origin}
    {book book' : BookState Origin} {meter meter' meter'' meter''' : WeightMeter}
    {overweightLimit : Weight} {message : List UInt8} {isProcessed : Bool}
    (hbase : meter.tryConsume (cfg.weights.servicePageBaseCompletion.max
      cfg.weights.servicePageBaseNoCompletion) = some meter')
    (hpage : s.pages origin book.begin = some (Page.fromMessage message))
    (hfirst : servicePageItem cfg proc s origin book.begin book (Page.fromMessage message) meter'
      overweightLimit =
        (.executed isProcessed, book', (Page.fromMessage message).skipFirst cfg.headerLen isProcessed,
          meter'', s'))
    (hsecond : servicePageItem cfg proc s' origin book.begin book'
      ((Page.fromMessage message).skipFirst cfg.headerLen isProcessed) meter'' overweightLimit =
        (.noItem, book', (Page.fromMessage message).skipFirst cfg.headerLen isProcessed, meter''',
          s'')) :
    servicePage cfg proc s origin book meter overweightLimit =
      if isProcessed then
        (1, .noMore, { book' with count := book'.count - 1 }, meter''', s''.removePage origin book.begin)
      else
        (0, .noMore, book', meter''',
          s''.insertPage origin book.begin ((Page.fromMessage message).skipFirst cfg.headerLen false)) := by
  obtain ⟨n, hn⟩ : ∃ n, heapLen cfg.headerLen (Page.fromMessage message).heap = n + 1 :=
    ⟨cfg.headerLen + message.length - 1, by
      simp only [Page.fromMessage, heapLen_cons, heapLen_nil, Item.encodedLen]
      have := cfg.headerLen_pos
      omega⟩
  rw [servicePage, hbase]
  simp only [hpage]
  rw [hn, servicePageLoop_of_executed cfg proc hfirst, servicePageLoop_of_noItem cfg proc hsecond]
  -- whether the page is complete is whether its message was processed
  cases isProcessed <;> simp

/-! ## Zero weights

With the weights of `MockedWeightInfo` left at zero, every charge of servicing is the zero
weight, which a meter within its limit always pays. -/

section ZeroWeights

variable {cfg} {meter : WeightMeter} (hzero : cfg.weights = WeightInfo.zero)
  (hmeter : meter.tryConsume Weight.zero = some meter)
include hzero hmeter

theorem tryConsume_servicePageItem_of_zero :
    meter.tryConsume cfg.weights.servicePageItem = some meter := by
  rw [hzero]
  exact hmeter

theorem tryConsume_servicePageBase_of_zero :
    meter.tryConsume (cfg.weights.servicePageBaseCompletion.max
      cfg.weights.servicePageBaseNoCompletion) = some meter := by
  rw [hzero]
  exact hmeter

theorem tryConsume_serviceQueueBase_of_zero :
    meter.tryConsume (cfg.weights.serviceQueueBase.saturatingAdd cfg.weights.readyRingUnknit) =
      some meter := by
  rw [hzero]
  simpa only [WeightInfo.zero, Weight.saturatingAdd_zero] using hmeter

end ZeroWeights

/-! ## Queues -/

section Queue

variable [DecidableEq Origin] {s : State Origin} {origin : Origin} {meter meter' : WeightMeter} {overweightLimit : Weight}

/-- A paused queue is passed over: nothing changes, and the ring's next queue is returned. -/
theorem serviceQueue_of_paused (hpaused : cfg.isPaused origin = true)
    (hmeter : meter.tryConsume (cfg.weights.serviceQueueBase.saturatingAdd
      cfg.weights.readyRingUnknit) = some meter') :
    serviceQueue cfg proc s origin meter overweightLimit =
      (false, (s.book origin).readyNeighbours.map Neighbours.next, meter', s) := by
  rw [serviceQueue, hmeter]
  simp only [hpaused, if_true]

/-- Unknitting a queue from a ring of two leaves the other queue linked to itself. -/
theorem readyRingUnknit_pair {a b : Origin} (hne : a ≠ b) {n : Neighbours Origin}
    (hb : (s.book b).readyNeighbours = some n) :
    ((readyRingUnknit s a ⟨b, b⟩).book b).readyNeighbours = some ⟨b, b⟩ := by
  have hnext : a ≠ (⟨b, b⟩ : Neighbours Origin).next := hne
  rw [readyRingUnknit, if_neg hnext]
  dsimp only
  -- the head moves on or stays; either way only the links of `b` were written
  split
  · split_ifs
    · rw [State.book_setServiceHead]
      simp [State.mutateBook, hb]
    · simp [State.mutateBook, hb]
  · simp [State.mutateBook, hb]

omit [DecidableEq Origin] in
/-- With every weight zero, `bump_service_head` moves the head to its next neighbour for free. -/
theorem bumpServiceHead_of_zero (hzero : cfg.weights = WeightInfo.zero) {head : Origin}
    {neighbours : Neighbours Origin} (hhead : s.serviceHead = some head)
    (hring : (s.book head).readyNeighbours = some neighbours)
    (hmeter : meter.tryConsume Weight.zero = some meter) :
    bumpServiceHead cfg s meter = (some head, meter, { s with serviceHead := some neighbours.next }) := by
  rw [bumpServiceHead, hzero]
  simp only [WeightInfo.zero, hmeter, hhead, hring]

@[simp] theorem pages_readyRingUnknit (origin : Origin) (neighbours : Neighbours Origin) :
    (readyRingUnknit s origin neighbours).pages = s.pages := by
  rw [readyRingUnknit]
  split
  · rfl
  · dsimp only
    split
    · split <;> rfl
    · rfl

end Queue

/-! ## Enqueueing -/

section Enqueue

variable [DecidableEq Origin] {s : State Origin} {origin : Origin} {page page' : Page}

/-- A message that fits the last ready page is appended to it, and counted. -/
theorem doEnqueueMessage_of_append (message : BoundedMessage cfg)
    (hready : (s.book origin).begin < (s.book origin).end)
    (hpage : s.pages origin ((s.book origin).end - 1) = some page)
    (happend : page.tryAppendMessage cfg.headerLen cfg.heapSize message.val = some page') :
    doEnqueueMessage cfg s origin message =
      (s.insertPage origin ((s.book origin).end - 1) page').insertBook origin
        { s.book origin with
          messageCount := Unsigned.saturatingAdd 64 (s.book origin).messageCount 1,
          size := Unsigned.saturatingAdd 64 (s.book origin).size message.val.length } := by
  rw [doEnqueueMessage]
  simp only [if_pos hready, hpage, happend]

end Enqueue

end Substrate.MessageQueue
