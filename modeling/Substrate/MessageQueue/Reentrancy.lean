import Substrate.MessageQueue.Service
import Mathlib

/-! # A processor that enqueues

`service_queue` and `service_page` write back their local copies of the book and page after
processing. A processor that enqueues on the queue being serviced is overwritten by them: the
message leaves no trace in the pages or the footprint.
-/

namespace Substrate.MessageQueue

open Substrate.Weights

variable {Origin : Type} [DecidableEq Origin] (cfg : Config Origin) (proc : MessageProcessor Origin)
  {s : State Origin} {meter : WeightMeter} {overweightLimit : Weight}

/-- The `begin` page's one message, whose processing enqueues `message'` on the same queue: the page
holding both is removed, and the footprint counts one message less. -/
theorem serviceQueue_loses_reentrant_enqueue (hzero : cfg.weights = WeightInfo.zero)
    (hmeter : meter.tryConsume Weight.zero = some meter) (o : Origin) (message : List UInt8)
    (message' : BoundedMessage cfg) (hpaused : cfg.isPaused o = false)
    (hready : (s.book o).end = (s.book o).begin + 1)
    (hpage : s.pages o (s.book o).begin = some (Page.fromMessage message))
    (hfits : cfg.headerLen + message.length + (cfg.headerLen + message'.val.length) ≤ cfg.heapSize)
    (hproc : ∀ meter id s, proc message o meter id s =
      (.ok true, meter, id, enqueueMessage cfg s message' o)) :
    ∃ s', serviceQueue cfg proc s o meter overweightLimit =
        (true, (s.book o).readyNeighbours.map Neighbours.next, meter, s') ∧
      (enqueueMessage cfg s message' o).pages o (s.book o).begin =
        some ⟨2, message.length + message'.val.length, 0, 0, cfg.headerLen + message.length,
          [⟨false, message⟩, ⟨false, message'.val⟩]⟩ ∧
      s'.pages o (s.book o).begin = none ∧
      (∀ index, index ≠ (s.book o).begin → s'.pages o index = s.pages o index) ∧
      footprint s' o = ⟨(s.book o).messageCount - 1, (s.book o).size - message.length⟩ := by
  -- inside the processor, the enqueue finds the stored page and appends to it
  have hlast : (s.book o).end - 1 = (s.book o).begin := by omega
  have henqueue : enqueueMessage cfg s message' o =
      (s.insertPage o (s.book o).begin ⟨2, message.length + message'.val.length, 0, 0,
        cfg.headerLen + message.length, [⟨false, message⟩, ⟨false, message'.val⟩]⟩).insertBook o
        { s.book o with
          messageCount := Unsigned.saturatingAdd 64 (s.book o).messageCount 1,
          size := Unsigned.saturatingAdd 64 (s.book o).size message'.val.length } := by
    rw [enqueueMessage, doEnqueueMessage_of_append cfg message' (by omega) (by rw [hlast]; exact hpage)
      (Page.tryAppendMessage_fromMessage cfg.headerLen message message'.val hfits), hlast]
  -- the service holds its own copies of the book and the page while the processor runs
  have hfirst : servicePageItem cfg proc s o (s.book o).begin (s.book o) (Page.fromMessage message)
      meter overweightLimit =
        (.executed true, { s.book o with
            messageCount := (s.book o).messageCount - 1, size := (s.book o).size - message.length },
          (Page.fromMessage message).skipFirst cfg.headerLen true, meter,
          (enqueueMessage cfg s message' o).deposit
            (.processed (cfg.blake2256 message) o (meter.consumed.saturatingSub meter.consumed) true)) :=
    servicePageItem_of_processed cfg proc (Page.isComplete_fromMessage message)
      (tryConsume_servicePageItem_of_zero hzero hmeter)
      (Page.peekFirst_fromMessage cfg.headerLen message)
      (processMessagePayload_ok cfg proc (hproc meter _ s))
  -- the local page is complete and removed, with the message appended to the stored one
  rw [serviceQueue, tryConsume_serviceQueueBase_of_zero hzero hmeter]
  have hrun := servicePage_fromMessage cfg proc (tryConsume_servicePageBase_of_zero hzero hmeter)
    hpage hfirst
    (servicePageItem_of_isComplete cfg proc
      (Page.isComplete_skipFirst_fromMessage cfg.headerLen message true))
  rw [if_pos rfl] at hrun
  have hfuel : (s.book o).end - (s.book o).begin + 1 = 0 + 1 + 1 := by omega
  simp only [hpaused, Bool.false_eq_true, if_false]
  rw [hfuel, serviceQueueLoop_of_noMore cfg proc (by omega) hrun,
    serviceQueueLoop_of_not_ready cfg proc (by dsimp only; omega)]
  dsimp only
  rw [if_pos (by omega)]
  have hstored : (enqueueMessage cfg s message' o).pages o (s.book o).begin =
      some ⟨2, message.length + message'.val.length, 0, 0, cfg.headerLen + message.length,
        [⟨false, message⟩, ⟨false, message'.val⟩]⟩ := by
    rw [henqueue]
    simp
  -- with or without neighbours to unknit, the book written last is the service's copy
  cases hn : (s.book o).readyNeighbours with
  | none =>
    refine ⟨_, rfl, hstored, by simp, fun index hindex => by simp [henqueue, hindex], ?_⟩
    simp [footprint]
  | some n =>
    refine ⟨_, rfl, hstored, by simp, fun index hindex => by simp [henqueue, hindex], ?_⟩
    simp [footprint]

def enqueueOnProcess (o : Origin) (message : List UInt8) (message' : BoundedMessage cfg) :
    MessageProcessor Origin := fun msg origin meter id s =>
  if msg = message ∧ origin = o then (.ok true, meter, id, enqueueMessage cfg s message' o)
  else (.ok true, meter, id, s)

def oneQueueConfig : Config Nat where
  weights := WeightInfo.zero
  headerLen := 3
  headerLen_pos := Nat.succ_pos 2
  heapSize := 64
  maxStale := 8
  isPaused _ := false
  blake2256 message := message

def oneQueueState : State Nat where
  bookStateFor origin := if origin = 0 then some ⟨0, 1, 1, some ⟨0, 0⟩, 1, 1⟩ else none
  serviceHead := some 0
  pages origin index := if origin = 0 ∧ index = 0 then some (Page.fromMessage [7]) else none
  events := []

theorem serviceQueue_loses_enqueue_on_one_queue :
    ∃ s', serviceQueue oneQueueConfig (enqueueOnProcess oneQueueConfig 0 [7] ⟨[9], by decide⟩)
        oneQueueState 0 (WeightMeter.fromLimit ⟨10, 10⟩) ⟨10, 10⟩ =
          (true, some 0, WeightMeter.fromLimit ⟨10, 10⟩, s') ∧
      (enqueueMessage oneQueueConfig oneQueueState ⟨[9], by decide⟩ 0).pages 0 0 =
        some ⟨2, 2, 0, 0, 4, [⟨false, [7]⟩, ⟨false, [9]⟩]⟩ ∧
      s'.pages 0 0 = none ∧ (∀ index, index ≠ 0 → s'.pages 0 index = oneQueueState.pages 0 index) ∧
      footprint s' 0 = ⟨0, 0⟩ :=
  serviceQueue_loses_reentrant_enqueue oneQueueConfig
    (enqueueOnProcess oneQueueConfig 0 [7] ⟨[9], by decide⟩) rfl rfl 0 [7] ⟨[9], by decide⟩ rfl rfl rfl
    (by decide) (fun _ _ _ => rfl)

end Substrate.MessageQueue
