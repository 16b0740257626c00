import Substrate.MessageQueue.Service
import Mathlib

/-! # When `service_queues` stops

It stops when a queue without progress returns `last_no_progress` as the next queue. That queue
can leave the ring in the round; a paused queue left behind then names itself forever, and with
`MockedWeightInfo`'s zero weights the loop never ends.
-/

namespace Substrate.MessageQueue

open Substrate.Weights

variable {Origin : Type} [DecidableEq Origin] (cfg : Config Origin) (proc : MessageProcessor Origin)
  {s : State Origin} {meter : WeightMeter} {overweightLimit : Weight}

/-- Once `service_queues` stands at a queue that names itself next without progress or change, and
`last_no_progress` records another, no number of calls ends the loop. -/
theorem serviceQueuesLoop_spins {a b : Origin} (hne : a ≠ b)
    (hstuck : serviceQueue cfg proc s b meter overweightLimit = (false, some b, meter, s)) :
    ∀ fuel, serviceQueuesLoop cfg proc overweightLimit fuel b (some a) meter s = none
  | 0 => rfl
  | fuel + 1 => by
    have hlast : some a ≠ some b := by simpa using hne
    rw [serviceQueuesLoop_of_noProgress cfg proc hstuck hlast, Option.isNone_some, if_neg (by simp)]
    exact serviceQueuesLoop_spins hne hstuck fuel

section OverweightPage

variable (hzero : cfg.weights = WeightInfo.zero) (hmeter : meter.tryConsume Weight.zero = some meter)
  {a : Origin} {message : List UInt8} {w : Weight}
  (hpage : s.pages a (s.book a).begin = some (Page.fromMessage message))
  (hproc : ∀ meter id s, proc message a meter id s = (.error (.overweight w), meter, id, s))
  (hw : w.anyGt overweightLimit = true)

include hzero hmeter hpage hproc hw in
/-- The one message of the `begin` page is skipped as permanently overweight; the page is kept,
with `first` past the message. -/
theorem servicePage_of_overweight_page :
    servicePage cfg proc s a (s.book a) meter overweightLimit =
      (0, .noMore, s.book a, meter,
        (s.deposit (.overweightEnqueued (cfg.blake2256 message) a (s.book a).begin 0)).insertPage a
          (s.book a).begin ((Page.fromMessage message).skipFirst cfg.headerLen false)) := by
  have hitem := tryConsume_servicePageItem_of_zero hzero hmeter
  -- the message is skipped, then nothing is left at `first`
  have hfirst : servicePageItem cfg proc s a (s.book a).begin (s.book a) (Page.fromMessage message)
      meter overweightLimit =
        (.executed false, s.book a, (Page.fromMessage message).skipFirst cfg.headerLen false, meter,
          s.deposit (.overweightEnqueued (cfg.blake2256 message) a (s.book a).begin 0)) :=
    servicePageItem_of_overweight cfg proc (Page.isComplete_fromMessage message) hitem
      (Page.peekFirst_fromMessage cfg.headerLen message)
      (processMessagePayload_overweight cfg proc (hproc meter _ s) hw)
  have hsecond : servicePageItem cfg proc
      (s.deposit (.overweightEnqueued (cfg.blake2256 message) a (s.book a).begin 0)) a
      (s.book a).begin (s.book a) ((Page.fromMessage message).skipFirst cfg.headerLen false) meter
      overweightLimit =
        (.noItem, s.book a, (Page.fromMessage message).skipFirst cfg.headerLen false, meter,
          s.deposit (.overweightEnqueued (cfg.blake2256 message) a (s.book a).begin 0)) :=
    servicePageItem_of_peekFirst_none cfg proc
      (Page.isComplete_skipFirst_fromMessage cfg.headerLen message false) hitem
      (Page.peekFirst_skipFirst_fromMessage cfg.headerLen cfg.headerLen_pos message false)
  rw [servicePage_fromMessage cfg proc (tryConsume_servicePageBase_of_zero hzero hmeter) hpage hfirst
    hsecond, if_neg Bool.false_ne_true]

include hzero hmeter hpage hproc hw in
/-- Servicing a queue whose one ready page holds one permanently overweight message makes no
progress and unknits it: in a ring of two, the other queue links to itself. -/
theorem serviceQueue_of_overweight_page {b : Origin} (hne : a ≠ b)
    (hpaused : cfg.isPaused a = false) (hring : (s.book a).readyNeighbours = some ⟨b, b⟩)
    (hready : (s.book a).end = (s.book a).begin + 1) {n : Neighbours Origin}
    (hb : (s.book b).readyNeighbours = some n) :
    ∃ s', serviceQueue cfg proc s a meter overweightLimit = (false, some b, meter, s') ∧
      (s'.book b).readyNeighbours = some ⟨b, b⟩ := by
  have hfuel : (s.book a).end - (s.book a).begin + 1 = 0 + 1 + 1 := by omega
  rw [serviceQueue, tryConsume_serviceQueueBase_of_zero hzero hmeter]
  simp only [hpaused, Bool.false_eq_true, if_false]
  rw [hfuel, serviceQueueLoop_of_noMore cfg proc (by omega)
    (servicePage_of_overweight_page cfg proc hzero hmeter hpage hproc hw),
    serviceQueueLoop_of_not_ready cfg proc (by dsimp only; omega)]
  simp only [hring, hready, le_refl, if_true, Option.map_some, Nat.add_zero, Nat.lt_irrefl,
    decide_false]
  refine ⟨_, rfl, ?_⟩
  -- the other queue's links were rewritten by the unknitting alone
  rw [State.book_insertBook, if_neg (Ne.symm hne)]
  exact readyRingUnknit_pair hne (by simpa using hb)

end OverweightPage

/-- `service_queues` need not stop after a round without progress: with one queue of a permanently
overweight message and the other paused, the paused queue is next at every later call, so with zero
weights the loop never ends. -/
theorem serviceQueues_spins_after_overweight_unknit (hzero : cfg.weights = WeightInfo.zero)
    {weightLimit : Weight} (hlimit : weightLimit.allLte Weight.MAX = true)
    {a b : Origin} (hne : a ≠ b) {message : List UInt8} {w : Weight}
    (hhead : s.serviceHead = some a) (hring : (s.book a).readyNeighbours = some ⟨b, b⟩)
    (hready : (s.book a).end = (s.book a).begin + 1)
    (hpage : s.pages a (s.book a).begin = some (Page.fromMessage message))
    (hpausedA : cfg.isPaused a = false)
    (hb : (s.book b).readyNeighbours = some ⟨a, a⟩) (hpausedB : cfg.isPaused b = true)
    (hproc : ∀ meter id s, proc message a meter id s = (.error (.overweight w), meter, id, s))
    (hw : w.anyGt weightLimit = true) :
    ∀ fuel, serviceQueues cfg proc s weightLimit fuel = none := by
  intro fuel
  have hmeter : (WeightMeter.fromLimit weightLimit).tryConsume Weight.zero =
      some (WeightMeter.fromLimit weightLimit) :=
    WeightMeter.tryConsume_zero (by simp [WeightMeter.fromLimit, Weight.allLte, Weight.zero]) hlimit
  rw [serviceQueues, bumpServiceHead_of_zero cfg hzero hhead hring hmeter]
  suffices hloop : serviceQueuesLoop cfg proc weightLimit fuel a none (WeightMeter.fromLimit weightLimit)
      { s with serviceHead := some b } = none by
    dsimp only
    rw [hloop, Option.map_none]
  cases fuel with
  | zero => rfl
  | succ fuel =>
    -- the first call unknits the head without progress and records it
    obtain ⟨s', hfirst, hself⟩ := serviceQueue_of_overweight_page cfg proc hzero hmeter
      (s := { s with serviceHead := some b }) hpage hproc hw hne hpausedA hring hready
      (by rw [State.book_setServiceHead]; exact hb)
    rw [serviceQueuesLoop_of_noProgress cfg proc hfirst (by simp), Option.isNone_none, if_pos rfl]
    -- from then on the paused queue is returned as its own next, with nothing changed
    have hstuck : serviceQueue cfg proc s' b (WeightMeter.fromLimit weightLimit) weightLimit =
        (false, some b, WeightMeter.fromLimit weightLimit, s') := by
      rw [serviceQueue_of_paused cfg proc hpausedB (tryConsume_serviceQueueBase_of_zero hzero hmeter),
        hself, Option.map_some]
    exact serviceQueuesLoop_spins cfg proc hne hstuck fuel

def twoQueuesConfig : Config Nat where
  weights := WeightInfo.zero
  headerLen := 5
  headerLen_pos := Nat.succ_pos 4
  heapSize := 64
  maxStale := 8
  isPaused origin := decide (origin = 1)
  blake2256 message := message

def overweightFromZero : MessageProcessor Nat := fun _ origin meter id s =>
  if origin = 0 then (.error (.overweight ⟨11, 11⟩), meter, id, s) else (.ok true, meter, id, s)

def twoQueuesState : State Nat where
  bookStateFor origin :=
    if origin = 0 then some ⟨0, 1, 1, some ⟨1, 1⟩, 1, 1⟩
    else if origin = 1 then some ⟨0, 1, 1, some ⟨0, 0⟩, 1, 1⟩ else none
  serviceHead := some 0
  pages origin index :=
    if origin = 0 ∧ index = 0 then some (Page.fromMessage [7])
    else if origin = 1 ∧ index = 0 then some (Page.fromMessage [8]) else none
  events := []

theorem serviceQueues_spins_on_two_queues :
    serviceQueues twoQueuesConfig overweightFromZero twoQueuesState ⟨10, 10⟩ 1000000 = none :=
  serviceQueues_spins_after_overweight_unknit twoQueuesConfig overweightFromZero rfl (by decide)
    (by decide : (0 : Nat) ≠ 1) rfl rfl rfl rfl rfl rfl rfl (fun _ _ _ => rfl) (by decide) 1000000

end Substrate.MessageQueue
