import Substrate.Scheduler.Outcomes
import Mathlib

/-! # The calls of the scheduler

The `do_schedule`, `do_cancel` and `do_reschedule` calls of `src/frame/scheduler/src/lib.rs`, named
and not, with `resolve_time` and `cleanup_agenda`. `dispatchCall` runs a call in a storage layer,
kept on `Ok` and dropped on an error.
-/

namespace Substrate.Scheduler

open Slots

inductive DispatchTime where
  | «at» (block : Nat)
  | after (blocks : Nat)
  deriving DecidableEq

/-- The errors of the calls: the pallet's `Error`, `BadOrigin`, and `DispatchError::Exhausted`
of a full agenda. -/
inductive ScheduleError where
  | failedToSchedule
  | notFound
  | targetBlockNumberInPast
  | rescheduleNoChange
  | named
  | badOrigin
  | exhausted
  deriving DecidableEq

/-- What the calls take from `Config` besides servicing's: `OriginPrivilegeCmp`, the hash a bounded
call is looked up by, and `QueryPreimage::request`. -/
structure CallConfig (Bounded Origin Preimages Hash : Type) where
  cmpPrivilege : Origin → Origin → Option Ordering
  lookupHash : Bounded → Option Hash
  request : Preimages → Hash → Preimages

variable {Name Bounded Call Origin Preimages Err Hash : Type}

/-- The origin `o` may not touch a task of `origin`: it is less privileged, or the two cannot be
compared. -/
def CallConfig.lacksPrivilege (ccfg : CallConfig Bounded Origin Preimages Hash) (o origin : Origin) :
    Bool :=
  match ccfg.cmpPrivilege o origin with
  | some .lt => true
  | none => true
  | some _ => false

/-- `resolve_time`: the block of a `DispatchTime`, which must be after `now`. Block numbers have
`blockNumberBits` bits. -/
def resolveTime (blockNumberBits now : Nat) (when : DispatchTime) : Except ScheduleError Nat :=
  let when := match when with
    | .«at» x => x
    -- the current block has already completed its scheduled tasks
    | .after x =>
      Unsigned.saturatingAdd blockNumberBits (Unsigned.saturatingAdd blockNumberBits now x) 1
  if when ≤ now then .error .targetBlockNumberInPast else .ok when

def State.requestPreimage (ccfg : CallConfig Bounded Origin Preimages Hash)
    (s : State Name Bounded Origin Preimages Err) (call : Bounded) :
    State Name Bounded Origin Preimages Err :=
  match ccfg.lookupHash call with
  | some hash => { s with preimages := ccfg.request s.preimages hash }
  | none => s

/-- `cleanup_agenda`: the empty slots after the last task go, and an agenda without a task is
removed. -/
def cleanupAgenda (s : State Name Bounded Origin Preimages Err) (when : Nat) :
    State Name Bounded Origin Preimages Err :=
  let agenda := s.agenda when
  match rposition agenda Option.isSome with
  | some i => if i + 1 < agenda.length then s.setAgenda when (agenda.take (i + 1)) else s
  | none => s.setAgenda when []

def State.takeSlot (s : State Name Bounded Origin Preimages Err) (when index : Nat) :
    State Name Bounded Origin Preimages Err :=
  s.setAgenda when ((s.agenda when).set index none)

section Calls

variable [DecidableEq Name] (cfg : Config Name Bounded Call Origin Preimages Err)
  (ccfg : CallConfig Bounded Origin Preimages Hash)

/-- The part of `do_schedule` and `do_schedule_named` after their checks: the task, its period
dropped unless it repeats, is placed and its call's preimage requested. -/
def scheduleTask (s : State Name Bounded Origin Preimages Err) (when : Nat) (maybeId : Option Name)
    (maybePeriodic : Option (Nat × Nat)) (priority : Nat) (origin : Origin) (call : Bounded) :
    State Name Bounded Origin Preimages Err × Except ScheduleError (Nat × Nat) :=
  let maybePeriodic := (maybePeriodic.filter fun p => 1 < p.2 && p.1 != 0).map fun p => (p.1, p.2 - 1)
  match placeTask cfg s when ⟨maybeId, priority, call, maybePeriodic, origin⟩ with
  | .error _ => (s, .error .exhausted)
  | .ok (s, address) => (s.requestPreimage ccfg call, .ok address)

def doSchedule (s : State Name Bounded Origin Preimages Err) (now : Nat) (when : DispatchTime)
    (maybePeriodic : Option (Nat × Nat)) (priority : Nat) (origin : Origin) (call : Bounded) :
    State Name Bounded Origin Preimages Err × Except ScheduleError (Nat × Nat) :=
  match resolveTime cfg.blockNumberBits now when with
  | .error e => (s, .error e)
  | .ok when => scheduleTask cfg ccfg s when none maybePeriodic priority origin call

/-- `do_schedule_named`: a task under a name that `Lookup` does not hold yet. -/
def doScheduleNamed (s : State Name Bounded Origin Preimages Err) (now : Nat) (id : Name)
    (when : DispatchTime) (maybePeriodic : Option (Nat × Nat)) (priority : Nat) (origin : Origin)
    (call : Bounded) : State Name Bounded Origin Preimages Err × Except ScheduleError (Nat × Nat) :=
  if (s.lookup id).isSome then (s, .error .failedToSchedule)
  else
    match resolveTime cfg.blockNumberBits now when with
    | .error e => (s, .error e)
    | .ok when => scheduleTask cfg ccfg s when (some id) maybePeriodic priority origin call

/-- `do_cancel`: the task at an address leaves its slot, with its preimage and its name. -/
def doCancel (s : State Name Bounded Origin Preimages Err) (origin : Option Origin)
    (when index : Nat) : State Name Bounded Origin Preimages Err × Except ScheduleError Unit :=
  match (s.agenda when)[index]? with
  | some (some task) =>
      if origin.any fun o => ccfg.lacksPrivilege o task.origin then (s, .error .badOrigin)
      else
        let s := ((s.takeSlot when index).dropPreimage cfg task.call).setLookup task.maybeId none
        ((cleanupAgenda s when).deposit (.canceled when index), .ok ())
  | _ => (s, .error .notFound)

/-- `do_cancel_named`: the slot `Lookup` gives is emptied and the name leaves `Lookup`. Unlike
`do_cancel`, the preimage is dropped only for a given origin. -/
def doCancelNamed (s : State Name Bounded Origin Preimages Err) (origin : Option Origin) (id : Name) :
    State Name Bounded Origin Preimages Err × Except ScheduleError Unit :=
  match s.lookup id with
  | none => (s, .error .notFound)
  | some (when, index) =>
      let cancelled : Except ScheduleError (State Name Bounded Origin Preimages Err) :=
        match (s.agenda when)[index]?, origin with
        | some (some task), some o =>
            if ccfg.lacksPrivilege o task.origin then .error .badOrigin
            else .ok ((s.takeSlot when index).dropPreimage cfg task.call)
        | some (some _), none => .ok (s.takeSlot when index)
        | _, _ => .ok s
      match cancelled with
      | .error e => (s, .error e)
      | .ok s => ((cleanupAgenda (s.setLookup (some id) none) when).deposit (.canceled when index), .ok ())

/-- The part of `do_reschedule` after the task leaves its slot: the agenda cleaned up, `Canceled`
deposited, the task placed again; a full agenda fails the call with the task out. -/
def moveTask (s : State Name Bounded Origin Preimages Err) (when index newTime : Nat)
    (task : Scheduled Name Bounded Origin) :
    State Name Bounded Origin Preimages Err × Except ScheduleError (Nat × Nat) :=
  let s := (cleanupAgenda (s.takeSlot when index) when).deposit (.canceled when index)
  match placeTask cfg s newTime task with
  | .error _ => (s, .error .exhausted)
  | .ok (s, address) => (s, .ok address)

def doReschedule (s : State Name Bounded Origin Preimages Err) (now : Nat) (when index : Nat)
    (newTime : DispatchTime) :
    State Name Bounded Origin Preimages Err × Except ScheduleError (Nat × Nat) :=
  match resolveTime cfg.blockNumberBits now newTime with
  | .error e => (s, .error e)
  | .ok newTime =>
      if newTime = when then (s, .error .rescheduleNoChange)
      else
        match (s.agenda when)[index]? with
        | some (some task) =>
            if task.maybeId.isSome then (s, .error .named) else moveTask cfg s when index newTime task
        | _ => (s, .error .notFound)

def doRescheduleNamed (s : State Name Bounded Origin Preimages Err) (now : Nat) (id : Name)
    (newTime : DispatchTime) :
    State Name Bounded Origin Preimages Err × Except ScheduleError (Nat × Nat) :=
  match resolveTime cfg.blockNumberBits now newTime with
  | .error e => (s, .error e)
  | .ok newTime =>
      match s.lookup id with
      | none => (s, .error .notFound)
      | some (when, index) =>
          if newTime = when then (s, .error .rescheduleNoChange)
          else
            match (s.agenda when)[index]? with
            | some (some task) => moveTask cfg s when index newTime task
            | _ => (s, .error .notFound)

end Calls

/-- The calls of the pallet, with their arguments. -/
inductive ScheduleCall (Name Bounded Origin : Type) where
  | schedule (when : DispatchTime) (maybePeriodic : Option (Nat × Nat)) (priority : Nat)
      (origin : Origin) (call : Bounded)
  | cancel (origin : Option Origin) (when index : Nat)
  | scheduleNamed (id : Name) (when : DispatchTime) (maybePeriodic : Option (Nat × Nat))
      (priority : Nat) (origin : Origin) (call : Bounded)
  | cancelNamed (origin : Option Origin) (id : Name)
  | reschedule (when index : Nat) (newTime : DispatchTime)
  | rescheduleNamed (id : Name) (newTime : DispatchTime)

section Dispatch

variable [DecidableEq Name] (cfg : Config Name Bounded Call Origin Preimages Err)
  (ccfg : CallConfig Bounded Origin Preimages Hash)

def ScheduleCall.run (s : State Name Bounded Origin Preimages Err) (now : Nat) :
    ScheduleCall Name Bounded Origin → State Name Bounded Origin Preimages Err × Bool
  | .schedule when maybePeriodic priority origin call =>
      let (s, res) := doSchedule cfg ccfg s now when maybePeriodic priority origin call
      (s, res.toBool)
  | .cancel origin when index =>
      let (s, res) := doCancel cfg ccfg s origin when index
      (s, res.toBool)
  | .scheduleNamed id when maybePeriodic priority origin call =>
      let (s, res) := doScheduleNamed cfg ccfg s now id when maybePeriodic priority origin call
      (s, res.toBool)
  | .cancelNamed origin id =>
      let (s, res) := doCancelNamed cfg ccfg s origin id
      (s, res.toBool)
  | .reschedule when index newTime =>
      let (s, res) := doReschedule cfg s now when index newTime
      (s, res.toBool)
  | .rescheduleNamed id newTime =>
      let (s, res) := doRescheduleNamed cfg s now id newTime
      (s, res.toBool)

/-- A call dispatched as an extrinsic, in a storage layer: its writes are kept only when it
succeeds. -/
def dispatchCall (s : State Name Bounded Origin Preimages Err) (now : Nat)
    (c : ScheduleCall Name Bounded Origin) : State Name Bounded Origin Preimages Err :=
  match c.run cfg ccfg s now with
  | (s', true) => s'
  | (_, false) => s

def dispatchCalls (s : State Name Bounded Origin Preimages Err)
    (calls : List (Nat × ScheduleCall Name Bounded Origin)) : State Name Bounded Origin Preimages Err :=
  calls.foldl (fun s c => dispatchCall cfg ccfg s c.1 c.2) s

end Dispatch

end Substrate.Scheduler
