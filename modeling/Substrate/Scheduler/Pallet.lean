import Substrate.Weights.WeightMeter
import Substrate.Lib.Unsigned
import Mathlib

/-! # The scheduler pallet: servicing agendas

`src/frame/scheduler/src/lib.rs`. `service_agendas` services the agendas by priority within a
weight meter: a dispatched task is removed or placed again a period later, one that cannot be
dispatched stays. The weights, preimages and dispatch are parameters; a dispatch does not
re-enter the scheduler. Block numbers are unsigned integers of `blockNumberBits` bits: the period a
task is placed again after and the cursor of `service_agendas` saturate, and `now + 1` panics at the
largest block number.
-/

namespace Substrate.Scheduler

open Substrate.Weights

/-- `Scheduled`: the task stored in a slot. -/
structure Scheduled (Name Bounded Origin : Type) where
  maybeId : Option Name
  priority : Nat
  call : Bounded
  maybePeriodic : Option (Nat × Nat)
  origin : Origin
  deriving DecidableEq

/-- The events of the pallet: those servicing deposits, and `Canceled`. -/
inductive Event (Name Err : Type) where
  | scheduled (when index : Nat)
  | canceled (when index : Nat)
  | dispatched (task : Nat × Nat) (id : Option Name) (result : Except Err Unit)
  | callUnavailable (task : Nat × Nat) (id : Option Name)
  | periodicFailed (task : Nat × Nat) (id : Option Name)
  | permanentlyOverweight (task : Nat × Nat) (id : Option Name)
  deriving DecidableEq

inductive ServiceTaskError where
  | unavailable
  | overweight
  deriving DecidableEq

/-- What servicing takes from the pallet's `Config`. -/
structure Config (Name Bounded Call Origin Preimages Err : Type) where
  /-- `BlockNumberFor<T>` is an unsigned integer of this many bits. -/
  blockNumberBits : Nat
  maxScheduledPerBlock : Nat
  serviceAgendasBase : Weight
  serviceAgendaBase : Nat → Weight
  serviceTask : Option Nat → Bool → Bool → Weight
  executeDispatchSigned : Weight
  executeDispatchUnsigned : Weight
  /-- `origin.as_system_ref()` is a signed origin. -/
  isSigned : Origin → Bool
  /-- `Bounded::lookup_len`. -/
  lookupLen : Bounded → Option Nat
  /-- `QueryPreimage::peek`: the call and the length of its preimage, if one was looked up. -/
  peek : Preimages → Bounded → Option (Call × Option Nat)
  /-- `StorePreimage::drop`. -/
  drop : Preimages → Bounded → Preimages
  /-- `get_dispatch_info().weight`. -/
  dispatchWeight : Call → Weight
  /-- `dispatch`: the actual weight, when it is reported, and the result. -/
  dispatch : Call → Origin → Option Weight × Except Err Unit

/-- The storage servicing reads and writes: `Agenda`, `Lookup` and
`IncompleteSince`, the preimages, and the events deposited. -/
structure State (Name Bounded Origin Preimages Err : Type) where
  agenda : Nat → List (Option (Scheduled Name Bounded Origin))
  lookup : Name → Option (Nat × Nat)
  incompleteSince : Option Nat
  preimages : Preimages
  events : List (Event Name Err)

variable {Name Bounded Call Origin Preimages Err : Type}

/-- `saturating_add` of two block numbers. -/
def Config.saturatingAdd (cfg : Config Name Bounded Call Origin Preimages Err) (a b : Nat) : Nat :=
  Unsigned.saturatingAdd cfg.blockNumberBits a b

/-- Below the largest block number, adding a positive number of blocks moves on. -/
theorem Config.lt_saturatingAdd (cfg : Config Name Bounded Call Origin Preimages Err) {a b : Nat}
    (ha : a < Unsigned.maxValue cfg.blockNumberBits) (hb : 0 < b) : a < cfg.saturatingAdd a b := by
  rw [Config.saturatingAdd, Unsigned.saturatingAdd]
  omega

theorem Config.saturatingAdd_one (cfg : Config Name Bounded Call Origin Preimages Err) {a : Nat}
    (ha : a < Unsigned.maxValue cfg.blockNumberBits) : cfg.saturatingAdd a 1 = a + 1 :=
  Unsigned.saturatingAdd_of_le ha

def State.setAgenda (s : State Name Bounded Origin Preimages Err) (when : Nat)
    (agenda : List (Option (Scheduled Name Bounded Origin))) :
    State Name Bounded Origin Preimages Err :=
  { s with agenda := Function.update s.agenda when agenda }

def State.deposit (s : State Name Bounded Origin Preimages Err) (event : Event Name Err) :
    State Name Bounded Origin Preimages Err :=
  { s with events := s.events ++ [event] }

def State.setLookup [DecidableEq Name] (s : State Name Bounded Origin Preimages Err)
    (maybeId : Option Name) (address : Option (Nat × Nat)) :
    State Name Bounded Origin Preimages Err :=
  match maybeId with
  | some name => { s with lookup := Function.update s.lookup name address }
  | none => s

def State.dropPreimage (cfg : Config Name Bounded Call Origin Preimages Err)
    (s : State Name Bounded Origin Preimages Err) (call : Bounded) :
    State Name Bounded Origin Preimages Err :=
  { s with preimages := cfg.drop s.preimages call }

section Frame

variable (cfg : Config Name Bounded Call Origin Preimages Err) (s : State Name Bounded Origin Preimages Err)
  (when : Nat) (agenda : List (Option (Scheduled Name Bounded Origin))) (event : Event Name Err)
  (call : Bounded) (maybeId : Option Name) (address : Option (Nat × Nat))

@[simp] theorem State.setAgenda_agenda :
    (s.setAgenda when agenda).agenda = Function.update s.agenda when agenda := rfl

@[simp] theorem State.setAgenda_events :
    (s.setAgenda when agenda).events = s.events := rfl

@[simp] theorem State.setAgenda_incompleteSince :
    (s.setAgenda when agenda).incompleteSince = s.incompleteSince := rfl

@[simp] theorem State.setAgenda_preimages :
    (s.setAgenda when agenda).preimages = s.preimages := rfl

@[simp] theorem State.deposit_agenda : (s.deposit event).agenda = s.agenda := rfl

@[simp] theorem State.deposit_events : (s.deposit event).events = s.events ++ [event] := rfl

@[simp] theorem State.deposit_incompleteSince :
    (s.deposit event).incompleteSince = s.incompleteSince := rfl

@[simp] theorem State.deposit_preimages : (s.deposit event).preimages = s.preimages := rfl

@[simp] theorem State.dropPreimage_agenda :
    (s.dropPreimage cfg call).agenda = s.agenda := rfl

@[simp] theorem State.dropPreimage_events :
    (s.dropPreimage cfg call).events = s.events := rfl

@[simp] theorem State.dropPreimage_incompleteSince :
    (s.dropPreimage cfg call).incompleteSince = s.incompleteSince := rfl

@[simp] theorem State.dropPreimage_preimages :
    (s.dropPreimage cfg call).preimages = cfg.drop s.preimages call := rfl

section Lookup

variable [DecidableEq Name]

@[simp] theorem State.setLookup_agenda :
    (s.setLookup maybeId address).agenda = s.agenda := by
  cases maybeId <;> rfl

@[simp] theorem State.setLookup_events :
    (s.setLookup maybeId address).events = s.events := by
  cases maybeId <;> rfl

@[simp] theorem State.setLookup_incompleteSince :
    (s.setLookup maybeId address).incompleteSince = s.incompleteSince := by
  cases maybeId <;> rfl

@[simp] theorem State.setLookup_preimages :
    (s.setLookup maybeId address).preimages = s.preimages := by
  cases maybeId <;> rfl

end Lookup

end Frame

section Service

variable [DecidableEq Name] (cfg : Config Name Bounded Call Origin Preimages Err)

/-- `push_to_agenda`: append while the agenda is below `MaxScheduledPerBlock`,
else fill its first empty slot. The error, `DispatchError::Exhausted`,
hands the task back. -/
def pushToAgenda (s : State Name Bounded Origin Preimages Err) (when : Nat)
    (what : Scheduled Name Bounded Origin) :
    Except (Scheduled Name Bounded Origin) (State Name Bounded Origin Preimages Err × Nat) :=
  let agenda := s.agenda when
  if agenda.length < cfg.maxScheduledPerBlock then
    .ok (s.setAgenda when (agenda ++ [some what]), agenda.length)
  else
    match agenda.findIdx? (·.isNone) with
    | some holeIndex => .ok (s.setAgenda when (agenda.set holeIndex (some what)), holeIndex)
    | none => .error what

def placeTask (s : State Name Bounded Origin Preimages Err) (when : Nat)
    (what : Scheduled Name Bounded Origin) :
    Except (Scheduled Name Bounded Origin) (State Name Bounded Origin Preimages Err × Nat × Nat) :=
  match pushToAgenda cfg s when what with
  | .error what => .error what
  | .ok (s, index) =>
      let s := s.setLookup what.maybeId (some (when, index))
      .ok (s.deposit (.scheduled when index), when, index)

/-- `execute_dispatch`: refuse a call that could push the meter past its
limit, else dispatch it and consume the weights it used. -/
def executeDispatch (meter : WeightMeter) (origin : Origin) (call : Call) :
    WeightMeter × Except ServiceTaskError (Except Err Unit) :=
  let baseWeight := if cfg.isSigned origin then cfg.executeDispatchSigned
    else cfg.executeDispatchUnsigned
  let callWeight := cfg.dispatchWeight call
  let maxWeight := baseWeight.saturatingAdd callWeight
  if !meter.canConsume maxWeight then (meter, .error .overweight)
  else
    let (actualWeight, result) := cfg.dispatch call origin
    let callWeight := actualWeight.getD callWeight
    let meter := (meter.tryConsume baseWeight).getD meter
    let meter := (meter.tryConsume callWeight).getD meter
    (meter, .ok result)

/-- `service_task`. The error hands the task back to its slot. -/
def serviceTask (meter : WeightMeter) (s : State Name Bounded Origin Preimages Err)
    (now when agendaIndex : Nat) (isFirst : Bool) (task : Scheduled Name Bounded Origin) :
    WeightMeter × State Name Bounded Origin Preimages Err ×
      Except (ServiceTaskError × Option (Scheduled Name Bounded Origin)) Unit :=
  let s := s.setLookup task.maybeId none
  match cfg.peek s.preimages task.call with
  | none => (meter, s, .error (.unavailable, some task))
  | some (call, lookupLen) =>
      let meter := (meter.tryConsume
        (cfg.serviceTask lookupLen task.maybeId.isSome task.maybePeriodic.isSome)).getD meter
      match executeDispatch cfg meter task.origin call with
      | (meter, .error .unavailable) =>
          (meter, s.deposit (.callUnavailable (when, agendaIndex) task.maybeId),
            .error (.unavailable, some task))
      | (meter, .error .overweight) =>
          if isFirst then
            (meter, (s.dropPreimage cfg task.call).deposit
                (.permanentlyOverweight (when, agendaIndex) task.maybeId),
              .error (.unavailable, some task))
          else (meter, s, .error (.overweight, some task))
      | (meter, .ok result) =>
          let s := s.deposit (.dispatched (when, agendaIndex) task.maybeId result)
          match task.maybePeriodic with
          | some (period, count) =>
              let task := { task with
                maybePeriodic := if count > 1 then some (period, count - 1) else none }
              match placeTask cfg s (cfg.saturatingAdd now period) task with
              | .ok (s, _) => (meter, s, .ok ())
              | .error task =>
                  (meter, (s.dropPreimage cfg task.call).deposit
                    (.periodicFailed (when, agendaIndex) task.maybeId), .ok ())
          | none => (meter, s.dropPreimage cfg task.call, .ok ())

/-- The variables of the loop of `service_agenda`: the meter, the tasks executed, the storage, the
agenda slot by slot, and the postponed and dropped counts. -/
structure AgendaRun (Name Bounded Origin Preimages Err : Type) where
  meter : WeightMeter
  executed : Nat
  state : State Name Bounded Origin Preimages Err
  agenda : List (Option (Scheduled Name Bounded Origin))
  postponed : Nat
  dropped : Nat

/-- The assignment to `agenda[agenda_index]` after `service_task`, and the
count it changes. -/
def AgendaRun.settle (r : AgendaRun Name Bounded Origin Preimages Err) (agendaIndex : Nat)
    (meter : WeightMeter) (s : State Name Bounded Origin Preimages Err) :
    Except (ServiceTaskError × Option (Scheduled Name Bounded Origin)) Unit →
      AgendaRun Name Bounded Origin Preimages Err
  | .error (.unavailable, slot) =>
      { r with meter, state := s, agenda := r.agenda.set agendaIndex slot,
               dropped := r.dropped + 1 }
  | .error (.overweight, slot) =>
      { r with meter, state := s, agenda := r.agenda.set agendaIndex slot,
               postponed := r.postponed + 1 }
  | .ok () =>
      { r with meter, executed := r.executed + 1, state := s,
               agenda := r.agenda.set agendaIndex none }

/-- The loop of `service_agenda` over the indices by priority. A task leaves its slot before the
meter is asked for its base weight; the `break` leaves the slot empty. -/
def serviceAgendaLoop (now when : Nat) :
    List Nat → AgendaRun Name Bounded Origin Preimages Err →
      AgendaRun Name Bounded Origin Preimages Err
  | [], r => r
  | agendaIndex :: rest, r =>
      match r.agenda.getD agendaIndex none with
      | none => serviceAgendaLoop now when rest r
      | some task =>
          let r := { r with agenda := r.agenda.set agendaIndex none }
          let baseWeight := cfg.serviceTask (cfg.lookupLen task.call) task.maybeId.isSome
            task.maybePeriodic.isSome
          if !r.meter.canConsume baseWeight then { r with postponed := r.postponed + 1 }
          else
            let (meter, s, result) :=
              serviceTask cfg r.meter r.state now when agendaIndex (r.executed == 0) task
            serviceAgendaLoop now when rest (r.settle agendaIndex meter s result)

/-- The indices of the agenda's tasks with their priorities, sorted by
priority with a stable sort, as `sort_by_key` does. -/
def orderedTasks (agenda : List (Option (Scheduled Name Bounded Origin))) : List (Nat × Nat) :=
  (agenda.zipIdx.filterMap fun (item, index) => item.map fun item => (index, item.priority)).insertionSort
    fun a b => a.2 ≤ b.2

/-- `service_agenda`: `true` when the agenda was completed, `false` when it must be visited again;
written back when a task was postponed or dropped, removed otherwise. -/
def serviceAgenda (meter : WeightMeter) (executed : Nat) (s : State Name Bounded Origin Preimages Err)
    (now when max : Nat) : WeightMeter × Nat × State Name Bounded Origin Preimages Err × Bool :=
  let agenda := s.agenda when
  let ordered := orderedTasks agenda
  let meter := (meter.tryConsume (cfg.serviceAgendaBase ordered.length)).getD meter
  let r := serviceAgendaLoop cfg now when ((ordered.take max).map Prod.fst)
    ⟨meter, executed, s, agenda, ordered.length - max, 0⟩
  let s := if 0 < r.postponed ∨ 0 < r.dropped then r.state.setAgenda when r.agenda
    else r.state.setAgenda when []
  (r.meter, r.executed, s, r.postponed == 0)

/-- The variables of the loop of `service_agendas`. -/
structure AgendasRun (Name Bounded Origin Preimages Err : Type) where
  meter : WeightMeter
  executed : Nat
  state : State Name Bounded Origin Preimages Err
  when : Nat
  incompleteSince : Nat

def serviceAgendasLoop (now : Nat) :
    Nat → AgendasRun Name Bounded Origin Preimages Err →
      AgendasRun Name Bounded Origin Preimages Err
  | 0, r => r
  | countDown + 1, r =>
      if r.when ≤ now ∧ r.meter.canConsume (cfg.serviceAgendaBase cfg.maxScheduledPerBlock) then
        let (meter, executed, s, complete) :=
          serviceAgenda cfg r.meter r.executed r.state now r.when (2 ^ 32 - 1)
        serviceAgendasLoop now countDown
          { meter, executed, state := s, when := cfg.saturatingAdd r.when 1,
            incompleteSince := if complete then r.incompleteSince else min r.incompleteSince r.when }
      else r

/-- `service_agendas`: service up to `max` agendas from the first one not
completed, and record where to resume; `none` where `now + One::one()` overflows. -/
def serviceAgendas (meter : WeightMeter) (s : State Name Bounded Origin Preimages Err)
    (now max : Nat) : Option (WeightMeter × State Name Bounded Origin Preimages Err) :=
  match meter.tryConsume cfg.serviceAgendasBase with
  | none => some (meter, s)
  | some meter => do
      let next ← Unsigned.checkedAdd cfg.blockNumberBits now 1
      let r := serviceAgendasLoop cfg now max
        { meter, executed := 0, state := { s with incompleteSince := none },
          when := s.incompleteSince.getD now, incompleteSince := next }
      let incompleteSince := min r.incompleteSince r.when
      if incompleteSince ≤ now then
        return (r.meter, { r.state with incompleteSince := some incompleteSince })
      else return (r.meter, r.state)

end Service

end Substrate.Scheduler
