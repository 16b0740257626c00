import Substrate.Scheduler.Calls
import Mathlib

/-! # `Lookup` and the names of the tasks

`LookupExact`: `Lookup` holds, for each name, the address of the one task carrying it; every call
keeps it. Servicing does not: a task whose preimage is missing goes back to its slot after
`service_task` removed its name.
-/

namespace Substrate.Scheduler

open Substrate.Weights Slots

variable {Name Bounded Call Origin Preimages Err Hash : Type}
  {address : Nat × Nat} {id : Name} {task : Scheduled Name Bounded Origin} {when index : Nat}

def State.nameAt (s : State Name Bounded Origin Preimages Err) (address : Nat × Nat) :
    Option Name :=
  (s.slot address.1 address.2).bind Scheduled.maybeId

/-- `Lookup` holds for each name the address of the task that carries it, and no other. -/
def LookupExact (s : State Name Bounded Origin Preimages Err) : Prop :=
  ∀ id address, s.lookup id = some address ↔ s.nameAt address = some id

/-! ## How the steps of the calls change names and `Lookup` -/

section Frame

variable {s : State Name Bounded Origin Preimages Err}

theorem State.nameAt_takeSlot (when index : Nat) (a : Nat × Nat) :
    (s.takeSlot when index).nameAt a = if a = (when, index) then none else s.nameAt a := by
  obtain ⟨b, j⟩ := a
  by_cases hb : b = when
  · subst hb
    simp only [State.nameAt, State.slot, State.takeSlot, State.setAgenda_agenda,
      Function.update_self, getD_set_none, Prod.mk.injEq, true_and]
    split <;> rfl
  · simp only [State.nameAt, State.slot, State.takeSlot, State.setAgenda_agenda,
      Function.update_of_ne hb, Prod.mk.injEq, hb, false_and, if_false]

@[simp] theorem State.lookup_takeSlot (when index : Nat) :
    (s.takeSlot when index).lookup = s.lookup := rfl

/-- Cleaning up an agenda only drops empty slots at its end. -/
theorem State.slot_cleanupAgenda (when b j : Nat) :
    (cleanupAgenda s when).slot b j = s.slot b j := by
  by_cases hb : b = when
  · subst hb
    rw [cleanupAgenda]
    cases hlast : rposition (s.agenda b) Option.isSome with
    | none =>
      -- no task at all: every slot was empty
      have hall := rposition_eq_none hlast
      rw [State.slot, State.slot, State.setAgenda_agenda, Function.update_self, List.getD_nil,
        getD_eq_none_of_forall (fun x hx => by simpa using hall x hx)]
    | some i =>
      obtain ⟨-, hafter⟩ := rposition_eq_some hlast
      dsimp only
      split
      · rw [State.slot, State.slot, State.setAgenda_agenda, Function.update_self]
        exact getD_take_of_none_after (fun k hk hik => by simpa using hafter k hk hik) j
      · rfl
  · rw [cleanupAgenda]
    split
    · split
      · rw [State.slot, State.slot, State.setAgenda_agenda, Function.update_of_ne hb]
      · rfl
    · rw [State.slot, State.slot, State.setAgenda_agenda, Function.update_of_ne hb]

@[simp] theorem State.nameAt_cleanupAgenda (when : Nat) :
    (cleanupAgenda s when).nameAt = s.nameAt := by
  funext a
  rw [State.nameAt, State.nameAt, State.slot_cleanupAgenda]

@[simp] theorem State.lookup_cleanupAgenda (when : Nat) :
    (cleanupAgenda s when).lookup = s.lookup := by
  rw [cleanupAgenda]
  split
  · split <;> rfl
  · rfl

@[simp] theorem State.nameAt_deposit (event : Event Name Err) :
    (s.deposit event).nameAt = s.nameAt := rfl

@[simp] theorem State.lookup_deposit (event : Event Name Err) :
    (s.deposit event).lookup = s.lookup := rfl

variable (cfg : Config Name Bounded Call Origin Preimages Err)

@[simp] theorem State.nameAt_dropPreimage
    (call : Bounded) : (s.dropPreimage cfg call).nameAt = s.nameAt := rfl

@[simp] theorem State.lookup_dropPreimage
    (call : Bounded) : (s.dropPreimage cfg call).lookup = s.lookup := rfl

@[simp] theorem State.nameAt_requestPreimage (ccfg : CallConfig Bounded Origin Preimages Hash)
    (call : Bounded) : (s.requestPreimage ccfg call).nameAt = s.nameAt := by
  rw [State.requestPreimage]
  split <;> rfl

@[simp] theorem State.lookup_requestPreimage (ccfg : CallConfig Bounded Origin Preimages Hash)
    (call : Bounded) : (s.requestPreimage ccfg call).lookup = s.lookup := by
  rw [State.requestPreimage]
  split <;> rfl

variable [DecidableEq Name]

@[simp] theorem State.nameAt_setLookup (maybeId : Option Name) (address : Option (Nat × Nat)) :
    (s.setLookup maybeId address).nameAt = s.nameAt := by
  cases maybeId <;> rfl

theorem State.lookup_setLookup (maybeId : Option Name) (address : Option (Nat × Nat)) (id : Name) :
    (s.setLookup maybeId address).lookup id =
      if maybeId = some id then address else s.lookup id := by
  cases maybeId with
  | none => rfl
  | some name =>
    by_cases hname : name = id
    · subst hname
      simp [State.setLookup]
    · simp [State.setLookup, Function.update_of_ne (Ne.symm hname), hname]

omit [DecidableEq Name] in
theorem pushToAgenda_lookup {s₁ : State Name Bounded Origin Preimages Err}
    {what : Scheduled Name Bounded Origin} (h : pushToAgenda cfg s when what = .ok (s₁, index)) :
    s₁.lookup = s.lookup := by
  rw [pushToAgenda] at h
  split at h
  · cases h
    rfl
  · split at h
    · cases h
      rfl
    · cases h

/-- A placed task fills an empty slot, and `Lookup` takes its address under its name. -/
theorem placeTask_nameAt {s' : State Name Bounded Origin Preimages Err}
    {when : Nat} {what : Scheduled Name Bounded Origin}
    (h : placeTask cfg s when what = .ok (s', address)) :
    s.nameAt address = none ∧
      (∀ a, s'.nameAt a = if a = address then what.maybeId else s.nameAt a) ∧
      ∀ id, s'.lookup id = if what.maybeId = some id then some address else s.lookup id := by
  rw [placeTask] at h
  split at h
  · cases h
  · rename_i s₁ index hpush
    simp only [Except.ok.injEq, Prod.mk.injEq] at h
    obtain ⟨rfl, rfl⟩ := h
    obtain ⟨hempty, hslot, hother, hagenda, -⟩ := pushToAgenda_eq_ok cfg hpush
    refine ⟨by rw [State.nameAt, hempty]; rfl, fun a => ?_, fun id => ?_⟩
    · obtain ⟨b, j⟩ := a
      rw [State.nameAt_deposit, State.nameAt_setLookup]
      by_cases hb : b = when
      · subst hb
        by_cases hj : j = index
        · subst hj
          simp [State.nameAt, hslot]
        · simp only [State.nameAt, hother j hj, Prod.mk.injEq, hj, and_false, if_false]
      · simp only [State.nameAt, State.slot, hagenda b hb, Prod.mk.injEq, hb, false_and, if_false]
    · rw [State.lookup_deposit, State.lookup_setLookup, pushToAgenda_lookup cfg hpush]

end Frame

/-! ## The invariant under the calls -/

section Calls

variable [DecidableEq Name] {s s' : State Name Bounded Origin Preimages Err}

/-- The one way the calls change names: the slot `address` that carried `old` comes to carry `new`,
a name not in `Lookup`, and `Lookup` follows. -/
theorem LookupExact.update {old new : Option Name} (h : LookupExact s)
    (hold : s.nameAt address = old)
    (hnames : ∀ a, s'.nameAt a = if a = address then new else s.nameAt a)
    (hlookup : ∀ id, s'.lookup id =
      if new = some id then some address else if old = some id then none else s.lookup id)
    (hfree : ∀ id, new = some id → s.lookup id = none) :
    LookupExact s' := by
  intro id a
  rw [hnames, hlookup]
  by_cases hnew : new = some id
  · -- the new name is carried at `address` alone, since no slot carried it
    rw [if_pos hnew, Option.some.injEq]
    by_cases ha : a = address
    · simp [ha, hnew]
    · have hnot : s.nameAt a ≠ some id := fun hat => by
        have hlook := (h id a).mpr hat
        rw [hfree id hnew] at hlook
        cases hlook
      simp [ha, Ne.symm ha, hnot]
  · rw [if_neg hnew]
    by_cases hold' : old = some id
    · -- the old name was carried at `address` alone
      rw [if_pos hold']
      by_cases ha : a = address
      · simp [ha, hnew]
      · have hnot : s.nameAt a ≠ some id := fun hat => by
          have hlook := (h id a).mpr hat
          rw [(h id address).mpr (hold.trans hold'), Option.some.injEq] at hlook
          exact ha hlook.symm
        simp [ha, hnot]
    · rw [if_neg hold', h id a]
      by_cases ha : a = address
      · subst ha
        simp [hold, hold', hnew]
      · rw [if_neg ha]

/-- Emptying the slot `address`: the name it carried leaves `Lookup`. -/
theorem LookupExact.clear {old : Option Name} (h : LookupExact s)
    (hold : s.nameAt address = old)
    (hnames : ∀ a, s'.nameAt a = if a = address then none else s.nameAt a)
    (hlookup : ∀ id, s'.lookup id = if old = some id then none else s.lookup id) :
    LookupExact s' :=
  h.update hold hnames (fun id => by simp [hlookup]) (fun _ hnone => by cases hnone)

/-- Filling the empty slot `address` with a task whose name, if any, is not in `Lookup`. -/
theorem LookupExact.place {new : Option Name} (h : LookupExact s)
    (hempty : s.nameAt address = none) (hfree : ∀ id, new = some id → s.lookup id = none)
    (hnames : ∀ a, s'.nameAt a = if a = address then new else s.nameAt a)
    (hlookup : ∀ id, s'.lookup id = if new = some id then some address else s.lookup id) :
    LookupExact s' :=
  h.update hempty hnames (fun id => by simp [hlookup]) hfree

omit [DecidableEq Name] in
theorem State.nameAt_eq_some (h : s.nameAt (when, index) = some id) :
    ∃ task, (s.agenda when)[index]? = some (some task) ∧ task.maybeId = some id := by
  rw [State.nameAt, State.slot, List.getD_eq_getElem?_getD] at h
  cases hslot : (s.agenda when)[index]? with
  | none => simp [hslot] at h
  | some slot =>
    cases slot with
    | none => simp [hslot] at h
    | some task => exact ⟨task, rfl, by simpa [hslot] using h⟩

omit [DecidableEq Name] in
theorem State.nameAt_of_getElem?
    (h : (s.agenda when)[index]? = some (some task)) : s.nameAt (when, index) = task.maybeId := by
  simp [State.nameAt, State.slot, List.getD_eq_getElem?_getD, h]

variable (cfg : Config Name Bounded Call Origin Preimages Err)
  (ccfg : CallConfig Bounded Origin Preimages Hash)

/-- A scheduled task takes an empty slot, under a name that was not in `Lookup`. -/
theorem scheduleTask_lookupExact {when : Nat} {maybeId : Option Name}
    {maybePeriodic : Option (Nat × Nat)} {priority : Nat} {origin : Origin} {call : Bounded}
    {address : Nat × Nat} (h : LookupExact s) (hfree : ∀ id, maybeId = some id → s.lookup id = none)
    (hs : scheduleTask cfg ccfg s when maybeId maybePeriodic priority origin call =
      (s', .ok address)) :
    LookupExact s' := by
  rw [scheduleTask] at hs
  split at hs
  · cases hs
  · rename_i s₁ address₁ hplace
    simp only [Prod.mk.injEq, Except.ok.injEq] at hs
    obtain ⟨rfl, rfl⟩ := hs
    obtain ⟨hempty, hnames, hlookup⟩ := placeTask_nameAt cfg hplace
    refine h.place hempty hfree (fun a => ?_) (fun id => ?_)
    · rw [State.nameAt_requestPreimage, hnames]
    · rw [State.lookup_requestPreimage, hlookup]

variable {now : Nat}

theorem doSchedule_lookupExact {when : DispatchTime}
    {maybePeriodic : Option (Nat × Nat)} {priority : Nat} {origin : Origin} {call : Bounded}
    (h : LookupExact s)
    (hs : doSchedule cfg ccfg s now when maybePeriodic priority origin call = (s', .ok address)) :
    LookupExact s' := by
  rw [doSchedule] at hs
  split at hs
  · cases hs
  · exact scheduleTask_lookupExact cfg ccfg h (fun _ hnone => by cases hnone) hs

theorem doScheduleNamed_lookupExact {when : DispatchTime}
    {maybePeriodic : Option (Nat × Nat)} {priority : Nat} {origin : Origin} {call : Bounded}
    (h : LookupExact s)
    (hs : doScheduleNamed cfg ccfg s now id when maybePeriodic priority origin call =
      (s', .ok address)) :
    LookupExact s' := by
  rw [doScheduleNamed] at hs
  by_cases htaken : (s.lookup id).isSome
  · rw [if_pos htaken] at hs
    cases hs
  · rw [if_neg htaken] at hs
    -- the name is free
    have hfree : ∀ id', some id = some id' → s.lookup id' = none := by
      rintro id' ⟨⟩
      simpa using htaken
    split at hs
    · cases hs
    · exact scheduleTask_lookupExact cfg ccfg h hfree hs

theorem doCancel_lookupExact {origin : Option Origin} (h : LookupExact s)
    (hs : doCancel cfg ccfg s origin when index = (s', .ok ())) : LookupExact s' := by
  rw [doCancel] at hs
  split at hs
  · rename_i task hslot
    split at hs
    · cases hs
    · simp only [Prod.mk.injEq] at hs
      obtain ⟨rfl, -⟩ := hs
      -- the slot is emptied and the task's name leaves `Lookup`
      refine h.clear (State.nameAt_of_getElem? hslot) (fun a => ?_) (fun id => ?_)
      · simp [State.nameAt_takeSlot]
      · simp [State.lookup_setLookup]
  · cases hs

theorem doCancelNamed_lookupExact {origin : Option Origin} (h : LookupExact s)
    (hs : doCancelNamed cfg ccfg s origin id = (s', .ok ())) : LookupExact s' := by
  rw [doCancelNamed] at hs
  cases hlookup : s.lookup id with
  | none =>
    rw [hlookup] at hs
    cases hs
  | some address =>
    obtain ⟨when, index⟩ := address
    -- the address `Lookup` gives holds the task of that name
    obtain ⟨task, hslot, hid⟩ := State.nameAt_eq_some ((h id _).mp hlookup)
    rw [hlookup] at hs
    dsimp only at hs
    rw [hslot] at hs
    -- whichever origin, the slot is emptied and the name leaves `Lookup`
    have hafter : ∀ s₁ : State Name Bounded Origin Preimages Err, s₁.nameAt = (s.takeSlot when index).nameAt →
        s₁.lookup = s.lookup →
        LookupExact ((cleanupAgenda (s₁.setLookup (some id) none) when).deposit
          (.canceled when index)) := by
      intro s₁ hnames₁ hlookup₁
      refine h.clear (State.nameAt_of_getElem? hslot) (fun a => ?_) (fun id' => ?_)
      · simp [hnames₁, State.nameAt_takeSlot]
      · simp [State.lookup_setLookup, hlookup₁, hid]
    cases origin with
    | none =>
      simp only [Prod.mk.injEq] at hs
      obtain ⟨rfl, -⟩ := hs
      exact hafter _ rfl rfl
    | some o =>
      by_cases hlacks : ccfg.lacksPrivilege o task.origin
      · simp only [hlacks, if_true] at hs
        cases hs
      · simp only [hlacks, Bool.false_eq_true, if_false, Prod.mk.injEq] at hs
        obtain ⟨rfl, -⟩ := hs
        exact hafter _ rfl rfl

/-- A moved task leaves its slot, with its name, and takes an empty one at its new block, where
`Lookup` follows it. -/
theorem moveTask_lookupExact {when index newTime : Nat}
    (h : LookupExact s) (hslot : (s.agenda when)[index]? = some (some task))
    (hs : moveTask cfg s when index newTime task = (s', .ok address)) : LookupExact s' := by
  rw [moveTask] at hs
  generalize hs₁ : (cleanupAgenda (s.takeSlot when index) when).deposit
    (.canceled when index : Event Name Err) = s₁ at hs
  have hnames₁ : ∀ a, s₁.nameAt a = if a = (when, index) then none else s.nameAt a := by
    intro a
    rw [← hs₁, State.nameAt_deposit, State.nameAt_cleanupAgenda, State.nameAt_takeSlot]
  have hlookup₁ : s₁.lookup = s.lookup := by
    rw [← hs₁, State.lookup_deposit, State.lookup_cleanupAgenda, State.lookup_takeSlot]
  -- between the two writes the name is in `Lookup` with no slot; without it the invariant holds
  have hbetween : LookupExact (s₁.setLookup task.maybeId none) := by
    refine h.clear (State.nameAt_of_getElem? hslot) (fun a => ?_) (fun id => ?_)
    · rw [State.nameAt_setLookup, hnames₁]
    · rw [State.lookup_setLookup, hlookup₁]
  split at hs
  · cases hs
  · rename_i s₂ address₂ hplace
    simp only [Prod.mk.injEq, Except.ok.injEq] at hs
    obtain ⟨rfl, rfl⟩ := hs
    obtain ⟨hempty, hnames, hlookup⟩ := placeTask_nameAt cfg hplace
    -- the task's name is free once it left `Lookup` with its slot
    have hfree : ∀ id, task.maybeId = some id → (s₁.setLookup task.maybeId none).lookup id = none :=
      fun id hid => by rw [State.lookup_setLookup, if_pos hid]
    refine hbetween.place (by rw [State.nameAt_setLookup]; exact hempty) hfree (fun a => ?_)
      (fun id => ?_)
    · rw [State.nameAt_setLookup, hnames]
    · rw [hlookup, State.lookup_setLookup]
      by_cases hid : task.maybeId = some id <;> simp [hid]

theorem doReschedule_lookupExact {now when index : Nat} {newTime : DispatchTime}
    (h : LookupExact s)
    (hs : doReschedule cfg s now when index newTime = (s', .ok address)) : LookupExact s' := by
  rw [doReschedule] at hs
  split at hs
  · cases hs
  · split at hs
    · cases hs
    · split at hs
      · rename_i task hslot
        split at hs
        · cases hs
        · exact moveTask_lookupExact cfg h hslot hs
      · cases hs

theorem doRescheduleNamed_lookupExact {newTime : DispatchTime}
    (h : LookupExact s)
    (hs : doRescheduleNamed cfg s now id newTime = (s', .ok address)) : LookupExact s' := by
  rw [doRescheduleNamed] at hs
  split at hs
  · cases hs
  · split at hs
    · cases hs
    · split at hs
      · cases hs
      · split at hs
        · rename_i task hslot
          exact moveTask_lookupExact cfg h hslot hs
        · cases hs

/-- The step lemma: a dispatched call keeps `Lookup` exact; a failed call leaves the storage as it
was. -/
theorem dispatchCall_lookupExact (now : Nat) (c : ScheduleCall Name Bounded Origin)
    (h : LookupExact s) : LookupExact (dispatchCall cfg ccfg s now c) := by
  rw [dispatchCall]
  split
  · rename_i s₁ hrun
    cases c with
    | schedule when maybePeriodic priority origin call =>
      rcases hres : doSchedule cfg ccfg s now when maybePeriodic priority origin call with
        ⟨s₂, _ | address⟩
      all_goals simp [ScheduleCall.run, hres, Except.toBool] at hrun
      obtain ⟨rfl⟩ := hrun
      exact doSchedule_lookupExact cfg ccfg h hres
    | cancel origin when index =>
      rcases hres : doCancel cfg ccfg s origin when index with ⟨s₂, _ | _⟩
      all_goals simp [ScheduleCall.run, hres, Except.toBool] at hrun
      obtain ⟨rfl⟩ := hrun
      exact doCancel_lookupExact cfg ccfg h hres
    | scheduleNamed id when maybePeriodic priority origin call =>
      rcases hres : doScheduleNamed cfg ccfg s now id when maybePeriodic priority origin call with
        ⟨s₂, _ | address⟩
      all_goals simp [ScheduleCall.run, hres, Except.toBool] at hrun
      obtain ⟨rfl⟩ := hrun
      exact doScheduleNamed_lookupExact cfg ccfg h hres
    | cancelNamed origin id =>
      rcases hres : doCancelNamed cfg ccfg s origin id with ⟨s₂, _ | _⟩
      all_goals simp [ScheduleCall.run, hres, Except.toBool] at hrun
      obtain ⟨rfl⟩ := hrun
      exact doCancelNamed_lookupExact cfg ccfg h hres
    | reschedule when index newTime =>
      rcases hres : doReschedule cfg s now when index newTime with ⟨s₂, _ | address⟩
      all_goals simp [ScheduleCall.run, hres, Except.toBool] at hrun
      obtain ⟨rfl⟩ := hrun
      exact doReschedule_lookupExact cfg h hres
    | rescheduleNamed id newTime =>
      rcases hres : doRescheduleNamed cfg s now id newTime with ⟨s₂, _ | address⟩
      all_goals simp [ScheduleCall.run, hres, Except.toBool] at hrun
      obtain ⟨rfl⟩ := hrun
      exact doRescheduleNamed_lookupExact cfg h hres
  · exact h

/-- The run lemma: `Lookup` stays exact over any sequence of calls. -/
theorem dispatchCalls_lookupExact (calls : List (Nat × ScheduleCall Name Bounded Origin))
    (h : LookupExact s) : LookupExact (dispatchCalls cfg ccfg s calls) := by
  induction calls generalizing s with
  | nil => exact h
  | cons c rest ih => exact ih (dispatchCall_lookupExact cfg ccfg c.1 c.2 h)

end Calls

/-! ## Servicing -/

section Service

variable [DecidableEq Name] (cfg : Config Name Bounded Call Origin Preimages Err)

variable {s : State Name Bounded Origin Preimages Err}

/-- `service_task` of a task whose preimage is missing: the task is handed back, and its name has
already left `Lookup`. -/
theorem serviceTask_of_unavailable {meter : WeightMeter}
    {now when agendaIndex : Nat} {isFirst : Bool}
    (hpeek : cfg.peek s.preimages task.call = none) :
    serviceTask cfg meter s now when agendaIndex isFirst task =
      (meter, s.setLookup task.maybeId none, .error (.unavailable, some task)) := by
  rw [serviceTask]
  dsimp only
  rw [State.setLookup_preimages, hpeek]

/-- The round of the loop of `service_agenda` at which the meter pays a task's base weight: the
task is serviced and the result settled in its slot. -/
theorem serviceAgendaLoop_serve (now when agendaIndex : Nat) (rest : List Nat)
    (r : AgendaRun Name Bounded Origin Preimages Err)
    (hslot : r.agenda.getD agendaIndex none = some task)
    (hpaid : r.meter.canConsume (cfg.serviceTask (cfg.lookupLen task.call) task.maybeId.isSome
      task.maybePeriodic.isSome) = true) :
    serviceAgendaLoop cfg now when (agendaIndex :: rest) r =
      serviceAgendaLoop cfg now when rest
        ({ r with agenda := r.agenda.set agendaIndex none }.settle agendaIndex
          (serviceTask cfg r.meter r.state now when agendaIndex (r.executed == 0) task).1
          (serviceTask cfg r.meter r.state now when agendaIndex (r.executed == 0) task).2.1
          (serviceTask cfg r.meter r.state now when agendaIndex (r.executed == 0) task).2.2) := by
  rw [serviceAgendaLoop, hslot]
  dsimp only
  rw [hpaid]
  rfl

/-- A named task alone in its agenda whose preimage is missing, once paid for, is written back to
its slot with its name gone from `Lookup`. -/
theorem serviceAgenda_unlinks_unavailable {meter : WeightMeter} {executed : Nat}
    {now when max index priority : Nat}
    (hmax : 0 < max) (hordered : orderedTasks (s.agenda when) = [(index, priority)])
    (hslot : s.slot when index = some task) (hid : task.maybeId = some id)
    (hpeek : cfg.peek s.preimages task.call = none)
    (hpaid : ((meter.tryConsume (cfg.serviceAgendaBase 1)).getD meter).canConsume
      (cfg.serviceTask (cfg.lookupLen task.call) task.maybeId.isSome task.maybePeriodic.isSome) =
        true) :
    (serviceAgenda cfg meter executed s now when max).2.2.1.slot when index = some task ∧
      (serviceAgenda cfg meter executed s now when max).2.2.1.lookup id = none := by
  obtain ⟨k, rfl⟩ : ∃ k, max = k + 1 := ⟨max - 1, by omega⟩
  rcases hres : serviceAgenda cfg meter executed s now when (k + 1) with
    ⟨meter', executed', s', complete⟩
  obtain ⟨r₀, hagenda, hstate, -, hmeter, rfl, -⟩ := serviceAgenda_eq cfg now when hres
  have hslot₀ : r₀.agenda.getD index none = some task := by rw [hagenda]; exact hslot
  have hpaid₀ : r₀.meter.canConsume (cfg.serviceTask (cfg.lookupLen task.call) task.maybeId.isSome
      task.maybePeriodic.isSome) = true := by rw [hmeter, hordered]; exact hpaid
  have hpeek₀ : cfg.peek r₀.state.preimages task.call = none := by rw [hstate]; exact hpeek
  rw [hordered, List.take_succ_cons, List.map_cons, List.take_nil, List.map_nil,
    serviceAgendaLoop_serve cfg now when index [] r₀ hslot₀ hpaid₀,
    serviceTask_of_unavailable cfg hpeek₀]
  -- handed back as unavailable, the task counts as dropped, and the agenda is written back
  have hlt := lt_length_of_getD_eq_some hslot₀
  simp only [serviceAgendaLoop, AgendaRun.settle, hstate, hid]
  rw [if_pos (Or.inr (Nat.succ_pos _))]
  refine ⟨?_, ?_⟩
  · rw [State.slot, State.setAgenda_agenda, Function.update_self, List.set_set]
    exact getD_set_self (by simpa using hlt)
  · show (s.setLookup (some id) none).lookup id = none
    rw [State.lookup_setLookup, if_pos rfl]

omit [DecidableEq Name] in
/-- A slot holding a task of a name that is not in `Lookup` breaks the invariant. -/
theorem not_lookupExact_of_unlinked (hslot : s.slot when index = some task)
    (hid : task.maybeId = some id) (hlookup : s.lookup id = none) : ¬LookupExact s := by
  intro h
  have hlinked := (h id (when, index)).mpr (by rw [State.nameAt, hslot]; exact hid)
  rw [hlookup] at hlinked
  cases hlinked

end Service

section Claim

variable [DecidableEq Name] (cfg : Config Name Bounded Call Origin Preimages Err)
  (ccfg : CallConfig Bounded Origin Preimages Hash)

/-- Every sequence of calls keeps `Lookup` exact, while servicing a named task whose preimage is
missing breaks it: the task stays in its slot, no longer in `Lookup`. -/
theorem calls_keep_lookup_but_service_unlinks :
    (∀ (s : State Name Bounded Origin Preimages Err)
        (calls : List (Nat × ScheduleCall Name Bounded Origin)),
        LookupExact s → LookupExact (dispatchCalls cfg ccfg s calls)) ∧
      ∀ (meter : WeightMeter) (executed : Nat) (s : State Name Bounded Origin Preimages Err)
        (now when max index priority : Nat) (task : Scheduled Name Bounded Origin) (id : Name),
        0 < max → orderedTasks (s.agenda when) = [(index, priority)] →
        s.slot when index = some task → task.maybeId = some id →
        cfg.peek s.preimages task.call = none →
        ((meter.tryConsume (cfg.serviceAgendaBase 1)).getD meter).canConsume
          (cfg.serviceTask (cfg.lookupLen task.call) task.maybeId.isSome
            task.maybePeriodic.isSome) = true →
        (serviceAgenda cfg meter executed s now when max).2.2.1.slot when index = some task ∧
          ¬LookupExact (serviceAgenda cfg meter executed s now when max).2.2.1 := by
  refine ⟨fun s calls h => dispatchCalls_lookupExact cfg ccfg calls h, ?_⟩
  intro meter executed s now when max index priority task id hmax hordered hslot hid hpeek hpaid
  obtain ⟨hkept, hunlinked⟩ :=
    serviceAgenda_unlinks_unavailable cfg hmax hordered hslot hid hpeek hpaid
  exact ⟨hkept, not_lookupExact_of_unlinked hkept hid hunlinked⟩

end Claim

def plainCallConfig : CallConfig Nat Unit Unit Unit := ⟨fun _ _ => some .eq, fun _ => none, fun p _ => p⟩

def namedTask : Scheduled Unit Nat Unit := ⟨some (), 0, 0, none, ()⟩

def namedState : State Unit Nat Unit Unit Unit :=
  ⟨fun b => if b = 0 then [some namedTask] else [], fun _ => some (0, 0), none, (), []⟩

theorem namedState_lookupExact : LookupExact namedState := by
  rintro ⟨⟩ ⟨b, j⟩
  rcases b with _ | b
  · rcases j with _ | j
    · simp [namedState, State.nameAt, State.slot, namedTask]
    · simp [namedState, State.nameAt, State.slot]
  · simp [namedState, State.nameAt, State.slot]

/-- Servicing block `0`, where `namedTask` lacks its preimage, leaves the task in its slot without
its name in `Lookup`, so the name can be scheduled again and two tasks carry it. -/
theorem named_unavailable_task_loses_lookup :
    (serviceAgenda unavailableConfig (WeightMeter.fromLimit ⟨100, 100⟩) 0 namedState 0 0 1).2.2.1.slot
        0 0 = some namedTask ∧
      ¬LookupExact (serviceAgenda unavailableConfig (WeightMeter.fromLimit ⟨100, 100⟩) 0 namedState
        0 0 1).2.2.1 ∧
      (dispatchCall unavailableConfig plainCallConfig
          (serviceAgenda unavailableConfig (WeightMeter.fromLimit ⟨100, 100⟩) 0 namedState 0 0 1).2.2.1
          1 (.scheduleNamed () (.«at» 2) none 0 () 0)).nameAt (0, 0) = some () ∧
      (dispatchCall unavailableConfig plainCallConfig
          (serviceAgenda unavailableConfig (WeightMeter.fromLimit ⟨100, 100⟩) 0 namedState 0 0 1).2.2.1
          1 (.scheduleNamed () (.«at» 2) none 0 () 0)).nameAt (2, 0) = some () := by
  obtain ⟨hkept, hbroken⟩ := (calls_keep_lookup_but_service_unlinks unavailableConfig
    plainCallConfig).2 (WeightMeter.fromLimit ⟨100, 100⟩) 0 namedState 0 0 1 0 0 namedTask ()
    (by decide) (by decide) rfl rfl rfl (by decide)
  exact ⟨hkept, hbroken, by decide, by decide⟩

end Substrate.Scheduler
