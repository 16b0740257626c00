import Substrate.Scheduler.Agenda

/-! # What servicing the agendas does with every task

Every task of a visited agenda is dispatched once or left with a reason. The task at which
`service_agenda` breaks off for lack of weight is lost (`serviceAgenda_loses_unpaid_task`).
-/

namespace Substrate.Scheduler

open Substrate.Weights Slots

variable {Name Bounded Call Origin Preimages Err : Type}

section Outcome

variable (cfg : Config Name Bounded Call Origin Preimages Err) (now : Nat)
  {when index : Nat} {task : Scheduled Name Bounded Origin}

/-- Events deposited before, none of them a `Dispatched` of the task, do not
change what became of it. -/
theorem TaskOutcome.prepend [DecidableEq Name] {s' : State Name Bounded Origin Preimages Err}
    {events before : List (Event Name Err)} {deferred : Prop}
    (hbefore : dispatchedCount (when, index) before = 0)
    (h : TaskOutcome cfg now when index task s' events deferred) :
    TaskOutcome cfg now when index task s' (before ++ events) deferred := by
  have hcount : dispatchedCount (when, index) (before ++ events) =
      dispatchedCount (when, index) events := by
    rw [dispatchedCount, List.countP_append, ← dispatchedCount, hbefore, Nat.zero_add]
    rfl
  rcases h with ⟨hone, hslot, hrenewed⟩ | ⟨hzero, hslot, hreason⟩
  · refine .inl ⟨hcount ▸ hone, hslot, fun period count h => ?_⟩
    exact (hrenewed period count h).imp_right (List.mem_append_right _)
  · refine .inr ⟨hcount ▸ hzero, hslot, ?_⟩
    exact hreason.imp_left (List.mem_append_right _)

/-- What became of a task stays so over later steps that leave its slot alone, keep the tasks after
`now` and the missing preimages, and do not dispatch it. -/
theorem TaskOutcome.mono [DecidableEq Name] {s₁ s₂ : State Name Bounded Origin Preimages Err}
    {events after : List (Event Name Err)} {deferred deferred' : Prop}
    (hnow : now < Unsigned.maxValue cfg.blockNumberBits) (hperiod : task.PeriodOk)
    (hslot : s₂.slot when index = s₁.slot when index)
    (hlater : ∀ b j task', now < b → s₁.slot b j = some task' → s₂.slot b j = some task')
    (hunavailable : ∀ call, cfg.peek s₁.preimages call = none → cfg.peek s₂.preimages call = none)
    (hafter : dispatchedCount (when, index) after = 0) (hdeferred : deferred → deferred')
    (h : TaskOutcome cfg now when index task s₁ events deferred) :
    TaskOutcome cfg now when index task s₂ (events ++ after) deferred' := by
  have hcount : dispatchedCount (when, index) (events ++ after) =
      dispatchedCount (when, index) events := by
    rw [dispatchedCount, List.countP_append, ← dispatchedCount, ← dispatchedCount, hafter,
      Nat.add_zero]
  rcases h with ⟨hone, hempty, hrenewed⟩ | ⟨hzero, hkept, hreason⟩
  · refine .inl ⟨hcount ▸ hone, hslot ▸ hempty, fun period count hperiodic => ?_⟩
    -- the task placed again is in an agenda after `now`
    have hwake := cfg.lt_saturatingAdd hnow (hperiod period count hperiodic)
    rcases hrenewed period count hperiodic with ⟨j, hplaced⟩ | hfailed
    · exact .inl ⟨j, hlater _ _ _ (by omega) hplaced⟩
    · exact .inr (List.mem_append_left _ hfailed)
  · refine .inr ⟨hcount ▸ hzero, hslot ▸ hkept, ?_⟩
    rcases hreason with hoverweight | hmissing | hdeferred₁
    · exact .inl (List.mem_append_left _ hoverweight)
    · exact .inr (.inl (hunavailable _ hmissing))
    · exact .inr (.inr (hdeferred hdeferred₁))

theorem TaskLost.prepend {s' : State Name Bounded Origin Preimages Err}
    {events before : List (Event Name Err)} {deferred : Prop}
    (hbefore : dispatchedCount (when, index) before = 0) (h : TaskLost when index s' events deferred) :
    TaskLost when index s' (before ++ events) deferred := by
  obtain ⟨hzero, hslot, hdeferred⟩ := h
  refine ⟨?_, hslot, hdeferred⟩
  rw [dispatchedCount, List.countP_append, ← dispatchedCount, ← dispatchedCount, hbefore, hzero]

/-- A lost task stays lost over later steps that leave its slot alone and do not dispatch it. -/
theorem TaskLost.mono {s₁ s₂ : State Name Bounded Origin Preimages Err}
    {events after : List (Event Name Err)} {deferred deferred' : Prop}
    (hslot : s₂.slot when index = s₁.slot when index)
    (hafter : dispatchedCount (when, index) after = 0) (hdeferred : deferred → deferred')
    (h : TaskLost when index s₁ events deferred) :
    TaskLost when index s₂ (events ++ after) deferred' := by
  obtain ⟨hzero, hgone, hdeferred₁⟩ := h
  refine ⟨?_, hslot ▸ hgone, hdeferred hdeferred₁⟩
  rw [dispatchedCount, List.countP_append, ← dispatchedCount, ← dispatchedCount, hafter, hzero]

end Outcome

section Loop

variable [DecidableEq Name] (cfg : Config Name Bounded Call Origin Preimages Err) (now : Nat)
  (hnow : now < Unsigned.maxValue cfg.blockNumberBits)

include hnow in
/-- One round of the loop of `service_agendas`: it stops, or services the cursor's agenda and moves
on, marking the agenda incomplete if it was not completed. Below the largest block number the
cursor's `saturating_inc` is exact. -/
theorem serviceAgendasLoop_succ (countDown : Nat) (r : AgendasRun Name Bounded Origin Preimages Err) :
    serviceAgendasLoop cfg now (countDown + 1) r = r ∨
    ∃ meter executed s complete, r.when ≤ now ∧
      serviceAgenda cfg r.meter r.executed r.state now r.when (2 ^ 32 - 1) =
        (meter, executed, s, complete) ∧
      serviceAgendasLoop cfg now (countDown + 1) r =
        serviceAgendasLoop cfg now countDown
          ⟨meter, executed, s, r.when + 1,
            if complete then r.incompleteSince else min r.incompleteSince r.when⟩ := by
  rw [serviceAgendasLoop]
  split
  next hguard =>
      rcases hservice : serviceAgenda cfg r.meter r.executed r.state now r.when (2 ^ 32 - 1) with
        ⟨meter, executed, s, complete⟩
      rw [cfg.saturatingAdd_one (Nat.lt_of_le_of_lt hguard.1 hnow)]
      exact .inr ⟨meter, executed, s, complete, hguard.1, rfl, rfl⟩
  next => exact .inl rfl

include hnow in
/-- The loop moves the cursor at most to the block after `now`. -/
theorem serviceAgendasLoop_when_le (countDown : Nat) (r : AgendasRun Name Bounded Origin Preimages Err) :
    (serviceAgendasLoop cfg now countDown r).when ≤ max r.when (now + 1) := by
  induction countDown generalizing r with
  | zero => exact Nat.le_max_left _ _
  | succ countDown ih =>
    rcases serviceAgendasLoop_succ cfg now hnow countDown r with hloop |
      ⟨meter, executed, s, complete, hwhen, -, hloop⟩
    · rw [hloop]
      exact Nat.le_max_left _ _
    · rw [hloop]
      have hrest := ih ⟨meter, executed, s, r.when + 1,
        if complete then r.incompleteSince else min r.incompleteSince r.when⟩
      dsimp only at hrest
      omega

variable (hdrop : ∀ preimages call call', cfg.peek preimages call' = none →
  cfg.peek (cfg.drop preimages call) call' = none)

include hdrop hnow in
/-- The loop keeps what every step keeps, only moves the cursor on and the incomplete mark back, and
writes no agenda up to `now` but those it visits. -/
theorem serviceAgendasLoop_keeps (countDown : Nat) (r : AgendasRun Name Bounded Origin Preimages Err)
    (hperiod : ∀ b, r.when ≤ b → b ≤ now → ∀ j task, r.state.slot b j = some task → task.PeriodOk) :
    Keeps cfg now r.state (serviceAgendasLoop cfg now countDown r).state ∧
      r.when ≤ (serviceAgendasLoop cfg now countDown r).when ∧
      (serviceAgendasLoop cfg now countDown r).incompleteSince ≤ r.incompleteSince ∧
      ∀ b ≤ now, b < r.when ∨ (serviceAgendasLoop cfg now countDown r).when ≤ b →
        (serviceAgendasLoop cfg now countDown r).state.agenda b = r.state.agenda b := by
  -- induction on the count; the run is generalized since each round moves the cursor
  induction countDown generalizing r with
  | zero => exact ⟨Keeps.refl cfg now _, Nat.le_refl _, Nat.le_refl _, fun _ _ _ => rfl⟩
  | succ countDown ih =>
    rcases serviceAgendasLoop_succ cfg now hnow countDown r with hloop |
      ⟨meter, executed, s, complete, hwhen, hservice, hloop⟩
    · rw [hloop]
      exact ⟨Keeps.refl cfg now _, Nat.le_refl _, Nat.le_refl _, fun _ _ _ => rfl⟩
    · rw [hloop]
      obtain ⟨hkeeps, hframe⟩ := serviceAgenda_keeps cfg now r.when hdrop hnow hwhen
        (hperiod r.when (Nat.le_refl _) hwhen) hservice
      obtain ⟨hkeeps', hcursor, hincomplete, hframe'⟩ := ih
        ⟨meter, executed, s, r.when + 1, if complete then r.incompleteSince
          else min r.incompleteSince r.when⟩ fun b hb hbnow j task h => by
          dsimp only at hb h
          rw [State.slot, hframe b hbnow (by omega)] at h
          exact hperiod b (by omega) hbnow j task h
      dsimp only at hkeeps' hcursor hincomplete hframe'
      refine ⟨hkeeps.trans hkeeps', by omega, Nat.le_trans hincomplete ?_,
        fun b hb hvisited => ?_⟩
      · split
        · exact Nat.le_refl _
        · exact Nat.min_le_left _ _
      · rw [hframe' b hb (hvisited.imp_left fun h => by omega), hframe b hb (by omega)]

include hdrop hnow in
/-- The run lemma of `service_agendas`: each task of a visited agenda was dispatched once or left
with a reason, but for the one per agenda at which `service_agenda` broke off, which is lost; only
tasks of visited agendas were dispatched. -/
theorem serviceAgendasLoop_serviced (countDown : Nat) (r : AgendasRun Name Bounded Origin Preimages Err)
    (hperiod : ∀ b, r.when ≤ b → b ≤ now → ∀ j task, r.state.slot b j = some task → task.PeriodOk) :
    ∃ events, (serviceAgendasLoop cfg now countDown r).state.events = r.state.events ++ events ∧
      (∀ address, address.1 < r.when ∨ (serviceAgendasLoop cfg now countDown r).when ≤ address.1 →
        dispatchedCount address events = 0) ∧
      ∃ stop : Nat → Option Nat, ∀ b index task, r.when ≤ b →
        b < (serviceAgendasLoop cfg now countDown r).when → b ≤ now →
        r.state.slot b index = some task →
          (stop b = some index ∧ TaskLost b index (serviceAgendasLoop cfg now countDown r).state
            events ((serviceAgendasLoop cfg now countDown r).incompleteSince ≤ b)) ∨
          TaskOutcome cfg now b index task (serviceAgendasLoop cfg now countDown r).state events
            ((serviceAgendasLoop cfg now countDown r).incompleteSince ≤ b) := by
  induction countDown generalizing r with
  | zero => exact ⟨[], by simp [serviceAgendasLoop], fun _ _ => rfl, fun _ => none,
      fun b _ _ hb hlt => absurd hlt (by simp [serviceAgendasLoop]; omega)⟩
  | succ countDown ih =>
    rcases serviceAgendasLoop_succ cfg now hnow countDown r with hloop |
      ⟨meter, executed, s, complete, hwhen, hservice, hloop⟩
    · -- the loop stops: no agenda is visited
      rw [hloop]
      exact ⟨[], by simp, fun _ _ => rfl, fun _ => none, fun b _ _ hb hlt => absurd hlt (by omega)⟩
    · rw [hloop]
      have hperiod₀ := hperiod r.when (Nat.le_refl _) hwhen
      obtain ⟨-, hframe⟩ := serviceAgenda_keeps cfg now r.when hdrop hnow hwhen hperiod₀ hservice
      obtain ⟨events₁, hevents₁, hcount₁, stop₁, hserviced₁⟩ :=
        serviceAgenda_serviced cfg now r.when hdrop hnow hwhen hperiod₀ hservice
      -- the agendas after the cursor are as they were before this round
      have hslot : ∀ b ≤ now, r.when ≠ b → s.slot b = r.state.slot b := fun b hb hne => by
        funext j
        rw [State.slot, State.slot, hframe b hb (Ne.symm hne)]
      have hperiod' : ∀ b, r.when + 1 ≤ b → b ≤ now → ∀ j task, s.slot b j = some task →
          task.PeriodOk := fun b hb hbnow j task h =>
        hperiod b (by omega) hbnow j task (by rwa [hslot b hbnow (by omega)] at h)
      -- the rest of the loop, from the cursor moved on
      obtain ⟨hkeeps', hcursor, hincomplete, hframe'⟩ := serviceAgendasLoop_keeps cfg now hnow hdrop
        countDown ⟨meter, executed, s, r.when + 1, if complete then r.incompleteSince
          else min r.incompleteSince r.when⟩ hperiod'
      obtain ⟨events₂, hevents₂, hcount₂, stop₂, hserviced₂⟩ := ih ⟨meter, executed, s,
        r.when + 1, if complete then r.incompleteSince else min r.incompleteSince r.when⟩ hperiod'
      dsimp only at hkeeps' hcursor hincomplete hframe' hevents₂ hcount₂ hserviced₂
      generalize serviceAgendasLoop cfg now countDown _ = r' at hkeeps' hcursor hincomplete hframe' hevents₂ hcount₂ hserviced₂ ⊢
      refine ⟨events₁ ++ events₂, by rw [hevents₂, hevents₁, List.append_assoc],
        fun address haddress => ?_, fun b => if b = r.when then stop₁ else stop₂ b,
        fun b index task hb hlt hbnow htask => ?_⟩
      · rw [dispatchedCount, List.countP_append, ← dispatchedCount, ← dispatchedCount,
          hcount₁ address (by omega), hcount₂ address (by omega)]
      · by_cases hcur : b = r.when
        · -- the agenda of this round: what became of its tasks stays so
          subst hcur
          dsimp only
          rw [if_pos rfl]
          -- the rest of the loop leaves this agenda alone and keeps it marked incomplete
          have hslot' : r'.state.slot r.when index = s.slot r.when index := by
            rw [State.slot, State.slot, hframe' _ hbnow (.inl (by omega))]
          have hdeferred : complete = false → r'.incompleteSince ≤ r.when := fun hincomplete₁ => by
            rw [hincomplete₁] at hincomplete
            exact Nat.le_trans hincomplete (Nat.min_le_right _ _)
          exact (hserviced₁ index task htask).imp
            (And.imp_right (TaskLost.mono hslot' (hcount₂ _ (.inl (by simp))) hdeferred))
            (TaskOutcome.mono cfg now hnow (hperiod _ hb hbnow index task htask) hslot' hkeeps'.later
              hkeeps'.unavailable (hcount₂ _ (.inl (by simp))) hdeferred)
        · -- a later agenda, visited by the rest of the loop
          dsimp only
          rw [if_neg hcur]
          rw [← hslot b hbnow (Ne.symm hcur)] at htask
          exact (hserviced₂ b index task (by omega) hlt hbnow htask).imp
            (And.imp_right (TaskLost.prepend (hcount₁ _ hcur)))
            (TaskOutcome.prepend cfg now (hcount₁ _ hcur))

end Loop

section Agendas

variable [DecidableEq Name] (cfg : Config Name Bounded Call Origin Preimages Err)

/-- Once the meter pays the base weight, below the largest block number `service_agendas` runs the
loop from the cursor and writes `IncompleteSince` where the loop left an agenda incomplete. -/
theorem serviceAgendas_of_tryConsume {meter meter₁ : WeightMeter}
    {s : State Name Bounded Origin Preimages Err} {now max : Nat}
    (hmeter : meter.tryConsume cfg.serviceAgendasBase = some meter₁)
    (hnow : now < Unsigned.maxValue cfg.blockNumberBits) :
    serviceAgendas cfg meter s now max =
      some ((fun r : AgendasRun Name Bounded Origin Preimages Err =>
          if min r.incompleteSince r.when ≤ now then
            (r.meter, { r.state with incompleteSince := some (min r.incompleteSince r.when) })
          else (r.meter, r.state))
        (serviceAgendasLoop cfg now max
          ⟨meter₁, 0, { s with incompleteSince := none }, s.incompleteSince.getD now, now + 1⟩)) := by
  rw [serviceAgendas, hmeter, Unsigned.checkedAdd_of_le hnow]
  dsimp only [Option.bind_eq_bind, Option.bind_some]
  split <;> rfl

/-- At the largest block number, `now + One::one()` overflows once the base weight is paid. -/
theorem serviceAgendas_eq_none {meter : WeightMeter} {s : State Name Bounded Origin Preimages Err}
    {now max : Nat} (hbase : meter.canConsume cfg.serviceAgendasBase = true)
    (hmax : Unsigned.maxValue cfg.blockNumberBits ≤ now) : serviceAgendas cfg meter s now max = none := by
  obtain ⟨meter₁, hmeter⟩ := WeightMeter.tryConsume_of_canConsume hbase
  rw [serviceAgendas, hmeter, Unsigned.checkedAdd_of_lt (by omega)]
  rfl

/-- From a meter that pays the base weight, below the largest block number, `service_agendas`
returns, and every task of an agenda from the cursor to `now` was dispatched once, or stays with a
reason, but for the task where `service_agenda` broke off, which is gone from its slot without being
dispatched. No other task was dispatched. -/
theorem serviceAgendas_outcome
    (hdrop : ∀ preimages call call', cfg.peek preimages call' = none →
      cfg.peek (cfg.drop preimages call) call' = none)
    (meter : WeightMeter) (s : State Name Bounded Origin Preimages Err) (now max : Nat)
    (hnow : now < Unsigned.maxValue cfg.blockNumberBits)
    (hbase : meter.canConsume cfg.serviceAgendasBase = true)
    (hperiod : ∀ b ≤ now, ∀ j task, s.slot b j = some task → task.PeriodOk) :
    ∃ meter' s', serviceAgendas cfg meter s now max = some (meter', s') ∧
    ∃ events, s'.events = s.events ++ events ∧
      (∀ address, address.1 < s.incompleteSince.getD now ∨ now < address.1 →
        dispatchedCount address events = 0) ∧
      ∃ stop : Nat → Option Nat, ∀ b index task, s.incompleteSince.getD now ≤ b → b ≤ now →
        s.slot b index = some task →
          (stop b = some index ∧ TaskLost b index s' events
            (∃ since, s'.incompleteSince = some since ∧ since ≤ b)) ∨
          TaskOutcome cfg now b index task s' events
            (∃ since, s'.incompleteSince = some since ∧ since ≤ b) := by
  obtain ⟨meter₁, hmeter⟩ := WeightMeter.tryConsume_of_canConsume hbase
  -- the loop starts at the cursor, with the mark cleared
  let r₀ : AgendasRun Name Bounded Origin Preimages Err :=
    ⟨meter₁, 0, { s with incompleteSince := none }, s.incompleteSince.getD now, now + 1⟩
  have hperiod₀ : ∀ b, r₀.when ≤ b → b ≤ now → ∀ j task, r₀.state.slot b j = some task →
      task.PeriodOk := fun b _ hb => hperiod b hb
  obtain ⟨-, -, -, hframe⟩ := serviceAgendasLoop_keeps cfg now hnow hdrop max r₀ hperiod₀
  obtain ⟨events, hevents, hcount, stop, hserviced⟩ :=
    serviceAgendasLoop_serviced cfg now hnow hdrop max r₀ hperiod₀
  have hcursor := serviceAgendasLoop_when_le cfg now hnow max r₀
  dsimp only [r₀] at hframe hevents hcount hserviced hcursor
  rw [serviceAgendas_of_tryConsume cfg hmeter hnow]
  dsimp only
  generalize serviceAgendasLoop cfg now max _ = r at hframe hevents hcount hserviced hcursor ⊢
  -- the storage after `IncompleteSince` is written, whether it is written or not
  generalize hres : (if min r.incompleteSince r.when ≤ now then
    (r.meter, { r.state with incompleteSince := some (min r.incompleteSince r.when) })
    else (r.meter, r.state)) = res
  obtain ⟨meter', s'⟩ := res
  refine ⟨meter', s', rfl, ?_⟩
  have hstorage : s'.events = r.state.events ∧ s'.preimages = r.state.preimages ∧
      s'.slot = r.state.slot := by
    split at hres <;> (cases hres; exact ⟨rfl, rfl, rfl⟩)
  have hdeferred : ∀ b ≤ now, min r.incompleteSince r.when ≤ b →
      ∃ since, s'.incompleteSince = some since ∧ since ≤ b := fun b hb hle => by
    rw [if_pos (by omega)] at hres
    cases hres
    exact ⟨_, rfl, hle⟩
  refine ⟨events, by rw [hstorage.1, hevents], fun address haddress =>
    hcount address (by omega), stop,
    fun b index task hb hbnow htask => ?_⟩
  by_cases hvisited : b < r.when
  · -- a visited agenda: what became of its tasks stays so once the cursor is written
    have hslot' : s'.slot b index = r.state.slot b index := by rw [hstorage.2.2]
    have hnone : dispatchedCount (b, index) ([] : List (Event Name Err)) = 0 := rfl
    have hdeferred' := fun h => hdeferred b hbnow (Nat.le_trans (Nat.min_le_left _ _) h)
    rcases hserviced b index task hb hvisited hbnow htask with ⟨hstop, hlost⟩ | hout
    · have hmono := TaskLost.mono hslot' hnone hdeferred' hlost
      rw [List.append_nil] at hmono
      exact .inl ⟨hstop, hmono⟩
    · have hmono := TaskOutcome.mono cfg now hnow (hperiod b hbnow index task htask) hslot'
        (fun b j task' _ h => by rw [hstorage.2.2]; exact h)
        (fun call h => by rw [hstorage.2.1]; exact h) hnone hdeferred' hout
      rw [List.append_nil] at hmono
      exact .inr hmono
  · -- an agenda the loop did not reach: left alone, and the cursor is set no later
    refine .inr (.inr ⟨hcount (b, index) (.inr (by omega)), ?_,
      .inr (.inr (hdeferred b hbnow (by omega)))⟩)
    rw [hstorage.2.2, State.slot, hframe b hbnow (.inr (by omega))]
    exact htask

def unavailableConfig : Config Unit Nat Nat Unit Unit Unit where
  blockNumberBits := 32
  maxScheduledPerBlock := 50
  serviceAgendasBase := Weight.zero
  serviceAgendaBase _ := Weight.zero
  serviceTask _ _ _ := Weight.zero
  executeDispatchSigned := Weight.zero
  executeDispatchUnsigned := Weight.zero
  isSigned _ := false
  lookupLen _ := none
  peek _ _ := none
  drop preimages _ := preimages
  dispatchWeight _ := Weight.zero
  dispatch _ _ := (none, .ok ())

def plainTask : Scheduled Unit Nat Unit := ⟨none, 0, 0, none, ()⟩

def pendingState : State Unit Nat Unit Unit Unit :=
  ⟨fun b => if b = 0 then [some plainTask] else [], fun _ => none, none, (), []⟩

/-- A task whose preimage is missing stays in its slot, with no event and
with `IncompleteSince` not set: the agenda counts as completed, and the task
is not serviced again. -/
example :
    (serviceAgendas unavailableConfig (WeightMeter.fromLimit ⟨100, 100⟩) pendingState 0 1).map
        (fun r => (r.2.slot 0 0, r.2.events, r.2.incompleteSince)) = some (some plainTask, [], none) := by
  decide

end Agendas

section Unpaid

variable [DecidableEq Name] (cfg : Config Name Bounded Call Origin Preimages Err)

/-- The task `service_agenda` breaks off at is lost: taken out of its slot when the meter cannot pay
it, it is not written back, though the agenda is visited again. -/
theorem serviceAgenda_loses_unpaid_task {meter : WeightMeter} {executed : Nat}
    {s : State Name Bounded Origin Preimages Err} {now when max index priority : Nat}
    {rest : List (Nat × Nat)} {task : Scheduled Name Bounded Origin} (hmax : 0 < max)
    (hordered : orderedTasks (s.agenda when) = (index, priority) :: rest)
    (hslot : s.slot when index = some task)
    (hunpaid : ((meter.tryConsume (cfg.serviceAgendaBase (rest.length + 1))).getD meter).canConsume
      (cfg.serviceTask (cfg.lookupLen task.call) task.maybeId.isSome task.maybePeriodic.isSome) =
        false) :
    (serviceAgenda cfg meter executed s now when max).2.2 =
      (s.setAgenda when ((s.agenda when).set index none), false) := by
  obtain ⟨k, rfl⟩ : ∃ k, max = k + 1 := ⟨max - 1, by omega⟩
  rcases hres : serviceAgenda cfg meter executed s now when (k + 1) with
    ⟨meter', executed', s', complete⟩
  obtain ⟨r₀, hagenda, hstate, -, hmeter, rfl, rfl⟩ := serviceAgenda_eq cfg now when hres
  rw [hordered, List.take_succ_cons, List.map_cons, serviceAgendaLoop_break cfg now when index _ r₀
    (by rw [hagenda]; exact hslot) (by rw [hmeter, hordered]; exact hunpaid)]
  -- one task postponed: the agenda is written back, with the slot emptied
  simp [hstate, hagenda]

/-- The weights of `unavailableConfig`, but servicing a task costs more than the block's weight. -/
def unpaidConfig : Config Unit Nat Nat Unit Unit Unit :=
  { unavailableConfig with serviceTask := fun _ _ _ => ⟨200, 200⟩ }

/-- The one task of block `0` costs more to service than the meter holds: it is taken out of its
slot and not written back. -/
theorem unpaid_task_is_lost :
    (serviceAgenda unpaidConfig (WeightMeter.fromLimit ⟨100, 100⟩) 0 pendingState 0 0 1).2.2 =
      (pendingState.setAgenda 0 ((pendingState.agenda 0).set 0 none), false) :=
  serviceAgenda_loses_unpaid_task unpaidConfig (by decide)
    (show orderedTasks (pendingState.agenda 0) = [(0, 0)] from rfl) rfl (by decide)

end Unpaid

end Substrate.Scheduler
