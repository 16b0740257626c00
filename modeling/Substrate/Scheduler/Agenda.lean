import Substrate.Scheduler.Task

/-! # Servicing one agenda

The loop of `service_agenda` visits each index once; `LoopServiced` says what it did with each
task, and `LoopLost` what it did with the one at which it may `break`: taken out and dropped.
-/

namespace Substrate.Scheduler

open Substrate.Weights Slots

variable {Name Bounded Call Origin Preimages Err : Type}

section Settle

variable {r : AgendaRun Name Bounded Origin Preimages Err} {agendaIndex : Nat} {meter : WeightMeter}
  {s : State Name Bounded Origin Preimages Err}
  {res : Except (ServiceTaskError × Option (Scheduled Name Bounded Origin)) Unit}

@[simp] theorem AgendaRun.settle_state : (r.settle agendaIndex meter s res).state = s := by
  rcases res with ⟨_ | _, _⟩ | _ <;> rfl

@[simp] theorem AgendaRun.settle_length :
    (r.settle agendaIndex meter s res).agenda.length = r.agenda.length := by
  rcases res with ⟨_ | _, _⟩ | _ <;> simp [AgendaRun.settle]

theorem AgendaRun.settle_getD_ne {j : Nat} (hj : agendaIndex ≠ j) :
    (r.settle agendaIndex meter s res).agenda.getD j none = r.agenda.getD j none := by
  rcases res with ⟨_ | _, _⟩ | _ <;> exact getD_set_ne hj

theorem AgendaRun.le_settle_postponed (r : AgendaRun Name Bounded Origin Preimages Err) :
    r.postponed ≤ (r.settle agendaIndex meter s res).postponed := by
  rcases res with ⟨_ | _, _⟩ | _ <;> simp [AgendaRun.settle]

theorem AgendaRun.le_settle_dropped (r : AgendaRun Name Bounded Origin Preimages Err) :
    r.dropped ≤ (r.settle agendaIndex meter s res).dropped := by
  rcases res with ⟨_ | _, _⟩ | _ <;> simp [AgendaRun.settle]

end Settle

section Ordered

/-- The ordered indices are those of the agenda's tasks, each once. -/
theorem orderedTasks_nodup (agenda : List (Option (Scheduled Name Bounded Origin))) :
    ((orderedTasks agenda).map Prod.fst).Nodup := by
  rw [orderedTasks, ((List.perm_insertionSort _ _).map Prod.fst).nodup_iff, List.map_filterMap]
  -- the indices kept by `filter_map` are a sublist of all the indices
  refine (filterMap_sublist_map _ Prod.snd ?_ _).nodup ?_
  · rintro ⟨item, index⟩ b h
    cases item <;> simp_all
  · rw [List.zipIdx_map_snd]
    exact List.nodup_range'

theorem mem_orderedTasks {agenda : List (Option (Scheduled Name Bounded Origin))} {index : Nat}
    {task : Scheduled Name Bounded Origin} (h : agenda.getD index none = some task) :
    index ∈ (orderedTasks agenda).map Prod.fst := by
  rw [orderedTasks, ((List.perm_insertionSort _ _).map Prod.fst).mem_iff]
  refine List.mem_map.mpr ⟨(index, task.priority), List.mem_filterMap.mpr
    ⟨(some task, index), ?_, rfl⟩, rfl⟩
  rw [List.mem_zipIdx_iff_getElem?]
  have hlt := lt_length_of_getD_eq_some h
  rw [List.getD_eq_getElem?_getD, List.getElem?_eq_getElem hlt] at h
  simpa [List.getElem?_eq_getElem hlt] using h

end Ordered

section Loop

variable [DecidableEq Name] (cfg : Config Name Bounded Call Origin Preimages Err) (now when : Nat)

/-- One round of the loop: an empty slot is skipped; a task is taken out, and the meter refuses its
base weight and the loop stops, or it is serviced and settled in its slot. -/
theorem serviceAgendaLoop_cons (agendaIndex : Nat) (rest : List Nat)
    (r : AgendaRun Name Bounded Origin Preimages Err) :
    (r.agenda.getD agendaIndex none = none ∧
      serviceAgendaLoop cfg now when (agendaIndex :: rest) r = serviceAgendaLoop cfg now when rest r) ∨
    (∃ task, r.agenda.getD agendaIndex none = some task ∧
      serviceAgendaLoop cfg now when (agendaIndex :: rest) r =
        { r with agenda := r.agenda.set agendaIndex none, postponed := r.postponed + 1 }) ∨
    (∃ task meter s res, r.agenda.getD agendaIndex none = some task ∧
      serviceTask cfg r.meter r.state now when agendaIndex (r.executed == 0) task = (meter, s, res) ∧
      serviceAgendaLoop cfg now when (agendaIndex :: rest) r =
        serviceAgendaLoop cfg now when rest
          ({ r with agenda := r.agenda.set agendaIndex none }.settle agendaIndex meter s res)) := by
  rw [serviceAgendaLoop]
  cases hslot : r.agenda.getD agendaIndex none with
  | none => exact .inl ⟨rfl, rfl⟩
  | some task =>
    dsimp only
    split
    · exact .inr (.inl ⟨task, rfl, rfl⟩)
    · rcases hservice : serviceTask cfg r.meter r.state now when agendaIndex (r.executed == 0)
        task with ⟨meter, s, res⟩
      exact .inr (.inr ⟨task, meter, s, res, rfl, hservice, rfl⟩)

/-- The round at which the meter refuses a task's base weight: the task is
taken out of its slot, counted as postponed, and the loop stops. -/
theorem serviceAgendaLoop_break (agendaIndex : Nat) (rest : List Nat)
    (r : AgendaRun Name Bounded Origin Preimages Err) {task : Scheduled Name Bounded Origin}
    (hslot : r.agenda.getD agendaIndex none = some task)
    (hunpaid : r.meter.canConsume (cfg.serviceTask (cfg.lookupLen task.call) task.maybeId.isSome
      task.maybePeriodic.isSome) = false) :
    serviceAgendaLoop cfg now when (agendaIndex :: rest) r =
      { r with agenda := r.agenda.set agendaIndex none, postponed := r.postponed + 1 } := by
  rw [serviceAgendaLoop, hslot]
  dsimp only
  rw [hunpaid]
  rfl

@[simp] theorem serviceAgendaLoop_length (l : List Nat) (r : AgendaRun Name Bounded Origin Preimages Err) :
    (serviceAgendaLoop cfg now when l r).agenda.length = r.agenda.length := by
  induction l generalizing r with
  | nil => rfl
  | cons agendaIndex rest ih =>
    rcases serviceAgendaLoop_cons cfg now when agendaIndex rest r with
      ⟨-, h⟩ | ⟨task, -, h⟩ | ⟨task, meter, s, res, -, -, h⟩
    · rw [h, ih]
    · rw [h]
      simp
    · rw [h, ih]
      simp

/-- The loop leaves alone the slots it does not visit. -/
theorem serviceAgendaLoop_getD_of_not_mem (l : List Nat)
    (r : AgendaRun Name Bounded Origin Preimages Err) {j : Nat} (hj : j ∉ l) :
    (serviceAgendaLoop cfg now when l r).agenda.getD j none = r.agenda.getD j none := by
  induction l generalizing r with
  | nil => rfl
  | cons agendaIndex rest ih =>
    have hne : agendaIndex ≠ j := fun h => hj (h ▸ List.mem_cons_self)
    have hrest : j ∉ rest := fun h => hj (List.mem_cons_of_mem _ h)
    rcases serviceAgendaLoop_cons cfg now when agendaIndex rest r with
      ⟨-, h⟩ | ⟨task, -, h⟩ | ⟨task, meter, s, res, -, -, h⟩
    · rw [h, ih r hrest]
    · rw [h]
      exact getD_set_ne hne
    · rw [h, ih _ hrest, AgendaRun.settle_getD_ne hne]
      exact getD_set_ne hne

/-- A settled slot is empty or holds the task handed back, so every task of
the agenda after a round was in the same slot before it. -/
theorem settle_getD_eq_some {r : AgendaRun Name Bounded Origin Preimages Err} {agendaIndex j : Nat}
    {task task' : Scheduled Name Bounded Origin} {meter : WeightMeter}
    {s : State Name Bounded Origin Preimages Err}
    {res : Except (ServiceTaskError × Option (Scheduled Name Bounded Origin)) Unit}
    (hslot : r.agenda.getD agendaIndex none = some task)
    (hservice : serviceTask cfg r.meter r.state now when agendaIndex (r.executed == 0) task =
      (meter, s, res))
    (h : ({ r with agenda := r.agenda.set agendaIndex none }.settle agendaIndex meter s res).agenda.getD
      j none = some task') :
    r.agenda.getD j none = some task' := by
  by_cases hj : agendaIndex = j
  · subst hj
    have hlt := lt_length_of_getD_eq_some hslot
    rcases res with ⟨e, slot⟩ | _
    · rw [serviceTask_eq_error cfg hservice] at h
      cases e <;>
      · simp only [AgendaRun.settle] at h
        rw [getD_set_self (by simpa using hlt)] at h
        rw [hslot, h]
    · simp only [AgendaRun.settle] at h
      rw [getD_set_self (by simpa using hlt)] at h
      cases h
  · rwa [AgendaRun.settle_getD_ne hj, getD_set_ne hj] at h

/-- Every task in the agenda after the loop was in the same slot before:
the loop only empties slots or hands a task back to its own. -/
theorem serviceAgendaLoop_slots (l : List Nat) (r : AgendaRun Name Bounded Origin Preimages Err)
    {j : Nat} {task : Scheduled Name Bounded Origin}
    (h : (serviceAgendaLoop cfg now when l r).agenda.getD j none = some task) :
    r.agenda.getD j none = some task := by
  induction l generalizing r with
  | nil => exact h
  | cons agendaIndex rest ih =>
    rcases serviceAgendaLoop_cons cfg now when agendaIndex rest r with
      ⟨-, hloop⟩ | ⟨task', -, hloop⟩ | ⟨task', meter, s, res, hslot, hservice, hloop⟩
    · rw [hloop] at h
      exact ih r h
    · rw [hloop] at h
      by_cases hj : agendaIndex = j
      · subst hj
        simp only [List.getD_eq_getElem?_getD, List.getElem?_set, if_true] at h
        split at h <;> simp at h
      · rwa [getD_set_ne hj] at h
    · rw [hloop] at h
      exact settle_getD_eq_some cfg now when hslot hservice (ih _ h)

section Keeps

variable (hdrop : ∀ preimages call call', cfg.peek preimages call' = none →
  cfg.peek (cfg.drop preimages call) call' = none)
  (hnow : now < Unsigned.maxValue cfg.blockNumberBits)

include hdrop hnow in
/-- The loop keeps what every step keeps, writes no agenda up to `now` (its own is a copy, written
back after), and only counts up. -/
theorem serviceAgendaLoop_keeps (l : List Nat) (r : AgendaRun Name Bounded Origin Preimages Err)
    (hperiod : ∀ j task, r.agenda.getD j none = some task → task.PeriodOk) :
    Keeps cfg now r.state (serviceAgendaLoop cfg now when l r).state ∧
      (∀ b ≤ now, (serviceAgendaLoop cfg now when l r).state.agenda b = r.state.agenda b) ∧
      r.postponed ≤ (serviceAgendaLoop cfg now when l r).postponed ∧
      r.dropped ≤ (serviceAgendaLoop cfg now when l r).dropped := by
  induction l generalizing r with
  | nil => exact ⟨Keeps.refl cfg now _, fun _ _ => rfl, Nat.le_refl _, Nat.le_refl _⟩
  | cons agendaIndex rest ih =>
    rcases serviceAgendaLoop_cons cfg now when agendaIndex rest r with
      ⟨-, hloop⟩ | ⟨task, -, hloop⟩ | ⟨task, meter, s, res, hslot, hservice, hloop⟩
    · rw [hloop]
      exact ih r hperiod
    · rw [hloop]
      exact ⟨Keeps.refl cfg now _, fun _ _ => rfl, Nat.le_succ _, Nat.le_refl _⟩
    · rw [hloop]
      -- the rest of the loop starts from the settled round
      obtain ⟨hkeeps, hframe, hpostponed, hdropped⟩ := ih _
        fun j task' h => hperiod j task' (settle_getD_eq_some cfg now when hslot hservice h)
      simp only [AgendaRun.settle_state] at hkeeps hframe
      have hagenda := serviceTask_agenda cfg hnow (hperiod agendaIndex task hslot) hservice
      refine ⟨(serviceTask_keeps cfg hdrop hservice).trans hkeeps, fun b hb => ?_,
        Nat.le_trans (AgendaRun.le_settle_postponed { r with agenda := r.agenda.set agendaIndex none })
          hpostponed,
        Nat.le_trans (AgendaRun.le_settle_dropped { r with agenda := r.agenda.set agendaIndex none })
          hdropped⟩
      rw [hframe b hb, hagenda b hb]

/-- What the loop did with `task` of slot `index`: dispatched it once, emptying the slot and placing
a periodic one again or reporting; or handed it back. -/
def LoopServiced (now when index : Nat) (task : Scheduled Name Bounded Origin)
    (r' : AgendaRun Name Bounded Origin Preimages Err) (events : List (Event Name Err)) : Prop :=
  (dispatchedCount (when, index) events = 1 ∧ r'.agenda.getD index none = none ∧
    ∀ period count, task.maybePeriodic = some (period, count) →
      (∃ j, r'.state.slot (cfg.saturatingAdd now period) j = some (task.renewed period count)) ∨
        .periodicFailed (when, index) task.maybeId ∈ events) ∨
  (dispatchedCount (when, index) events = 0 ∧ r'.agenda.getD index none = some task ∧
    ((0 < r'.dropped ∧ (.permanentlyOverweight (when, index) task.maybeId ∈ events ∨
        cfg.peek r'.state.preimages task.call = none)) ∨ 0 < r'.postponed))

omit [DecidableEq Name] in
/-- Events deposited before, none of them a `Dispatched` of the task, do not
change what became of it. -/
theorem LoopServiced.prepend {index : Nat} {task : Scheduled Name Bounded Origin}
    {r' : AgendaRun Name Bounded Origin Preimages Err} {events before : List (Event Name Err)}
    (hbefore : dispatchedCount (when, index) before = 0)
    (h : LoopServiced cfg now when index task r' events) :
    LoopServiced cfg now when index task r' (before ++ events) := by
  have hcount : dispatchedCount (when, index) (before ++ events) =
      dispatchedCount (when, index) events := by
    rw [dispatchedCount, List.countP_append, ← dispatchedCount, hbefore, Nat.zero_add]
    rfl
  rcases h with ⟨hone, hslot, hrenewed⟩ | ⟨hzero, hslot, hreason⟩
  · refine .inl ⟨hcount ▸ hone, hslot, fun period count h => ?_⟩
    rcases hrenewed period count h with hplaced | hfailed
    · exact .inl hplaced
    · exact .inr (List.mem_append_right _ hfailed)
  · refine .inr ⟨hcount ▸ hzero, hslot, ?_⟩
    rcases hreason with ⟨hdropped, hoverweight | hmissing⟩ | hpostponed
    · exact .inl ⟨hdropped, .inl (List.mem_append_right _ hoverweight)⟩
    · exact .inl ⟨hdropped, .inr hmissing⟩
    · exact .inr hpostponed

/-- What the loop did with the task at which it broke off: it took the task out of its slot and
counted it as postponed, and dispatched nothing of it. -/
def LoopLost (when index : Nat) (r' : AgendaRun Name Bounded Origin Preimages Err)
    (events : List (Event Name Err)) : Prop :=
  dispatchedCount (when, index) events = 0 ∧ r'.agenda.getD index none = none ∧ 0 < r'.postponed

omit [DecidableEq Name] in
theorem LoopLost.prepend {when index : Nat} {r' : AgendaRun Name Bounded Origin Preimages Err}
    {events before : List (Event Name Err)} (hbefore : dispatchedCount (when, index) before = 0)
    (h : LoopLost when index r' events) : LoopLost when index r' (before ++ events) := by
  obtain ⟨hzero, hslot, hpostponed⟩ := h
  refine ⟨?_, hslot, hpostponed⟩
  rw [dispatchedCount, List.countP_append, ← dispatchedCount, ← dispatchedCount, hbefore, hzero]

include hdrop hnow in
/-- The round that services the task of slot `agendaIndex`: the result is
settled in the slot, which the rest of the loop leaves alone. -/
theorem serviceAgendaLoop_serviced_round {agendaIndex : Nat} {rest : List Nat}
    (hnot : agendaIndex ∉ rest) {r : AgendaRun Name Bounded Origin Preimages Err}
    {task : Scheduled Name Bounded Origin} {meter : WeightMeter}
    {s : State Name Bounded Origin Preimages Err}
    {res : Except (ServiceTaskError × Option (Scheduled Name Bounded Origin)) Unit}
    (hperiod : ∀ j task, r.agenda.getD j none = some task → task.PeriodOk)
    (hslot : r.agenda.getD agendaIndex none = some task)
    (hservice : serviceTask cfg r.meter r.state now when agendaIndex (r.executed == 0) task =
      (meter, s, res))
    {events : List (Event Name Err)}
    (hrest : dispatchedCount (when, agendaIndex) events = 0) :
    ∃ events₁, s.events = r.state.events ++ events₁ ∧
      (∀ address, dispatchedCount address events₁ =
        if res.toBool ∧ address = (when, agendaIndex) then 1 else 0) ∧
      LoopServiced cfg now when agendaIndex task (serviceAgendaLoop cfg now when rest
        ({ r with agenda := r.agenda.set agendaIndex none }.settle agendaIndex meter s res))
        (events₁ ++ events) := by
  obtain ⟨events₁, hevents, hcount, hmissing, hrenewed⟩ := serviceTask_events cfg hservice
  refine ⟨events₁, hevents, hcount, ?_⟩
  have hlt : agendaIndex < (r.agenda.set agendaIndex none).length := by
    simpa using lt_length_of_getD_eq_some hslot
  -- the rest of the loop leaves the settled slot alone
  have hsettled : (serviceAgendaLoop cfg now when rest
      ({ r with agenda := r.agenda.set agendaIndex none }.settle agendaIndex meter s res)).agenda.getD
        agendaIndex none =
      ({ r with agenda := r.agenda.set agendaIndex none }.settle agendaIndex meter s res).agenda.getD
        agendaIndex none :=
    serviceAgendaLoop_getD_of_not_mem cfg now when rest _ hnot
  obtain ⟨hkeeps, -, hpostponed, hdropped⟩ := serviceAgendaLoop_keeps cfg now when hdrop hnow rest
    ({ r with agenda := r.agenda.set agendaIndex none }.settle agendaIndex meter s res)
    (fun j task' h => hperiod j task' (settle_getD_eq_some cfg now when hslot hservice h))
  simp only [AgendaRun.settle_state] at hkeeps
  have htotal : dispatchedCount (when, agendaIndex) (events₁ ++ events) =
      dispatchedCount (when, agendaIndex) events₁ := by
    rw [dispatchedCount, List.countP_append, ← dispatchedCount, ← dispatchedCount, hrest,
      Nat.add_zero]
  rcases res with ⟨e, slot⟩ | _
  · -- handed back: the task is in its slot again and was not dispatched
    obtain rfl := serviceTask_eq_error cfg hservice
    have hnone : dispatchedCount (when, agendaIndex) (events₁ ++ events) = 0 := by
      rw [htotal, hcount]
      simp [Except.toBool]
    cases e with
    | unavailable =>
      refine .inr ⟨hnone, ?_, .inl ⟨?_, ?_⟩⟩
      · rw [hsettled]
        exact getD_set_self hlt
      · exact Nat.lt_of_lt_of_le (by simp [AgendaRun.settle]) hdropped
      · rcases hmissing rfl with hoverweight | hpeek
        · exact .inl (List.mem_append_left _ hoverweight)
        · exact .inr (hkeeps.unavailable _
            ((serviceTask_keeps cfg hdrop hservice).unavailable _ hpeek))
    | overweight =>
      refine .inr ⟨hnone, ?_, .inr (Nat.lt_of_lt_of_le (by simp [AgendaRun.settle]) hpostponed)⟩
      rw [hsettled]
      exact getD_set_self hlt
  · -- dispatched: the slot stays empty
    refine .inl ⟨?_, ?_, fun period count hperiodic => ?_⟩
    · rw [htotal, hcount]
      simp [Except.toBool]
    · rw [hsettled]
      exact getD_set_self hlt
    · have hwake := cfg.lt_saturatingAdd hnow (hperiod agendaIndex task hslot period count hperiodic)
      rcases hrenewed period count rfl hperiodic with ⟨j, hplaced⟩ | hfailed
      · exact .inl ⟨j, hkeeps.later _ _ _ (by omega) hplaced⟩
      · exact .inr (List.mem_append_left _ hfailed)

include hdrop hnow in
/-- The run lemma of the loop: every task found at an index was serviced, but for the one at which
the loop broke off, which it dropped; only tasks of the list were reported dispatched. -/
theorem serviceAgendaLoop_serviced (l : List Nat) (hl : l.Nodup)
    (r : AgendaRun Name Bounded Origin Preimages Err)
    (hperiod : ∀ j task, r.agenda.getD j none = some task → task.PeriodOk) :
    ∃ events, (serviceAgendaLoop cfg now when l r).state.events = r.state.events ++ events ∧
      (∀ address, address.1 ≠ when ∨ address.2 ∉ l → dispatchedCount address events = 0) ∧
      ∃ stop : Option Nat, ∀ index ∈ l, ∀ task, r.agenda.getD index none = some task →
        (stop = some index ∧ LoopLost when index (serviceAgendaLoop cfg now when l r) events) ∨
          LoopServiced cfg now when index task (serviceAgendaLoop cfg now when l r) events := by
  -- induction on the list of indices; the run is generalized since each round changes it
  induction l generalizing r with
  | nil => exact ⟨[], by simp [serviceAgendaLoop], fun _ _ => rfl, none, fun _ h => nomatch h⟩
  | cons agendaIndex rest ih =>
    obtain ⟨hnot, hrest⟩ := List.nodup_cons.mp hl
    rcases serviceAgendaLoop_cons cfg now when agendaIndex rest r with
      ⟨hempty, hloop⟩ | ⟨task, hslot, hloop⟩ | ⟨task, meter, s, res, hslot, hservice, hloop⟩
    · -- an empty slot: nothing happens in this round
      rw [hloop]
      obtain ⟨events, hevents, hcount, stop, hserviced⟩ := ih hrest r hperiod
      refine ⟨events, hevents, fun address haddress => hcount address ?_, stop, ?_⟩
      · exact haddress.imp_right fun h hmem => h (List.mem_cons_of_mem _ hmem)
      · intro index hindex task htask
        rcases List.mem_cons.mp hindex with rfl | hmem
        · rw [hempty] at htask
          cases htask
        · exact hserviced index hmem task htask
    · -- the loop stops at this task, taken out of its slot: the others are left, postponed
      rw [hloop]
      refine ⟨[], by simp, fun _ _ => rfl, some agendaIndex, fun index hindex task' htask => ?_⟩
      rcases List.mem_cons.mp hindex with rfl | hmem
      · exact .inl ⟨rfl, rfl, getD_set_self (lt_length_of_getD_eq_some hslot), Nat.succ_pos _⟩
      · have hne : agendaIndex ≠ index := fun h => hnot (h ▸ hmem)
        refine .inr (.inr ⟨rfl, ?_, .inr (Nat.succ_pos _)⟩)
        rw [getD_set_ne hne, htask]
    · -- a serviced task: settled, then the rest of the loop
      rw [hloop]
      obtain ⟨events, hevents, hcount, stop, hserviced⟩ := ih hrest _
        fun j task' h => hperiod j task' (settle_getD_eq_some cfg now when hslot hservice h)
      obtain ⟨events₁, hevents₁, hcount₁, hround⟩ := serviceAgendaLoop_serviced_round cfg now
        when hdrop hnow hnot hperiod hslot hservice (hcount (when, agendaIndex) (.inr hnot))
      simp only [AgendaRun.settle_state] at hevents
      refine ⟨events₁ ++ events, by rw [hevents, hevents₁, List.append_assoc],
        fun address haddress => ?_, stop, fun index hindex task' htask => ?_⟩
      · -- a `Dispatched` of this round is of this task, and the rest are of the rest
        have hother : ¬(address = (when, agendaIndex)) := by
          rintro rfl
          rcases haddress with h | h
          · exact h rfl
          · exact h List.mem_cons_self
        rw [dispatchedCount, List.countP_append, ← dispatchedCount, ← dispatchedCount,
          hcount₁ address, if_neg (fun h => hother h.2), Nat.zero_add]
        exact hcount address (haddress.imp_right fun h hmem => h (List.mem_cons_of_mem _ hmem))
      · rcases List.mem_cons.mp hindex with rfl | hmem
        · rw [hslot] at htask
          cases htask
          exact .inr hround
        · have hne : agendaIndex ≠ index := fun h => hnot (h ▸ hmem)
          have hfrom : ({ r with agenda := r.agenda.set agendaIndex none }.settle agendaIndex
              meter s res).agenda.getD index none = some task' := by
            rw [AgendaRun.settle_getD_ne hne, getD_set_ne hne, htask]
          have hbefore : dispatchedCount (when, index) events₁ = 0 := by
            rw [hcount₁, if_neg (fun h => hne (Prod.mk.inj h.2).2.symm)]
          exact (hserviced index hmem task' hfrom).imp (And.imp_right (LoopLost.prepend hbefore))
            (LoopServiced.prepend cfg now when hbefore)

end Keeps

end Loop

/-! ## The agenda -/

section Agenda

variable [DecidableEq Name] (cfg : Config Name Bounded Call Origin Preimages Err) (now when : Nat)

/-- What servicing did with `task` of slot `index` of the agenda of `when`: dispatched it once,
emptying the slot, or left it, overweight, without preimage, or deferred. -/
def TaskOutcome (index : Nat) (task : Scheduled Name Bounded Origin)
    (s' : State Name Bounded Origin Preimages Err) (events : List (Event Name Err))
    (deferred : Prop) : Prop :=
  (dispatchedCount (when, index) events = 1 ∧ s'.slot when index = none ∧
    ∀ period count, task.maybePeriodic = some (period, count) →
      (∃ j, s'.slot (cfg.saturatingAdd now period) j = some (task.renewed period count)) ∨
        .periodicFailed (when, index) task.maybeId ∈ events) ∨
  (dispatchedCount (when, index) events = 0 ∧ s'.slot when index = some task ∧
    (.permanentlyOverweight (when, index) task.maybeId ∈ events ∨
      cfg.peek s'.preimages task.call = none ∨ deferred))

/-- What servicing did with the task at which `service_agenda` broke off: it is gone from its slot
and was never dispatched. -/
def TaskLost (index : Nat) (s' : State Name Bounded Origin Preimages Err)
    (events : List (Event Name Err)) (deferred : Prop) : Prop :=
  dispatchedCount (when, index) events = 0 ∧ s'.slot when index = none ∧ deferred

variable {meter meter' : WeightMeter} {executed executed' max : Nat}
  {s s' : State Name Bounded Origin Preimages Err} {complete : Bool}

/-- `service_agenda` loops over the first `max` indices by priority, writing back the agenda when a
task was postponed or dropped and removing it otherwise. -/
theorem serviceAgenda_eq (h : serviceAgenda cfg meter executed s now when max =
    (meter', executed', s', complete)) :
    ∃ r₀ : AgendaRun Name Bounded Origin Preimages Err,
      r₀.agenda = s.agenda when ∧ r₀.state = s ∧
      r₀.postponed = (orderedTasks (s.agenda when)).length - max ∧
      r₀.meter = (meter.tryConsume (cfg.serviceAgendaBase (orderedTasks (s.agenda when)).length)).getD
        meter ∧
      s' = (if 0 < (serviceAgendaLoop cfg now when
            (((orderedTasks (s.agenda when)).take max).map Prod.fst) r₀).postponed ∨
          0 < (serviceAgendaLoop cfg now when
            (((orderedTasks (s.agenda when)).take max).map Prod.fst) r₀).dropped then
          (serviceAgendaLoop cfg now when (((orderedTasks (s.agenda when)).take max).map Prod.fst)
            r₀).state.setAgenda when
            (serviceAgendaLoop cfg now when (((orderedTasks (s.agenda when)).take max).map Prod.fst)
              r₀).agenda
        else (serviceAgendaLoop cfg now when (((orderedTasks (s.agenda when)).take max).map Prod.fst)
          r₀).state.setAgenda when []) ∧
      complete = ((serviceAgendaLoop cfg now when
        (((orderedTasks (s.agenda when)).take max).map Prod.fst) r₀).postponed == 0) := by
  rw [serviceAgenda] at h
  simp only [Prod.mk.injEq] at h
  obtain ⟨-, -, rfl, rfl⟩ := h
  exact ⟨_, rfl, rfl, rfl, rfl, rfl, rfl⟩

variable (hdrop : ∀ preimages call call', cfg.peek preimages call' = none →
  cfg.peek (cfg.drop preimages call) call' = none)
  (hnow : now < Unsigned.maxValue cfg.blockNumberBits)

include hdrop hnow in
/-- `service_agenda` keeps what every step keeps and writes no agenda up to
`now` but its own. -/
theorem serviceAgenda_keeps (hwhen : when ≤ now)
    (hperiod : ∀ j task, s.slot when j = some task → task.PeriodOk)
    (h : serviceAgenda cfg meter executed s now when max = (meter', executed', s', complete)) :
    Keeps cfg now s s' ∧ ∀ b ≤ now, b ≠ when → s'.agenda b = s.agenda b := by
  obtain ⟨r₀, hagenda, hstate, -, -, rfl, -⟩ := serviceAgenda_eq cfg now when h
  obtain ⟨hkeeps, hframe, -⟩ := serviceAgendaLoop_keeps cfg now when hdrop hnow
    (((orderedTasks (s.agenda when)).take max).map Prod.fst) r₀ (by rw [hagenda]; exact hperiod)
  generalize serviceAgendaLoop cfg now when _ r₀ = r at hkeeps hframe ⊢
  rw [hstate] at hkeeps hframe
  -- whichever agenda is written back, it is the agenda of `when`
  have hwrite : ∀ agenda, Keeps cfg now s (r.state.setAgenda when agenda) ∧
      ∀ b ≤ now, b ≠ when → (r.state.setAgenda when agenda).agenda b = s.agenda b :=
    fun agenda => ⟨hkeeps.trans (Keeps.setAgenda cfg now hwhen agenda), fun b hb hne => by
      rw [State.setAgenda_agenda, Function.update_of_ne hne, hframe b hb]⟩
  split
  · exact hwrite r.agenda
  · exact hwrite []

include hdrop hnow in
/-- The run lemma of one agenda: every task was serviced, but for the one at which the loop broke
off, which is lost; only its tasks were reported dispatched. -/
theorem serviceAgenda_serviced (hwhen : when ≤ now)
    (hperiod : ∀ j task, s.slot when j = some task → task.PeriodOk)
    (h : serviceAgenda cfg meter executed s now when max = (meter', executed', s', complete)) :
    ∃ events, s'.events = s.events ++ events ∧
      (∀ address, address.1 ≠ when → dispatchedCount address events = 0) ∧
      ∃ stop : Option Nat, ∀ index task, s.slot when index = some task →
        (stop = some index ∧ TaskLost when index s' events (complete = false)) ∨
          TaskOutcome cfg now when index task s' events (complete = false) := by
  obtain ⟨r₀, hagenda, hstate, hpast, -, hs', rfl⟩ := serviceAgenda_eq cfg now when h
  have hperiod₀ : ∀ j task, r₀.agenda.getD j none = some task → task.PeriodOk := by
    rw [hagenda]
    exact hperiod
  have hnodup : (((orderedTasks (s.agenda when)).take max).map Prod.fst).Nodup := by
    rw [List.map_take]
    exact (List.take_sublist _ _).nodup (orderedTasks_nodup _)
  obtain ⟨events, hevents, hcount, stop, hserviced⟩ :=
    serviceAgendaLoop_serviced cfg now when hdrop hnow _ hnodup r₀ hperiod₀
  obtain ⟨-, -, hpostponed, -⟩ := serviceAgendaLoop_keeps cfg now when hdrop hnow
    (((orderedTasks (s.agenda when)).take max).map Prod.fst) r₀ hperiod₀
  have hnot := fun j => serviceAgendaLoop_getD_of_not_mem cfg now when
    (((orderedTasks (s.agenda when)).take max).map Prod.fst) r₀ (j := j)
  generalize serviceAgendaLoop cfg now when _ r₀ = r at hevents hserviced hpostponed hnot hs' ⊢
  rw [hstate] at hevents
  -- what the storage after the write-back holds, whichever agenda is written
  have hevents' : s'.events = r.state.events := by
    rw [hs']
    split <;> rfl
  have hpreimages' : s'.preimages = r.state.preimages := by
    rw [hs']
    split <;> rfl
  have hempty' : ∀ j, r.agenda.getD j none = none → s'.slot when j = none := by
    intro j hj
    rw [hs']
    split <;> simp only [State.slot, State.setAgenda_agenda, Function.update_self, List.getD_nil, hj]
  have hkept' : 0 < r.postponed ∨ 0 < r.dropped → ∀ j, s'.slot when j = r.agenda.getD j none := by
    intro hpos j
    rw [hs', if_pos hpos, State.slot, State.setAgenda_agenda, Function.update_self]
  have hlater' : ∀ b j, b ≠ when → s'.slot b j = r.state.slot b j := by
    intro b j hb
    rw [hs']
    split <;> rw [State.slot, State.slot, State.setAgenda_agenda, Function.update_of_ne hb]
  refine ⟨events, by rw [hevents', hevents], fun address haddress =>
    hcount address (.inl haddress), stop, fun index task htask => ?_⟩
  have hpos := hperiod index task htask
  rw [State.slot, ← hagenda] at htask
  by_cases hmem : index ∈ ((orderedTasks (s.agenda when)).take max).map Prod.fst
  · rcases hserviced index hmem task htask with ⟨hstop, hzero, hgone, hpostponed⟩ | hloop
    · -- the task the loop broke off at: postponed, so the agenda is written back without it
      refine .inl ⟨hstop, hzero, by rw [hkept' (.inl hpostponed), hgone], ?_⟩
      simpa using Nat.pos_iff_ne_zero.mp hpostponed
    refine .inr ?_
    rcases hloop with ⟨hone, hempty, hrenewed⟩ | ⟨hzero, hkept, hreason⟩
    · -- dispatched: a renewed task is in an agenda after `now`, which the write-back leaves alone
      refine .inl ⟨hone, hempty' index hempty, fun period count hperiodic => ?_⟩
      have hwake := cfg.lt_saturatingAdd hnow (hpos period count hperiodic)
      rcases hrenewed period count hperiodic with ⟨j, hplaced⟩ | hfailed
      · refine .inl ⟨j, ?_⟩
        rw [hlater' _ _ (by omega)]
        exact hplaced
      · exact .inr hfailed
    · -- handed back: dropped or postponed, so the agenda is written back
      have hwritten : 0 < r.postponed ∨ 0 < r.dropped := by
        rcases hreason with ⟨hdropped, -⟩ | hpostponed
        · exact .inr hdropped
        · exact .inl hpostponed
      refine .inr ⟨hzero, by rw [hkept' hwritten, hkept], ?_⟩
      rcases hreason with ⟨-, hoverweight | hmissing⟩ | hpostponed
      · exact .inl hoverweight
      · exact .inr (.inl (hpreimages' ▸ hmissing))
      · exact .inr (.inr (by simpa using Nat.pos_iff_ne_zero.mp hpostponed))
  · -- past the first `max` tasks: left in its slot, counted as postponed from the start
    have hpast_pos : 0 < r₀.postponed := by
      rw [hpast, Nat.sub_pos_iff_lt]
      by_contra hle
      rw [List.take_of_length_le (Nat.le_of_not_lt hle)] at hmem
      exact hmem (mem_orderedTasks (hagenda ▸ htask))
    have hwritten : 0 < r.postponed := Nat.lt_of_lt_of_le hpast_pos hpostponed
    refine .inr (.inr ⟨hcount _ (.inr hmem), by rw [hkept' (.inl hwritten), hnot index hmem, htask],
      .inr (.inr (by simpa using Nat.pos_iff_ne_zero.mp hwritten))⟩)

end Agenda

end Substrate.Scheduler
