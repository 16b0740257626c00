import Substrate.Scheduler.Pallet
import Substrate.Lib.Slots

/-! # Servicing one task

The spec of `push_to_agenda`, `place_task` and `service_task`. The cases of
`service_task` are stated once, in `serviceTask_cases`; what later proofs
need (the events a call deposits, the agendas it leaves alone, the task it
hands back) follows from them.
-/

namespace Substrate.Scheduler

open Substrate.Weights Slots

variable {Name Bounded Call Origin Preimages Err : Type}

def State.slot (s : State Name Bounded Origin Preimages Err) (when index : Nat) :
    Option (Scheduled Name Bounded Origin) :=
  (s.agenda when).getD index none

def Event.isDispatchedAt (address : Nat × Nat) : Event Name Err → Bool
  | .dispatched task _ _ => decide (task = address)
  | _ => false

def dispatchedCount (address : Nat × Nat) (events : List (Event Name Err)) : Nat :=
  events.countP (Event.isDispatchedAt address)

/-- A periodic task has a period of at least one block; `do_schedule` drops
a zero period. -/
def Scheduled.PeriodOk (task : Scheduled Name Bounded Origin) : Prop :=
  ∀ period count, task.maybePeriodic = some (period, count) → 0 < period

def Scheduled.renewed (task : Scheduled Name Bounded Origin) (period count : Nat) :
    Scheduled Name Bounded Origin :=
  { task with maybePeriodic := if count > 1 then some (period, count - 1) else none }

/-! ## What every step keeps -/

section Keeps

variable (cfg : Config Name Bounded Call Origin Preimages Err) (now : Nat)

/-- What every step of servicing at `now` keeps: events grow, `IncompleteSince` is untouched, no
missing preimage appears, and a task of a later agenda stays. -/
structure Keeps (s s' : State Name Bounded Origin Preimages Err) : Prop where
  events : s.events <+: s'.events
  incompleteSince : s'.incompleteSince = s.incompleteSince
  unavailable : ∀ call, cfg.peek s.preimages call = none → cfg.peek s'.preimages call = none
  later : ∀ when index task, now < when → s.slot when index = some task →
    s'.slot when index = some task

theorem Keeps.refl (s : State Name Bounded Origin Preimages Err) : Keeps cfg now s s :=
  ⟨List.prefix_refl _, rfl, fun _ h => h, fun _ _ _ _ h => h⟩

variable {cfg now}

theorem Keeps.trans {s₁ s₂ s₃ : State Name Bounded Origin Preimages Err}
    (h₁ : Keeps cfg now s₁ s₂) (h₂ : Keeps cfg now s₂ s₃) : Keeps cfg now s₁ s₃ where
  events := h₁.events.trans h₂.events
  incompleteSince := h₂.incompleteSince.trans h₁.incompleteSince
  unavailable call h := h₂.unavailable call (h₁.unavailable call h)
  later when index task hlt h := h₂.later when index task hlt (h₁.later when index task hlt h)

variable (cfg now) in
/-- Writing an agenda up to `now` keeps what every step keeps. -/
theorem Keeps.setAgenda {s : State Name Bounded Origin Preimages Err}
    {when : Nat} (hwhen : when ≤ now) (agenda : List (Option (Scheduled Name Bounded Origin))) :
    Keeps cfg now s (s.setAgenda when agenda) where
  events := by simp
  incompleteSince := rfl
  unavailable _ h := h
  later b j task hlt h := by
    rw [State.slot, State.setAgenda_agenda, Function.update_of_ne (by omega)]
    exact h

end Keeps

/-! ## Placing a task -/

section Place

variable [DecidableEq Name] (cfg : Config Name Bounded Call Origin Preimages Err)
  {s s' : State Name Bounded Origin Preimages Err} {when index : Nat}
  {what : Scheduled Name Bounded Origin}

omit [DecidableEq Name] in
/-- A push fills an empty slot, an old one or the one past the end, and
changes nothing else. -/
theorem pushToAgenda_eq_ok (h : pushToAgenda cfg s when what = .ok (s', index)) :
    s.slot when index = none ∧ s'.slot when index = some what ∧
      (∀ j, j ≠ index → s'.slot when j = s.slot when j) ∧
      (∀ b, b ≠ when → s'.agenda b = s.agenda b) ∧
      s'.events = s.events ∧ s'.incompleteSince = s.incompleteSince ∧
      s'.preimages = s.preimages := by
  rw [pushToAgenda] at h
  split at h
  · -- appended at the end
    simp only [Except.ok.injEq, Prod.mk.injEq] at h
    obtain ⟨rfl, rfl⟩ := h
    refine ⟨?_, ?_, fun j hj => ?_, fun b hb => ?_, rfl, rfl, rfl⟩
    · simp [State.slot, List.getD_eq_getElem?_getD]
    · simp [State.slot, List.getD_eq_getElem?_getD]
    · simp only [State.slot, State.setAgenda_agenda, Function.update_self]
      exact getD_append_singleton_ne hj
    · simp [Function.update_of_ne hb]
  · split at h
    · -- the first empty slot
      rename_i holeIndex hhole
      simp only [Except.ok.injEq, Prod.mk.injEq] at h
      obtain ⟨rfl, rfl⟩ := h
      obtain ⟨hlt, hnone, -⟩ := List.findIdx?_eq_some_iff_getElem.mp hhole
      refine ⟨?_, ?_, fun j hj => ?_, fun b hb => ?_, rfl, rfl, rfl⟩
      · simp only [Option.isNone_iff_eq_none] at hnone
        simp [State.slot, List.getD_eq_getElem?_getD, List.getElem?_eq_getElem hlt, hnone]
      · simp only [State.slot, State.setAgenda_agenda, Function.update_self]
        exact getD_set_self hlt
      · simp only [State.slot, State.setAgenda_agenda, Function.update_self]
        exact getD_set_ne (Ne.symm hj)
      · simp [Function.update_of_ne hb]
    · cases h

/-- A placed task takes a slot that was empty, so no task loses its slot. -/
theorem placeTask_eq_ok {address : Nat × Nat} (h : placeTask cfg s when what = .ok (s', address)) :
    address.1 = when ∧ s'.slot when address.2 = some what ∧
      (∀ b j task, s.slot b j = some task → s'.slot b j = some task) ∧
      (∀ b, b ≠ when → s'.agenda b = s.agenda b) ∧
      s'.events = s.events ++ [.scheduled when address.2] ∧
      s'.incompleteSince = s.incompleteSince ∧ s'.preimages = s.preimages := by
  rw [placeTask] at h
  split at h
  · cases h
  · rename_i s₁ index hpush
    simp only [Except.ok.injEq, Prod.mk.injEq] at h
    obtain ⟨rfl, rfl⟩ := h
    obtain ⟨hempty, hslot, hother, hagenda, hevents, hsince, hpre⟩ := pushToAgenda_eq_ok cfg hpush
    refine ⟨rfl, ?_, fun b j task htask => ?_, fun b hb => ?_, ?_, ?_, ?_⟩
    · simpa [State.slot] using hslot
    · -- the slot taken was empty, every other slot is as it was
      simp only [State.slot, State.deposit_agenda, State.setLookup_agenda]
      by_cases hb : b = when
      · subst hb
        by_cases hj : j = index
        · subst hj
          rw [hempty] at htask
          cases htask
        · rw [← htask]
          exact hother j hj
      · rw [hagenda b hb]
        exact htask
    · simp [hagenda b hb]
    · simp [hevents]
    · simp [hsince]
    · simp [hpre]

omit [DecidableEq Name] in
theorem pushToAgenda_eq_error {what' : Scheduled Name Bounded Origin}
    (h : pushToAgenda cfg s when what = .error what') : what' = what := by
  rw [pushToAgenda] at h
  split at h
  · cases h
  · split at h
    · cases h
    · cases h
      rfl

/-- A task that cannot be placed is handed back as it was. -/
theorem placeTask_eq_error {what' : Scheduled Name Bounded Origin}
    (h : placeTask cfg s when what = .error what') : what' = what := by
  rw [placeTask] at h
  split at h
  · rename_i what'' hpush
    cases h
    exact pushToAgenda_eq_error cfg hpush
  · cases h

end Place

/-! ## Servicing a task -/

section Service

variable [DecidableEq Name] (cfg : Config Name Bounded Call Origin Preimages Err)
  {meter meter' : WeightMeter} {s s' : State Name Bounded Origin Preimages Err}
  {now when agendaIndex : Nat} {isFirst : Bool} {task : Scheduled Name Bounded Origin}
  {res : Except (ServiceTaskError × Option (Scheduled Name Bounded Origin)) Unit}

omit [DecidableEq Name] in
/-- `execute_dispatch` never reports an unavailable call: the branch of
`service_task` that deposits `CallUnavailable` is dead. -/
theorem executeDispatch_ne_unavailable (meter : WeightMeter) (origin : Origin) (call : Call) :
    (executeDispatch cfg meter origin call).2 ≠ .error .unavailable := by
  rw [executeDispatch]
  dsimp only
  split
  all_goals split
  all_goals simp

/-- The cases of `service_task`: the task comes back when its preimage is missing or the meter
refuses; otherwise it is dispatched, a periodic one placed again or reported. -/
theorem serviceTask_cases (h : serviceTask cfg meter s now when agendaIndex isFirst task =
    (meter', s', res)) :
    -- the preimage is missing
    (res = .error (.unavailable, some task) ∧ cfg.peek s.preimages task.call = none ∧
      s'.agenda = s.agenda ∧ s'.events = s.events ∧ s'.preimages = s.preimages ∧
      s'.incompleteSince = s.incompleteSince) ∨
    -- the first task of the block is too heavy for the meter: it never will fit
    (res = .error (.unavailable, some task) ∧ s'.agenda = s.agenda ∧
      s'.events = s.events ++ [.permanentlyOverweight (when, agendaIndex) task.maybeId] ∧
      s'.preimages = cfg.drop s.preimages task.call ∧ s'.incompleteSince = s.incompleteSince) ∨
    -- another task too heavy for what is left of the meter
    (res = .error (.overweight, some task) ∧ s'.agenda = s.agenda ∧ s'.events = s.events ∧
      s'.preimages = s.preimages ∧ s'.incompleteSince = s.incompleteSince) ∨
    -- dispatched and done
    (res = .ok () ∧ task.maybePeriodic = none ∧ s'.agenda = s.agenda ∧
      (∃ result, s'.events = s.events ++ [.dispatched (when, agendaIndex) task.maybeId result]) ∧
      s'.preimages = cfg.drop s.preimages task.call ∧ s'.incompleteSince = s.incompleteSince) ∨
    -- dispatched and placed again
    (res = .ok () ∧ ∃ period count result s₁ address,
      task.maybePeriodic = some (period, count) ∧
      placeTask cfg s₁ (cfg.saturatingAdd now period) (task.renewed period count) =
        .ok (s', address) ∧
      s₁.agenda = s.agenda ∧
      s₁.events = s.events ++ [.dispatched (when, agendaIndex) task.maybeId result] ∧
      s₁.preimages = s.preimages ∧ s₁.incompleteSince = s.incompleteSince) ∨
    -- dispatched, but its next agenda is full
    (res = .ok () ∧ ∃ period count result, task.maybePeriodic = some (period, count) ∧
      s'.agenda = s.agenda ∧
      s'.events = s.events ++ [.dispatched (when, agendaIndex) task.maybeId result,
        .periodicFailed (when, agendaIndex) task.maybeId] ∧
      s'.preimages = cfg.drop s.preimages task.call ∧ s'.incompleteSince = s.incompleteSince) := by
  rw [serviceTask] at h
  -- the lookup entry of a named task is removed first; nothing below reads it
  generalize hs₀ : s.setLookup task.maybeId none = s₀ at h
  have hagenda₀ : s₀.agenda = s.agenda := by rw [← hs₀, State.setLookup_agenda]
  have hevents₀ : s₀.events = s.events := by rw [← hs₀, State.setLookup_events]
  have hpre₀ : s₀.preimages = s.preimages := by rw [← hs₀, State.setLookup_preimages]
  have hsince₀ : s₀.incompleteSince = s.incompleteSince := by
    rw [← hs₀, State.setLookup_incompleteSince]
  dsimp only at h
  rw [hpre₀] at h
  cases hpeek : cfg.peek s.preimages task.call with
  | none =>
    rw [hpeek] at h
    simp only [Prod.mk.injEq] at h
    obtain ⟨-, rfl, rfl⟩ := h
    exact .inl ⟨rfl, rfl, hagenda₀, hevents₀, hpre₀, hsince₀⟩
  | some found =>
    obtain ⟨call, lookupLen⟩ := found
    rw [hpeek] at h
    dsimp only at h
    generalize (meter.tryConsume (cfg.serviceTask lookupLen task.maybeId.isSome
      task.maybePeriodic.isSome)).getD meter = meter₁ at h
    have hne := executeDispatch_ne_unavailable cfg meter₁ task.origin call
    cases hexec : executeDispatch cfg meter₁ task.origin call with
    | mk meter₂ dispatched =>
      rw [hexec] at h hne
      cases dispatched with
      | error e =>
        cases e with
        | unavailable => exact absurd rfl hne
        | overweight =>
          cases isFirst with
          | true =>
            simp only [if_true, Prod.mk.injEq] at h
            obtain ⟨-, rfl, rfl⟩ := h
            refine .inr (.inl ⟨rfl, ?_, ?_, ?_, ?_⟩) <;> simp [hagenda₀, hevents₀, hpre₀, hsince₀]
          | false =>
            simp only [Bool.false_eq_true, if_false, Prod.mk.injEq] at h
            obtain ⟨-, rfl, rfl⟩ := h
            exact .inr (.inr (.inl ⟨rfl, hagenda₀, hevents₀, hpre₀, hsince₀⟩))
      | ok result =>
        dsimp only at h
        cases hper : task.maybePeriodic with
        | none =>
          simp only [hper, Prod.mk.injEq] at h
          obtain ⟨-, rfl, rfl⟩ := h
          refine .inr (.inr (.inr (.inl ⟨rfl, rfl, ?_, ⟨result, ?_⟩, ?_, ?_⟩))) <;>
            simp [hagenda₀, hevents₀, hpre₀, hsince₀]
        | some periodic =>
          obtain ⟨period, count⟩ := periodic
          simp only [hper] at h
          cases hplace : placeTask cfg
              (s₀.deposit (.dispatched (when, agendaIndex) task.maybeId result))
              (cfg.saturatingAdd now period) (task.renewed period count) with
          | error task' =>
            have htask' := placeTask_eq_error cfg hplace
            rw [Scheduled.renewed] at hplace
            rw [hplace] at h
            simp only [Prod.mk.injEq] at h
            obtain ⟨-, rfl, rfl⟩ := h
            subst htask'
            refine .inr (.inr (.inr (.inr (.inr ⟨rfl, period, count, result, rfl,
              ?_, ?_, ?_, ?_⟩))))
            all_goals simp [Scheduled.renewed, hagenda₀, hevents₀, hpre₀, hsince₀]
          | ok placed =>
            obtain ⟨s₁, address⟩ := placed
            have hplace' := hplace
            rw [Scheduled.renewed] at hplace
            rw [hplace] at h
            simp only [Prod.mk.injEq] at h
            obtain ⟨-, rfl, rfl⟩ := h
            refine .inr (.inr (.inr (.inr (.inl ⟨rfl, period, count, result, _, address,
              rfl, hplace', ?_, ?_, ?_, ?_⟩))))
            all_goals simp [hagenda₀, hevents₀, hpre₀, hsince₀]

/-- The events of `service_task`: its own `Dispatched` exactly on `Ok`; a task handed back was
overweight or lacks its preimage; a dispatched periodic task is in its next agenda, or reported. -/
theorem serviceTask_events (h : serviceTask cfg meter s now when agendaIndex isFirst task =
    (meter', s', res)) :
    ∃ events, s'.events = s.events ++ events ∧
      (∀ address, dispatchedCount address events =
        if res.toBool ∧ address = (when, agendaIndex) then 1 else 0) ∧
      (res = .error (.unavailable, some task) →
        .permanentlyOverweight (when, agendaIndex) task.maybeId ∈ events ∨
          cfg.peek s.preimages task.call = none) ∧
      (∀ period count, res = .ok () → task.maybePeriodic = some (period, count) →
        (∃ j, s'.slot (cfg.saturatingAdd now period) j = some (task.renewed period count)) ∨
          .periodicFailed (when, agendaIndex) task.maybeId ∈ events) := by
  rcases serviceTask_cases cfg h with
    ⟨rfl, hpeek, -, hevents, -, -⟩ | ⟨rfl, -, hevents, -, -⟩ | ⟨rfl, -, hevents, -, -⟩ |
    ⟨rfl, hnone, -, ⟨result, hevents⟩, -, -⟩ |
    ⟨rfl, period, count, result, s₁, address, hperiodic, hplace, -, hevents₁, -, -⟩ |
    ⟨rfl, period, count, result, hperiodic, -, hevents, -, -⟩
  · exact ⟨[], by simp [hevents], fun _ => by simp [dispatchedCount, Except.toBool],
      fun _ => .inr hpeek, fun _ _ hres => (nomatch hres)⟩
  · exact ⟨_, hevents, fun _ => by simp [dispatchedCount, Except.toBool, Event.isDispatchedAt],
      fun _ => .inl (by simp), fun _ _ hres => (nomatch hres)⟩
  · exact ⟨[], by simp [hevents], fun _ => by simp [dispatchedCount, Except.toBool],
      fun hres => (nomatch hres), fun _ _ hres => (nomatch hres)⟩
  · refine ⟨_, hevents, fun address => ?_, fun hres => (nomatch hres), fun _ _ _ hsome => ?_⟩
    · by_cases haddress : address = (when, agendaIndex) <;>
        simp [dispatchedCount, Except.toBool, Event.isDispatchedAt, haddress, eq_comm]
    · rw [hnone] at hsome
      cases hsome
  · -- the placement deposits `Scheduled` after `Dispatched`
    obtain ⟨-, hslot, -, -, hevents, -, -⟩ := placeTask_eq_ok cfg hplace
    refine ⟨_, by rw [hevents, hevents₁, List.append_assoc, List.singleton_append],
      fun address => ?_, fun hres => (nomatch hres), fun period' count' _ hsome => ?_⟩
    · by_cases haddress : address = (when, agendaIndex) <;>
        simp [dispatchedCount, Except.toBool, Event.isDispatchedAt, haddress, eq_comm]
    · rw [hperiodic] at hsome
      cases hsome
      exact .inl ⟨address.2, hslot⟩
  · refine ⟨_, hevents, fun address => ?_, fun hres => (nomatch hres),
      fun period' count' _ hsome => ?_⟩
    · by_cases haddress : address = (when, agendaIndex) <;>
        simp [dispatchedCount, Except.toBool, Event.isDispatchedAt, haddress, eq_comm]
    · exact .inr (by simp)

theorem serviceTask_eq_error {e : ServiceTaskError} {slot : Option (Scheduled Name Bounded Origin)}
    (h : serviceTask cfg meter s now when agendaIndex isFirst task =
      (meter', s', .error (e, slot))) :
    slot = some task := by
  rcases serviceTask_cases cfg h with
    ⟨hres, -⟩ | ⟨hres, -⟩ | ⟨hres, -⟩ | ⟨hres, -⟩ | ⟨hres, -⟩ | ⟨hres, -⟩
  all_goals cases hres
  all_goals rfl

/-- `service_task` writes no agenda up to `now`: it only places a periodic
task, and that one period after `now`, which is below the largest block number. -/
theorem serviceTask_agenda (hnow : now < Unsigned.maxValue cfg.blockNumberBits)
    (hperiod : task.PeriodOk)
    (h : serviceTask cfg meter s now when agendaIndex isFirst task = (meter', s', res)) :
    ∀ b ≤ now, s'.agenda b = s.agenda b := by
  intro b hb
  rcases serviceTask_cases cfg h with
    ⟨-, -, hagenda, -⟩ | ⟨-, hagenda, -⟩ | ⟨-, hagenda, -⟩ | ⟨-, -, hagenda, -⟩ |
    ⟨-, period, count, result, s₁, address, hperiodic, hplace, hagenda₁, -⟩ |
    ⟨-, period, count, result, -, hagenda, -⟩
  any_goals rw [hagenda]
  have hwake := cfg.lt_saturatingAdd hnow (hperiod period count hperiodic)
  obtain ⟨-, -, -, hother, -⟩ := placeTask_eq_ok cfg hplace
  rw [hother b (by omega), hagenda₁]

section Keeps

variable (hdrop : ∀ preimages call call', cfg.peek preimages call' = none →
  cfg.peek (cfg.drop preimages call) call' = none)

include hdrop in
/-- Servicing a task keeps what every step keeps, given that dropping a
preimage never makes another one available. -/
theorem serviceTask_keeps
    (h : serviceTask cfg meter s now when agendaIndex isFirst task = (meter', s', res)) :
    Keeps cfg now s s' := by
  -- a step that writes no agenda keeps every slot
  have hkeep : ∀ {s₂ : State Name Bounded Origin Preimages Err}, s₂.agenda = s.agenda →
      s.events <+: s₂.events → s₂.incompleteSince = s.incompleteSince →
      (∀ call, cfg.peek s.preimages call = none → cfg.peek s₂.preimages call = none) →
      Keeps cfg now s s₂ := fun hagenda hevents hsince hpre =>
    ⟨hevents, hsince, hpre, fun _ _ _ _ hslot => by rw [State.slot, hagenda]; exact hslot⟩
  rcases serviceTask_cases cfg h with
    ⟨-, -, hagenda, hevents, hpre, hsince⟩ | ⟨-, hagenda, hevents, hpre, hsince⟩ |
    ⟨-, hagenda, hevents, hpre, hsince⟩ | ⟨-, -, hagenda, ⟨result, hevents⟩, hpre, hsince⟩ |
    ⟨-, period, count, result, s₁, address, -, hplace, hagenda₁, hevents₁, hpre₁, hsince₁⟩ |
    ⟨-, period, count, result, -, hagenda, hevents, hpre, hsince⟩
  · exact hkeep hagenda (hevents ▸ List.prefix_refl _) hsince
      (fun _ h => by rw [hpre]; exact h)
  · exact hkeep hagenda (by rw [hevents]; exact List.prefix_append _ _) hsince
      (fun _ h => by rw [hpre]; exact hdrop _ _ _ h)
  · exact hkeep hagenda (hevents ▸ List.prefix_refl _) hsince
      (fun _ h => by rw [hpre]; exact h)
  · exact hkeep hagenda (by rw [hevents]; exact List.prefix_append _ _) hsince
      (fun _ h => by rw [hpre]; exact hdrop _ _ _ h)
  · -- the placement fills an empty slot
    obtain ⟨-, -, hslots, -, hevents, hsince, hpre⟩ := placeTask_eq_ok cfg hplace
    refine ⟨?_, by rw [hsince, hsince₁], fun _ h => by rw [hpre, hpre₁]; exact h,
      fun b j task' _ hslot => hslots b j task' (by rw [State.slot, hagenda₁]; exact hslot)⟩
    rw [hevents, hevents₁, List.append_assoc]
    exact List.prefix_append _ _
  · exact hkeep hagenda (by rw [hevents]; exact List.prefix_append _ _) hsince
      (fun _ h => by rw [hpre]; exact hdrop _ _ _ h)

end Keeps

end Service

end Substrate.Scheduler
