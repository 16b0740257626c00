import Substrate.Staking.Payout
import Substrate.Lib.Unsigned
import Mathlib

/-! # Slashing a validator and its nominators

`compute_slash` of `src/frame/staking/src/slashing.rs`: within one slashing span a stash pays only
its largest era slash, charged by difference; a slash in the ongoing span ends it. Eras and span
indices are `u32`: ending a span panics where `now + 1` overflows, and so does the slash that ends
it. Chilling, disabling and the event are left out.
-/

namespace Substrate.Staking.Slashing

open Substrate.Arithmetic

def rewardF1 : Perbill := ⟨500000000, by norm_num⟩

/-- `SlashingSpan`: the eras from `start` on, `length` of them if the span has ended. -/
structure SlashingSpan where
  index : Nat
  start : Nat
  length : Option Nat
  deriving DecidableEq, Repr

def SlashingSpan.containsEra (span : SlashingSpan) (era : Nat) : Bool :=
  decide (span.start ≤ era) && span.length.all fun l => decide (era < span.start + l)

/-- `SlashingSpans`: the ongoing span starts at `lastStart`; `prior` holds the lengths of the
spans before it, the most recent first. -/
structure SlashingSpans where
  spanIndex : Nat
  lastStart : Nat
  lastNonzeroSlash : Nat
  prior : List Nat
  deriving DecidableEq, Repr

namespace SlashingSpans

def new (windowStart : Nat) : SlashingSpans := ⟨0, windowStart, 0, []⟩

/-- `end_span`: a new span starts after `now`; whether one did. `none` where `now + 1` or the span
index overflows its `u32`, where the source panics. -/
def endSpan (spans : SlashingSpans) (now : Nat) : Option (SlashingSpans × Bool) := do
  let nextStart ← Unsigned.checkedAdd 32 now 1
  if nextStart ≤ spans.lastStart then return (spans, false)
  else
    let lastLength := nextStart - spans.lastStart
    let spanIndex ← Unsigned.checkedAdd 32 spans.spanIndex 1
    return ({ spans with
        prior := lastLength :: spans.prior
        lastStart := nextStart
        spanIndex }, true)

/-- The prior spans of `iter`: each ends where the one after it starts. -/
def priorSpans : Nat → Nat → List Nat → List SlashingSpan
  | _, _, [] => []
  | lastStart, index, length :: prior =>
      ⟨index - 1, lastStart - length, some length⟩ :: priorSpans (lastStart - length) (index - 1) prior

def iter (spans : SlashingSpans) : List SlashingSpan :=
  ⟨spans.spanIndex, spans.lastStart, none⟩ :: priorSpans spans.lastStart spans.spanIndex spans.prior

/-- `prune`: the spans that ended by the window start are dropped, and the range of their
indices returned; the ongoing span starts no earlier than the window. -/
def prune (spans : SlashingSpans) (windowStart : Nat) : SlashingSpans × Option (Nat × Nat) :=
  let oldIdx := (spans.iter.drop 1).findIdx? fun span =>
    span.length.any fun len => decide (span.start + len ≤ windowStart)
  let earliestSpanIndex := spans.spanIndex - spans.prior.length
  let (spans, pruned) : SlashingSpans × Option (Nat × Nat) :=
    match oldIdx with
    | some o =>
        let spans := { spans with prior := spans.prior.take o }
        (spans, some (earliestSpanIndex, spans.spanIndex - spans.prior.length))
    | none => (spans, none)
  ({ spans with lastStart := max spans.lastStart windowStart }, pruned)

end SlashingSpans

/-- `SpanRecord`: what a span was slashed, and what was paid out for it. -/
structure SpanRecord where
  slashed : Nat
  paidOut : Nat
  deriving DecidableEq, Repr, Inhabited

structure UnappliedSlash (AccountId : Type) where
  validator : AccountId
  own : Nat
  others : List (AccountId × Nat)
  reporters : List AccountId
  payout : Nat

structure SlashParams (AccountId : Type) where
  stash : AccountId
  slash : Perbill
  exposure : Exposure AccountId
  slashEra : Nat
  windowStart : Nat
  now : Nat
  rewardProportion : Perbill

/-- The storage a slash reads and writes. -/
structure State (AccountId : Type) where
  validatorSlashInEra : Nat → AccountId → Option (Perbill × Nat)
  nominatorSlashInEra : Nat → AccountId → Option Nat
  slashingSpans : AccountId → Option SlashingSpans
  spanSlash : AccountId × Nat → SpanRecord

def State.empty {AccountId : Type} : State AccountId := ⟨fun _ _ => none, fun _ _ => none,
  fun _ => none, fun _ => default⟩

variable {AccountId : Type} [DecidableEq AccountId]

def doubleMapInsert {α : Type} (m : Nat → AccountId → Option α) (era : Nat) (stash : AccountId)
    (value : α) : Nat → AccountId → Option α :=
  Function.update m era (Function.update (m era) stash (some value))

/-- `InspectingSpans`: the spans of a stash being slashed; `paidOut` and `slashOf` are the two
counters the source borrows, starting at their values. -/
structure InspectingSpans (AccountId : Type) where
  dirty : Bool
  windowStart : Nat
  stash : AccountId
  spans : SlashingSpans
  paidOut : Nat
  slashOf : Nat
  rewardProportion : Perbill

/-- `fetch_spans`: the spans of a stash, created from the window start and stored if it has
none. -/
def fetchSpans (s : State AccountId) (stash : AccountId) (windowStart paidOut slashOf : Nat)
    (rewardProportion : Perbill) : State AccountId × InspectingSpans AccountId :=
  let (s, spans) : State AccountId × SlashingSpans :=
    match s.slashingSpans stash with
    | some spans => (s, spans)
    | none =>
        let spans := SlashingSpans.new windowStart
        ({ s with slashingSpans := Function.update s.slashingSpans stash (some spans) }, spans)
  (s, ⟨false, windowStart, stash, spans, paidOut, slashOf, rewardProportion⟩)

namespace InspectingSpans

def spanIndex (insp : InspectingSpans AccountId) : Nat := insp.spans.spanIndex

def endSpan (insp : InspectingSpans AccountId) (now : Nat) : Option (InspectingSpans AccountId) := do
  let (spans, ended) ← insp.spans.endSpan now
  return { insp with spans, dirty := ended || insp.dirty }

def addSlash (insp : InspectingSpans AccountId) (amount slashEra : Nat) :
    InspectingSpans AccountId :=
  { insp with
    slashOf := insp.slashOf + amount
    spans := { insp.spans with lastNonzeroSlash := max insp.spans.lastNonzeroSlash slashEra } }

def eraSpan (insp : InspectingSpans AccountId) (era : Nat) : Option SlashingSpan :=
  insp.spans.iter.find? fun span => span.containsEra era

/-- `compare_and_update_span_slash`: a slash above the span's is charged the difference, and the
span's reward brought up to half of what is left of its share. -/
def compareAndUpdateSpanSlash (insp : InspectingSpans AccountId) (s : State AccountId)
    (slashEra slash : Nat) : State AccountId × InspectingSpans AccountId × Option Nat :=
  match insp.eraSpan slashEra with
  | none => (s, insp, none)
  | some targetSpan =>
      let spanSlashKey := (insp.stash, targetSpan.index)
      let spanRecord := s.spanSlash spanSlashKey
      let (spanRecord, insp, changed, reward) : SpanRecord × InspectingSpans AccountId × Bool × Nat :=
        if spanRecord.slashed < slash then
          let difference := slash - spanRecord.slashed
          ({ spanRecord with slashed := slash }, insp.addSlash difference slashEra, true,
            rewardF1.mul (insp.rewardProportion.mul slash - spanRecord.paidOut))
        else if spanRecord.slashed = slash then
          (spanRecord, insp, false,
            rewardF1.mul (insp.rewardProportion.mul slash - spanRecord.paidOut))
        else (spanRecord, insp, false, 0)
      let (spanRecord, insp, changed) : SpanRecord × InspectingSpans AccountId × Bool :=
        if reward ≠ 0 then
          ({ spanRecord with paidOut := spanRecord.paidOut + reward },
            { insp with paidOut := insp.paidOut + reward }, true)
        else (spanRecord, insp, changed)
      if changed then
        ({ s with spanSlash := Function.update s.spanSlash spanSlashKey spanRecord },
          { insp with dirty := true }, some targetSpan.index)
      else (s, insp, some targetSpan.index)

/-- `Drop for InspectingSpans`: the spans of a stash that was slashed are pruned, the records of
the pruned spans removed, and the spans stored. -/
def drop (insp : InspectingSpans AccountId) (s : State AccountId) : State AccountId :=
  if !insp.dirty then s
  else
    let (spans, pruned) := insp.spans.prune insp.windowStart
    let s := match pruned with
      | some (startIndex, endIndex) =>
          { s with spanSlash := fun key =>
              if key.1 = insp.stash ∧ startIndex ≤ key.2 ∧ key.2 < endIndex then default
              else s.spanSlash key }
      | none => s
    { s with slashingSpans := Function.update s.slashingSpans insp.stash (some spans) }

end InspectingSpans

/-- `kick_out_if_recent`: no slash, but the span ends if the offence is in the ongoing one. -/
def kickOutIfRecent (s : State AccountId) (params : SlashParams AccountId) :
    Option (State AccountId) := do
  let (s, spans) := fetchSpans s params.stash params.windowStart 0 0 params.rewardProportion
  let spans ←
    if (spans.eraSpan params.slashEra).map (·.index) = some spans.spanIndex then
      spans.endSpan params.now
    else pure spans
  -- the validator is chilled; left out
  return spans.drop s

/-- `compute_slash` for the validator and `slash_nominators` for each nominator: spans fetched,
compared with the slash, ended for an offence in the ongoing span. -/
def inspectSpans (s : State AccountId) (stash : AccountId) (params : SlashParams AccountId)
    (paidOut slash : Nat) : Option (State AccountId × InspectingSpans AccountId) := do
  let (s, spans) := fetchSpans s stash params.windowStart paidOut 0 params.rewardProportion
  let (s, spans, targetSpan) := spans.compareAndUpdateSpanSlash s params.slashEra slash
  let spans ← if targetSpan = some spans.spanIndex then spans.endSpan params.now else pure spans
  return (spans.drop s, spans)

/-- One nominator of `slash_nominators`: its era slash grows by the difference the validator's new
proportion makes, is compared with its span's, and the span ends. -/
def slashNominator (params : SlashParams AccountId) (priorSlashP : Perbill)
    (acc : State AccountId × List (AccountId × Nat) × Nat)
    (nominator : IndividualExposure AccountId) :
    Option (State AccountId × List (AccountId × Nat) × Nat) := do
  let (s, nominatorsSlashed, rewardPayout) := acc
  let stash := nominator.who
  let ownSlashPrior := priorSlashP.mul nominator.value
  let ownSlashByValidator := params.slash.mul nominator.value
  let ownSlashDifference := ownSlashByValidator - ownSlashPrior
  let eraSlash := ((s.nominatorSlashInEra params.slashEra stash).getD 0) + ownSlashDifference
  let s := { s with
    nominatorSlashInEra := doubleMapInsert s.nominatorSlashInEra params.slashEra stash eraSlash }
  let (s, spans) ← inspectSpans s stash params rewardPayout eraSlash
  return (s, nominatorsSlashed ++ [(stash, spans.slashOf)], spans.paidOut)

/-- `slash_nominators`: the slashed nominators and the reward. -/
def slashNominators (s : State AccountId) (params : SlashParams AccountId)
    (priorSlashP : Perbill) : Option (State AccountId × List (AccountId × Nat) × Nat) :=
  params.exposure.others.foldlM (slashNominator params priorSlashP) (s, [], 0)

def computeSlash (s : State AccountId) (params : SlashParams AccountId) :
    Option (State AccountId × Option (UnappliedSlash AccountId)) := do
  let ownSlash := params.slash.mul params.exposure.own
  if params.slash.mul params.exposure.total = 0 then return (← kickOutIfRecent s params, none)
  else
    let priorSlashP :=
      ((s.validatorSlashInEra params.slashEra params.stash).map (·.1)).getD PerThing.zero
    -- proportions are compared, not values, to avoid rounding
    if priorSlashP.parts < params.slash.parts then
      let s := { s with
        validatorSlashInEra := doubleMapInsert s.validatorSlashInEra params.slashEra params.stash
          (params.slash, ownSlash) }
      -- the validator is chilled if the offence is in its ongoing span; left out
      let (s, spans) ← inspectSpans s params.stash params 0 ownSlash
      let (s, nominatorsSlashed, nominatorsReward) ← slashNominators s params priorSlashP
      return (s, some ⟨params.stash, spans.slashOf, nominatorsSlashed, [],
        spans.paidOut + nominatorsReward⟩)
    else return (s, none)

def computeSlashes : State AccountId → List (SlashParams AccountId) →
    Option (State AccountId × List (Option (UnappliedSlash AccountId)))
  | s, [] => some (s, [])
  | s, params :: rest => do
      let (s, unapplied) ← computeSlash s params
      let (s, unapplieds) ← computeSlashes s rest
      return (s, unapplied :: unapplieds)

end Substrate.Staking.Slashing
