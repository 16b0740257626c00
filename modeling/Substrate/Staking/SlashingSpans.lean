import Substrate.Staking.Slashing
import Mathlib

/-! # Which span an era is in

The spans `SlashingSpans::iter` lists follow one another back in time, so the span `era_span`
finds is the only one holding the era (`mem_iter_iff`). Ending the ongoing span splits it at
`now`; pruning drops the oldest spans and moves the others nowhere. Eras are `u32`s, and every
span of a reachable set adds up within one, but `end_span` panics at `now = u32::MAX`.
-/

namespace Substrate.Staking.Slashing

@[simp] theorem containsEra_none (index start era : Nat) :
    (⟨index, start, none⟩ : SlashingSpan).containsEra era = decide (start ≤ era) := by
  simp [SlashingSpan.containsEra]

@[simp] theorem containsEra_some (index start length era : Nat) :
    (⟨index, start, some length⟩ : SlashingSpan).containsEra era =
      (decide (start ≤ era) && decide (era < start + length)) := rfl

/-- A span that ended by the window start: what `prune` drops. -/
def SlashingSpan.endedBy (span : SlashingSpan) (windowStart : Nat) : Bool :=
  span.length.any fun len => decide (span.start + len ≤ windowStart)

namespace SlashingSpans

/-- The index of the span an era is in, if any: what `era_span` finds. -/
def spanOf (spans : SlashingSpans) (era : Nat) : Option Nat :=
  (spans.iter.find? fun span => span.containsEra era).map (·.index)

/-- The spans as `end_span` and `prune` leave them: the prior spans fit below the ongoing one,
and so do their indices. -/
structure WF (spans : SlashingSpans) : Prop where
  sum_le : spans.prior.sum ≤ spans.lastStart
  length_le : spans.prior.length ≤ spans.spanIndex

def Before (a b : SlashingSpan) : Prop :=
  b.index < a.index ∧ ∀ era, b.containsEra era = true → era < a.start

theorem start_le_of_containsEra {span : SlashingSpan} {era : Nat}
    (h : span.containsEra era = true) : span.start ≤ era := by
  simp only [SlashingSpan.containsEra, Bool.and_eq_true, decide_eq_true_eq] at h
  exact h.1

/-! ## The prior spans -/

theorem mem_priorSpans : ∀ {lastStart index : Nat} {prior : List Nat},
    prior.sum ≤ lastStart → prior.length ≤ index → ∀ span ∈ priorSpans lastStart index prior,
      span.index < index ∧ index - prior.length ≤ span.index ∧
        ∀ era, span.containsEra era = true → era < lastStart
  | _, _, [], _, _, span, hmem => by simp [priorSpans] at hmem
  | lastStart, index, length :: prior, hsum, hlen, span, hmem => by
    rw [List.sum_cons] at hsum
    rw [List.length_cons] at hlen
    rw [priorSpans, List.mem_cons] at hmem
    rcases hmem with rfl | hmem
    · dsimp only
      refine ⟨by omega, by simp only [List.length_cons]; omega, fun era hera => ?_⟩
      simp only [containsEra_some, Bool.and_eq_true, decide_eq_true_eq] at hera
      omega
    · -- the rest lies below the first prior span
      obtain ⟨hlt, hge, hbelow⟩ := mem_priorSpans (by omega) (by omega) span hmem
      refine ⟨by omega, by simp only [List.length_cons]; omega, fun era hera => ?_⟩
      have := hbelow era hera
      omega

theorem priorSpans_pairwise : ∀ {lastStart index : Nat} {prior : List Nat},
    prior.sum ≤ lastStart → prior.length ≤ index →
      (priorSpans lastStart index prior).Pairwise Before
  | _, _, [], _, _ => by simp [priorSpans]
  | lastStart, index, length :: prior, hsum, hlen => by
    rw [List.sum_cons] at hsum
    rw [List.length_cons] at hlen
    rw [priorSpans, List.pairwise_cons]
    refine ⟨fun span hmem => ?_, priorSpans_pairwise (by omega) (by omega)⟩
    obtain ⟨hlt, -, hbelow⟩ := mem_priorSpans (by omega) (by omega) span hmem
    exact ⟨hlt, hbelow⟩

theorem priorSpans_take : ∀ (lastStart index n : Nat) (prior : List Nat),
    priorSpans lastStart index (prior.take n) = (priorSpans lastStart index prior).take n
  | _, _, 0, _ => by simp [priorSpans]
  | _, _, _ + 1, [] => by simp [priorSpans]
  | lastStart, index, n + 1, length :: prior => by
    simp only [List.take_succ_cons, priorSpans, priorSpans_take]

theorem priorSpans_drop : ∀ (lastStart index n : Nat) (prior : List Nat),
    priorSpans lastStart index prior = (priorSpans lastStart index prior).take n ++
      priorSpans (lastStart - (prior.take n).sum) (index - n) (prior.drop n)
  | _, _, 0, _ => by simp
  | _, _, _ + 1, [] => by simp [priorSpans]
  | lastStart, index, n + 1, length :: prior => by
    have ih := priorSpans_drop (lastStart - length) (index - 1) n prior
    rw [Nat.sub_sub, Nat.sub_sub, Nat.add_comm 1 n] at ih
    rw [priorSpans, List.take_succ_cons, List.take_succ_cons, List.drop_succ_cons,
      List.sum_cons, List.cons_append, ← ih]

@[simp] theorem length_priorSpans : ∀ (lastStart index : Nat) (prior : List Nat),
    (priorSpans lastStart index prior).length = prior.length
  | _, _, [] => rfl
  | lastStart, index, length :: prior => by
    rw [priorSpans, List.length_cons, List.length_cons, length_priorSpans]

theorem end_le_of_mem_priorSpans : ∀ {lastStart index : Nat} {prior : List Nat},
    prior.sum ≤ lastStart → ∀ span ∈ priorSpans lastStart index prior,
      ∃ len, span.length = some len ∧ span.start + len ≤ lastStart
  | _, _, [], _, span, hmem => by simp [priorSpans] at hmem
  | lastStart, index, len :: prior, hsum, span, hmem => by
    rw [List.sum_cons] at hsum
    rw [priorSpans, List.mem_cons] at hmem
    rcases hmem with rfl | hmem
    · exact ⟨len, rfl, by dsimp only; omega⟩
    · obtain ⟨l, hl, hend⟩ := end_le_of_mem_priorSpans (by omega) span hmem
      exact ⟨l, hl, by omega⟩

/-- `prune`'s search stops at the first prior span ended by the window; every later one ended
earlier, so the spans before it are those that did not. -/
theorem take_findIdx_priorSpans : ∀ {lastStart index : Nat} {prior : List Nat} (windowStart : Nat),
    prior.sum ≤ lastStart →
      (priorSpans lastStart index prior).take
          ((priorSpans lastStart index prior).findIdx fun span => span.endedBy windowStart) =
        (priorSpans lastStart index prior).filter fun span => !span.endedBy windowStart
  | _, _, [], _, _ => by simp [priorSpans]
  | lastStart, index, len :: prior, windowStart, hsum => by
    rw [List.sum_cons] at hsum
    rw [priorSpans, List.findIdx_cons, List.filter_cons]
    by_cases hended : lastStart ≤ windowStart
    · -- the first prior span ended by the window, and so did every earlier one
      have hfirst : (⟨index - 1, lastStart - len, some len⟩ : SlashingSpan).endedBy windowStart =
          true := by
        simp only [SlashingSpan.endedBy, Option.any_some, decide_eq_true_eq]
        omega
      rw [hfirst, cond_true, List.take_zero, Bool.not_true, if_neg Bool.false_ne_true]
      refine (List.filter_eq_nil_iff.mpr fun span hmem => ?_).symm
      obtain ⟨l, hl, hend⟩ := end_le_of_mem_priorSpans (by omega) span hmem
      simp only [SlashingSpan.endedBy, hl, Option.any_some, decide_eq_false_iff_not,
        Bool.not_eq_eq_eq_not, Bool.not_true]
      omega
    · have hfirst : (⟨index - 1, lastStart - len, some len⟩ : SlashingSpan).endedBy windowStart =
          false := by
        simp only [SlashingSpan.endedBy, Option.any_some, decide_eq_false_iff_not]
        omega
      rw [hfirst, cond_false, List.take_succ_cons, Bool.not_false, if_pos rfl,
        take_findIdx_priorSpans windowStart (by omega)]

/-! ## The spans of `iter` -/

section Spans

variable {spans : SlashingSpans}

theorem iter_pairwise (hwf : spans.WF) : spans.iter.Pairwise Before := by
  rw [iter, List.pairwise_cons]
  refine ⟨fun span hmem => ?_, priorSpans_pairwise hwf.sum_le hwf.length_le⟩
  obtain ⟨hlt, -, hbelow⟩ := mem_priorSpans hwf.sum_le hwf.length_le span hmem
  exact ⟨hlt, hbelow⟩

/-- In a list of spans each before the next, the one span that holds an era is found. -/
theorem find?_of_pairwise : ∀ {l : List SlashingSpan}, l.Pairwise Before →
    ∀ {span : SlashingSpan}, span ∈ l → ∀ {era : Nat}, span.containsEra era = true →
      l.find? (fun span => span.containsEra era) = some span
  | [], _, _, hmem, _, _ => absurd hmem List.not_mem_nil
  | first :: rest, hl, span, hmem, era, hera => by
    rw [List.pairwise_cons] at hl
    rw [List.find?_cons]
    rcases List.mem_cons.mp hmem with rfl | hmem
    · rw [hera]
    · -- a span after the first holds only eras before it
      have hlt := (hl.1 span hmem).2 era hera
      have hfirst : first.containsEra era = false := by
        by_contra hcontains
        have := start_le_of_containsEra (Bool.not_eq_false _ ▸ hcontains)
        omega
      rw [hfirst]
      exact find?_of_pairwise hl.2 hmem hera

/-- A span of `iter` holds exactly the eras `spanOf` puts in its index. -/
theorem mem_iter_iff (hwf : spans.WF) {span : SlashingSpan}
    (hmem : span ∈ spans.iter) (era : Nat) :
    span.containsEra era = true ↔ spans.spanOf era = some span.index := by
  have hpairwise := iter_pairwise hwf
  constructor
  · intro hera
    rw [spanOf, find?_of_pairwise hpairwise hmem hera]
    rfl
  · intro hspan
    obtain ⟨found, hfind, hindex⟩ := Option.map_eq_some_iff.mp hspan
    -- indices of `iter` are distinct, so the span found is this one
    have hnodup : (spans.iter.map (·.index)).Nodup :=
      List.nodup_iff_pairwise_ne.mpr
        (List.pairwise_map.mpr (hpairwise.imp fun hbefore => (Nat.ne_of_lt hbefore.1).symm))
    have hsame := List.inj_on_of_nodup_map hnodup (List.mem_of_find?_eq_some hfind) hmem hindex
    have hfound := List.find?_some hfind
    rw [← hsame]
    exact hfound

variable {era : Nat}

theorem spanOf_of_le (h : spans.lastStart ≤ era) :
    spans.spanOf era = some spans.spanIndex := by
  simp [spanOf, iter, h]

theorem spanOf_of_lt (h : era < spans.lastStart) :
    spans.spanOf era = ((priorSpans spans.lastStart spans.spanIndex spans.prior).find?
      fun span => span.containsEra era).map (·.index) := by
  have hnot : ¬spans.lastStart ≤ era := by omega
  simp [spanOf, iter, hnot]

/-- Only the ongoing span has the spans' index, and it holds the eras from its start on. -/
theorem spanOf_le (hwf : spans.WF) {era j : Nat}
    (h : spans.spanOf era = some j) :
    j ≤ spans.spanIndex ∧ (j = spans.spanIndex → spans.lastStart ≤ era) := by
  by_cases hle : spans.lastStart ≤ era
  · rw [spanOf_of_le hle, Option.some.injEq] at h
    exact ⟨h.ge, fun _ => hle⟩
  · rw [spanOf_of_lt (by omega)] at h
    obtain ⟨span, hfind, rfl⟩ := Option.map_eq_some_iff.mp h
    have hlt := (mem_priorSpans hwf.sum_le hwf.length_le span
      (List.mem_of_find?_eq_some hfind)).1
    exact ⟨hlt.le, fun heq => absurd heq (Nat.ne_of_lt hlt)⟩

@[simp] theorem length_iter_tail (spans : SlashingSpans) :
    spans.iter.tail.length = spans.prior.length := by
  rw [iter, List.tail_cons, length_priorSpans]

/-! ## `new`, `end_span` and `prune` -/

theorem spanOf_new (windowStart era : Nat) :
    (new windowStart).spanOf era = if windowStart ≤ era then some 0 else none := by
  by_cases h : windowStart ≤ era <;> simp [spanOf, iter, new, priorSpans, h]

theorem new_wf (windowStart : Nat) : (new windowStart).WF := ⟨by simp [new], by simp [new]⟩

variable {now : Nat}

/-- The spans once the ongoing span is closed at `now + 1`: what `end_span` leaves where it starts
a new span. -/
def closedAt (spans : SlashingSpans) (now : Nat) : SlashingSpans :=
  { spans with
    prior := (now + 1 - spans.lastStart) :: spans.prior
    lastStart := now + 1
    spanIndex := spans.spanIndex + 1 }

/-- What `end_span` can do: it panics where `now + 1` overflows; before the ongoing span's start it
changes nothing; otherwise it closes that span, unless the span index overflows. -/
theorem endSpan_eq_some {spans' : SlashingSpans} {ended : Bool}
    (h : spans.endSpan now = some (spans', ended)) :
    now < Unsigned.maxValue 32 ∧
      (now < spans.lastStart ∧ spans' = spans ∧ ended = false ∨
        spans.lastStart ≤ now ∧ spans.spanIndex < Unsigned.maxValue 32 ∧
          spans' = spans.closedAt now ∧ ended = true) := by
  rw [endSpan] at h
  cases hnext : Unsigned.checkedAdd 32 now 1 with
  | none =>
    rw [hnext] at h
    cases h
  | some nextStart =>
    obtain ⟨hfits, rfl⟩ := Unsigned.checkedAdd_eq_some.mp hnext
    rw [hnext] at h
    refine ⟨by omega, ?_⟩
    simp only [Option.bind_eq_bind, Option.bind_some] at h
    split at h
    · next hlate =>
      -- `next_start <= last_start`: nothing changes
      cases h
      exact .inl ⟨by omega, rfl, rfl⟩
    · next hlate =>
      cases hindex : Unsigned.checkedAdd 32 spans.spanIndex 1 with
      | none =>
        rw [hindex] at h
        cases h
      | some spanIndex =>
        obtain ⟨hindexFits, rfl⟩ := Unsigned.checkedAdd_eq_some.mp hindex
        rw [hindex, Option.bind_some] at h
        cases h
        exact .inr ⟨by omega, by omega, rfl, rfl⟩

theorem endSpan_of_lt (h : now < spans.lastStart) (hnow : now < Unsigned.maxValue 32) :
    spans.endSpan now = some (spans, false) := by
  rw [endSpan, Unsigned.checkedAdd_of_le (by omega)]
  simp only [Option.bind_eq_bind, Option.bind_some]
  rw [if_pos (by omega)]
  rfl

theorem endSpan_of_le (h : spans.lastStart ≤ now) (hnow : now < Unsigned.maxValue 32)
    (hindex : spans.spanIndex < Unsigned.maxValue 32) :
    spans.endSpan now = some (spans.closedAt now, true) := by
  rw [endSpan, Unsigned.checkedAdd_of_le (by omega)]
  simp only [Option.bind_eq_bind, Option.bind_some]
  rw [if_neg (by omega), Unsigned.checkedAdd_of_le (by omega), Option.bind_some]
  rfl

/-- At `u32::MAX` and above, `now + 1` overflows. -/
theorem endSpan_of_max_le (h : Unsigned.maxValue 32 ≤ now) : spans.endSpan now = none := by
  rw [endSpan, Unsigned.checkedAdd_of_lt (by omega)]
  rfl

theorem WF.closedAt (hwf : spans.WF) (h : spans.lastStart ≤ now) : (spans.closedAt now).WF := by
  have hsum := hwf.sum_le
  have hlen := hwf.length_le
  exact ⟨by simp only [SlashingSpans.closedAt, List.sum_cons]; omega,
    by simp only [SlashingSpans.closedAt, List.length_cons]; omega⟩

theorem WF.endSpan (hwf : spans.WF) {spans' : SlashingSpans} {ended : Bool}
    (h : spans.endSpan now = some (spans', ended)) : spans'.WF := by
  obtain ⟨-, ⟨-, rfl, -⟩ | ⟨hle, -, rfl, -⟩⟩ := endSpan_eq_some h
  · exact hwf
  · exact hwf.closedAt hle

theorem iter_closedAt (h : spans.lastStart ≤ now) :
    (spans.closedAt now).iter = ⟨spans.spanIndex + 1, now + 1, none⟩ ::
      ⟨spans.spanIndex, spans.lastStart, some (now + 1 - spans.lastStart)⟩ :: spans.iter.tail := by
  rw [closedAt, iter, iter, List.tail_cons]
  dsimp only
  rw [priorSpans]
  congr 3 <;> omega

/-- Closing the ongoing span at `now` keeps the eras up to `now` in their spans and starts a new
span after it. -/
theorem spanOf_closedAt (h : spans.lastStart ≤ now) (era : Nat) :
    (spans.closedAt now).spanOf era =
      if now < era then some (spans.spanIndex + 1) else spans.spanOf era := by
  rw [spanOf, iter_closedAt h, iter, List.tail_cons]
  by_cases hlate : now < era
  · simp [hlate, show now + 1 ≤ era by omega]
  · by_cases hle : spans.lastStart ≤ era
    · simp [hlate, hle, spanOf_of_le hle,
        show era < spans.lastStart + (now + 1 - spans.lastStart) by omega]
    · simp [hlate, hle, spanOf_of_lt (show era < spans.lastStart by omega),
        show ¬now + 1 ≤ era by omega]


def prunedTo (spans : SlashingSpans) (windowStart n : Nat) : SlashingSpans :=
  { spans with prior := spans.prior.take n, lastStart := max spans.lastStart windowStart }

/-- Unless `prune` drops every prior span, the window starts before the ongoing span: the first
prior span ends where the ongoing one starts. -/
theorem lt_lastStart_of_findIdx_pos (hwf : spans.WF) {windowStart : Nat}
    (hpos : 0 < spans.iter.tail.findIdx fun span => span.endedBy windowStart) :
    windowStart < spans.lastStart := by
  rw [iter, List.tail_cons] at hpos
  cases hprior : spans.prior with
  | nil => simp [hprior, priorSpans] at hpos
  | cons len prior =>
    have hsum := hwf.sum_le
    rw [hprior, List.sum_cons] at hsum
    rw [hprior, priorSpans, List.findIdx_cons] at hpos
    by_contra hle
    have hfirst : (⟨spans.spanIndex - 1, spans.lastStart - len, some len⟩ : SlashingSpan).endedBy
        windowStart = true := by
      simp only [SlashingSpan.endedBy, Option.any_some, decide_eq_true_eq]
      omega
    rw [hfirst, cond_true] at hpos
    exact Nat.lt_irrefl 0 hpos

/-- `prune` keeps the prior spans before the first one ended by the window, and returns the indices
from the earliest span to the first one kept, if it dropped any. -/
theorem prune_eq_findIdx (spans : SlashingSpans) (windowStart : Nat) :
    spans.prune windowStart =
      (spans.prunedTo windowStart (spans.iter.tail.findIdx fun span => span.endedBy windowStart),
        (spans.iter.tail.findIdx? fun span => span.endedBy windowStart).map fun o =>
          (spans.spanIndex - spans.prior.length, spans.spanIndex - o)) := by
  -- the search of the source, with its test named
  have hended : (fun span : SlashingSpan =>
      span.length.any fun len => decide (span.start + len ≤ windowStart)) =
        fun span => span.endedBy windowStart := rfl
  rw [prune, List.drop_one, hended]
  dsimp only
  cases hidx : spans.iter.tail.findIdx? fun span => span.endedBy windowStart with
  | none =>
    rw [List.findIdx?_eq_none_iff_findIdx_eq.mp hidx, length_iter_tail]
    simp [prunedTo]
  | some o =>
    obtain ⟨hlt, hfind⟩ := List.findIdx?_eq_some_iff_findIdx_eq.mp hidx
    rw [length_iter_tail] at hlt
    rw [hfind]
    simp [prunedTo, List.length_take, show min o spans.prior.length = o by omega]

/-- The shape `prune` leaves: the first `n` prior spans and the ongoing span from the window on; a
prior span is kept only if the ongoing one starts after the window. -/
theorem prune_eq (hwf : spans.WF) (windowStart : Nat) :
    ∃ n ≤ spans.prior.length, (0 < n → windowStart < spans.lastStart) ∧
      spans.prune windowStart =
        (spans.prunedTo windowStart n,
          if n = spans.prior.length then none
          else some (spans.spanIndex - spans.prior.length, spans.spanIndex - n)) := by
  refine ⟨spans.iter.tail.findIdx fun span => span.endedBy windowStart,
    length_iter_tail spans ▸ List.findIdx_le_length, lt_lastStart_of_findIdx_pos hwf, ?_⟩
  rw [prune_eq_findIdx]
  congr 1
  cases hidx : spans.iter.tail.findIdx? fun span => span.endedBy windowStart with
  | none => rw [List.findIdx?_eq_none_iff_findIdx_eq.mp hidx, length_iter_tail, if_pos rfl]; rfl
  | some o =>
    obtain ⟨hlt, hfind⟩ := List.findIdx?_eq_some_iff_findIdx_eq.mp hidx
    rw [length_iter_tail] at hlt
    rw [hfind, if_neg (by omega)]
    rfl

theorem iter_prunedTo {windowStart n : Nat}
    (hpos : 0 < n → windowStart < spans.lastStart) :
    (spans.prunedTo windowStart n).iter =
      ⟨spans.spanIndex, max spans.lastStart windowStart, none⟩ :: spans.iter.tail.take n := by
  rw [iter, iter, List.tail_cons]
  dsimp only [prunedTo]
  rcases Nat.eq_zero_or_pos n with rfl | hn
  · simp [priorSpans]
  · rw [max_eq_left (hpos hn).le, priorSpans_take]

/-- The spans `prune` leaves, for `n` from `prune_eq`: the ongoing span from the window on, then
the first `n` prior spans. -/
theorem spanOf_pruned {windowStart n : Nat}
    (hpos : 0 < n → windowStart < spans.lastStart) (era : Nat) :
    (spans.prunedTo windowStart n).spanOf era =
      if max spans.lastStart windowStart ≤ era then some spans.spanIndex
      else (((priorSpans spans.lastStart spans.spanIndex spans.prior).take n).find?
        fun span => span.containsEra era).map (·.index) := by
  rw [spanOf, iter_prunedTo hpos, iter, List.tail_cons]
  by_cases hle : max spans.lastStart windowStart ≤ era
  · simp [hle]
  · simp [hle]

theorem WF.prunedTo (hwf : spans.WF) (windowStart n : Nat) :
    (spans.prunedTo windowStart n).WF := by
  rw [SlashingSpans.prunedTo]
  have hsum : (spans.prior.take n).sum ≤ spans.prior.sum :=
    (List.take_sublist n spans.prior).sum_le_sum (fun _ _ => Nat.zero_le _)
  have hlen : (spans.prior.take n).length ≤ spans.prior.length := List.length_take_le' _ _
  exact ⟨le_max_of_le_left (hsum.trans hwf.sum_le), hlen.trans hwf.length_le⟩

section Pruned

variable {windowStart n : Nat}

/-- After pruning, an era keeps its span or has none. -/
theorem spanOf_pruned_cases (hwf : spans.WF) (hpos : 0 < n → windowStart < spans.lastStart)
    (era : Nat) :
    (spans.prunedTo windowStart n).spanOf era = spans.spanOf era ∨
      (spans.prunedTo windowStart n).spanOf era = none := by
  rw [spanOf_pruned hpos era]
  by_cases hle : max spans.lastStart windowStart ≤ era
  · rw [if_pos hle, spanOf_of_le (le_of_max_le_left hle)]
    exact .inl rfl
  · rw [if_neg hle]
    by_cases hlast : spans.lastStart ≤ era
    · -- between the ongoing span's old and new start: no prior span holds the era
      refine .inr (Option.map_eq_none_iff.mpr (List.find?_eq_none.mpr fun span hmem hera => ?_))
      have hbelow := (mem_priorSpans hwf.sum_le hwf.length_le span
        (List.mem_of_mem_take hmem)).2.2 era hera
      omega
    · rw [spanOf_of_lt (by omega)]
      cases hfind : ((priorSpans spans.lastStart spans.spanIndex spans.prior).take n).find?
          fun span => span.containsEra era with
      | none => exact .inr rfl
      | some span =>
        refine .inl ?_
        rw [← List.take_append_drop n (priorSpans _ _ _), List.find?_append, hfind]
        rfl

/-- An era that loses a prior span loses it with the whole span, whose index is among those
`prune` returns. -/
theorem spanOf_pruned_none (hwf : spans.WF) (hn : n ≤ spans.prior.length)
    (hpos : 0 < n → windowStart < spans.lastStart) {era j : Nat}
    (hspan : spans.spanOf era = some j)
    (hnone : (spans.prunedTo windowStart n).spanOf era = none) :
    j = spans.spanIndex ∨
      (n < spans.prior.length ∧ spans.spanIndex - spans.prior.length ≤ j ∧ j < spans.spanIndex - n) := by
  by_cases hlast : spans.lastStart ≤ era
  · rw [spanOf_of_le hlast, Option.some.injEq] at hspan
    exact .inl hspan.symm
  · right
    rw [spanOf_of_lt (by omega)] at hspan
    rw [spanOf_pruned hpos, if_neg (by omega), Option.map_eq_none_iff] at hnone
    obtain ⟨span, hfind, rfl⟩ := Option.map_eq_some_iff.mp hspan
    -- the span is found past the first `n`
    rw [priorSpans_drop _ _ n, List.find?_append, hnone, Option.none_or] at hfind
    have hmem := List.mem_of_find?_eq_some hfind
    have hsum : (spans.prior.drop n).sum ≤ spans.lastStart - (spans.prior.take n).sum := by
      have := hwf.sum_le
      rw [← List.take_append_drop n spans.prior, List.sum_append] at this
      omega
    have hlen : (spans.prior.drop n).length ≤ spans.spanIndex - n := by
      have := hwf.length_le
      rw [List.length_drop]
      omega
    obtain ⟨hlt, hge, -⟩ := mem_priorSpans hsum hlen span hmem
    have hne : spans.prior.drop n ≠ [] := by
      intro hempty
      rw [hempty, priorSpans] at hmem
      exact List.not_mem_nil hmem
    have hdrop : n < spans.prior.length := by
      by_contra hge'
      exact hne (List.drop_eq_nil_of_le (by omega))
    rw [List.length_drop] at hge
    refine ⟨hdrop, by omega, hlt⟩

/-- The spans left by `prune` have the index of the ongoing span, or one from the spans'
index less the number of prior spans kept. -/
theorem spanOf_pruned_some (hn : n ≤ spans.prior.length)
    (hwf : spans.WF) (hpos : 0 < n → windowStart < spans.lastStart) {era j : Nat}
    (hsome : (spans.prunedTo windowStart n).spanOf era = some j) :
    j = spans.spanIndex ∨ spans.spanIndex - n ≤ j := by
  rw [spanOf_pruned hpos] at hsome
  split at hsome
  · exact .inl (Option.some.inj hsome).symm
  · obtain ⟨span, hfind, rfl⟩ := Option.map_eq_some_iff.mp hsome
    have hmem := List.mem_of_find?_eq_some hfind
    rw [← priorSpans_take] at hmem
    have hsum : (spans.prior.take n).sum ≤ spans.lastStart :=
      ((List.take_sublist n spans.prior).sum_le_sum (fun _ _ => Nat.zero_le _)).trans hwf.sum_le
    have hlen : (spans.prior.take n).length ≤ spans.spanIndex :=
      (List.length_take_le' _ _).trans hwf.length_le
    have hge := (mem_priorSpans hsum hlen span hmem).2.1
    rw [List.length_take, min_eq_left hn] at hge
    exact .inr hge

end Pruned

/-! ## The spans as a list

`iter` lists the spans back in time with no gap (`Follows`), so they cover the eras from
`earliest` on, each once. `end_span` closes the ongoing span and `prune` drops a suffix.
-/

def Follows (later earlier : SlashingSpan) : Prop :=
  earlier.index + 1 = later.index ∧ earlier.length.map (earlier.start + ·) = some later.start

def earliest (spans : SlashingSpans) : SlashingSpan :=
  spans.iter.getLast (List.cons_ne_nil _ _)

theorem isChain_priorSpans : ∀ {lastStart index : Nat} {prior : List Nat} (length : Option Nat),
    prior.sum ≤ lastStart → prior.length ≤ index →
      ((⟨index, lastStart, length⟩ : SlashingSpan) :: priorSpans lastStart index prior).IsChain
        Follows
  | _, _, [], _, _, _ => List.IsChain.singleton _
  | lastStart, index, len :: prior, length, hsum, hlen => by
    rw [List.sum_cons] at hsum
    rw [List.length_cons] at hlen
    rw [priorSpans, List.isChain_cons_cons]
    refine ⟨⟨by dsimp only; omega, by simp only [Option.map_some, Option.some.injEq]; omega⟩, ?_⟩
    exact isChain_priorSpans (some len) (by omega) (by omega)

theorem isChain_iter (hwf : spans.WF) : spans.iter.IsChain Follows :=
  isChain_priorSpans none hwf.sum_le hwf.length_le

/-- The prior spans cover the eras from the first one's start to the ongoing span's start. -/
theorem exists_mem_priorSpans_iff : ∀ {lastStart index : Nat} {prior : List Nat},
    prior.sum ≤ lastStart → ∀ era,
      (∃ span ∈ priorSpans lastStart index prior, span.containsEra era = true) ↔
        lastStart - prior.sum ≤ era ∧ era < lastStart
  | _, _, [], _, era => by simp [priorSpans]
  | lastStart, index, len :: prior, hsum, era => by
    rw [List.sum_cons] at hsum
    have ih := @exists_mem_priorSpans_iff (lastStart - len) (index - 1) prior (by omega) era
    rw [priorSpans]
    simp only [List.mem_cons, exists_eq_or_imp]
    rw [ih, containsEra_some, List.sum_cons]
    simp only [Bool.and_eq_true, decide_eq_true_eq]
    omega

theorem getLast_priorSpans : ∀ (span : SlashingSpan) (prior : List Nat),
    ((span :: priorSpans span.start span.index prior).getLast (List.cons_ne_nil _ _)).index =
        span.index - prior.length ∧
      ((span :: priorSpans span.start span.index prior).getLast (List.cons_ne_nil _ _)).start =
        span.start - prior.sum
  | span, [] => by simp [priorSpans]
  | span, len :: prior => by
    obtain ⟨hindex, hstart⟩ := getLast_priorSpans ⟨span.index - 1, span.start - len, some len⟩ prior
    rw [priorSpans, List.getLast_cons (List.cons_ne_nil _ _)]
    rw [List.length_cons, List.sum_cons]
    exact ⟨by rw [hindex, Nat.sub_sub, Nat.add_comm 1], by rw [hstart, Nat.sub_sub]⟩

theorem earliest_index (spans : SlashingSpans) :
    spans.earliest.index = spans.spanIndex - spans.prior.length :=
  (getLast_priorSpans ⟨spans.spanIndex, spans.lastStart, none⟩ spans.prior).1

theorem earliest_start (spans : SlashingSpans) :
    spans.earliest.start = spans.lastStart - spans.prior.sum :=
  (getLast_priorSpans ⟨spans.spanIndex, spans.lastStart, none⟩ spans.prior).2

/-- The spans cover the eras from the earliest one's start on. -/
theorem exists_mem_iter_iff (hwf : spans.WF) (era : Nat) :
    (∃ span ∈ spans.iter, span.containsEra era = true) ↔ spans.earliest.start ≤ era := by
  rw [iter]
  simp only [List.mem_cons, exists_eq_or_imp]
  rw [exists_mem_priorSpans_iff hwf.sum_le era, containsEra_none, earliest_start,
    decide_eq_true_eq]
  omega

/-- An era from the earliest start on is in one span of `iter` and no other. -/
theorem existsUnique_mem_iter (hwf : spans.WF)
    (h : spans.earliest.start ≤ era) :
    ∃! span, span ∈ spans.iter ∧ span.containsEra era = true := by
  obtain ⟨span, hmem, hera⟩ := (exists_mem_iter_iff hwf era).mpr h
  refine ⟨span, ⟨hmem, hera⟩, fun other ⟨hother, hotherEra⟩ => ?_⟩
  -- `find?` returns each of the two spans
  have hfind := find?_of_pairwise (iter_pairwise hwf) hmem hera
  rw [find?_of_pairwise (iter_pairwise hwf) hother hotherEra] at hfind
  exact Option.some.inj hfind

/-! ### `prune` on the list -/

/-- `prune` drops exactly the prior spans that ended by the window start, and moves the ongoing
span's start up to the window. -/
theorem iter_prune (hwf : spans.WF) (windowStart : Nat) :
    (spans.prune windowStart).1.iter =
      ⟨spans.spanIndex, max spans.lastStart windowStart, none⟩ ::
        spans.iter.tail.filter fun span => !span.endedBy windowStart := by
  rw [prune_eq_findIdx, iter_prunedTo (lt_lastStart_of_findIdx_pos hwf), iter, List.tail_cons,
    take_findIdx_priorSpans windowStart hwf.sum_le]

theorem prune_snd_eq_none_iff (spans : SlashingSpans) (windowStart : Nat) :
    (spans.prune windowStart).2 = none ↔
      ∀ span ∈ spans.iter.tail, span.endedBy windowStart = false := by
  rw [prune_eq_findIdx, Option.map_eq_none_iff, List.findIdx?_eq_none_iff]

/-- What `prune` returns: the indices of the earliest span before and after. -/
theorem prune_snd_eq_some {windowStart : Nat} {range : Nat × Nat}
    (h : (spans.prune windowStart).2 = some range) :
    range = (spans.earliest.index, (spans.prune windowStart).1.earliest.index) := by
  rw [prune_eq_findIdx] at h ⊢
  obtain ⟨o, hidx, rfl⟩ := Option.map_eq_some_iff.mp h
  obtain ⟨hlt, hfind⟩ := List.findIdx?_eq_some_iff_findIdx_eq.mp hidx
  rw [length_iter_tail] at hlt
  rw [earliest_index, earliest_index, hfind]
  simp [prunedTo, List.length_take, show min o spans.prior.length = o by omega]

/-- Every span of `iter` starts and ends by the ongoing span's start: neither `contains_era` nor the
test of `prune` adds past it. -/
theorem iter_fits (hwf : spans.WF) : ∀ span ∈ spans.iter,
    span.start ≤ spans.lastStart ∧ ∀ len ∈ span.length, span.start + len ≤ spans.lastStart := by
  intro span hmem
  rw [iter, List.mem_cons] at hmem
  rcases hmem with rfl | hmem
  · exact ⟨le_rfl, by simp⟩
  · obtain ⟨len, hlen, hend⟩ := end_le_of_mem_priorSpans hwf.sum_le span hmem
    refine ⟨by omega, fun l hl => ?_⟩
    rw [hlen, Option.mem_def, Option.some.injEq] at hl
    omega

end Spans

/-! ## Reachable spans -/

/-- The spans of a stash: from `new`, through any calls of `end_span` that return and of `prune`,
with window starts that are `u32`s. -/
inductive Reachable : SlashingSpans → Prop
  | new {windowStart : Nat} : windowStart ≤ Unsigned.maxValue 32 → Reachable (new windowStart)
  | endSpan {spans spans' : SlashingSpans} {now : Nat} {ended : Bool} :
      Reachable spans → spans.endSpan now = some (spans', ended) → Reachable spans'
  | prune {spans : SlashingSpans} {windowStart : Nat} : windowStart ≤ Unsigned.maxValue 32 →
      Reachable spans → Reachable (spans.prune windowStart).1

/-- The ongoing span starts at a `u32`, and the span index is at most that start: each span that
`end_span` starts begins at least one era after the last. -/
structure InRange (spans : SlashingSpans) : Prop where
  index_le : spans.spanIndex ≤ spans.lastStart
  start_le : spans.lastStart ≤ Unsigned.maxValue 32

section Reachable

variable {spans : SlashingSpans}

theorem Reachable.wf (h : Reachable spans) : spans.WF := by
  induction h with
  | new _ => exact new_wf _
  | endSpan _ hend ih => exact ih.endSpan hend
  | prune _ _ ih =>
    rw [prune_eq_findIdx]
    exact ih.prunedTo _ _

theorem Reachable.inRange (h : Reachable spans) : spans.InRange := by
  induction h with
  | new hw => exact ⟨Nat.zero_le _, hw⟩
  | endSpan _ hend ih =>
    obtain ⟨hnow, ⟨-, rfl, -⟩ | ⟨hle, -, rfl, -⟩⟩ := endSpan_eq_some hend
    · exact ih
    · have := ih.index_le
      exact ⟨by simp only [closedAt]; omega, by simp only [closedAt]; omega⟩
  | prune hw _ ih =>
    rw [prune_eq_findIdx]
    exact ⟨le_max_of_le_left ih.index_le, max_le ih.start_le hw⟩

/-- On reachable spans `end_span` panics only where `now + 1` leaves the `u32`: the new span index
is at most `now + 1`. -/
theorem Reachable.endSpan_eq (h : Reachable spans) {now : Nat} (hnow : now < Unsigned.maxValue 32) :
    spans.endSpan now =
      some (if spans.lastStart < now + 1 then spans.closedAt now else spans,
        decide (spans.lastStart < now + 1)) := by
  by_cases hle : spans.lastStart ≤ now
  · have hindex := h.inRange.index_le
    rw [endSpan_of_le hle hnow (by omega), if_pos (by omega), decide_eq_true (by omega)]
  · rw [endSpan_of_lt (by omega) hnow, if_neg (by omega), decide_eq_false (by omega)]

end Reachable

/-- `iter` lists the spans back in time, covering each era once, and each of them adds up within a
`u32`; `end_span` closes the ongoing span, and panics where `now + 1` overflows; `prune` drops the
spans the window ended. -/
structure SpansSpec (spans : SlashingSpans) : Prop where
  chain : spans.iter.IsChain Follows
  covers : ∀ era, (∃ span ∈ spans.iter, span.containsEra era = true) ↔ spans.earliest.start ≤ era
  unique : ∀ era, spans.earliest.start ≤ era →
    ∃! span, span ∈ spans.iter ∧ span.containsEra era = true
  fits : ∀ span ∈ spans.iter, span.start ≤ Unsigned.maxValue 32 ∧
    ∀ len ∈ span.length, span.start + len ≤ Unsigned.maxValue 32
  endSpan : ∀ now < Unsigned.maxValue 32, ∃ spans',
    spans.endSpan now = some (spans', decide (spans.lastStart < now + 1)) ∧
      spans'.iter =
        if spans.lastStart < now + 1 then
          ⟨spans.spanIndex + 1, now + 1, none⟩ ::
            ⟨spans.spanIndex, spans.lastStart, some (now + 1 - spans.lastStart)⟩ :: spans.iter.tail
        else spans.iter
  overflow : ∀ now, Unsigned.maxValue 32 ≤ now → spans.endSpan now = none
  prune : ∀ windowStart, (spans.prune windowStart).1.iter =
    ⟨spans.spanIndex, max spans.lastStart windowStart, none⟩ ::
      spans.iter.tail.filter fun span => !span.endedBy windowStart
  prune_none : ∀ windowStart, (spans.prune windowStart).2 = none ↔
    ∀ span ∈ spans.iter.tail, span.endedBy windowStart = false
  prune_some : ∀ windowStart range, (spans.prune windowStart).2 = some range →
    range = (spans.earliest.index, (spans.prune windowStart).1.earliest.index)
  prune_start : ∀ windowStart, windowStart ≤ (spans.prune windowStart).1.lastStart

theorem reachable_spans_partition_eras {spans : SlashingSpans} (hreach : Reachable spans) :
    SpansSpec spans := by
  have hwf := hreach.wf
  have hstart := hreach.inRange.start_le
  refine ⟨isChain_iter hwf, exists_mem_iter_iff hwf, fun era => existsUnique_mem_iter hwf,
    fun span hmem => ?_, fun now hnow => ?_, fun now hnow => endSpan_of_max_le hnow,
    iter_prune hwf, prune_snd_eq_none_iff spans, fun windowStart range => prune_snd_eq_some,
    fun windowStart => ?_⟩
  · obtain ⟨hle, hend⟩ := iter_fits hwf span hmem
    exact ⟨hle.trans hstart, fun len hlen => (hend len hlen).trans hstart⟩
  · refine ⟨_, hreach.endSpan_eq hnow, ?_⟩
    split
    · exact iter_closedAt (by omega)
    · rfl
  · rw [prune_eq_findIdx]
    exact le_max_right _ _

theorem spans_after_prune_partition_eras :
    Reachable (((new 5).closedAt 7).prune 6).1 ∧ SpansSpec (((new 5).closedAt 7).prune 6).1 :=
  have hreach : Reachable (((new 5).closedAt 7).prune 6).1 :=
    .prune (by decide) (.endSpan (.new (by decide)) (endSpan_of_le (by decide) (by decide)
      (by decide)))
  ⟨hreach, reachable_spans_partition_eras hreach⟩

/-- A stash never slashed, and `end_span(u32::MAX)`: the ongoing span starts before `now + 1`, but
`now + 1` overflows the `u32`, and the call panics. -/
theorem endSpan_overflows_at_u32_max :
    Reachable (new 0) ∧ (new 0).lastStart < Unsigned.maxValue 32 + 1 ∧
      (new 0).endSpan (Unsigned.maxValue 32) = none :=
  ⟨.new (by decide), by decide, endSpan_of_max_le le_rfl⟩

end SlashingSpans

end Substrate.Staking.Slashing
