import Substrate.MessageQueue.Pallet

/-! # Reaping pages

`do_reap_page` removes a page behind `begin` that is empty or that `cullable` lets go. The closure
computes in `u32`: below `MaxStale = 2¹⁶` it reaps exactly by its rule, and from there on
`max_stale * max_stale` overflows on every call that reaches it.
-/

namespace Substrate.MessageQueue

variable {Origin : Type}

def BookState.stalePages (book : BookState Origin) : Nat :=
  book.count - min (book.end - book.begin) book.count

/-- `do_reap_page`'s culling rule over unbounded integers: more than `maxStale` stale pages, and the
page deeper behind `begin` than `max(maxStale² / (stale − maxStale), maxStale)`. -/
def cullableUnbounded (maxStale : Nat) (book : BookState Origin) (pageIndex : Nat) : Bool :=
  decide (maxStale < book.stalePages ∧
    pageIndex < book.begin - max (maxStale * maxStale / (book.stalePages - maxStale)) maxStale)

section Reaped

variable [DecidableEq Origin]

/-- The storage that `do_reap_page` leaves when it reaps `page`: the page removed, the book
uncounting it, and `PageReaped` deposited. -/
def State.reaped (s : State Origin) (origin : Origin) (pageIndex : Nat) (page : Page) :
    State Origin :=
  ((s.removePage origin pageIndex).insertBook origin
    { (s.book origin) with
      count := (s.book origin).count - 1,
      messageCount := (s.book origin).messageCount - page.remaining,
      size := (s.book origin).size - page.remainingSize }).deposit (.pageReaped origin pageIndex)

variable (s : State Origin)

@[simp] theorem State.pages_reaped (origin origin' : Origin)
    (pageIndex pageIndex' : Nat) (page : Page) :
    (s.reaped origin pageIndex page).pages origin' pageIndex' =
      if origin' = origin ∧ pageIndex' = pageIndex then none else s.pages origin' pageIndex' := by
  simp [State.reaped]

@[simp] theorem State.book_reaped (origin origin' : Origin) (pageIndex : Nat)
    (page : Page) :
    (s.reaped origin pageIndex page).book origin' =
      if origin' = origin then
        { (s.book origin) with
          count := (s.book origin).count - 1,
          messageCount := (s.book origin).messageCount - page.remaining,
          size := (s.book origin).size - page.remainingSize }
      else s.book origin' := by
  simp [State.reaped]

@[simp] theorem State.events_reaped (origin : Origin) (pageIndex : Nat)
    (page : Page) :
    (s.reaped origin pageIndex page).events = s.events ++ [.pageReaped origin pageIndex] := rfl

end Reaped

section Cullable

variable {cfg : Config Origin} {book : BookState Origin} {pageIndex : Nat}

theorem stalePages_def (book : BookState Origin) :
    book.count - min (book.end - book.begin) book.count = book.stalePages := rfl

/-- Below `2¹⁶`, on a book whose page count is a `u32`, nothing in the closure overflows: it
computes the unbounded rule. -/
theorem cullable_of_lt (hmax : cfg.maxStale < 2 ^ 16)
    (hcount : book.count ≤ Unsigned.maxValue 32) :
    cullable cfg book pageIndex = some (cullableUnbounded cfg.maxStale book pageIndex) := by
  have hplus : cfg.maxStale + 1 ≤ Unsigned.maxValue 32 := by
    simp only [Unsigned.maxValue]
    omega
  have h16 : cfg.maxStale ≤ Unsigned.maxValue 16 := by
    simp only [Unsigned.maxValue]
    omega
  have hsquare : cfg.maxStale * cfg.maxStale ≤ Unsigned.maxValue 32 :=
    Unsigned.mul_le_maxValue_add h16 h16
  rw [cullable, Unsigned.checkedAdd_of_le hplus]
  simp only [Option.pure_def, Option.bind_eq_bind, Option.bind_some, stalePages_def]
  rcases Nat.lt_or_ge cfg.maxStale book.stalePages with hlt | hge
  · -- `overflow = stale - MaxStale`, at most the page count
    have hover : book.stalePages - (cfg.maxStale + 1) + 1 ≤ Unsigned.maxValue 32 := by
      have : book.stalePages ≤ book.count := Nat.sub_le _ _
      omega
    have hoverflow :
        book.stalePages - (cfg.maxStale + 1) + 1 = book.stalePages - cfg.maxStale := by
      omega
    rw [Unsigned.checkedSub_of_le (show cfg.maxStale + 1 ≤ book.stalePages from hlt)]
    dsimp only
    rw [Unsigned.checkedAdd_of_le hover, Unsigned.checkedMul_of_le hsquare]
    simp only [Option.bind_some, cullableUnbounded, hlt, true_and, hoverflow]
  · -- no more stale pages than `MaxStale`: `checked_sub` fails and nothing is culled
    have hnone : Unsigned.checkedSub book.stalePages (cfg.maxStale + 1) = none :=
      Unsigned.checkedSub_eq_none.mpr (Nat.lt_succ_of_le hge)
    rw [hnone]
    simp [cullableUnbounded, Nat.not_lt_of_le hge]

/-- `MaxStale = u32::MAX`: `max_stale + 1` overflows on every call. -/
theorem cullable_of_maxValue_le (hmax : Unsigned.maxValue 32 ≤ cfg.maxStale) :
    cullable cfg book pageIndex = none := by
  rw [cullable, Unsigned.checkedAdd_of_lt (by omega)]
  rfl

/-- From `2¹⁶` on, a book with more stale pages than `MaxStale` makes `max_stale * max_stale` leave
`u32`, if `max_stale + 1` has not already. -/
theorem cullable_of_two_pow_le (hmax : 2 ^ 16 ≤ cfg.maxStale)
    (hstale : cfg.maxStale < book.stalePages) : cullable cfg book pageIndex = none := by
  have hsquare : Unsigned.maxValue 32 < cfg.maxStale * cfg.maxStale := by
    have hmul : 2 ^ 16 * 2 ^ 16 ≤ cfg.maxStale * cfg.maxStale := Nat.mul_le_mul hmax hmax
    simp only [Unsigned.maxValue]
    omega
  rcases Nat.lt_or_ge (Unsigned.maxValue 32) (cfg.maxStale + 1) with hplus | hplus
  · exact cullable_of_maxValue_le (by omega)
  · rw [cullable, Unsigned.checkedAdd_of_le hplus]
    simp only [Option.pure_def, Option.bind_eq_bind, Option.bind_some, stalePages_def]
    rw [Unsigned.checkedSub_of_le (show cfg.maxStale + 1 ≤ book.stalePages from hstale)]
    dsimp only
    rw [Unsigned.checkedMul_of_lt hsquare]
    -- the square fails whether or not `x + 1` does
    cases Unsigned.checkedAdd 32 (book.stalePages - (cfg.maxStale + 1)) 1 <;> rfl

end Cullable

section DoReapPage

variable [DecidableEq Origin] {cfg : Config Origin} {s s' : State Origin} {origin : Origin} {pageIndex : Nat}
  {page : Page}

theorem doReapPage_of_not_lt (h : ¬pageIndex < (s.book origin).begin) :
    doReapPage cfg s origin pageIndex = some (.error .notReapable, s) :=
  if_pos h

theorem doReapPage_of_pages_eq_none (h : pageIndex < (s.book origin).begin)
    (hpage : s.pages origin pageIndex = none) :
    doReapPage cfg s origin pageIndex = some (.error .noPage, s) := by
  rw [doReapPage, if_neg (not_not.mpr h)]
  simp only [hpage]

/-- On a stored page behind `begin`, `do_reap_page` reaps it where it is empty or where the
closure culls it, and panics where the closure does. -/
theorem doReapPage_of_pages_eq_some (h : pageIndex < (s.book origin).begin)
    (hpage : s.pages origin pageIndex = some page) :
    doReapPage cfg s origin pageIndex =
      (if page.remaining = 0 then some true else cullable cfg (s.book origin) pageIndex).map
        fun reap => if reap then (.ok (), s.reaped origin pageIndex page)
          else (.error .notReapable, s) := by
  rw [doReapPage, if_neg (not_not.mpr h)]
  simp only [hpage, decide_eq_true_eq]
  congr 1
  funext reap
  cases reap <;> rfl

/-- A failed reap leaves the storage as it was. -/
theorem doReapPage_error {e : Error}
    (h : doReapPage cfg s origin pageIndex = some (.error e, s')) : s' = s := by
  by_cases hlt : pageIndex < (s.book origin).begin
  · cases hpage : s.pages origin pageIndex with
    | none =>
      rw [doReapPage_of_pages_eq_none hlt hpage] at h
      cases h
      rfl
    | some page =>
      rw [doReapPage_of_pages_eq_some hlt hpage] at h
      obtain ⟨reap, -, hreap⟩ := Option.map_eq_some_iff.mp h
      cases reap
      · cases hreap
        rfl
      · cases hreap
  · rw [doReapPage_of_not_lt hlt] at h
    cases h
    rfl

/-- A successful reap took a stored page behind `begin`, empty or culled, and left
`State.reaped`. -/
theorem doReapPage_ok (h : doReapPage cfg s origin pageIndex = some (.ok (), s')) :
    ∃ page, s.pages origin pageIndex = some page ∧ pageIndex < (s.book origin).begin ∧
      (page.remaining = 0 ∨ cullable cfg (s.book origin) pageIndex = some true) ∧
      s' = s.reaped origin pageIndex page := by
  by_cases hlt : pageIndex < (s.book origin).begin
  · cases hpage : s.pages origin pageIndex with
    | none =>
      rw [doReapPage_of_pages_eq_none hlt hpage] at h
      cases h
    | some page =>
      rw [doReapPage_of_pages_eq_some hlt hpage] at h
      obtain ⟨reap, hdecide, hreap⟩ := Option.map_eq_some_iff.mp h
      cases reap
      · cases hreap
      · cases hreap
        refine ⟨page, rfl, hlt, ?_, rfl⟩
        by_cases hzero : page.remaining = 0
        · exact .inl hzero
        · rw [if_neg hzero] at hdecide
          exact .inr hdecide
  · rw [doReapPage_of_not_lt hlt] at h
    cases h

/-- A successful reap removes the page alone, and its book counts one page, its messages and their
size fewer, saturating at zero. -/
theorem doReapPage_ok_effect (h : doReapPage cfg s origin pageIndex = some (.ok (), s')) :
    ∃ page, s.pages origin pageIndex = some page ∧
      (∀ origin' pageIndex', s'.pages origin' pageIndex' =
        if origin' = origin ∧ pageIndex' = pageIndex then none else s.pages origin' pageIndex') ∧
      s'.book origin =
        { (s.book origin) with
          count := (s.book origin).count - 1,
          messageCount := (s.book origin).messageCount - page.remaining,
          size := (s.book origin).size - page.remainingSize } ∧
      ∀ origin', origin' ≠ origin → s'.book origin' = s.book origin' := by
  obtain ⟨page, hpage, -, -, rfl⟩ := doReapPage_ok h
  refine ⟨page, hpage, fun origin' pageIndex' => State.pages_reaped .., ?_, ?_⟩
  · simp
  · intro origin' hne
    simp [hne]

section SmallMaxStale

variable (hmax : cfg.maxStale < 2 ^ 16) (hcount : (s.book origin).count ≤ Unsigned.maxValue 32)
include hmax hcount

/-- While `MaxStale < 2¹⁶` and the page count is a `u32`, `do_reap_page` does not panic. -/
theorem doReapPage_isSome_of_lt : ∃ r, doReapPage cfg s origin pageIndex = some r := by
  by_cases hlt : pageIndex < (s.book origin).begin
  · cases hpage : s.pages origin pageIndex with
    | none => exact ⟨_, doReapPage_of_pages_eq_none hlt hpage⟩
    | some page =>
      rw [doReapPage_of_pages_eq_some hlt hpage, cullable_of_lt hmax hcount]
      by_cases hzero : page.remaining = 0 <;> simp [hzero]
  · exact ⟨_, doReapPage_of_not_lt hlt⟩

/-- While `MaxStale < 2¹⁶` and the page count is a `u32`, `do_reap_page` succeeds exactly on a
stored page behind `begin` that is empty or that the unbounded rule culls. -/
theorem doReapPage_ok_iff_of_lt :
    (∃ s', doReapPage cfg s origin pageIndex = some (.ok (), s')) ↔
      ∃ page, s.pages origin pageIndex = some page ∧ pageIndex < (s.book origin).begin ∧
        (page.remaining = 0 ∨ cullableUnbounded cfg.maxStale (s.book origin) pageIndex = true) := by
  constructor
  · rintro ⟨s', h⟩
    obtain ⟨page, hpage, hlt, hreap, -⟩ := doReapPage_ok h
    rw [cullable_of_lt hmax hcount, Option.some_inj] at hreap
    exact ⟨page, hpage, hlt, hreap⟩
  · rintro ⟨page, hpage, hlt, hreap⟩
    rw [doReapPage_of_pages_eq_some hlt hpage]
    rcases hreap with hzero | hcull
    · simp [hzero]
    · by_cases hzero : page.remaining = 0
      · simp [hzero]
      · simp [hzero, cullable_of_lt hmax hcount, hcull]

end SmallMaxStale

/-- From `MaxStale ≥ 2¹⁶` on, reaping a page with messages behind `begin` panics whenever the queue
holds more stale pages than `MaxStale`. -/
theorem doReapPage_of_two_pow_le (hmax : 2 ^ 16 ≤ cfg.maxStale)
    (hstale : cfg.maxStale < (s.book origin).stalePages) (hlt : pageIndex < (s.book origin).begin)
    (hpage : s.pages origin pageIndex = some page) (hleft : page.remaining ≠ 0) :
    doReapPage cfg s origin pageIndex = none := by
  rw [doReapPage_of_pages_eq_some hlt hpage, if_neg hleft, cullable_of_two_pow_le hmax hstale]
  rfl

/-- With `MaxStale = u32::MAX`, reaping any page with messages left behind `begin` panics on
`max_stale + 1`. -/
theorem doReapPage_of_maxValue_le (hmax : Unsigned.maxValue 32 ≤ cfg.maxStale)
    (hlt : pageIndex < (s.book origin).begin) (hpage : s.pages origin pageIndex = some page)
    (hleft : page.remaining ≠ 0) : doReapPage cfg s origin pageIndex = none := by
  rw [doReapPage_of_pages_eq_some hlt hpage, if_neg hleft, cullable_of_maxValue_le hmax]
  rfl

end DoReapPage

/-- `do_reap_page` follows the culling rule while `MaxStale < 2¹⁶`; from `2¹⁶` the square of
`MaxStale` overflows `u32` and the call panics where the rule is consulted. -/
theorem doReapPage_follows_rule_only_below_two_pow_16 [DecidableEq Origin] :
    (∀ (cfg : Config Origin) (s : State Origin) (origin : Origin) (pageIndex : Nat),
      cfg.maxStale < 2 ^ 16 → (s.book origin).count ≤ Unsigned.maxValue 32 →
        (∃ r, doReapPage cfg s origin pageIndex = some r) ∧
        ((∃ s', doReapPage cfg s origin pageIndex = some (.ok (), s')) ↔
          ∃ page, s.pages origin pageIndex = some page ∧ pageIndex < (s.book origin).begin ∧
            (page.remaining = 0 ∨
              cullableUnbounded cfg.maxStale (s.book origin) pageIndex = true))) ∧
    (∀ (cfg : Config Origin) (s s' : State Origin) (origin : Origin) (pageIndex : Nat),
      doReapPage cfg s origin pageIndex = some (.ok (), s') →
        ∃ page, s.pages origin pageIndex = some page ∧
          (∀ origin' pageIndex', s'.pages origin' pageIndex' =
            if origin' = origin ∧ pageIndex' = pageIndex then none
            else s.pages origin' pageIndex') ∧
          s'.book origin =
            { (s.book origin) with
              count := (s.book origin).count - 1,
              messageCount := (s.book origin).messageCount - page.remaining,
              size := (s.book origin).size - page.remainingSize } ∧
          ∀ origin', origin' ≠ origin → s'.book origin' = s.book origin') ∧
    (∀ (cfg : Config Origin) (s : State Origin) (origin : Origin) (pageIndex : Nat) (page : Page),
      2 ^ 16 ≤ cfg.maxStale → cfg.maxStale < (s.book origin).stalePages →
        pageIndex < (s.book origin).begin → s.pages origin pageIndex = some page →
          page.remaining ≠ 0 → doReapPage cfg s origin pageIndex = none) ∧
    (∀ (cfg : Config Origin) (s : State Origin) (origin : Origin) (pageIndex : Nat) (page : Page),
      Unsigned.maxValue 32 ≤ cfg.maxStale → pageIndex < (s.book origin).begin →
        s.pages origin pageIndex = some page → page.remaining ≠ 0 →
          doReapPage cfg s origin pageIndex = none) := by
  refine ⟨fun cfg s origin pageIndex hmax hcount => ?_, fun cfg s s' origin pageIndex h => ?_,
    fun cfg s origin pageIndex page hmax hstale hlt hpage hleft => ?_,
    fun cfg s origin pageIndex page hmax hlt hpage hleft => ?_⟩
  · exact ⟨doReapPage_isSome_of_lt hmax hcount, doReapPage_ok_iff_of_lt hmax hcount⟩
  · exact doReapPage_ok_effect h
  · exact doReapPage_of_two_pow_le hmax hstale hlt hpage hleft
  · exact doReapPage_of_maxValue_le hmax hlt hpage hleft

def staleQueueConfig : Config Unit where
  weights := WeightInfo.zero
  headerLen := 5
  headerLen_pos := by decide
  heapSize := 64
  maxStale := 65536
  isPaused _ := false
  blake2256 message := message

def staleQueueState : State Unit where
  bookStateFor _ := some ⟨70000, 70000, 65537, none, 1, 1⟩
  serviceHead := none
  pages _ index := if index = 1000 then some (Page.fromMessage [7]) else none
  events := []

/-- At `MaxStale = 2¹⁶` the rule keeps page `1000`, whose watermark `70000 - 2³²` saturates to `0`,
while the closure panics on the square. -/
theorem stale_queue_reap_panics_at_two_pow_16 :
    cullableUnbounded 65536 (staleQueueState.book ()) 1000 = false ∧
      doReapPage staleQueueConfig staleQueueState () 1000 = none :=
  ⟨by decide, doReapPage_follows_rule_only_below_two_pow_16.2.2.1 staleQueueConfig staleQueueState ()
    1000 (Page.fromMessage [7]) (by decide) (by decide) (by decide) rfl (by decide)⟩

end Substrate.MessageQueue
