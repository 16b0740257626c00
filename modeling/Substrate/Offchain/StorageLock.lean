import Substrate.Lib.Unsigned

/-! # The persistent lock of off-chain workers

`src/primitives/runtime/src/offchain/storage_lock.rs`: a deadline written by
`StorageValueRef::mutate`, a read, a closure and a compare-and-set. A step of `System` is one host
call of one worker.
-/

namespace Substrate.Offchain

/-- The clocks a lockable reads: `offchain::timestamp()`, a `u64` of milliseconds, and the
current block number. -/
structure Clock where
  timestamp : Nat
  blockNumber : Nat
  timestamp_le : timestamp ≤ Unsigned.maxValue 64

/-- Clocks only move forward. -/
def Clock.le (c c' : Clock) : Prop := c.timestamp ≤ c'.timestamp ∧ c.blockNumber ≤ c'.blockNumber

instance : DecidableRel Clock.le := fun _ _ => inferInstanceAs (Decidable (_ ∧ _))

def Clock.addTime (c : Clock) (duration : Nat) : Nat :=
  Unsigned.saturatingAdd 64 c.timestamp duration

theorem Clock.le_addTime (c : Clock) (duration : Nat) : c.timestamp ≤ c.addTime duration :=
  le_min (Nat.le_add_right _ _) c.timestamp_le

/-- `Lockable`: `deadline` is the method of each worker's lockable value, `hasExpired` the
associated function of the type. -/
structure Lockable (Worker Deadline : Type) where
  deadline : Worker → Clock → Deadline
  hasExpired : Clock → Deadline → Bool

/-- `Time`: the deadline `expiration_duration` after now, expired once the time is past it. -/
def Lockable.time {Worker : Type} (expirationDuration : Worker → Nat) : Lockable Worker Nat where
  deadline w c := c.addTime (expirationDuration w)
  hasExpired c deadline := decide (deadline < c.timestamp)

structure BlockAndTimeDeadline where
  blockNumber : Nat
  timestamp : Nat
  deriving DecidableEq, Repr

/-- `BlockAndTime`: expired once both the block number and the time are past the deadline.
Block numbers add without bound. -/
def Lockable.blockAndTime {Worker : Type} (expirationBlockNumberOffset expirationDuration : Worker → Nat) :
    Lockable Worker BlockAndTimeDeadline where
  deadline w c :=
    { timestamp := c.addTime (expirationDuration w),
      blockNumber := c.blockNumber + expirationBlockNumberOffset w }
  hasExpired c deadline :=
    decide (deadline.timestamp < c.timestamp ∧ deadline.blockNumber < c.blockNumber)

/-- What the lock relies on of a lockable: a deadline taken now has not expired, and an expired
deadline stays expired while the clocks move on. -/
structure Lockable.Lawful {Worker Deadline : Type} (L : Lockable Worker Deadline) : Prop where
  deadline_not_expired : ∀ w c, L.hasExpired c (L.deadline w c) = false
  expired_of_le : ∀ {c c' : Clock} {d : Deadline}, c.le c' → L.hasExpired c d = true →
    L.hasExpired c' d = true

theorem Lockable.time_lawful {Worker : Type} (expirationDuration : Worker → Nat) :
    (Lockable.time expirationDuration).Lawful where
  deadline_not_expired w c := by
    have := c.le_addTime (expirationDuration w)
    simp only [Lockable.time, decide_eq_false_iff_not, Nat.not_lt]
    exact this
  expired_of_le := by
    intro c c' d hle hexp
    simp only [Lockable.time, decide_eq_true_eq] at hexp ⊢
    exact Nat.lt_of_lt_of_le hexp hle.1

theorem Lockable.blockAndTime_lawful {Worker : Type}
    (expirationBlockNumberOffset expirationDuration : Worker → Nat) :
    (Lockable.blockAndTime expirationBlockNumberOffset expirationDuration).Lawful where
  deadline_not_expired w c := by
    have := c.le_addTime (expirationDuration w)
    simp only [Lockable.blockAndTime, decide_eq_false_iff_not, not_and, Nat.not_lt]
    intro hlt
    omega
  expired_of_le := by
    intro c c' d hle hexp
    simp only [Lockable.blockAndTime, decide_eq_true_eq] at hexp ⊢
    exact ⟨Nat.lt_of_lt_of_le hexp.1 hle.1, Nat.lt_of_lt_of_le hexp.2 hle.2⟩

/-- The SCALE codec of the deadline: what was encoded decodes back. -/
structure Codec (Bytes Deadline : Type) where
  encode : Deadline → Bytes
  decode : Bytes → Option Deadline
  decode_encode : ∀ d, decode (encode d) = some d

inductive StorageRetrievalError where
  | undecodable
  deriving DecidableEq, Repr

variable {Worker Bytes Deadline : Type}

/-- What `StorageValueRef::mutate` hands its closure: the stored bytes decoded, and
`Err(Undecodable)` where they do not decode. -/
def decodeStored (codec : Codec Bytes Deadline) :
    Option Bytes → Except StorageRetrievalError (Option Deadline)
  | none => .ok none
  | some bytes =>
      match codec.decode bytes with
      | some deadline => .ok (some deadline)
      | none => .error .undecodable

@[simp] theorem decodeStored_encode (codec : Codec Bytes Deadline) (d : Deadline) :
    decodeStored codec (some (codec.encode d)) = .ok (some d) := by
  simp [decodeStored, codec.decode_encode]

variable (L : Lockable Worker Deadline) (codec : Codec Bytes Deadline)

/-- The closure of `try_lock_inner`: take a key holding no lock, an expired one, or bytes that do
not decode; otherwise fail with the deadline there. -/
def tryLockInner (now : Clock) (newDeadline : Deadline) :
    Except StorageRetrievalError (Option Deadline) → Except Deadline Deadline
  | .ok none => .ok newDeadline
  | .error _ => .ok newDeadline
  | .ok (some deadline) => if L.hasExpired now deadline then .ok newDeadline else .error deadline

/-- The closure of `extend_active_lock`: a new deadline where the key holds an unexpired one,
whoever wrote it. -/
def extendActiveLock (w : Worker) (now : Clock) :
    Except StorageRetrievalError (Option Deadline) → Except Unit Deadline
  | .ok (some deadline) => if !L.hasExpired now deadline then .ok (L.deadline w now) else .error ()
  | _ => .error ()

/-! ## The closures -/

/-- Bytes a `try_lock` that read them may overwrite, judged at clock `c`: nothing, bytes that do
not decode, or an expired deadline. -/
def Takeable (c : Clock) (read : Option Bytes) : Prop :=
  ∀ bytes d, read = some bytes → codec.decode bytes = some d → L.hasExpired c d = true

section Closures

variable {L codec}

variable {c : Clock}

theorem tryLockInner_of_takeable {read : Option Bytes} {newDeadline : Deadline}
    (h : Takeable L codec c read) :
    tryLockInner L c newDeadline (decodeStored codec read) = .ok newDeadline := by
  cases read with
  | none => rfl
  | some bytes =>
    cases hdecode : codec.decode bytes with
    | none => simp [decodeStored, hdecode, tryLockInner]
    | some d => simp [decodeStored, hdecode, tryLockInner, h bytes d rfl hdecode]

/-- The closure of `try_lock_inner` succeeds only on a takeable key, with the new deadline. -/
theorem takeable_of_tryLockInner {read : Option Bytes} {newDeadline value : Deadline}
    (h : tryLockInner L c newDeadline (decodeStored codec read) = .ok value) :
    Takeable L codec c read ∧ value = newDeadline := by
  refine ⟨?_, ?_⟩
  · rintro bytes d rfl hdecode
    simp only [decodeStored, hdecode, tryLockInner] at h
    by_contra hexp
    simp [hexp] at h
  · cases read with
    | none => simpa [decodeStored, tryLockInner] using h.symm
    | some bytes =>
      cases hdecode : codec.decode bytes with
      | none => simpa [decodeStored, hdecode, tryLockInner] using h.symm
      | some d =>
        simp only [decodeStored, hdecode, tryLockInner] at h
        split at h
        · exact (Except.ok.inj h).symm
        · cases h

/-- `extend_active_lock` extends an unexpired deadline, whoever wrote it. -/
theorem extendActiveLock_encode {w : Worker} {d : Deadline}
    (h : L.hasExpired c d = false) :
    extendActiveLock L w c (decodeStored codec (some (codec.encode d))) = .ok (L.deadline w c) := by
  simp [extendActiveLock, h]

theorem Codec.encode_injective {d d' : Deadline} (h : codec.encode d = codec.encode d') : d = d' := by
  have := codec.decode_encode d
  rw [h, codec.decode_encode d'] at this
  exact (Option.some.inj this).symm

end Closures

/-- Where a worker is in its use of the lock. `own` is the deadline the worker itself last
wrote; it is what its guard's lock runs until. -/
inductive Phase (Bytes Deadline : Type) where
  /-- no guard, and no call in progress -/
  | idle
  /-- `try_lock` has taken `lockable.deadline()`; its `mutate` reads the key next -/
  | locking (newDeadline : Deadline)
  /-- the closure of `try_lock_inner` let the worker take the key, which it read as `read` -/
  | lockingSet (newDeadline : Deadline) (read : Option Bytes)
  /-- a guard -/
  | guarded (own : Deadline)
  /-- `extend_lock` of a guard: its closure gave `newDeadline` on the key read as `read` -/
  | extendingSet (own newDeadline : Deadline) (read : Option Bytes)

def Phase.own : Phase Bytes Deadline → Option Deadline
  | .guarded own => some own
  | .extendingSet own _ _ => some own
  | _ => none

@[simp] theorem Phase.own_idle : (Phase.idle : Phase Bytes Deadline).own = none := rfl

@[simp] theorem Phase.own_locking (newDeadline : Deadline) :
    (Phase.locking newDeadline : Phase Bytes Deadline).own = none := rfl

@[simp] theorem Phase.own_lockingSet (newDeadline : Deadline) (read : Option Bytes) :
    (Phase.lockingSet newDeadline read).own = none := rfl

@[simp] theorem Phase.own_guarded (own : Deadline) :
    (Phase.guarded own : Phase Bytes Deadline).own = some own := rfl

@[simp] theorem Phase.own_extendingSet (own newDeadline : Deadline) (read : Option Bytes) :
    (Phase.extendingSet own newDeadline read).own = some own := rfl

/-- The persistent key, the clocks, and the workers. -/
structure System (Worker Bytes Deadline : Type) where
  key : Option Bytes
  clock : Clock
  phase : Worker → Phase Bytes Deadline

/-- One host call of one worker, or the clocks moving on. -/
inductive Action (Worker : Type) where
  | tick (clock : Clock)
  /-- `try_lock` (or an attempt of `lock`) takes its new deadline -/
  | tryLock (w : Worker)
  /-- the read of `try_lock_inner`'s `mutate`, and its closure -/
  | read (w : Worker)
  /-- the compare-and-set of a `mutate` -/
  | compareAndSet (w : Worker)
  /-- the read of `extend_active_lock`'s `mutate`, and its closure -/
  | extendLock (w : Worker)
  /-- the guard is dropped: `unlock` clears the key -/
  | drop (w : Worker)
  | forget (w : Worker)

namespace System

variable [DecidableEq Worker]

def setPhase (s : System Worker Bytes Deadline) (w : Worker) (p : Phase Bytes Deadline) :
    System Worker Bytes Deadline :=
  { s with phase := Function.update s.phase w p }

variable (s : System Worker Bytes Deadline)

@[simp] theorem key_setPhase (w : Worker) (p : Phase Bytes Deadline) :
    (s.setPhase w p).key = s.key := rfl

@[simp] theorem clock_setPhase (w : Worker) (p : Phase Bytes Deadline) :
    (s.setPhase w p).clock = s.clock := rfl

@[simp] theorem phase_setPhase (w w' : Worker)
    (p : Phase Bytes Deadline) :
    (s.setPhase w p).phase w' = if w' = w then p else s.phase w' := by
  by_cases h : w' = w
  · subst h
    simp [setPhase]
  · simp [setPhase, h]

end System

def System.initial (key : Option Bytes) (clock : Clock) : System Worker Bytes Deadline :=
  ⟨key, clock, fun _ => .idle⟩

/-- Worker `w` holds a guard whose own deadline `d` has not expired. -/
def Live (s : System Worker Bytes Deadline) (w : Worker) (d : Deadline) : Prop :=
  (s.phase w).own = some d ∧ L.hasExpired s.clock d = false

/-- A guard is dropped or extended only while its own deadline runs. -/
def Timely (s : System Worker Bytes Deadline) : Action Worker → Prop
  | .drop w | .extendLock w => ∀ own, s.phase w = .guarded own → L.hasExpired s.clock own = false
  | _ => True

/-- What timely runs keep: at most one live guard, whose deadline the key holds, and each
pending compare-and-set read what its closure judged it by. -/
structure Exclusive (s : System Worker Bytes Deadline) : Prop where
  key_of_live : ∀ w d, Live L s w d → s.key = some (codec.encode d)
  live_unique : ∀ w w' d d', Live L s w d → Live L s w' d' → w = w'
  takeable_of_lockingSet : ∀ w value read, s.phase w = .lockingSet value read →
    Takeable L codec s.clock read
  read_of_extendingSet : ∀ w own value read, s.phase w = .extendingSet own value read →
    read = some (codec.encode own)

variable [DecidableEq Worker] [DecidableEq Bytes]

/-- One step: `none` where the action is not one the worker can take now. -/
def step (s : System Worker Bytes Deadline) : Action Worker → Option (System Worker Bytes Deadline)
  | .tick clock => if s.clock.le clock then some { s with clock } else none
  | .tryLock w =>
      match s.phase w with
      | .idle => some (s.setPhase w (.locking (L.deadline w s.clock)))
      | _ => none
  | .read w =>
      match s.phase w with
      | .locking newDeadline =>
          match tryLockInner L s.clock newDeadline (decodeStored codec s.key) with
          | .ok value => some (s.setPhase w (.lockingSet value s.key))
          -- `ValueFunctionFailed`: `try_lock` returns the holder's deadline, writing nothing
          | .error _ => some (s.setPhase w .idle)
      | _ => none
  | .compareAndSet w =>
      match s.phase w with
      | .lockingSet value read =>
          if s.key = read then some ({ s with key := some (codec.encode value) }.setPhase w (.guarded value))
          -- `ConcurrentModification`: `try_lock` fails
          else some (s.setPhase w .idle)
      | .extendingSet own value read =>
          if s.key = read then some ({ s with key := some (codec.encode value) }.setPhase w (.guarded value))
          -- the guard stays, with the lock it had
          else some (s.setPhase w (.guarded own))
      | _ => none
  | .extendLock w =>
      match s.phase w with
      | .guarded own =>
          match extendActiveLock L w s.clock (decodeStored codec s.key) with
          | .ok value => some (s.setPhase w (.extendingSet own value s.key))
          | .error () => some s
      | _ => none
  | .drop w =>
      match s.phase w with
      | .guarded _ => some ({ s with key := none }.setPhase w .idle)
      | _ => none
  | .forget w =>
      match s.phase w with
      | .guarded _ => some (s.setPhase w .idle)
      | _ => none

def run (s : System Worker Bytes Deadline) (actions : List (Action Worker)) :
    Option (System Worker Bytes Deadline) :=
  actions.foldlM (step L codec) s

def TimelyStep (s s' : System Worker Bytes Deadline) : Prop :=
  ∃ a, Timely L s a ∧ step L codec s a = some s'

variable (s : System Worker Bytes Deadline)

theorem run_nil : run L codec s [] = some s := rfl

theorem run_cons (a : Action Worker) (actions : List (Action Worker)) :
    run L codec s (a :: actions) = (step L codec s a).bind fun s' => run L codec s' actions := rfl

theorem run_append (actions actions' : List (Action Worker)) :
    run L codec s (actions ++ actions') = (run L codec s actions).bind fun s' => run L codec s' actions' :=
  List.foldlM_append


/-! ## Exclusion in timely runs -/

section Exclusion

variable {L codec} {s s' : System Worker Bytes Deadline}

omit [DecidableEq Worker] [DecidableEq Bytes] in
theorem Exclusive.of_idle (h : ∀ w, s.phase w = .idle) : Exclusive L codec s where
  key_of_live w d hlive := by
    have := hlive.1
    simp [h w] at this
  live_unique w _ d _ hlive := by
    have := hlive.1
    simp [h w] at this
  takeable_of_lockingSet w _ _ hw := by simp [h w] at hw
  read_of_extendingSet w _ _ _ hw := by simp [h w] at hw

omit [DecidableEq Worker] [DecidableEq Bytes] in
/-- Moving the clocks on only lets deadlines expire. -/
theorem Exclusive.tick (hL : L.Lawful) (hinv : Exclusive L codec s) {clock : Clock}
    (hle : s.clock.le clock) : Exclusive L codec { s with clock } := by
  have hlive : ∀ w d, Live L { s with clock } w d → Live L s w d := by
    rintro w d ⟨hown, hexp⟩
    refine ⟨hown, ?_⟩
    cases hold : L.hasExpired s.clock d
    · rfl
    · rw [hL.expired_of_le hle hold] at hexp
      cases hexp
  refine ⟨fun w d h => hinv.key_of_live w d (hlive w d h),
    fun w w' d d' h h' => hinv.live_unique w w' d d' (hlive w d h) (hlive w' d' h'),
    fun w value read hw bytes d hread hdecode => ?_, hinv.read_of_extendingSet⟩
  exact hL.expired_of_le hle (hinv.takeable_of_lockingSet w value read hw bytes d hread hdecode)

omit [DecidableEq Bytes] in
/-- A worker changing phase without writing the key keeps the invariant, if it gains no guard and
its pending compare-and-set read what its closure judged. -/
theorem Exclusive.setPhase (hinv : Exclusive L codec s) {w : Worker} {p : Phase Bytes Deadline}
    (hown : ∀ d, p.own = some d → (s.phase w).own = some d)
    (htake : ∀ value read, p = .lockingSet value read → Takeable L codec s.clock read)
    (hread : ∀ own value read, p = .extendingSet own value read →
      read = some (codec.encode own)) :
    Exclusive L codec (s.setPhase w p) := by
  have hlive : ∀ u d, Live L (s.setPhase w p) u d → Live L s u d := by
    rintro u d ⟨hu, hexp⟩
    by_cases huw : u = w
    · subst huw
      simp only [System.phase_setPhase, if_true] at hu
      exact ⟨hown d hu, hexp⟩
    · simp only [System.phase_setPhase, huw, if_false] at hu
      exact ⟨hu, hexp⟩
  refine ⟨fun u d h => hinv.key_of_live u d (hlive u d h),
    fun u u' d d' h h' => hinv.live_unique u u' d d' (hlive u d h) (hlive u' d' h'), ?_, ?_⟩
  · intro u value read hu
    by_cases huw : u = w
    · subst huw
      simp only [System.phase_setPhase, if_true] at hu
      exact htake value read hu
    · simp only [System.phase_setPhase, huw, if_false] at hu
      exact hinv.takeable_of_lockingSet u value read hu
  · intro u own value read hu
    by_cases huw : u = w
    · subst huw
      simp only [System.phase_setPhase, if_true] at hu
      exact hread own value read hu
    · simp only [System.phase_setPhase, huw, if_false] at hu
      exact hinv.read_of_extendingSet u own value read hu

omit [DecidableEq Bytes] in
/-- A worker writing the key while no other worker holds a live guard keeps the invariant, so
long as a live guard it ends with is what it wrote. -/
theorem Exclusive.write (hinv : Exclusive L codec s) {w : Worker} {key : Option Bytes}
    {p : Phase Bytes Deadline} (halone : ∀ u d, Live L s u d → u = w)
    (hkey : ∀ d, p.own = some d → L.hasExpired s.clock d = false → key = some (codec.encode d))
    (hlocking : ∀ value read, p ≠ .lockingSet value read)
    (hextending : ∀ own value read, p ≠ .extendingSet own value read) :
    Exclusive L codec ({ s with key }.setPhase w p) := by
  -- only `w` can be live afterwards: any other worker kept its phase and the clock
  have hlive : ∀ u d, Live L ({ s with key }.setPhase w p) u d →
      u = w ∧ p.own = some d ∧ L.hasExpired s.clock d = false := by
    rintro u d ⟨hu, hexp⟩
    by_cases huw : u = w
    · subst huw
      simp only [System.phase_setPhase, if_true] at hu
      exact ⟨rfl, hu, hexp⟩
    · simp only [System.phase_setPhase, huw, if_false] at hu
      exact absurd (halone u d ⟨hu, hexp⟩) huw
  refine ⟨fun u d h => ?_, fun u u' d d' h h' => ?_, fun u value read hu => ?_,
    fun u own value read hu => ?_⟩
  · obtain ⟨-, hown, hexp⟩ := hlive u d h
    exact hkey d hown hexp
  · rw [(hlive u d h).1, (hlive u' d' h').1]
  · by_cases huw : u = w
    · subst huw
      simp only [System.phase_setPhase, if_true] at hu
      exact absurd hu (hlocking value read)
    · simp only [System.phase_setPhase, huw, if_false] at hu
      exact hinv.takeable_of_lockingSet u value read hu
  · by_cases huw : u = w
    · subst huw
      simp only [System.phase_setPhase, if_true] at hu
      exact absurd hu (hextending own value read)
    · simp only [System.phase_setPhase, huw, if_false] at hu
      exact hinv.read_of_extendingSet u own value read hu

variable {a : Action Worker}

/-- Every timely step keeps the invariant. -/
theorem Exclusive.of_step (hL : L.Lawful) (hinv : Exclusive L codec s)
    (htimely : Timely L s a) (h : step L codec s a = some s') : Exclusive L codec s' := by
  cases a with
  | tick clock =>
    simp only [step] at h
    split at h
    next hle =>
      cases h
      exact hinv.tick hL hle
    next => cases h
  | tryLock w =>
    cases hw : s.phase w <;> simp only [step, hw, reduceCtorEq] at h
    cases h
    exact hinv.setPhase (by simp) (by simp) (by simp)
  | read w =>
    cases hw : s.phase w <;> simp only [step, hw, reduceCtorEq] at h
    split at h
    next value hvalue =>
      cases h
      have htake := (takeable_of_tryLockInner hvalue).1
      exact hinv.setPhase (by simp) (fun _ _ hp => by cases hp; exact htake)
        (by simp)
    next =>
      cases h
      exact hinv.setPhase (by simp) (by simp) (by simp)
  | compareAndSet w =>
    cases hw : s.phase w <;> simp only [step, hw, reduceCtorEq] at h
    · -- `try_lock`'s write: the key it read was takeable, so no guard was live
      rename_i value read
      split at h
      next hkey =>
        cases h
        refine hinv.write ?_ (fun d hd _ => by simp only [Phase.own_guarded, Option.some.injEq] at hd; rw [hd])
          (by simp) (by simp)
        intro u d hlive
        have hexp := hinv.takeable_of_lockingSet w value read hw _ d
          (hkey.symm.trans (hinv.key_of_live u d hlive)) (codec.decode_encode d)
        rw [hlive.2] at hexp
        cases hexp
      next =>
        cases h
        exact hinv.setPhase (by simp) (by simp) (by simp)
    · -- `extend_lock`'s write: the key still holds the worker's own deadline, so a live guard
      -- can only be its own
      rename_i own value read
      split at h
      next hkey =>
        cases h
        refine hinv.write ?_ (fun d hd _ => by simp only [Phase.own_guarded, Option.some.injEq] at hd; rw [hd])
          (by simp) (by simp)
        intro u d hlive
        have hd : d = own := Codec.encode_injective (Option.some.inj
          ((hinv.key_of_live u d hlive).symm.trans (hkey.trans (hinv.read_of_extendingSet w own value read hw))))
        subst hd
        exact hinv.live_unique u w d d hlive ⟨by simp [hw], hlive.2⟩
      next =>
        cases h
        exact hinv.setPhase (fun d hd => by simpa [hw] using hd) (by simp) (by simp)
  | extendLock w =>
    cases hw : s.phase w <;> simp only [step, hw, reduceCtorEq] at h
    rename_i own
    -- a timely extension: the guard is live, so the key holds its own deadline
    have hlive : Live L s w own := ⟨by simp [hw], htimely own hw⟩
    have hkey := hinv.key_of_live w own hlive
    rw [hkey, extendActiveLock_encode hlive.2] at h
    cases h
    exact hinv.setPhase (fun d hd => by simpa [hw] using hd) (by simp)
      (fun _ _ _ hp => by cases hp; rfl)
  | drop w =>
    cases hw : s.phase w <;> simp only [step, hw, reduceCtorEq] at h
    rename_i own
    cases h
    -- a timely drop: the guard is live, so it is the only live one
    have hlive : Live L s w own := ⟨by simp [hw], htimely own hw⟩
    exact hinv.write (fun u d hu => hinv.live_unique u w d own hu hlive) (by simp)
      (by simp) (by simp)
  | forget w =>
    cases hw : s.phase w <;> simp only [step, hw, reduceCtorEq] at h
    cases h
    exact hinv.setPhase (by simp) (by simp) (by simp)

/-- Timely runs from a state where no worker holds or seeks the lock keep the invariant. -/
theorem exclusive_of_timelyRun (hL : L.Lawful) {s₀ : System Worker Bytes Deadline}
    (hidle : ∀ w, s₀.phase w = .idle) (hrun : Relation.ReflTransGen (TimelyStep L codec) s₀ s) :
    Exclusive L codec s := by
  induction hrun with
  | refl => exact Exclusive.of_idle hidle
  | tail _ hstep ih =>
    obtain ⟨a, htimely, h⟩ := hstep
    exact ih.of_step hL htimely h

/-- A worker without a guard gains one only by the compare-and-set of its `try_lock`, on a key
still as it read it. -/
theorem gain_guard {u : Worker} (h : step L codec s a = some s')
    (hu : (s.phase u).own = none) (hu' : (s'.phase u).own ≠ none) :
    ∃ value read, a = .compareAndSet u ∧ s.phase u = .lockingSet value read ∧ s.key = read := by
  cases a with
  | tick clock =>
    simp only [step] at h
    split at h
    · cases h
      exact absurd hu hu'
    · cases h
  | tryLock w =>
    cases hw : s.phase w <;> simp only [step, hw, reduceCtorEq] at h
    cases h
    by_cases huw : u = w <;> simp [huw, hu] at hu'
  | read w =>
    cases hw : s.phase w <;> simp only [step, hw, reduceCtorEq] at h
    split at h <;> cases h <;> by_cases huw : u = w <;> simp [huw, hu] at hu'
  | compareAndSet w =>
    cases hw : s.phase w <;> simp only [step, hw, reduceCtorEq] at h
    · rename_i value read
      split at h <;> cases h <;> by_cases huw : u = w
      · subst huw
        exact ⟨value, read, rfl, hw, by assumption⟩
      all_goals simp [huw, hu] at hu'
    · split at h <;> cases h <;> by_cases huw : u = w
      all_goals simp_all
  | extendLock w =>
    cases hw : s.phase w <;> simp only [step, hw, reduceCtorEq] at h
    split at h <;> cases h <;> by_cases huw : u = w
    all_goals simp_all
  | drop w =>
    cases hw : s.phase w <;> simp only [step, hw, reduceCtorEq] at h
    cases h
    by_cases huw : u = w <;> simp_all
  | forget w =>
    cases hw : s.phase w <;> simp only [step, hw, reduceCtorEq] at h
    cases h
    by_cases huw : u = w <;> simp_all

/-- While a guard is live, no other worker gains one: the key holds the live deadline, which no
pending `try_lock` judged takeable. -/
theorem Exclusive.no_guard_beside_live (hinv : Exclusive L codec s) {w u : Worker} {d : Deadline}
    (hlive : Live L s w d) (h : step L codec s a = some s')
    (hu : (s.phase u).own = none) : (s'.phase u).own = none := by
  by_contra hu'
  obtain ⟨value, read, -, hread, hkey⟩ := gain_guard h hu hu'
  have hexp := hinv.takeable_of_lockingSet u value read hread _ d
    (hkey.symm.trans (hinv.key_of_live w d hlive)) (codec.decode_encode d)
  rw [hlive.2] at hexp
  cases hexp

end Exclusion

/-! ## A guard that outlives its deadline -/

section Takeover

variable {L codec} {s : System Worker Bytes Deadline}

/-- An idle worker takes a takeable key in three steps when nothing comes between them. -/
theorem run_tryLock {c : Worker} (hc : s.phase c = .idle) (htake : Takeable L codec s.clock s.key) :
    run L codec s [.tryLock c, .read c, .compareAndSet c] =
      some ({ s with key := some (codec.encode (L.deadline c s.clock)) }.setPhase c
        (.guarded (L.deadline c s.clock))) := by
  simp [run_cons, run_nil, step, hc, tryLockInner_of_takeable htake, System.setPhase]

/-- A guard's drop clears the key, whoever's deadline it holds. -/
theorem step_drop {a : Worker} {own : Deadline} (ha : s.phase a = .guarded own) :
    step L codec s (.drop a) = some ({ s with key := none }.setPhase a .idle) := by
  simp [step, ha]

/-- `extend_lock` writes a deadline of the guard's own over any unexpired deadline the key holds,
whoever wrote it. -/
theorem run_extendLock {a : Worker} {own d : Deadline} (ha : s.phase a = .guarded own)
    (hkey : s.key = some (codec.encode d)) (hd : L.hasExpired s.clock d = false) :
    run L codec s [.extendLock a, .compareAndSet a] =
      some ({ s with key := some (codec.encode (L.deadline a s.clock)) }.setPhase a
        (.guarded (L.deadline a s.clock))) := by
  simp [run_cons, run_nil, step, ha, hkey, extendActiveLock, hd, System.setPhase]

/-- Worker `a` takes the empty key at `c₀`; once its deadline has passed at `c₁`, worker `b`
takes the key over, while `a` still holds its guard. -/
theorem run_takeover {a b : Worker} (hab : a ≠ b) {c₀ c₁ : Clock} (hle : c₀.le c₁)
    (hexp : L.hasExpired c₁ (L.deadline a c₀) = true) :
    ∃ s, run L codec (System.initial none c₀)
        [.tryLock a, .read a, .compareAndSet a, .tick c₁, .tryLock b, .read b, .compareAndSet b] =
          some s ∧
      s.clock = c₁ ∧ s.key = some (codec.encode (L.deadline b c₁)) ∧
      s.phase a = .guarded (L.deadline a c₀) ∧ s.phase b = .guarded (L.deadline b c₁) ∧
      ∀ u, u ≠ a → u ≠ b → s.phase u = .idle := by
  -- `a` takes the empty key
  set s₁ : System Worker Bytes Deadline := { (System.initial none c₀ : System Worker Bytes Deadline) with
    key := some (codec.encode (L.deadline a c₀)) }.setPhase a (.guarded (L.deadline a c₀))
  have h₁ : run L codec (System.initial none c₀) [.tryLock a, .read a, .compareAndSet a] =
      some s₁ :=
    run_tryLock rfl (by rintro _ _ ⟨⟩)
  -- the clocks move on past `a`'s deadline
  have h₂ : step L codec s₁ (.tick c₁) = some { s₁ with clock := c₁ } := if_pos hle
  -- `b` takes the key, whose deadline has expired
  have hb : ({ s₁ with clock := c₁ } : System Worker Bytes Deadline).phase b = .idle := by
    simp [s₁, System.initial, Ne.symm hab]
  have htake : Takeable L codec c₁ (some (codec.encode (L.deadline a c₀))) := by
    rintro bytes d ⟨⟩ hdecode
    rw [codec.decode_encode, Option.some.injEq] at hdecode
    rw [← hdecode]
    exact hexp
  have hrun : run L codec (System.initial none c₀)
      [.tryLock a, .read a, .compareAndSet a, .tick c₁, .tryLock b, .read b, .compareAndSet b] =
        run L codec { s₁ with clock := c₁ } [.tryLock b, .read b, .compareAndSet b] := by
    rw [show [Action.tryLock a, .read a, .compareAndSet a, .tick c₁, .tryLock b, .read b,
        .compareAndSet b] = [.tryLock a, .read a, .compareAndSet a] ++ .tick c₁ ::
          [.tryLock b, .read b, .compareAndSet b] from rfl, run_append, h₁, Option.bind_some,
      run_cons, h₂, Option.bind_some]
  rw [hrun, run_tryLock hb htake]
  refine ⟨_, rfl, rfl, rfl, ?_, ?_, ?_⟩
  · simp [s₁, hab]
  · simp
  · intro u hua hub
    simp [s₁, System.initial, hua, hub]

end Takeover

/-- Where guards are dropped and extended only before their deadline, one guard at most is live and
the key holds its deadline; an expired guard whose key was taken over clears the new holder's
deadline, letting a third worker in. -/
theorem storageLock_excludes_only_while_guards_are_timely :
    (∀ (L : Lockable Worker Deadline) (codec : Codec Bytes Deadline), L.Lawful →
      ∀ s₀ s : System Worker Bytes Deadline, (∀ w, s₀.phase w = .idle) →
        Relation.ReflTransGen (TimelyStep L codec) s₀ s →
          (∀ w w' d d', Live L s w d → Live L s w' d' → w = w') ∧
          (∀ w d, Live L s w d → s.key = some (codec.encode d)) ∧
          (∀ w u d (a : Action Worker) s', Live L s w d → (s.phase u).own = none →
            step L codec s a = some s' → (s'.phase u).own = none)) ∧
    (∀ (L : Lockable Worker Deadline) (codec : Codec Bytes Deadline) (a b c : Worker)
      (c₀ c₁ : Clock), L.Lawful → a ≠ b → a ≠ c → b ≠ c → c₀.le c₁ →
        L.hasExpired c₁ (L.deadline a c₀) = true →
      ∃ s, run L codec (System.initial none c₀)
          [.tryLock a, .read a, .compareAndSet a, .tick c₁, .tryLock b, .read b,
            .compareAndSet b] = some s ∧
        Live L s b (L.deadline b c₁) ∧ s.key = some (codec.encode (L.deadline b c₁)) ∧
        (∃ s', step L codec s (.drop a) = some s' ∧ s'.key = none ∧
          Live L s' b (L.deadline b c₁) ∧
          ∃ s'', run L codec s' [.tryLock c, .read c, .compareAndSet c] = some s'' ∧
            Live L s'' b (L.deadline b c₁) ∧ Live L s'' c (L.deadline c c₁)) ∧
        (∃ s', run L codec s [.extendLock a, .compareAndSet a] = some s' ∧
          s'.key = some (codec.encode (L.deadline a c₁)) ∧
          Live L s' b (L.deadline b c₁) ∧ Live L s' a (L.deadline a c₁))) := by
  refine ⟨fun L codec hL s₀ s hidle hrun => ?_,
    fun L codec a b c c₀ c₁ hL hab hac hbc hle hexp => ?_⟩
  · have hinv := exclusive_of_timelyRun hL hidle hrun
    exact ⟨hinv.live_unique, hinv.key_of_live,
      fun w u d a s' hlive hu h => hinv.no_guard_beside_live hlive h hu⟩
  · obtain ⟨s, hrun, hclock, hkey, ha, hb, hidle⟩ := @run_takeover Worker Bytes Deadline L codec _ _ a b hab c₀ c₁ hle hexp
    subst hclock
    -- deadlines taken now have not expired
    have hfresh : ∀ w, L.hasExpired s.clock (L.deadline w s.clock) = false :=
      fun w => hL.deadline_not_expired w s.clock
    refine ⟨s, hrun, ⟨by simp [hb], hfresh b⟩, hkey,
      ⟨_, step_drop ha, rfl, ⟨by simp [hb, Ne.symm hab], hfresh b⟩, ?_⟩,
      ⟨_, run_extendLock ha hkey (hfresh b), rfl, ⟨by simp [hb, Ne.symm hab], hfresh b⟩,
        ⟨by simp, hfresh a⟩⟩⟩
    -- after the drop the key is empty, so `c` takes it at once
    have hc : ({ s with key := none }.setPhase a .idle : System Worker Bytes Deadline).phase c =
        .idle := by
      simp [hac.symm, hidle c (Ne.symm hac) (Ne.symm hbc)]
    exact ⟨_, run_tryLock hc (by rintro _ _ ⟨⟩),
      ⟨by simp [hb, Ne.symm hab, hbc], hfresh b⟩, ⟨by simp, hfresh c⟩⟩

/-- Three workers with the default `Time` lock of 20 s: `0` locks at 0 ms, `1` takes the key over at
20001 ms, and then `0`'s drop lets `2` in beside `1`, and `0`'s extension overwrites `1`'s
deadline. -/
theorem time_lock_takeover_lets_a_third_worker_in :
    let L : Lockable (Fin 3) Nat := Lockable.time fun _ => 20000
    let codec : Codec Nat Nat := ⟨id, some, fun _ => rfl⟩
    let c₀ : Clock := ⟨0, 0, by decide⟩
    let c₁ : Clock := ⟨20001, 0, by decide⟩
    L.Lawful ∧ c₀.le c₁ ∧ L.hasExpired c₁ (L.deadline 0 c₀) = true ∧
      ∃ s, run L codec (System.initial none c₀)
          [.tryLock 0, .read 0, .compareAndSet 0, .tick c₁, .tryLock 1, .read 1,
            .compareAndSet 1] = some s ∧
        Live L s 1 (L.deadline 1 c₁) ∧ s.key = some (codec.encode (L.deadline 1 c₁)) ∧
        (∃ s', step L codec s (.drop 0) = some s' ∧ s'.key = none ∧
          Live L s' 1 (L.deadline 1 c₁) ∧
          ∃ s'', run L codec s' [.tryLock 2, .read 2, .compareAndSet 2] = some s'' ∧
            Live L s'' 1 (L.deadline 1 c₁) ∧ Live L s'' 2 (L.deadline 2 c₁)) ∧
        (∃ s', run L codec s [.extendLock 0, .compareAndSet 0] = some s' ∧
          s'.key = some (codec.encode (L.deadline 0 c₁)) ∧
          Live L s' 1 (L.deadline 1 c₁) ∧ Live L s' 0 (L.deadline 0 c₁)) :=
  have hL : (Lockable.time fun _ : Fin 3 => 20000).Lawful := Lockable.time_lawful _
  ⟨hL, by decide, by decide,
    storageLock_excludes_only_while_guards_are_timely.2 _ ⟨id, some, fun _ => rfl⟩ 0 1 2 _ _ hL
      (by decide) (by decide) (by decide) (by decide) (by decide)⟩

-- the same run, evaluated: `1` and `2` both hold guards until 40001 ms
example : (run (Lockable.time fun _ : Fin 3 => 20000) ⟨id, some, fun _ => rfl⟩
    (System.initial none ⟨0, 0, by decide⟩)
    [.tryLock 0, .read 0, .compareAndSet 0, .tick ⟨20001, 0, by decide⟩, .tryLock 1, .read 1,
      .compareAndSet 1, .drop 0, .tryLock 2, .read 2, .compareAndSet 2]).map
      (fun s => ((s.phase 1).own, (s.phase 2).own)) = some (some 40001, some 40001) := by
  decide

end Substrate.Offchain
