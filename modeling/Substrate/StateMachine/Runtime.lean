import Substrate.StateMachine.Transactions

/-! # The runtime and the client's transactions

While the runtime runs, `commit_transaction` and `rollback_transaction` refuse to close the
client's transactions, which stay open over every run (`ClientOpen`). `exit_runtime` rolls back,
and does not commit as its doc comment says, every transaction the runtime left open.
-/

namespace Substrate.StateMachine

variable {K V W : Type} [DecidableEq K]

namespace Transactions

/-- In runtime mode the transactions the client opened are all still open. -/
def ClientOpen (control : Nat × Nat × ExecutionMode) : Prop :=
  control.2.2 = .runtime → control.2.1 ≤ control.1

theorem clientOpen_startControl {control : Nat × Nat × ExecutionMode} (h : ClientOpen control) :
    ClientOpen (startControl control) := by
  obtain ⟨depth, numClient, mode⟩ := control
  intro hmode
  have := h hmode
  simp only [startControl] at this ⊢
  omega

variable {control control' : Nat × Nat × ExecutionMode}

theorem clientOpen_closeControl
    (h : ClientOpen control) (hclose : closeControl control = .ok control') : ClientOpen control' := by
  obtain ⟨depth, numClient, mode⟩ := control
  simp only [closeControl] at hclose
  split at hclose
  · cases hclose
  · next hguard =>
      cases hclose
      -- the runtime closes only a transaction above the client's
      intro hmode
      simp only at hmode ⊢
      have : ¬depth ≤ numClient := fun hle => hguard (Or.inl ⟨hmode, hle⟩)
      omega

theorem clientOpen_enterControl
    (henter : enterControl control = .ok control') : ClientOpen control' := by
  obtain ⟨depth, numClient, mode⟩ := control
  simp only [enterControl] at henter
  split at henter
  · cases henter
  · cases henter
    exact fun _ => Nat.le_refl depth

theorem clientOpen_exitControl
    (hexit : exitControl control = .ok control') : ClientOpen control' := by
  obtain ⟨depth, numClient, mode⟩ := control
  simp only [exitControl] at hexit
  split at hexit
  · cases hexit
  · cases hexit
    intro hmode
    cases hmode

/-- A call settled against the state it started from, read through the control. -/
theorem clientOpen_settle {σ ε : Type} {s : σ} {failed : Outcome} {r : Except ε σ}
    {control : σ → Nat × Nat × ExecutionMode} (hs : ClientOpen (control s))
    (hr : ∀ s', r = .ok s' → ClientOpen (control s')) : ClientOpen (control (settle s failed r).1) := by
  cases r with
  | ok s' => exact hr s' rfl
  | error _ => exact hs

end Transactions

namespace Op

open Transactions

/-- Every call keeps the client's transactions open in runtime mode. -/
theorem clientOpen_run (op : Op K W) {t : Transactions K (Option W)} (ht : ClientOpen t.control) :
    ClientOpen (op.run t).1.control := by
  cases op with
  | set key value atExtrinsic => exact ht
  | modify key init atExtrinsic mutate => exact ht
  | clearWhere predicate atExtrinsic => exact ht
  | startTransaction => exact clientOpen_startControl ht
  | commitTransaction =>
    refine clientOpen_settle ht fun t' h => clientOpen_closeControl ht ?_
    rw [← close_map_control, h]
    rfl
  | rollbackTransaction =>
    refine clientOpen_settle ht fun t' h => clientOpen_closeControl ht ?_
    rw [← close_map_control, h]
    rfl
  | enterRuntime =>
    refine clientOpen_settle ht fun t' h =>
      clientOpen_enterControl (show enterControl t.control = .ok t'.control from ?_)
    rw [← enterRuntime_map_control, h]
    rfl
  | exitRuntime =>
    refine clientOpen_settle ht fun t' h =>
      clientOpen_exitControl (show exitControl t.control = .ok t'.control from ?_)
    rw [← exitRuntime_map_control, h]
    rfl

end Op

/-- Every run from the empty model keeps the client's transactions open in runtime mode. -/
theorem clientOpen_runAll :
    ∀ (ops : List (Op K W)) {t : Transactions K (Option W)}, Transactions.ClientOpen t.control →
      Transactions.ClientOpen (runAll ops t).1.control
  | [], _, ht => ht
  | op :: ops, _, ht => clientOpen_runAll ops (op.clientOpen_run ht)

namespace OverlayedMap

/-- On an overlay refining the model, in runtime mode with the client's transactions open,
`exit_runtime` rolls back exactly the runtime's transactions. -/
theorem exitRuntime_of_refines {m : OverlayedMap K V} {t : Transactions K V} (hm : m.Inv)
    (hr : Refines m t) (hmode : m.executionMode = .runtime)
    (hopen : m.numClientTransactions ≤ m.transactionDepth) :
    ∃ m', m.exitRuntime = some (.ok m') ∧ m'.executionMode = .client ∧
      m'.transactionDepth = m.numClientTransactions ∧
      m'.numClientTransactions = m.numClientTransactions ∧
      ∀ key, m'.levels key = (m.levels key).drop (m.transactionDepth - m.numClientTransactions) := by
  obtain ⟨r, hexit, hagrees⟩ := hr.exitAgrees hm
  have htmode : ¬t.executionMode = .client := by
    rw [← hr.executionMode, hmode]
    decide
  rw [Transactions.exitRuntime, if_neg htmode] at hagrees
  obtain ⟨m', rfl, -, hr'⟩ := Agrees.of_ok hagrees
  refine ⟨m', hexit, hr'.executionMode, ?_,
    hr'.numClientTransactions.trans hr.numClientTransactions.symm, fun key => ?_⟩
  · rw [hr'.depth, Transactions.depth, Snapshots.depth_rollbackN, ← Transactions.depth, ← hr.depth,
      ← hr.numClientTransactions]
    omega
  · rw [hr'.levels key, hr.levels key, ← hr.depth, ← hr.numClientTransactions]
    exact Snapshots.view_rollbackN _ _ _ ((Nat.sub_le _ _).trans hr.depth.le)

end OverlayedMap

/-- In runtime mode the runtime can neither close the client's transactions nor switch mode; on
every overlay reached in runtime mode, `exit_runtime` returns to the client's depth, keeping what
the runtime committed into the innermost transaction. -/
theorem runtime_cannot_close_client_transactions :
    (∀ (m : OverlayedMap K V) (rollback : Bool), m.executionMode = .runtime →
      m.transactionDepth ≤ m.numClientTransactions →
        m.closeTransaction rollback = some (.error .noOpenTransaction)) ∧
    (∀ m : OverlayedMap K V, m.executionMode = .runtime →
      m.enterRuntime = .error .alreadyInRuntime) ∧
    (∀ m : OverlayedMap K V, m.executionMode = .client →
      m.exitRuntime = some (.error .notInRuntime)) ∧
    (∀ (ops : List (Op K W)) (m : OverlayedMap K (Option W)) (outcomes : List Outcome),
      applyAll ops OverlayedMap.empty = some (m, outcomes) → m.executionMode = .runtime →
        m.numClientTransactions ≤ m.transactionDepth ∧
        ∃ m', m.exitRuntime = some (.ok m') ∧ m'.executionMode = .client ∧
          m'.transactionDepth = m.numClientTransactions ∧
          m'.numClientTransactions = m.numClientTransactions ∧
          ∀ key, m'.levels key =
            (m.levels key).drop (m.transactionDepth - m.numClientTransactions)) := by
  refine ⟨fun m rollback hmode hdepth => ?_, fun m hmode => ?_, fun m hmode => ?_,
    fun ops m outcomes hrun hmode => ?_⟩
  · refine OverlayedMap.closeTransaction_of_protected rollback ⟨hmode, ?_⟩
    simpa [OverlayedMap.hasOpenRuntimeTransactions] using hdepth
  · rw [OverlayedMap.enterRuntime, if_pos hmode]
  · rw [OverlayedMap.exitRuntime, if_pos hmode]
  · -- the run refines the model's, where the client's transactions stay open
    obtain ⟨m', hrun', hinv, hr⟩ := applyAll_refines ops OverlayedMap.Inv.empty Refines.empty
    rw [hrun] at hrun'
    obtain ⟨rfl, -⟩ := Prod.mk.inj (Option.some.inj hrun')
    have hopen := clientOpen_runAll ops (t := Transactions.empty) (fun h => by cases h)
      (hr.executionMode.symm.trans hmode)
    have hopen' : m.numClientTransactions ≤ m.transactionDepth := by
      rw [hr.numClientTransactions, hr.depth]
      exact hopen
    exact ⟨hopen', OverlayedMap.exitRuntime_of_refines hinv hr hmode hopen'⟩

end Substrate.StateMachine
