import Itx.Hub.Payouts

/-!
# Reconciling a board

When the hub starts, it looks for records of its board that disagree
(`hub/src/reconcile.rs`): a consumed deposit nothing refers to, a lock with no open order
behind it, and a task whose payout is on the wire and has no attempt. It reports them and
repairs nothing.
-/

namespace Itx

/-- `Disagreement`. -/
inductive Disagreement
  | orphanedConsumedDeposit
  | lockedBalanceWithNoOpenOrder
  | submittedTaskWithNoPayoutAttempt
  deriving DecidableEq, Repr

structure Finding where
  kind : Disagreement
  detail : String
  deriving DecidableEq, Repr

/-- `purpose_label`. -/
def EscrowPurpose.label : EscrowPurpose → String
  | .fundHashMatchTask _ => "hash-match task"
  | .fundConsensusTask _ => "consensus task"
  | .fundDisputableTask _ => "disputable task"
  | .disputeBond _ _ => "dispute bond"
  | .fundExchangeAccount => "exchange deposit"

namespace TaskBoard

/-- Whether something on the board refers to a consumed deposit. -/
def isClaimed (s : TaskBoard) (deposit : PendingDeposit) : Bool :=
  match deposit.purpose with
  | .disputeBond taskId _ => (s.tasks.lookup taskId).any fun task =>
      task.bondId? = some deposit.id
  | .fundExchangeAccount => deposit.depositor ∈ s.exchangeAccounts
  | _ => s.tasks.values.any fun task => task.escrowId = some deposit.id

/-- `check_orphaned_consumed_deposits`. -/
def checkOrphanedConsumedDeposits (s : TaskBoard) : List Finding :=
  (s.pendingDeposits.values.filter fun d => d.status = .consumed ∧ !s.isClaimed d).map fun d =>
    { kind := .orphanedConsumedDeposit
      detail := s!"deposit {d.id} ({d.purpose.label}, {d.requiredAmount} ITX required, " ++
        s!"depositor {d.depositor}) reads Consumed but nothing on the board refers to it" }

/-- Whether a key has an order on the book. -/
def hasOpenOrder (s : TaskBoard) (pubkey : PublicKey) : Bool :=
  s.orders.values.any fun order => order.owner = pubkey ∧ order.status = .open

/-- `check_locked_balances_without_open_orders`. -/
def checkLockedBalancesWithoutOpenOrders (s : TaskBoard) : List Finding :=
  (s.exchangeAccounts.keys.ascending.filter fun pk =>
      ¬ ((s.exchangeAccount pk).lockedBase = 0 ∧ (s.exchangeAccount pk).lockedCompute = 0) ∧
        !s.hasOpenOrder pk).map fun pk =>
    { kind := .lockedBalanceWithNoOpenOrder
      detail := s!"account {pk} holds {(s.exchangeAccount pk).lockedBase} base and " ++
        s!"{(s.exchangeAccount pk).lockedCompute} compute locked with no open order to " ++
        "justify either" }

/-- Whether some attempt is for a task. -/
def hasPayoutAttempt (s : TaskBoard) (taskId : Uuid) : Bool :=
  ∃ key ∈ s.payoutAttempts.keys, ∃ attempt ∈ s.payoutAttempts.lookup key, attempt.taskId = taskId

/-- `check_submitted_tasks_without_payout_attempts`. -/
def checkSubmittedTasksWithoutPayoutAttempts (s : TaskBoard) : List Finding :=
  (s.tasks.values.filter fun task => task.status = .submitted ∧
      !s.hasPayoutAttempt task.id).map fun task =>
    { kind := .submittedTaskWithNoPayoutAttempt
      detail := s!"task {task.id} reads Submitted with no payout attempt tracking it: " ++
        s!"{task.bounty} ITX left the hub and nothing is waiting for it" }

/-- `reconcile`: the findings of its report. -/
def reconcile (s : TaskBoard) : List Finding :=
  s.checkOrphanedConsumedDeposits ++ s.checkLockedBalancesWithoutOpenOrders ++
    s.checkSubmittedTasksWithoutPayoutAttempts

theorem hasPayoutAttempt_of_lookup {s : TaskBoard} {x : Uuid × PublicKey} {a : PayoutAttempt}
    (h : s.payoutAttempts.lookup x = some a) : s.hasPayoutAttempt a.taskId :=
  decide_eq_true ⟨x, Finmap.mem_keys.2 (Finmap.mem_of_lookup_eq_some h), a, h, rfl⟩

/-- Only the last check finds submitted tasks that nothing tracks. -/
theorem reconcile_kind_ne {s : TaskBoard}
    (h : ∀ task ∈ s.tasks.values, task.status = .submitted → s.hasPayoutAttempt task.id) :
    ∀ f ∈ s.reconcile, f.kind ≠ .submittedTaskWithNoPayoutAttempt := by
  intro f hf
  rcases List.mem_append.1 hf with hf | hf
  · rcases List.mem_append.1 hf with hf | hf
    · obtain ⟨d, -, rfl⟩ := List.mem_map.1 hf
      exact nofun
    · obtain ⟨pk, -, rfl⟩ := List.mem_map.1 hf
      exact nofun
  · obtain ⟨task, htask, rfl⟩ := List.mem_map.1 hf
    obtain ⟨hmem, hfilter⟩ := List.mem_filter.1 htask
    obtain ⟨hstatus, hnone⟩ := of_decide_eq_true hfilter
    rw [h task hmem hstatus] at hnone
    cases hnone

end TaskBoard

end Itx
