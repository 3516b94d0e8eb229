import Itx.Hub.Payments
import Itx.Hub.Tasks

/-!
# Payouts

What is kept of the transactions that pay the recipients of a task
(`hub/src/board.rs`, `hub/src/handlers.rs`): an attempt for each of them, from the moment
its transaction is handed to the node until the sweep finds out what became of it. A
task is `Submitted` while nothing it owes is without an attempt, and `Paid` once every
recipient is recorded as paid.

A confirmed payout and an abandoned one are committed to the store in one transaction,
under the write lock of the board, which is put back as it was if the commit fails.
-/

namespace Itx

namespace Task

/-- Whether every assignee who has a share was paid it. -/
def allPaid (assignees : Finmap fun _ : PublicKey => ConsensusAssignment) : Bool :=
  assignees.values.all fun a => a.share.isNone || a.paid

/-- What `mark_recipient_paid` makes of a task: none when the recipient was paid before;
    or else its kind, whether it is now fully paid, and whether the recipient completed it. -/
def payRecipient (task : Task) (recipient : PublicKey) :
    Outcome BoardError (Option (TaskKind × Bool × Bool)) :=
  match task.kind with
  | .hashMatch hash => do
    Outcome.ensure (task.claimant = some recipient) .notClaimant
    pure (some (.hashMatch hash, true, true))
  | .consensus kind => do
    let assignment ← Outcome.okOr .notClaimant (kind.assignees.lookup recipient)
    Outcome.ensure assignment.share.isSome .notClaimant
    if assignment.paid then pure none
    else
      let assignees := kind.assignees.insert recipient { assignment with paid := true }
      pure (some (.consensus { kind with assignees }, allPaid assignees, true))
  | .disputable kind =>
    if kind.answers ≠ [] then do
      let answer ← Outcome.okOr .notClaimant (kind.answers.find? fun a => a.pubkey = recipient)
      Outcome.ensure answer.share.isSome .notClaimant
      if answer.paid then pure none
      else
        let answers := updateFirst (fun a => a.pubkey = recipient)
          (fun a => { a with paid := true }) kind.answers
        pure (some (.disputable { kind with answers },
          answers.all fun a => a.share.isNone || a.paid, kind.picked.isSome))
    else do
      Outcome.ensure (task.pendingPayoutsRecipientHint = some recipient) .notClaimant
      pure (some (.disputable kind, true, true))

end Task

namespace TaskBoard

/-! ## Attempts -/

/-- `TaskBoard::payout_attempt`. -/
def payoutAttempt (s : TaskBoard) (taskId : Uuid) (recipient : PublicKey) :
    Option PayoutAttempt :=
  s.payoutAttempts.lookup (taskId, recipient)

/-- `TaskBoard::unsubmitted_payouts`. -/
def unsubmittedPayouts (s : TaskBoard) (taskId : Uuid) : List (PublicKey × ℕ) :=
  match s.tasks.lookup taskId with
  | none => []
  | some task => task.pendingPayouts.filter fun p => (taskId, p.1) ∉ s.payoutAttempts

/-- `TaskBoard::record_payout_attempt`. -/
def recordPayoutAttempt (attempt : PayoutAttempt) (s : TaskBoard) : TaskBoard :=
  let s := s.restorePayoutAttempt attempt
  if s.unsubmittedPayouts attempt.taskId ≠ [] then s
  else { s with tasks := s.tasks.modify attempt.taskId fun task =>
    if task.status = .verified then { task with status := .submitted } else task }

/-- `TaskBoard::clear_payout_attempt`. -/
def clearPayoutAttempt (taskId : Uuid) (recipient : PublicKey) (s : TaskBoard) : TaskBoard :=
  { s with payoutAttempts := s.payoutAttempts.erase (taskId, recipient) }

/-- The recipients a task has an attempt for. -/
def attempted (s : TaskBoard) (taskId : Uuid) : List PublicKey :=
  ((s.payoutAttempts.keys.filter fun key => key.1 = taskId).image Prod.snd).ascending

/-- `TaskBoard::payout_attempts_for_task`. -/
def payoutAttemptsForTask (s : TaskBoard) (taskId : Uuid) : List PayoutAttempt :=
  (s.attempted taskId).filterMap fun pk => s.payoutAttempts.lookup (taskId, pk)

/-- `TaskBoard::mark_payout_failed`: the attempts it drops. -/
def markPayoutFailed (id : Uuid) : BoardCall (List PayoutAttempt) := do
  onTask id fun _ task => do
    Outcome.ensure (task.status = .verified ∨ task.status = .submitted) .notVerified
    pure ((), { task with status := .payoutFailed })
  let s ← Call.get
  Call.modify fun s =>
    { s with payoutAttempts := s.payoutAttempts.eraseAll ((s.attempted id).map fun pk => (id, pk)) }
  pure (s.payoutAttemptsForTask id)

/-! ## Recording a payout -/

/-- A task of which a recipient was just paid. -/
def paidTask (task : Task) (now : DateTime) (kind : TaskKind) (nowFullyPaid : Bool) : Task :=
  if nowFullyPaid then
    { task with kind, status := .paid, settledAt := some (task.settledAt.getD now) }
  else { task with kind }

/-- `TaskBoard::mark_recipient_paid`: the task is written before its recipient is credited. -/
def markRecipientPaid (id : Uuid) (recipient : PublicKey) (amount : ℕ) (now : DateTime) :
    BoardCall Bool := do
  let paid ← onTask id fun _ task => do
    Outcome.ensure (task.status = .verified ∨ task.status = .submitted) .notVerified
    let paid ← task.payRecipient recipient
    pure (paid.map Prod.snd, paid.elim task fun p => paidTask task now p.1 p.2.1)
  match paid with
  | none => pure false
  | some (nowFullyPaid, credited) => do
    Call.when credited (addCompleted recipient)
    addEarned recipient amount
    pure nowFullyPaid

end TaskBoard

/-! ## Committing -/

/-- `HubStore::save_confirmed_payout`. -/
def saveConfirmedPayout (task : Task) (recipient : PublicKey) (reputation : Reputation)
    (store : TaskBoard) : TaskBoard :=
  ((store.restoreTask task).restoreReputation recipient reputation).clearPayoutAttempt
    task.id recipient

/-- `HubStore::save_task_and_drop_payout_attempts`. -/
def saveTaskAndDropPayoutAttempts (task : Task) (dropped : List (Uuid × PublicKey))
    (store : TaskBoard) : TaskBoard :=
  { store.restoreTask task with payoutAttempts := store.payoutAttempts.eraseAll dropped }

/-- The board after `record_confirmed_payout` put back what it had changed. -/
def rollbackPayout (previous : TaskBoard) (taskId : Uuid) (recipient : PublicKey)
    (board : TaskBoard) : TaskBoard :=
  let board := (previous.tasks.lookup taskId).elim board fun task => board.restoreTask task
  let board := board.restoreReputation recipient (previous.reputationOf recipient)
  let board := board.restoreExchangeAccount recipient (previous.exchangeAccount recipient)
  (previous.payoutAttempt taskId recipient).elim board fun a => board.restorePayoutAttempt a

/-- `record_confirmed_payout`: whether the payout is recorded. -/
def recordConfirmedPayout (now : DateTime) (commits : Bool) (taskId : Uuid)
    (recipient : PublicKey) (amount : ℕ) : HubCall Bool := fun s =>
  match TaskBoard.markRecipientPaid taskId recipient amount now s.board with
  | (board, .err _) => ({ s with board }, .ok false)
  | (board, .panic) => ({ s with board }, .panic)
  | (board, .ok _) =>
    let board := board.clearPayoutAttempt taskId recipient
    match board.tasks.lookup taskId with
    | none => ({ s with board }, .panic)
    | some task =>
      if commits then
        let store := saveConfirmedPayout task recipient (board.reputationOf recipient) s.store
        ({ board, store }, .ok true)
      else ({ s with board := rollbackPayout s.board taskId recipient board }, .ok false)

/-- `abandon_payout`. -/
def abandonPayout (commits : Bool) (attempt : PayoutAttempt) : HubCall Unit := fun s =>
  match TaskBoard.markPayoutFailed attempt.taskId s.board with
  | (board, .err _) => ({ s with board }, .ok ())
  | (board, .panic) => ({ s with board }, .panic)
  | (board, .ok dropped) =>
    match board.tasks.lookup attempt.taskId with
    | none => ({ s with board }, .panic)
    | some task =>
      if commits then
        let keys := dropped.map fun a => (a.taskId, a.recipient)
        ({ board, store := saveTaskAndDropPayoutAttempts task keys s.store }, .ok ())
      else
        let board := (s.board.tasks.lookup attempt.taskId).elim board fun task =>
          board.restoreTask task
        ({ s with board := dropped.foldl (fun board a => board.restorePayoutAttempt a) board },
          .ok ())

end Itx
