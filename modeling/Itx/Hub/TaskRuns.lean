import Itx.Hub.Paying
import Itx.Lib.System

/-!
# Runs of the tasks of a board

A board takes the operations of `TaskOp` one after the other, in any order and on any
task: those of its posters and agents, those of the sweep, and the record of what was sent
to the node and of what became of it.

* the life of a task (`Task.Life`), over any run;
* what a task pays is within its bounty and never changed;
* a task that is `Submitted` has an attempt for each recipient it has yet to pay;
* each recipient of a task is credited once, and the task is `Paid` once all of them are,
  as long as no counter overflows.
-/

namespace Itx

/-- A purpose whose window a handler let through (`validate_positive_minutes`). -/
def EscrowPurpose.Validated : EscrowPurpose → Prop
  | .fundConsensusTask intent => 0 < intent.submissionWindowMinutes ∧
      intent.submissionWindowMinutes ≤ maxConsensusWindowMinutes
  | _ => True

/-- A task of before there were contests: one agent claims it, and its answer may be disputed. -/
structure Task.Legacy (task : Task) : Prop where
  kind : ∃ kind, task.kind = .disputable kind ∧ kind.answers = []
  status : task.status ∈ [TaskStatus.open, .claimed, .awaitingDispute, .disputed]
  closeReason : task.closeReason = none
  settledAt : task.settledAt = none

/-! ## Operations -/

/-- What is done to the tasks of a board. -/
inductive TaskOp
  | createTask (taskId : Uuid) (createdAt : DateTime) (poster : PublicKey) (description : String)
    (bounty : ℕ) (expectedOutputHash : Hash)
  | createConsensusTask (taskId : Uuid) (createdAt : DateTime) (poster : PublicKey)
    (description : String) (bounty numAssignees : ℕ) (joinDeadline : DateTime)
    (submissionWindowMinutes : ℤ)
  | createDisputableTask (taskId : Uuid) (createdAt : DateTime) (poster : PublicKey)
    (description : String) (bounty : ℕ) (disputeWindowMinutes : ℤ)
  | setMinReputation (taskId : Uuid) (minReputation : ℕ)
  | setCapabilities (taskId : Uuid) (capabilities : Finset String)
  /-- A deposit is reserved, or what is kept of it changes. -/
  | restorePendingDeposit (deposit : PendingDeposit)
  | confirmEscrow (depositId : Uuid) (observedAmount : ℕ) (now : DateTime) (taskId : Uuid)
    (createdAt : DateTime)
  | confirmDisputeBond (depositId : Uuid) (observedAmount : ℕ) (now : DateTime)
  | cancelTask (taskId : Uuid)
  | claimTask (taskId : Uuid) (claimant : PublicKey) (deadline : DateTime)
  | joinConsensusTask (taskId : Uuid) (agent : PublicKey) (now filledAt : DateTime)
  | submit (taskId : Uuid) (submitter : PublicKey) (outputHash : Hash)
  | submitContestAnswer (taskId : Uuid) (submitter : PublicKey) (answer : String) (now : DateTime)
  | closeContest (taskId : Uuid) (caller : PublicKey) (now : DateTime)
  | pickAnswer (taskId : Uuid) (caller answerer : PublicKey) (now : DateTime)
  | resolveDispute (taskId : Uuid) (outcome : DisputeResolution)
  | creditForfeitedBond (recipient : PublicKey) (bondAmount : ℕ)
  | submitConsensusAnswer (taskId : Uuid) (agent : PublicKey) (answer : String) (now : DateTime)
  | resolveExpiredConsensusTasks (now : DateTime)
  | closeUnclosedContests (now : DateTime)
  | splitUnpickedContests (now : DateTime)
  | finalizeUnchallengedDisputableTasks (now : DateTime)
  | cancelUnderstaffedConsensusTasks (now : DateTime)
  | expireClaims (now : DateTime)
  | recordPayoutAttempt (attempt : PayoutAttempt)
  | recordConfirmedPayout (now : DateTime) (commits : Bool) (taskId : Uuid) (recipient : PublicKey)
    (amount : ℕ) (store : TaskBoard)
  | abandonPayout (commits : Bool) (attempt : PayoutAttempt) (store : TaskBoard)

namespace TaskOp

/-- The board after an operation, whether it succeeds, fails or panics. -/
def apply (b : TaskBoard) : TaskOp → TaskBoard
  | createTask taskId createdAt poster description bounty hash =>
    (TaskBoard.createTask taskId createdAt poster description bounty hash b).1
  | createConsensusTask taskId createdAt poster description bounty numAssignees joinDeadline window =>
    (TaskBoard.createConsensusTask taskId createdAt poster description bounty numAssignees
      joinDeadline window b).1
  | createDisputableTask taskId createdAt poster description bounty window =>
    (TaskBoard.createDisputableTask taskId createdAt poster description bounty window b).1
  | setMinReputation taskId minReputation => (TaskBoard.setMinReputation taskId minReputation b).1
  | setCapabilities taskId capabilities => (TaskBoard.setCapabilities taskId capabilities b).1
  | restorePendingDeposit deposit => b.restorePendingDeposit deposit
  | confirmEscrow depositId observedAmount now taskId createdAt =>
    (TaskBoard.confirmEscrow depositId observedAmount now taskId createdAt b).1
  | confirmDisputeBond depositId observedAmount now =>
    (TaskBoard.confirmDisputeBond depositId observedAmount now b).1
  | cancelTask taskId => (TaskBoard.cancelTask taskId b).1
  | claimTask taskId claimant deadline => (TaskBoard.claimTask taskId claimant deadline b).1
  | joinConsensusTask taskId agent now filledAt =>
    (TaskBoard.joinConsensusTask taskId agent now filledAt b).1
  | submit taskId submitter outputHash => (TaskBoard.submit taskId submitter outputHash b).1
  | submitContestAnswer taskId submitter answer now =>
    (TaskBoard.submitContestAnswer taskId submitter answer now b).1
  | closeContest taskId caller now => (TaskBoard.closeContest taskId caller now b).1
  | pickAnswer taskId caller answerer now => (TaskBoard.pickAnswer taskId caller answerer now b).1
  | resolveDispute taskId outcome => (TaskBoard.resolveDispute taskId outcome b).1
  | creditForfeitedBond recipient bondAmount =>
    (TaskBoard.creditForfeitedBond recipient bondAmount b).1
  | submitConsensusAnswer taskId agent answer now =>
    (TaskBoard.submitConsensusAnswer taskId agent answer now b).1
  | resolveExpiredConsensusTasks now => (TaskBoard.resolveExpiredConsensusTasks now b).1
  | closeUnclosedContests now => (TaskBoard.closeUnclosedContests now b).1
  | splitUnpickedContests now => (TaskBoard.splitUnpickedContests now b).1
  | finalizeUnchallengedDisputableTasks now =>
    (TaskBoard.finalizeUnchallengedDisputableTasks now b).1
  | cancelUnderstaffedConsensusTasks now => (TaskBoard.cancelUnderstaffedConsensusTasks now b).1
  | expireClaims now => (TaskBoard.expireClaims now b).1
  | recordPayoutAttempt attempt => b.recordPayoutAttempt attempt
  | recordConfirmedPayout now commits taskId recipient amount store =>
    (Itx.recordConfirmedPayout now commits taskId recipient amount ⟨b, store⟩).1.board
  | abandonPayout commits attempt store => (Itx.abandonPayout commits attempt ⟨b, store⟩).1.board

/-- The operations that touch payouts, or credit a reputation. -/
def Settles : TaskOp → Prop
  | creditForfeitedBond _ _ => True
  | recordPayoutAttempt _ => True
  | recordConfirmedPayout _ _ _ _ _ _ => True
  | abandonPayout _ _ _ => True
  | _ => False

/-- The operations that only move tasks along: they create none, and touch no deposit and
    no payout. -/
def Works : TaskOp → Prop
  | createTask .. => False
  | createConsensusTask .. => False
  | createDisputableTask .. => False
  | restorePendingDeposit _ => False
  | confirmEscrow .. => False
  | confirmDisputeBond .. => False
  | op => ¬ op.Settles

end TaskOp

/-! ## What an operation does -/

namespace TaskBoard

open Call

variable {s s' : TaskBoard} {taskId : Uuid}

/-- The deposits of a board were reserved with valid windows. -/
def DepositsValidated (s : TaskBoard) : Prop :=
  ∀ id d, s.pendingDeposits.lookup id = some d → d.purpose.Validated

/-- A clock that the longest window does not take out of range. -/
def OnClock (now : DateTime) : Prop :=
  Blockchain.minDateTime ≤ now ∧
    now + Duration.seconds (maxConsensusWindowMinutes * 60) ≤ Blockchain.maxDateTime

/-- No deadline of a consensus task lies beyond the last date. -/
theorem OnClock.addMinutes_ne_none {now : DateTime} (h : OnClock now) {window : ℤ}
    (hpos : 0 < window) (hle : window ≤ maxConsensusWindowMinutes) :
    addMinutes now window ≠ none := by
  obtain ⟨hmin, hmax⟩ := h
  have hseconds : Duration.minutes window = some (Duration.seconds (window * 60)) := by
    rw [maxConsensusWindowMinutes] at hle
    exact if_pos (abs_le.2 ⟨by omega, by omega⟩)
  rw [addMinutes, hseconds, Option.bind_some, Blockchain.addDuration, if_pos]
  · exact Option.some_ne_none _
  · have hnonneg : 0 ≤ Duration.seconds (window * 60) := by
      rw [Duration.seconds]
      positivity
    have hwindow : Duration.seconds (window * 60) ≤
        Duration.seconds (maxConsensusWindowMinutes * 60) := by
      rw [Duration.seconds, Duration.seconds]
      linarith
    exact ⟨by linarith, by linarith⟩

/-- What an operation does that moves tasks, and pays and credits nobody. -/
structure Worked (s s' : TaskBoard) : Prop extends MovedBy Task.Works s s' where
  attempts : s'.payoutAttempts = s.payoutAttempts
  deposits : s.DepositsValidated → s'.DepositsValidated
  completed : ∀ pk, (s'.reputationOf pk).completed = (s.reputationOf pk).completed
  totalEarned : ∀ pk, (s'.reputationOf pk).totalEarned = (s.reputationOf pk).totalEarned

/-- Progress pays and credits nobody. -/
theorem Progress.worked (h : Progress s s') : Worked s s' where
  toMovedBy := h.toMovedBy
  attempts := h.attempts
  deposits hs := by rwa [DepositsValidated, h.deposits]
  completed := h.completed
  totalEarned := h.totalEarned

/-- What an operation that pays nobody leaves, whatever its outcome. -/
theorem Progresses.progress {α : Type} {x : BoardCall α} (h : Progresses s x) :
    Progress s (x s).1 := by
  have h := h s rfl
  generalize x s = r at h
  obtain ⟨s', a | e | _⟩ := r
  exacts [h, h, h]

/-- Creating a task under a fresh id. -/
theorem worked_restoreTask {task : Task} (hnew : task.id ∉ s.tasks) (hfresh : task.Fresh) :
    Worked s (s.restoreTask task) where
  toMovedBy := .create (Finmap.lookup_eq_none.2 hnew) hfresh rfl rfl
  attempts := rfl
  deposits hs := hs
  completed _ := rfl
  totalEarned _ := rfl

/-- Consuming a deposit leaves the purposes validated. -/
theorem consume_validated {id : Uuid} {d : PendingDeposit} (hd : s.pendingDeposits.lookup id = some d)
    (hs : s.DepositsValidated) : (s.consume id d).DepositsValidated := by
  intro x d' hd'
  rw [consume, Finmap.lookup_insert_eq] at hd'
  split_ifs at hd'
  · obtain rfl := Option.some.inj hd'
    exact hs id d hd
  · exact hs x d' hd'

/-- A task created for a validated purpose is as new, with or without an escrow. -/
theorem CreatedFor.fresh {purpose : EscrowPurpose} {task : Task}
    (h : CreatedFor purpose taskId task) (hpurpose : purpose.Validated) (escrowId : Option Uuid) :
    Task.Fresh { task with escrowId } where
  status := h.status
  claimant := h.claimant
  claimDeadline := h.claimDeadline
  closeReason := h.closeReason
  settledAt := h.settledAt
  consensus kind hkind := by
    obtain ⟨hempty, intent, rfl, hwindow⟩ := h.consensus kind hkind
    rw [hwindow]
    exact ⟨hempty, hpurpose⟩
  disputable := h.disputable

/-- Confirming an escrow creates at most a new task, and pays and credits nobody. -/
theorem worked_confirmEscrow {depositId : Uuid} {observedAmount : ℕ} {now createdAt : DateTime}
    (hnew : taskId ∉ s.tasks) (hs : s.DepositsValidated) :
    Worked s (confirmEscrow depositId observedAmount now taskId createdAt s).1 := by
  have hend : Ends _ _ _ (confirmEscrow depositId observedAmount now taskId createdAt s) :=
    triple_confirmEscrow _ rfl
  generalize confirmEscrow depositId observedAmount now taskId createdAt s = r at hend
  obtain ⟨s', task | error | _⟩ := r
  · obtain ⟨d, created, hd, -, hcreated, rfl, rfl⟩ := hend
    exact ⟨.create (Finmap.lookup_eq_none.2 hnew) (hcreated.fresh (hs depositId d hd) (some depositId))
      hcreated.id_eq rfl, rfl, consume_validated hd, fun _ => rfl, fun _ => rfl⟩
  · obtain rfl : s' = s := hend
    exact (Progress.refl _).worked
  · obtain ⟨d, intent, hd, -, -, -, rfl⟩ := hend
    exact ⟨.of_eq rfl, rfl, consume_validated hd, fun _ => rfl, fun _ => rfl⟩

/-- Confirming a dispute bond moves its task, and pays and credits nobody. -/
theorem worked_confirmDisputeBond {depositId : Uuid} {observedAmount : ℕ} {now : DateTime} :
    Worked s (confirmDisputeBond depositId observedAmount now s).1 := by
  have hend : Ends _ _ _ (confirmDisputeBond depositId observedAmount now s) :=
    triple_confirmDisputeBond _ rfl
  generalize confirmDisputeBond depositId observedAmount now s = r at hend
  obtain ⟨s', task | error | _⟩ := r
  · obtain ⟨d, x, t, kind, dispute, hd, -, ht, hkind, hstatus, -, -, rfl, rfl⟩ := hend
    exact ⟨.write ht (.single (.file dispute hkind hstatus)) rfl, rfl, consume_validated hd,
      fun _ => rfl, fun _ => rfl⟩
  · obtain rfl : s' = s := hend
    exact (Progress.refl _).worked
  · obtain rfl : s' = s := hend
    exact (Progress.refl _).worked

/-- A board whose tasks were created by the operations, or are of before there were contests. -/
structure Tidy (s : TaskBoard) : Prop where
  keyed : s.TasksKeyed
  attemptsKeyed : s.AttemptsKeyed
  sound : ∀ x t, s.tasks.lookup x = some t → t.Sound
  deposits : s.DepositsValidated

/-- The tasks of a board are sound, whatever moves they made. -/
theorem MovedBy.sound (h : MovedBy Task.Moves s s')
    (hs : ∀ x t, s.tasks.lookup x = some t → t.Sound) :
    ∀ x t, s'.tasks.lookup x = some t → t.Sound := by
  intro x t' ht'
  cases ht : s.tasks.lookup x with
  | none =>
    obtain ⟨t, hfresh, -, hmoves⟩ := h.created x t' ht' ht
    exact Task.MovesTo.sound hmoves hfresh.sound
  | some t =>
    obtain ⟨t₁, ht₁, hmoves⟩ := h.moved x t ht
    obtain rfl := Option.some.inj (ht'.symm.trans ht₁)
    exact Task.MovesTo.sound hmoves (hs x t ht)

/-- Tasks that moved are stored under their ids. -/
theorem MovedBy.keyed (h : MovedBy Task.Moves s s') (hs : s.TasksKeyed) : s'.TasksKeyed := by
  have hid : ∀ {t t' : Task}, t.MovesTo t' → t'.id = t.id := fun h =>
    h.preserves (P := fun t => t.id = _) (fun _ _ ht hmove => hmove.id_eq.trans ht) rfl
  intro x t' ht'
  cases ht : s.tasks.lookup x with
  | none =>
    obtain ⟨t, -, htid, hmoves⟩ := h.created x t' ht' ht
    rw [hid hmoves, htid]
  | some t =>
    obtain ⟨t₁, ht₁, hmoves⟩ := h.moved x t ht
    obtain rfl := Option.some.inj (ht'.symm.trans ht₁)
    rw [hid hmoves, hs x t ht]

/-- What pays nobody moves the tasks as any operation may. -/
theorem Worked.moved' (h : Worked s s') : MovedBy Task.Moves s s' :=
  h.toMovedBy.mono fun _ _ => .work

/-- What pays nobody keeps the board tidy. -/
theorem Worked.tidy (h : Worked s s') (hs : s.Tidy) : s'.Tidy where
  keyed := h.moved'.keyed hs.keyed
  attemptsKeyed := by
    rw [AttemptsKeyed, h.attempts]
    exact hs.attemptsKeyed
  sound := h.moved'.sound hs.sound
  deposits := h.deposits hs.deposits

/-- A recorded attempt is stored under its task and its recipient. -/
theorem restorePayoutAttempt_keyed {attempt : PayoutAttempt} (hs : s.AttemptsKeyed) :
    (s.restorePayoutAttempt attempt).AttemptsKeyed := by
  intro x pk a ha
  rw [restorePayoutAttempt, Finmap.lookup_insert_eq] at ha
  split_ifs at ha with hx
  · obtain ⟨rfl, rfl⟩ := Prod.mk.inj hx
    obtain rfl := Option.some.inj ha
    exact ⟨rfl, rfl⟩
  · exact hs x pk a ha

/-! ## Operations on payouts -/

/-- Recording an attempt moves at most a verified task, which is then submitted. -/
theorem moved_recordPayoutAttempt (attempt : PayoutAttempt) :
    MovedBy Task.Moves s (s.recordPayoutAttempt attempt) := by
  rcases s.recordPayoutAttempt_cases attempt with h | ⟨t, ht, hstatus, -, h⟩
  · rw [h]
    exact .of_eq rfl
  · rw [h]
    exact .write ht (.single (.submitted hstatus)) rfl

/-- Recording an attempt stores it as restoring it does. -/
theorem recordPayoutAttempt_attempts (attempt : PayoutAttempt) :
    (s.recordPayoutAttempt attempt).payoutAttempts =
      (s.restorePayoutAttempt attempt).payoutAttempts := by
  rcases s.recordPayoutAttempt_cases attempt with h | ⟨t, -, -, -, h⟩ <;> rw [h]

/-- A payout that is recorded moves the tasks as an operation may. -/
theorem Recorded.moved {recipient : PublicKey} {amount : ℕ} {now : DateTime}
    (h : Recorded taskId recipient amount now s s') : MovedBy Task.Moves s s' := by
  cases h with
  | again ht => exact .write ht .refl rfl
  | paid ht hstatus hpay => exact .write ht (.single (.pay now hstatus hpay)) rfl

/-- A payout that is marked as paid moves the tasks as an operation may. -/
theorem Marked.moved {recipient : PublicKey} {now : DateTime}
    (h : Marked taskId recipient now s s') : MovedBy Task.Moves s s' := by
  obtain ⟨t, kind, nowFullyPaid, credited, ht, hstatus, hpay, htasks, -⟩ := h
  exact .write ht (.single (.pay now hstatus hpay)) htasks

/-- A payout that is given up moves the tasks as an operation may. -/
theorem GivenUp.moved (h : GivenUp taskId s s') : MovedBy Task.Moves s s' := by
  obtain ⟨t, ht, hstatus, htasks⟩ := h.task
  exact .write ht (.single (.fail hstatus)) htasks

end TaskBoard

/-! ## Runs -/

open TaskBoard

/-- What the record of a payout added to its recipient. -/
structure Credit where
  taskId : Uuid
  recipient : PublicKey
  earned : ℕ
  completed : ℕ
  deriving DecidableEq, Repr

/-- What recording a payout credited, from the boards before and after: nothing when the
    task was left as it was. -/
def creditOf (b b' : TaskBoard) (taskId : Uuid) (recipient : PublicKey) : Option Credit :=
  if b'.tasks.lookup taskId = b.tasks.lookup taskId then none
  else some
    { taskId
      recipient
      earned := (b'.reputationOf recipient).totalEarned - (b.reputationOf recipient).totalEarned
      completed := (b'.reputationOf recipient).completed - (b.reputationOf recipient).completed }

/-- A board, with the attempts recorded so far, what was credited to the recipients of its
    tasks, and the bonds forfeited to one. -/
structure TaskRun where
  board : TaskBoard
  recorded : List PayoutAttempt
  credits : List Credit
  bonds : List (PublicKey × ℕ)

namespace TaskOp

/-- The state after an operation. -/
def after (s : TaskRun) (op : TaskOp) : TaskRun :=
  let board := op.apply s.board
  match op with
  | recordPayoutAttempt attempt => { s with board, recorded := attempt :: s.recorded }
  | recordConfirmedPayout _ _ taskId recipient _ _ =>
    { s with board, credits := (creditOf s.board board taskId recipient).toList ++ s.credits }
  | creditForfeitedBond recipient _ =>
    { s with board, bonds := (recipient, (board.reputationOf recipient).totalEarned -
        (s.board.reputationOf recipient).totalEarned) :: s.bonds }
  | _ => { s with board }

/-- What the callers of an operation see to: ids are fresh, windows valid, and the clock in
    range; an attempt pays a recipient of the task what it is allocated, and what is
    confirmed is an attempt that was recorded. -/
def Enabled (s : TaskRun) : TaskOp → Prop
  | createTask taskId _ _ _ _ _ => taskId ∉ s.board.tasks
  | createConsensusTask taskId _ _ _ _ _ _ window =>
    taskId ∉ s.board.tasks ∧ 0 < window ∧ window ≤ maxConsensusWindowMinutes
  | createDisputableTask taskId _ _ _ _ _ => taskId ∉ s.board.tasks
  | confirmEscrow _ _ _ taskId _ => taskId ∉ s.board.tasks
  | restorePendingDeposit deposit => deposit.purpose.Validated
  | joinConsensusTask _ _ _ filledAt => OnClock filledAt
  | recordPayoutAttempt attempt => ∃ t, s.board.tasks.lookup attempt.taskId = some t ∧ t.Settled ∧
      (attempt.recipient, attempt.amount) ∈ t.allocatedPayouts
  | recordConfirmedPayout _ _ taskId recipient amount _ =>
    ∃ a ∈ s.recorded, a.taskId = taskId ∧ a.recipient = recipient ∧ a.amount = amount
  | _ => True

end TaskOp

/-- Where a run starts: on an empty board, or with tasks of before there were contests. -/
structure TaskBoard.Started (b : TaskBoard) : Prop where
  tasks : ∀ x t, b.tasks.lookup x = some t → t.id = x ∧ t.Legacy
  attempts : b.payoutAttempts = ∅
  deposits : b.DepositsValidated

/-- The runs from a state. -/
def taskRunsFrom (s : TaskRun) : System TaskRun TaskOp where
  init := {s}
  step s op s' := op.Enabled s ∧ s' = op.after s

/-- The runs of the tasks of a board. -/
def taskRuns (b₀ : TaskBoard) : System TaskRun TaskOp where
  init := { s | b₀.Started ∧ s = ⟨b₀, [], [], []⟩ }
  step s op s' := op.Enabled s ∧ s' = op.after s

section

variable {s s' : TaskRun} {op : TaskOp}

/-- The board after a step is what the operation makes of it. -/
theorem TaskOp.after_board : (op.after s).board = op.apply s.board := by
  cases op <;> rfl

/-- What only moves tasks along does so whatever its outcome. -/
theorem TaskOp.progress (hs : s.board.Tidy) (hop : op.Enabled s) (hworks : op.Works) :
    Progress s.board (op.apply s.board) := by
  cases op with
  | setMinReputation taskId n => exact (progresses_setMinReputation n).progress
  | setCapabilities taskId capabilities => exact (progresses_setCapabilities capabilities).progress
  | cancelTask => exact progresses_cancelTask.progress
  | claimTask _ claimant deadline => exact (progresses_claimTask claimant deadline).progress
  | joinConsensusTask taskId agent now filledAt =>
    refine (progresses_joinConsensusTask fun t kind ht hkind => ?_).progress
    obtain ⟨hpos, hle⟩ := ((hs.sound _ t ht).life.staffed kind hkind).window
    exact OnClock.addMinutes_ne_none hop hpos hle
  | submit _ submitter outputHash => exact (progresses_submit submitter outputHash).progress
  | submitContestAnswer _ submitter answer now =>
    exact (progresses_submitContestAnswer submitter answer now).progress
  | closeContest _ caller now => exact (progresses_closeContest caller now).progress
  | pickAnswer _ caller answerer now => exact (progresses_pickAnswer caller answerer now).progress
  | resolveDispute _ outcome => exact (progresses_resolveDispute outcome).progress
  | submitConsensusAnswer _ agent answer now =>
    exact (progresses_submitConsensusAnswer agent answer now).progress
  | resolveExpiredConsensusTasks now =>
    exact (progresses_resolveExpiredConsensusTasks hs.keyed now).progress
  | closeUnclosedContests now => exact (progresses_closeUnclosedContests now).progress
  | splitUnpickedContests now => exact (progresses_splitUnpickedContests now).progress
  | finalizeUnchallengedDisputableTasks now =>
    exact (progresses_finalizeUnchallengedDisputableTasks now).progress
  | cancelUnderstaffedConsensusTasks now =>
    exact (progresses_cancelUnderstaffedConsensusTasks now).progress
  | expireClaims now => exact (progresses_expireClaims now).progress
  | _ => first | exact hworks.elim | exact absurd trivial hworks

/-- What is neither paid nor credited only moves tasks along. -/
theorem TaskOp.worked (hs : s.board.Tidy) (hop : op.Enabled s) (hne : ¬ op.Settles) :
    Worked s.board (op.apply s.board) := by
  by_cases hworks : op.Works
  · exact (TaskOp.progress hs hop hworks).worked
  cases op with
  | createTask taskId createdAt poster description bounty hash =>
    refine worked_restoreTask hop ⟨rfl, rfl, rfl, rfl, rfl, fun _ hk => ?_, fun _ hk => ?_⟩
    · cases hk
    · cases hk
  | createConsensusTask =>
    obtain ⟨hnew, hwindow⟩ := hop
    refine worked_restoreTask hnew ⟨rfl, rfl, rfl, rfl, rfl, fun _ hk => ?_, fun _ hk => ?_⟩
    · obtain rfl := TaskKind.consensus.inj hk
      exact ⟨rfl, hwindow⟩
    · cases hk
  | createDisputableTask =>
    refine worked_restoreTask hop ⟨rfl, rfl, rfl, rfl, rfl, fun _ hk => ?_, fun _ hk => ?_⟩
    · cases hk
    · obtain rfl := TaskKind.disputable.inj hk
      exact ⟨rfl, rfl⟩
  | restorePendingDeposit deposit =>
    refine ⟨.of_eq rfl, rfl, fun hvalid x d hd => ?_, fun _ => rfl, fun _ => rfl⟩
    rw [TaskOp.apply, TaskBoard.restorePendingDeposit, Finmap.lookup_insert_eq] at hd
    split_ifs at hd
    · obtain rfl := Option.some.inj hd
      exact hop
    · exact hvalid x d hd
  | confirmEscrow => exact worked_confirmEscrow hop hs.deposits
  | confirmDisputeBond => exact worked_confirmDisputeBond
  | _ => exact absurd hne hworks

/-- A forfeited bond is credited to its recipient, or overflows. -/
theorem TaskOp.creditForfeitedBond_cases {recipient : PublicKey} {bondAmount : ℕ} {b : TaskBoard} :
    (TaskOp.creditForfeitedBond recipient bondAmount).apply b = b ∨
      (TaskOp.creditForfeitedBond recipient bondAmount).apply b =
        b.restoreReputation recipient { b.reputationOf recipient with
          totalEarned := (b.reputationOf recipient).totalEarned + bondAmount } := by
  have hend : Call.Ends _ _ _ (TaskBoard.creditForfeitedBond recipient bondAmount b) :=
    triple_addEarned _ rfl
  rw [TaskOp.apply]
  generalize TaskBoard.creditForfeitedBond recipient bondAmount b = r at hend
  obtain ⟨b', _ | _ | _⟩ := r
  · exact .inr hend
  · exact hend.elim
  · exact .inl hend.1

/-- The tasks of a board move as `Task.Moves` allows, whatever is done. -/
theorem TaskOp.moved (hs : s.board.Tidy) (hop : op.Enabled s) :
    MovedBy Task.Moves s.board (op.apply s.board) := by
  by_cases hsettles : op.Settles
  · cases op with
    | creditForfeitedBond recipient bondAmount =>
      rcases TaskOp.creditForfeitedBond_cases with h | h <;> rw [h]
      · exact .refl _
      · exact .of_eq rfl
    | recordPayoutAttempt attempt => exact moved_recordPayoutAttempt attempt
    | recordConfirmedPayout now commits taskId recipient amount store =>
      rcases @recordConfirmedPayout_cases ⟨s.board, store⟩ taskId recipient amount now commits
        hs.keyed hs.attemptsKeyed with h | ⟨b, hb, h⟩ | ⟨-, h⟩
      · exact .of_eq h.tasks
      · rw [TaskOp.apply, h]
        exact hb.moved.trans (.of_eq rfl)
      · exact h.moved
    | abandonPayout commits attempt store =>
      rcases abandonPayout_cases (s := ⟨s.board, store⟩) hs.keyed hs.attemptsKeyed with h | h
      · exact .of_eq h.tasks
      · exact h.moved
    | _ => exact hsettles.elim
  · exact (TaskOp.worked hs hop hsettles).moved'

/-- Every operation keeps the board tidy. -/
theorem TaskOp.tidy (hs : s.board.Tidy) (hop : op.Enabled s) : (op.apply s.board).Tidy := by
  have hmoved := TaskOp.moved hs hop
  by_cases hsettles : op.Settles
  · suffices h : (op.apply s.board).AttemptsKeyed ∧ (op.apply s.board).DepositsValidated from
      ⟨hmoved.keyed hs.keyed, h.1, hmoved.sound hs.sound, h.2⟩
    -- Attempts are added under what they pay, or dropped.
    have hsub : ∀ b : TaskBoard, (∀ x a, b.payoutAttempts.lookup x = some a →
        s.board.payoutAttempts.lookup x = some a) → b.AttemptsKeyed :=
      fun b hb x pk a ha => hs.attemptsKeyed x pk a (hb _ a ha)
    have hdeposits : ∀ b : TaskBoard, b.pendingDeposits = s.board.pendingDeposits →
        b.DepositsValidated := fun b hb => by
      rw [DepositsValidated, hb]
      exact hs.deposits
    cases op with
    | creditForfeitedBond recipient bondAmount =>
      rcases TaskOp.creditForfeitedBond_cases with h | h <;> rw [h]
      · exact ⟨hs.attemptsKeyed, hs.deposits⟩
      · exact ⟨hs.attemptsKeyed, hs.deposits⟩
    | recordPayoutAttempt attempt =>
      refine ⟨?_, hdeposits _ ?_⟩
      · rw [TaskOp.apply, AttemptsKeyed, recordPayoutAttempt_attempts]
        exact restorePayoutAttempt_keyed hs.attemptsKeyed
      · rcases s.board.recordPayoutAttempt_cases attempt with h | ⟨t, -, -, -, h⟩ <;>
          rw [TaskOp.apply, h] <;> rfl
    | recordConfirmedPayout now commits taskId recipient amount store =>
      rcases @recordConfirmedPayout_cases ⟨s.board, store⟩ taskId recipient amount now commits
        hs.keyed hs.attemptsKeyed with h | ⟨b, hb, h⟩ | ⟨-, _, _, _, _, -, -, -, -, h, h'⟩
      · exact ⟨hsub _ fun x a ha => h.attempts ▸ ha, hdeposits _ h.deposits⟩
      · obtain ⟨-, hd, ha, -⟩ := hb.frame
        refine ⟨hsub _ fun x a hx => ?_, hdeposits _ (by rw [TaskOp.apply, h]; exact hd)⟩
        rw [TaskOp.apply, h, clearPayoutAttempt, Finmap.lookup_erase_eq, ha] at hx
        split_ifs at hx
        exact hx
      · exact ⟨hsub _ fun x a ha => h ▸ ha, hdeposits _ h'⟩
    | abandonPayout commits attempt store =>
      rcases abandonPayout_cases (s := ⟨s.board, store⟩) hs.keyed hs.attemptsKeyed with h | h
      · exact ⟨hsub _ fun x a ha => h.attempts ▸ ha, hdeposits _ h.deposits⟩
      · refine ⟨hsub _ fun x a ha => ?_, hdeposits _ h.deposits⟩
        rw [TaskOp.apply, h.attempts] at ha
        split_ifs at ha
        exact ha
    | _ => exact hsettles.elim
  · exact (TaskOp.worked hs hop hsettles).tidy hs

/-- A task of before there were contests is sound. -/
theorem Task.Legacy.sound {t : Task} (h : t.Legacy) : t.Sound := by
  obtain ⟨kind, hkind, hnil⟩ := h.kind
  have hother : ∀ k, t.kind ≠ .consensus k := fun k hk => by rw [hkind] at hk; cases hk
  have hblank : t.Blank := by
    refine ⟨fun k hk => absurd hk (hother k), fun k hk a ha => ?_⟩
    obtain rfl := TaskKind.disputable.inj (hkind.symm.trans hk)
    rw [hnil] at ha
    cases ha
  have hstatus : t.status ∉ [TaskStatus.verified, .submitted, .payoutFailed, .paid] ∧
      t.status ≠ .paid ∧ t.status ≠ .closed ∧ t.status ≠ .awaitingPick := by
    have := h.status
    cases hs : t.status <;> simp_all
  refine ⟨⟨?_, ?_, fun k hk => absurd hk (hother k)⟩, hblank.allotted fun k hk => ?_,
    hblank.unpaid.paidUp hstatus.2.1 (fun hsettled => absurd hsettled hstatus.1)
      fun hs => absurd hs hstatus.2.2.2⟩
  · simp [h.closeReason, hstatus.2.2.1]
  · simp [h.settledAt]
  · obtain rfl := TaskKind.disputable.inj (hkind.symm.trans hk)
    rw [hnil]
    exact List.nodup_nil

/-- A board is tidy at a start. -/
theorem TaskBoard.Started.tidy {b : TaskBoard} (h : b.Started) : b.Tidy where
  keyed x t ht := (h.tasks x t ht).1
  attemptsKeyed x pk a ha := by
    rw [h.attempts, Finmap.lookup_empty] at ha
    cases ha
  sound x t ht := (h.tasks x t ht).2.sound
  deposits := h.deposits

variable {b₀ : TaskBoard} {C : TaskRun → TaskOp → Prop}

/-- The board of every run is tidy. -/
theorem tidy_of_reachable (h : (taskRuns b₀).ReachableBy C s) : s.board.Tidy := by
  refine h.invariant (I := fun s => s.board.Tidy) ?_ ?_
  · rintro _ ⟨hb, rfl⟩
    exact hb.tidy
  · rintro s op _ hs - ⟨hop, rfl⟩
    rw [TaskOp.after_board]
    exact TaskOp.tidy hs hop

/-- A run that continues another moves the tasks it finds along. -/
theorem moved_of_reachable (hs : s.board.Tidy) (h : (taskRunsFrom s).ReachableBy C s') :
    s'.board.Tidy ∧ MovedBy Task.Moves s.board s'.board := by
  refine h.invariant (I := fun s' => s'.board.Tidy ∧ MovedBy Task.Moves s.board s'.board) ?_ ?_
  · rintro _ rfl
    exact ⟨hs, .refl _⟩
  · rintro s₁ op _ ⟨hs₁, hmoved⟩ - ⟨hop, rfl⟩
    rw [TaskOp.after_board]
    exact ⟨TaskOp.tidy hs₁ hop, hmoved.trans (TaskOp.moved hs₁ hop)⟩

/-- A task, where a run finds it and where another that continues it leaves it. -/
theorem movesTo_of_reachable {C' : TaskRun → TaskOp → Prop}
    (hr : (taskRuns b₀).ReachableBy C s) (hr' : (taskRunsFrom s).ReachableBy C' s') {x : Uuid}
    {t : Task} (ht : s.board.tasks.lookup x = some t) :
    ∃ t', s'.board.tasks.lookup x = some t' ∧ t.MovesTo t' :=
  (moved_of_reachable (tidy_of_reachable hr) hr').2.moved x t ht

/-- **The life of a task**, over every run: `Paid`, `Closed` and `PayoutFailed` are never
    left, a settled task is never unsettled, nor a submitted one verified again. A task
    says why it is closed, and when it was settled, exactly when it is; and a consensus
    task that is claimed has all its assignees, and a deadline for their answers. -/
theorem task_lifecycle (hr : (taskRuns b₀).Reachable s) (hr' : (taskRunsFrom s).Reachable s')
    {x : Uuid} {t : Task} (ht : s.board.tasks.lookup x = some t) :
    (∃ t', s'.board.tasks.lookup x = some t' ∧
      (t.status ∈ [TaskStatus.paid, .closed, .payoutFailed] → t'.status = t.status) ∧
      (t.status ∈ [TaskStatus.verified, .submitted, .payoutFailed, .paid] →
        t'.status ∉ [TaskStatus.open, .claimed, .awaitingPick, .awaitingDispute, .disputed]) ∧
      (t.status = .submitted → t'.status ≠ .verified)) ∧
    (t.closeReason.isSome ↔ t.status = .closed) ∧
    (t.settledAt.isSome → t.status = .paid) ∧
    ∀ kind, t.kind = .consensus kind → 1 ≤ kind.numAssignees → t.status = .claimed →
      kind.assignees.keys.card = kind.numAssignees ∧ kind.submissionDeadline.isSome ∧
      (Outcome.expect kind.submissionDeadline : Outcome BoardError DateTime) ≠ .panic := by
  have hlife := ((tidy_of_reachable hr).sound x t ht).life
  obtain ⟨t', ht', hmoves⟩ := movesTo_of_reachable hr hr' ht
  refine ⟨⟨t', ht', fun hfinal => ?_, fun hsettled => ?_, fun hsubmitted => ?_⟩, hlife.closed,
    hlife.settled, fun kind hkind hnum hclaimed => ?_⟩
  · -- The status is the only one it may have.
    have hmem : t'.status ∈ [t.status] := by
      refine hmoves.status_mem (fun a ha b hb => ?_) (List.mem_singleton_self _)
      obtain rfl := List.mem_singleton.1 ha
      revert hb
      cases hs : t.status <;> simp_all [TaskStatus.next]
    exact List.mem_singleton.1 hmem
  · have hmem := hmoves.settled hsettled
    rw [Task.Settled] at hmem
    cases hs : t'.status <;> simp_all
  · have hmem : t'.status ∈ [TaskStatus.submitted, .payoutFailed, .paid] :=
      hmoves.status_mem (by decide) (by rw [hsubmitted]; decide)
    intro hs
    rw [hs] at hmem
    exact absurd hmem (by decide)
  · obtain ⟨hdeadline, hcard⟩ := (hlife.staffed kind hkind).claimed hclaimed
    refine ⟨hcard hnum, hdeadline, fun hpanic => ?_⟩
    rw [Outcome.expect_eq_panic.1 hpanic] at hdeadline
    cases hdeadline

/-- **What a task pays is within its bounty and fixed**, over every run: once it is settled
    its recipients are distinct, their amounts sum to at most the bounty, and no run that
    continues changes them. -/
theorem allocation_fixed (hr : (taskRuns b₀).Reachable s) {x : Uuid} {t : Task}
    (ht : s.board.tasks.lookup x = some t)
    (hsettled : t.status ∈ [TaskStatus.verified, .submitted, .payoutFailed, .paid]) :
    (t.allocatedPayouts.map Prod.fst).Nodup ∧
    (t.allocatedPayouts.map Prod.snd).sum ≤ t.bounty ∧
    ∀ s', (taskRunsFrom s).Reachable s' → ∃ t', s'.board.tasks.lookup x = some t' ∧
      t'.status ∈ [TaskStatus.verified, .submitted, .payoutFailed, .paid] ∧
      t'.allocatedPayouts = t.allocatedPayouts ∧ t'.bounty = t.bounty := by
  have hallotted := ((tidy_of_reachable hr).sound x t ht).allotted
  refine ⟨hallotted.distinct.nodup, hallotted.within hsettled, fun s' hr' => ?_⟩
  obtain ⟨t', ht', hmoves⟩ := movesTo_of_reachable hr hr' ht
  refine ⟨t', ht', hmoves.settled hsettled, hmoves.allocatedPayouts_eq hsettled, ?_⟩
  exact hmoves.preserves (P := fun u => u.bounty = t.bounty)
    (fun _ _ hu hmove => hmove.bounty_eq.trans hu) rfl

/-! A task is created, claimed and verified; its payout is sent, and confirmed. -/

/-- Taking a step of a run. -/
theorem reachable_after {sys : System TaskRun TaskOp} (op : TaskOp) (hr : sys.ReachableBy C s)
    (hsys : ∀ s s', op.Enabled s ∧ s' = op.after s → sys.step s op s') (hC : C s op)
    (hop : op.Enabled s) : sys.ReachableBy C (op.after s) := .step hr hC (hsys _ _ ⟨hop, rfl⟩)

/-- A new board is one to start from. -/
theorem started_new : TaskBoard.new.Started where
  tasks x t ht := by
    rw [TaskBoard.new, Finmap.lookup_empty] at ht
    cases ht
  attempts := rfl
  deposits x d hd := by
    rw [TaskBoard.new, Finmap.lookup_empty] at hd
    cases hd

/-- The task once its output is verified. -/
def sampleVerified (bounty : ℕ) (taskId : Uuid) : Task :=
  { newTask taskId 0 6 "" bounty (.hashMatch 42) with
    status := .verified, claimant := some 7, claimDeadline := some 100 }

def sampleAttempt (bounty : ℕ) (taskId : Uuid) : PayoutAttempt where
  taskId
  recipient := 7
  amount := bounty
  outputHash := 1
  spentInputs := []
  source := 9
  submittedAt := 0
  submissions := 1
  transaction := none

def sampleWork (bounty : ℕ) (taskId : Uuid) : List TaskOp :=
  [.createTask taskId 0 6 "" bounty 42, .claimTask taskId 7 100, .submit taskId 7 42]

def samplePay (bounty : ℕ) (taskId : Uuid) : List TaskOp :=
  [.recordPayoutAttempt (sampleAttempt bounty taskId),
    .recordConfirmedPayout 200 true taskId 7 bounty TaskBoard.new]

/-- The run of some operations, on an empty board. -/
def sampleTaskRun (ops : List TaskOp) : TaskRun := ops.foldl TaskOp.after ⟨TaskBoard.new, [], [], []⟩

theorem sampleTaskRun_verified : (sampleTaskRun (sampleWork 1000 1)).board.tasks.lookup 1 =
    some (sampleVerified 1000 1) := by decide

/-- The three steps that verify a new task. -/
theorem reachable_work {sys : System TaskRun TaskOp} (bounty : ℕ) (taskId : Uuid)
    (hr : sys.ReachableBy C s)
    (hsys : ∀ s op s', op.Enabled s ∧ s' = op.after s → sys.step s op s')
    (hC : ∀ s op, op ∈ sampleWork bounty taskId → C s op) (hnew : taskId ∉ s.board.tasks) :
    sys.ReachableBy C ((sampleWork bounty taskId).foldl TaskOp.after s) := by
  have hcreate := reachable_after (.createTask taskId 0 6 "" bounty 42) hr (fun s => hsys s _)
    (hC _ _ List.mem_cons_self) hnew
  have hclaim := reachable_after (.claimTask taskId 7 100) hcreate (fun s => hsys s _)
    (hC _ _ (by simp [sampleWork])) trivial
  exact reachable_after (.submit taskId 7 42) hclaim (fun s => hsys s _)
    (hC _ _ (by simp [sampleWork])) trivial

/-- The two steps that pay it. -/
theorem reachable_pay {sys : System TaskRun TaskOp} {bounty : ℕ} {taskId : Uuid}
    (hr : sys.Reachable s)
    (hsys : ∀ s op s', op.Enabled s ∧ s' = op.after s → sys.step s op s')
    (ht : s.board.tasks.lookup taskId = some (sampleVerified bounty taskId)) :
    sys.Reachable ((samplePay bounty taskId).foldl TaskOp.after s) := by
  have hsent := reachable_after (.recordPayoutAttempt (sampleAttempt bounty taskId)) hr
    (fun s => hsys s _) trivial ⟨_, ht, List.mem_cons_self, List.mem_cons_self⟩
  exact reachable_after (.recordConfirmedPayout 200 true taskId 7 bounty TaskBoard.new) hsent
    (fun s => hsys s _) trivial ⟨sampleAttempt bounty taskId, List.mem_cons_self, rfl, rfl, rfl⟩

/-- The task is verified in a run of an empty board. -/
theorem reachable_sample (bounty : ℕ) (taskId : Uuid) :
    (taskRuns TaskBoard.new).Reachable (sampleTaskRun (sampleWork bounty taskId)) :=
  reachable_work bounty taskId (.init ⟨started_new, rfl⟩) (fun _ _ _ => id) (fun _ _ _ => trivial)
    Finmap.notMem_empty

theorem task_lifecycle_sample :
    ∃ t', (sampleTaskRun (sampleWork 1000 1 ++ samplePay 1000 1)).board.tasks.lookup 1 = some t' ∧
      t'.status ∉ [TaskStatus.open, .claimed, .awaitingPick, .awaitingDispute, .disputed] := by
  obtain ⟨⟨t', ht', -, hsettled, -⟩, -⟩ := task_lifecycle (reachable_sample 1000 1)
    (reachable_pay (.init rfl) (fun _ _ _ => id) sampleTaskRun_verified) sampleTaskRun_verified
  exact ⟨t', ht', hsettled (by decide)⟩

theorem allocation_fixed_sample :
    ((sampleVerified 1000 1).allocatedPayouts.map Prod.snd).sum ≤ 1000 := by
  exact (allocation_fixed (reachable_sample 1000 1) sampleTaskRun_verified (by decide)).2.1

end

end Itx
