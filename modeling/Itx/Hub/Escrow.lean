import Itx.Chain.Blockchain
import Itx.Hub.Exchange

/-!
# Escrow deposits

A deposit is reserved for a purpose, and confirmed once its address is funded
(`hub/src/board.rs`). Confirming it consumes it, and materialises what it was for: a
task (`confirmEscrow`), a dispute over one (`confirmDisputeBond`), or a credit on the
exchange (`confirmExchangeDeposit`, in `Itx.Hub.Exchange`).

What one confirmation does is said by one lemma for each. An error leaves the board as
it was. A panic need not: the first and the last consume the deposit before they are
done.
-/

namespace Itx

/-- `chrono::Duration::minutes`, none out of range. -/
def Duration.minutes (n : ℤ) : Option Duration :=
  if |n * 60| ≤ 9223372036854775 then some (Duration.seconds (n * 60)) else none

/-- `now + Duration::minutes(n)`, none when it panics. -/
def addMinutes (now : DateTime) (n : ℤ) : Option DateTime :=
  (Duration.minutes n).bind (Blockchain.addDuration now)

/-- The deposit that is a task's bond, when it is disputed. -/
def Task.bondId? (task : Task) : Option Uuid :=
  match task.kind with
  | .disputable kind => kind.dispute.map Dispute.bondEscrowId
  | _ => none

/-- Whether a purpose is to fund a task. -/
def EscrowPurpose.FundsTask : EscrowPurpose → Prop
  | .disputeBond _ _ => False
  | .fundExchangeAccount => False
  | _ => True

instance (purpose : EscrowPurpose) : Decidable purpose.FundsTask :=
  match purpose with
  | .fundHashMatchTask _ => .isTrue trivial
  | .fundConsensusTask _ => .isTrue trivial
  | .fundDisputableTask _ => .isTrue trivial
  | .disputeBond _ _ => .isFalse id
  | .fundExchangeAccount => .isFalse id

/-- The bounty of the task a purpose funds. -/
def EscrowPurpose.bounty? : EscrowPurpose → Option ℕ
  | .fundHashMatchTask intent => some intent.bounty
  | .fundConsensusTask intent => some intent.bounty
  | .fundDisputableTask intent => some intent.bounty
  | _ => none

/-- What a confirmation wants of a deposit, besides its purpose. -/
structure PendingDeposit.Confirmable (deposit : PendingDeposit) (observedAmount : ℕ)
    (now : DateTime) : Prop where
  reserved : deposit.status = .reserved
  live : now ≤ deposit.expiresAt
  funded : deposit.requiredAmount ≤ observedAmount

namespace TaskBoard

open Call

/-! ## Reserving -/

/-- `TaskBoard::reserve_escrow`, with the id it draws and the key derived for an id. -/
def reserveEscrow (derive : Uuid → PublicKey) (id : Uuid) (createdAt : DateTime)
    (depositor : PublicKey) (requiredAmount : ℕ) (purpose : EscrowPurpose) (expiresAt : DateTime) :
    BoardCall PendingDeposit := do
  let deposit : PendingDeposit :=
    { id
      depositor
      depositPubkey := derive id
      requiredAmount
      purpose
      status := .reserved
      createdAt
      expiresAt }
  Call.modify (restorePendingDeposit deposit)
  pure deposit

/-! ## Creating tasks -/

/-- A task as it is created. -/
def newTask (id : Uuid) (createdAt : DateTime) (poster : PublicKey) (description : String)
    (bounty : ℕ) (kind : TaskKind) : Task where
  id
  description
  bounty
  kind
  poster
  status := .open
  claimant := none
  claimDeadline := none
  failedAttempts := 0
  createdAt
  minReputation := 0
  closeReason := none
  escrowId := none
  capabilities := ∅
  settledAt := none

/-- `TaskBoard::create_task`, with the id it draws. -/
def createTask (id : Uuid) (createdAt : DateTime) (poster : PublicKey) (description : String)
    (bounty : ℕ) (expectedOutputHash : Hash) : BoardCall Task := do
  let task := newTask id createdAt poster description bounty (.hashMatch expectedOutputHash)
  Call.modify (restoreTask task)
  pure task

/-- `TaskBoard::create_consensus_task`. -/
def createConsensusTask (id : Uuid) (createdAt : DateTime) (poster : PublicKey)
    (description : String) (bounty numAssignees : ℕ) (joinDeadline : DateTime)
    (submissionWindowMinutes : ℤ) : BoardCall Task := do
  let task := newTask id createdAt poster description bounty (.consensus
    { numAssignees
      joinDeadline
      submissionWindowMinutes
      submissionDeadline := none
      assignees := ∅ })
  Call.modify (restoreTask task)
  pure task

/-- `TaskBoard::create_disputable_task`. -/
def createDisputableTask (id : Uuid) (createdAt : DateTime) (poster : PublicKey)
    (description : String) (bounty : ℕ) (disputeWindowMinutes : ℤ) : BoardCall Task := do
  let task := newTask id createdAt poster description bounty (.disputable
    { answer := none
      disputeWindowMinutes
      disputeDeadline := none
      dispute := none
      answers := []
      pickDeadline := none
      picked := none })
  Call.modify (restoreTask task)
  pure task

/-- `tasks.get_mut(&id)`, and what is written there. -/
def updateTask (id : Uuid) (f : Task → Task) : BoardCall Unit := do
  let s ← Call.get
  let task ← Call.lift (.okOr .notFound (s.tasks.lookup id))
  Call.modify fun s => { s with tasks := s.tasks.insert id (f task) }

/-- `TaskBoard::set_min_reputation`. -/
def setMinReputation (id : Uuid) (minReputation : ℕ) : BoardCall Unit :=
  updateTask id fun task => { task with minReputation }

/-- `TaskBoard::set_capabilities`. -/
def setCapabilities (id : Uuid) (capabilities : Finset String) : BoardCall Unit :=
  updateTask id fun task => { task with capabilities }

/-! ## Confirming -/

/-- The checks every confirmation makes of its deposit. -/
def checkConfirmable (deposit : PendingDeposit) (observedAmount : ℕ) (now : DateTime) :
    Outcome BoardError Unit := do
  Outcome.ensure (deposit.status = .reserved) .escrowNotReserved
  Outcome.ensure (now ≤ deposit.expiresAt) .escrowExpired
  Outcome.ensure (deposit.requiredAmount ≤ observedAmount)
    (.escrowUnderfunded deposit.requiredAmount observedAmount)

/-- The requirements of a task that was just created. -/
def requireOf (taskId : Uuid) (minReputation : ℕ) (capabilities : Finset String) :
    BoardCall Unit := do
  Call.when (0 < minReputation) (Call.unwrap (setMinReputation taskId minReputation))
  Call.when (capabilities ≠ ∅) (Call.unwrap (setCapabilities taskId capabilities))

/-- The task a deposit funds. -/
def fundTask (taskId : Uuid) (createdAt now : DateTime) (depositor : PublicKey) :
    EscrowPurpose → BoardCall Uuid
  | .fundHashMatchTask intent => do
    let task ← createTask taskId createdAt depositor intent.description intent.bounty
      intent.expectedOutputHash
    requireOf task.id intent.minReputation intent.capabilities
    pure task.id
  | .fundConsensusTask intent => do
    let joinDeadline ← Call.lift (.expect (addMinutes now intent.joinWindowMinutes))
    let task ← createConsensusTask taskId createdAt depositor intent.description intent.bounty
      intent.numAssignees joinDeadline intent.submissionWindowMinutes
    requireOf task.id intent.minReputation intent.capabilities
    pure task.id
  | .fundDisputableTask intent => do
    let task ← createDisputableTask taskId createdAt depositor intent.description intent.bounty
      intent.disputeWindowMinutes
    requireOf task.id intent.minReputation intent.capabilities
    pure task.id
  | _ => Call.lift .panic

/-- `TaskBoard::confirm_escrow`, with the id the task it creates draws. -/
def confirmEscrow (id : Uuid) (observedAmount : ℕ) (now : DateTime) (taskId : Uuid)
    (createdAt : DateTime) : BoardCall Task := do
  let s ← Call.get
  let deposit ← Call.lift (.okOr .escrowNotFound (s.pendingDeposits.lookup id))
  Call.lift (Outcome.ensure deposit.purpose.FundsTask .wrongEscrowPurpose)
  Call.lift (checkConfirmable deposit observedAmount now)
  Call.modify fun s =>
    { s with pendingDeposits := s.pendingDeposits.insert id { deposit with status := .consumed } }
  let taskId ← fundTask taskId createdAt now deposit.depositor deposit.purpose
  let s ← Call.get
  let task ← Call.lift (.expect (s.tasks.lookup taskId))
  let task := { task with escrowId := some id }
  Call.modify fun s => { s with tasks := s.tasks.insert taskId task }
  pure task

/-- The purpose of a bond. -/
def bondOf : EscrowPurpose → Outcome BoardError (Uuid × String)
  | .disputeBond taskId reason => .ok (taskId, reason)
  | _ => .err .wrongEscrowPurpose

/-- The contest a dispute is over. -/
def disputableOf (task : Task) : Outcome BoardError DisputableKind :=
  match task.kind with
  | .disputable kind => .ok kind
  | _ => .err .wrongTaskKind

/-- `TaskBoard::confirm_dispute_bond`. -/
def confirmDisputeBond (escrowId : Uuid) (observedAmount : ℕ) (now : DateTime) :
    BoardCall Task := do
  let s ← Call.get
  let deposit ← Call.lift (.okOr .escrowNotFound (s.pendingDeposits.lookup escrowId))
  let (taskId, reason) ← Call.lift (bondOf deposit.purpose)
  Call.lift (checkConfirmable deposit observedAmount now)
  let task ← Call.lift (.okOr .notFound (s.tasks.lookup taskId))
  let kind ← Call.lift (disputableOf task)
  Call.lift (Outcome.ensure (task.status = .awaitingDispute) .disputeWindowClosed)
  let deadline ← Call.lift (.expect kind.disputeDeadline)
  Call.lift (Outcome.ensure (now ≤ deadline) .disputeWindowClosed)
  Call.lift (Outcome.ensure (kind.dispute = none) .alreadyDisputed)
  Call.lift (Outcome.ensure (task.claimant ≠ some deposit.depositor)
    .assigneeCannotDisputeOwnSubmission)
  let dispute : Dispute :=
    { challenger := deposit.depositor
      reason
      bondEscrowId := escrowId
      bondAmount := deposit.requiredAmount
      filedAt := now
      resolution := none }
  let task :=
    { task with kind := .disputable { kind with dispute := some dispute }, status := .disputed }
  Call.modify fun s => { s with tasks := s.tasks.insert taskId task }
  Call.modify fun s =>
    { s with pendingDeposits :=
        s.pendingDeposits.insert escrowId { deposit with status := .consumed } }
  pure task

/-! ## What a confirmation does -/

variable {s s' : TaskBoard} {depositId taskId : Uuid} {observedAmount networkFee : ℕ} {now createdAt : DateTime}
  {deposit : PendingDeposit} {purpose : EscrowPurpose} {depositor : PublicKey}

/-- The board with a deposit consumed. -/
def consume (id : Uuid) (deposit : PendingDeposit) (s : TaskBoard) : TaskBoard :=
  { s with pendingDeposits := s.pendingDeposits.insert id { deposit with status := .consumed } }

theorem checkConfirmable_eq_ok :
    checkConfirmable deposit observedAmount now = .ok () ↔ deposit.Confirmable observedAmount now := by
  constructor
  · intro h
    obtain ⟨_, hreserved, h⟩ := Outcome.bind_eq_ok.1 h
    obtain ⟨_, hlive, hfunded⟩ := Outcome.bind_eq_ok.1 h
    exact ⟨Outcome.ensure_eq_ok.1 hreserved, Outcome.ensure_eq_ok.1 hlive,
      Outcome.ensure_eq_ok.1 hfunded⟩
  · rintro ⟨hreserved, hlive, hfunded⟩
    rw [checkConfirmable, Outcome.ensure_of hreserved, Outcome.ok_bind, Outcome.ensure_of hlive,
      Outcome.ok_bind, Outcome.ensure_of hfunded]

theorem checkConfirmable_ne_panic : checkConfirmable deposit observedAmount now ≠ .panic :=
  Outcome.bind_ne_panic Outcome.ensure_ne_panic fun _ _ =>
    Outcome.bind_ne_panic Outcome.ensure_ne_panic fun _ _ => Outcome.ensure_ne_panic

/-- A task as it is created for a purpose: nothing was done on it yet. -/
structure CreatedFor (purpose : EscrowPurpose) (taskId : Uuid) (task : Task) : Prop where
  id_eq : task.id = taskId
  bounty : purpose.bounty? = some task.bounty
  status : task.status = .open
  claimant : task.claimant = none
  claimDeadline : task.claimDeadline = none
  closeReason : task.closeReason = none
  escrowId : task.escrowId = none
  settledAt : task.settledAt = none
  consensus : ∀ kind, task.kind = .consensus kind → kind.assignees = ∅ ∧ ∃ intent,
    purpose = .fundConsensusTask intent ∧
      kind.submissionWindowMinutes = intent.submissionWindowMinutes
  disputable : ∀ kind, task.kind = .disputable kind → kind.answers = [] ∧ kind.dispute = none

theorem CreatedFor.bondId?_eq {task : Task} (h : CreatedFor purpose taskId task) :
    task.bondId? = none := by
  rw [Task.bondId?]
  split
  · next kind hkind =>
    rw [(h.disputable kind hkind).2]
    rfl
  · rfl

/-- A task just created, and nothing else, is there under a fresh id. -/
def Created (purpose : EscrowPurpose) (taskId : Uuid) (s s' : TaskBoard) : Prop :=
  ∃ task : Task, CreatedFor purpose taskId task ∧
    s' = { s with tasks := s.tasks.insert taskId task }

theorem triple_updateTask {f : Task → Task}
    (hf : ∀ task, CreatedFor purpose taskId task → CreatedFor purpose taskId (f task)) :
    Triple (Created purpose taskId s) (updateTask taskId f) (fun _ => Created purpose taskId s)
      (fun _ _ => False) fun _ => False := by
  refine .get_bind fun s' hs' => ?_
  obtain ⟨task, htask, rfl⟩ := hs'
  refine .lift_bind (Outcome.okOr_eq_ok.2 (Finmap.lookup_insert _)) (.modify fun s' hs' => ?_)
  subst hs'
  refine ⟨f task, hf task htask, ?_⟩
  rw [Finmap.insert_insert]

/-- The requirements of a task change nothing else of it. -/
theorem triple_requireOf (minReputation : ℕ) (capabilities : Finset String) :
    Triple (Created purpose taskId s) (requireOf taskId minReputation capabilities)
      (fun _ => Created purpose taskId s) (fun _ _ => False) fun _ => False := by
  refine .bind (.when (.unwrap (triple_updateTask fun task h => ?_)) fun _ h => h) fun _ =>
    .when (.unwrap (triple_updateTask fun task h => ?_)) fun _ h => h
  · exact { h with }
  · exact { h with }

/-- The task a deposit funds is created, unless its join deadline is out of range. -/
theorem triple_fundTask (hpurpose : purpose.FundsTask) :
    Triple (· = s) (fundTask taskId createdAt now depositor purpose)
      (fun t s' => t = taskId ∧ Created purpose taskId s s') (fun _ _ => False)
      fun s' => s' = s ∧ ∃ intent, purpose = .fundConsensusTask intent ∧
        addMinutes now intent.joinWindowMinutes = none := by
  -- Each purpose creates a task of its kind, then states its requirements.
  have hrest : ∀ {N : TaskBoard → Prop} {create : BoardCall Task} (task : Task)
      (minReputation : ℕ) (capabilities : Finset String), CreatedFor purpose taskId task →
      create = (do Call.modify (restoreTask task); pure task) →
      Triple (· = s)
        (do
          let task ← create
          requireOf task.id minReputation capabilities
          pure task.id)
        (fun t s' => t = taskId ∧ Created purpose taskId s s') (fun _ _ => False) N := by
    rintro N _ task minReputation capabilities htask rfl
    obtain rfl := htask.id_eq
    refine .bind (R := fun t s' => t = task ∧ s' = s.restoreTask task)
      (.modify_bind (.pure fun s' hs' => ⟨rfl, hs'⟩)) fun t => ?_
    refine .of_state fun s₁ hs₁ => ?_
    obtain ⟨rfl, rfl⟩ := hs₁
    refine .bind (R := fun _ => Created purpose t.id s) ?_ fun _ => .pure fun _ h => ⟨rfl, h⟩
    refine (triple_requireOf minReputation capabilities).conseq (fun s' hs' => ?_) (fun _ _ => id)
      (fun _ _ => id) fun _ => False.elim
    exact ⟨t, htask, hs'⟩
  cases purpose with
  | fundHashMatchTask intent =>
    refine hrest _ _ _ ⟨rfl, rfl, rfl, rfl, rfl, rfl, rfl, rfl, ?_, ?_⟩ rfl
    · exact fun _ h => by cases h
    · exact fun _ h => by cases h
  | fundConsensusTask intent =>
    -- The join deadline is set first, and may be out of range.
    refine .expect_bind (fun joinDeadline _ => ?_) fun hnone _ hs => ⟨hs, intent, rfl, hnone⟩
    refine hrest _ _ _ ⟨rfl, rfl, rfl, rfl, rfl, rfl, rfl, rfl, ?_, ?_⟩ rfl
    · rintro _ ⟨⟩
      exact ⟨rfl, intent, rfl, rfl⟩
    · exact fun _ h => by cases h
  | fundDisputableTask intent =>
    refine hrest _ _ _ ⟨rfl, rfl, rfl, rfl, rfl, rfl, rfl, rfl, ?_, ?_⟩ rfl
    · exact fun _ h => by cases h
    · rintro _ ⟨⟩
      exact ⟨rfl, rfl⟩
  | disputeBond _ _ => exact hpurpose.elim
  | fundExchangeAccount => exact hpurpose.elim

/-- `confirm_escrow` consumes the deposit and creates its task, or changes nothing; it
    panics when the join deadline is out of range. -/
theorem triple_confirmEscrow :
    Triple (· = s) (confirmEscrow depositId observedAmount now taskId createdAt)
      (fun task' s' => ∃ deposit task, s.pendingDeposits.lookup depositId = some deposit ∧
        deposit.Confirmable observedAmount now ∧ CreatedFor deposit.purpose taskId task ∧
        task' = { task with escrowId := some depositId } ∧
        s' = { s.consume depositId deposit with tasks := s.tasks.insert taskId task' })
      (fun _ => (· = s))
      fun s' => ∃ deposit intent, s.pendingDeposits.lookup depositId = some deposit ∧
        deposit.purpose = .fundConsensusTask intent ∧ deposit.Confirmable observedAmount now ∧
        addMinutes now intent.joinWindowMinutes = none ∧ s' = s.consume depositId deposit := by
  refine .get_bind fun s₀ hs₀ => ?_
  subst hs₀
  -- The checks come before the deposit is consumed, so they change nothing.
  refine .lift_known (fun deposit hdeposit => ?_) (fun _ _ => rfl) fun h =>
    absurd h Outcome.okOr_ne_panic
  refine .lift_known (fun _ hpurpose => ?_) (fun _ _ => rfl) fun h =>
    absurd h Outcome.ensure_ne_panic
  refine .lift_known (fun _ hcheck => ?_) (fun _ _ => rfl) fun h =>
    absurd h checkConfirmable_ne_panic
  have hconf := checkConfirmable_eq_ok.1 hcheck
  have hdeposit := Outcome.okOr_eq_ok.1 hdeposit
  -- The deposit is consumed before the task is created, and a panic in between leaves it so.
  refine .modify_bind (.bind ((triple_fundTask (Outcome.ensure_eq_ok.1 hpurpose)).conseq
    (fun _ => id) (fun _ _ => id) (fun _ _ => False.elim) fun _ ⟨hs', intent, hintent, hnone⟩ =>
      ⟨deposit, intent, hdeposit, hintent, hconf, hnone, hs'⟩) fun t => ?_)
  refine .get_bind fun s₁ hs₁ => ?_
  obtain ⟨rfl, task, htask, rfl⟩ := hs₁
  refine .lift_bind (Outcome.expect_eq_ok.2 (Finmap.lookup_insert _)) (.modify_bind ?_)
  refine .pure fun s' hs' => ⟨deposit, task, hdeposit, hconf, htask, rfl, ?_⟩
  rw [hs']
  -- The task was inserted twice, first without its escrow.
  exact congrArg (fun tasks => { consume depositId deposit s₀ with tasks }) (Finmap.insert_insert _)

theorem disputableOf_eq_ok {task : Task} {kind : DisputableKind} :
    disputableOf task = .ok kind ↔ task.kind = .disputable kind := by
  rw [disputableOf]
  cases task.kind <;> simp

/-- `confirm_dispute_bond` files the dispute and consumes the bond, or changes nothing. -/
theorem triple_confirmDisputeBond :
    Triple (· = s) (confirmDisputeBond depositId observedAmount now)
      (fun task' s' => ∃ deposit taskId task kind dispute,
        s.pendingDeposits.lookup depositId = some deposit ∧
        deposit.Confirmable observedAmount now ∧ s.tasks.lookup taskId = some task ∧
        task.kind = .disputable kind ∧ task.status = .awaitingDispute ∧ kind.dispute = none ∧
        dispute.bondEscrowId = depositId ∧
        task' = { task with
          kind := .disputable { kind with dispute := some dispute }, status := .disputed } ∧
        s' = { s.consume depositId deposit with tasks := s.tasks.insert taskId task' })
      (fun _ => (· = s)) (· = s) := by
  refine .get_bind fun s₀ hs₀ => ?_
  subst hs₀
  refine .lift_known (fun deposit hdeposit => ?_) (fun _ _ => rfl) fun _ => rfl
  refine .lift_known (fun bond hbond => ?_) (fun _ _ => rfl) fun _ => rfl
  obtain ⟨taskId, reason⟩ := bond
  refine .lift_known (fun _ hcheck => ?_) (fun _ _ => rfl) fun _ => rfl
  refine .lift_known (fun task htask => ?_) (fun _ _ => rfl) fun _ => rfl
  refine .lift_known (fun kind hkind => ?_) (fun _ _ => rfl) fun _ => rfl
  refine .lift_known (fun _ hstatus => ?_) (fun _ _ => rfl) fun _ => rfl
  refine .lift_known (fun deadline _ => ?_) (fun _ _ => rfl) fun _ => rfl
  refine .lift_known (fun _ _ => ?_) (fun _ _ => rfl) fun _ => rfl
  refine .lift_known (fun _ hfree => ?_) (fun _ _ => rfl) fun _ => rfl
  refine .lift_known (fun _ _ => ?_) (fun _ _ => rfl) fun _ => rfl
  -- All checks come before the two writes.
  refine .modify_bind (.modify_bind (.pure fun s' hs' => ?_))
  exact ⟨deposit, taskId, task, kind, _, Outcome.okOr_eq_ok.1 hdeposit,
    checkConfirmable_eq_ok.1 hcheck, Outcome.okOr_eq_ok.1 htask, disputableOf_eq_ok.1 hkind,
    Outcome.ensure_eq_ok.1 hstatus, Outcome.ensure_eq_ok.1 hfree, rfl, rfl, hs'⟩

/-- `confirm_exchange_deposit` consumes the deposit and credits its depositor, or changes
    nothing; it panics when the balance does not fit. -/
theorem triple_confirmDeposit :
    Triple (· = s) (confirmExchangeDeposit depositId observedAmount networkFee now)
      (fun r s' => ∃ deposit, s.pendingDeposits.lookup depositId = some deposit ∧
        deposit.Confirmable observedAmount now ∧
        r = (deposit.depositor, observedAmount - networkFee) ∧
        s' = (s.consume depositId deposit).restoreExchangeAccount deposit.depositor
          { s.exchangeAccount deposit.depositor with baseBalance :=
              (s.exchangeAccount deposit.depositor).baseBalance + (observedAmount - networkFee) })
      (fun _ => (· = s))
      fun _ => ∃ deposit, s.pendingDeposits.lookup depositId = some deposit ∧
        deposit.purpose = .fundExchangeAccount ∧ deposit.Confirmable observedAmount now ∧
        u64Bound ≤ (s.exchangeAccount deposit.depositor).baseBalance +
          (observedAmount - networkFee) := by
  refine .get_bind fun s₀ hs₀ => ?_
  subst hs₀
  refine .lift_known (fun deposit hdeposit => ?_) (fun _ _ => rfl) fun h =>
    absurd h Outcome.okOr_ne_panic
  refine .lift_known (fun _ hpurpose => ?_) (fun _ _ => rfl) fun h =>
    absurd h Outcome.ensure_ne_panic
  refine .lift_known (fun _ hreserved => ?_) (fun _ _ => rfl) fun h =>
    absurd h Outcome.ensure_ne_panic
  refine .lift_known (fun _ hlive => ?_) (fun _ _ => rfl) fun h => absurd h Outcome.ensure_ne_panic
  refine .lift_known (fun _ hfunded => ?_) (fun _ _ => rfl) fun h =>
    absurd h Outcome.ensure_ne_panic
  have hconf : deposit.Confirmable observedAmount now :=
    ⟨Outcome.ensure_eq_ok.1 hreserved, Outcome.ensure_eq_ok.1 hlive, Outcome.ensure_eq_ok.1 hfunded⟩
  have hdeposit := Outcome.okOr_eq_ok.1 hdeposit
  -- Consumed first, then credited: the sum that does not fit panics in between.
  refine .modify_bind (.bind (.get_bind fun s₁ hs₁ => ?_) fun _ => .pure fun _ h => h)
  subst hs₁
  refine .lift_known (fun sum hsum => .modify fun s' hs' => ?_) (fun _ h => ?_) fun h => ?_
  · obtain ⟨rfl, -⟩ := checkedAdd_eq_some.1 (Outcome.expect_eq_ok.1 hsum)
    refine ⟨deposit, hdeposit, hconf, rfl, ?_⟩
    rw [hs']
    rfl
  · exact absurd h Outcome.expect_ne_err
  · refine ⟨deposit, hdeposit, Outcome.ensure_eq_ok.1 hpurpose, hconf, ?_⟩
    exact checked_eq_none.1 (Outcome.expect_eq_panic.1 h)

end TaskBoard

end Itx
