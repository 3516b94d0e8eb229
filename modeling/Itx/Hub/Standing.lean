import Itx.Hub.Deposits
import Itx.Hub.Funding

/-!
# No deposit is stranded

What is kept at the address of a deposit is owed to somebody, and some part of the hub has
to remember it: the deposit itself while it is reserved, the task it funds or the dispute
it is the bond of once it is consumed, a payment of the journal once it is being disbursed.
The sweep asks for what is left to do through selectors over the deposits and the tasks
(`hub/src/board.rs`), each written for one of these.

Over every run of the tasks, the disputes, the exchange and the journal, a deposit stands
in one of nine ways, and in one only (`no_deposit_stranded`); a way that calls for an
action of the sweep is one that a selector returns. The invariant (`Accounted`) is that a
deposit and what it stands for name each other: tasks and bonds name consumed deposits of
their kind, each its own, and the payments of the journal those being disbursed.
-/

namespace Itx

open TaskBoard

/-! ## Selectors -/

namespace TaskBoard

/-- `TaskBoard::escrow_for_task`. -/
def escrowForTask (s : TaskBoard) (taskId : Uuid) : Option PendingDeposit :=
  (s.tasks.lookup taskId).bind fun task => task.escrowId.bind s.pendingDeposits.lookup

/-- `TaskBoard::closed_tasks_with_unrefunded_escrow`. -/
def closedTasksWithUnrefundedEscrow (s : TaskBoard) : List Uuid :=
  ((s.tasks.values.filter fun task => task.status = .closed).filter fun task =>
    (s.escrowForTask task.id).any fun deposit => deposit.status = .consumed).map Task.id

/-- `TaskBoard::verified_unpaid_tasks`. -/
def verifiedUnpaidTasks (s : TaskBoard) : List Task :=
  s.tasks.values.filter fun task => task.status = .verified

/-- The dispute over a task. -/
def disputeOf (task : Task) : Option Dispute :=
  match task.kind with
  | .disputable kind => kind.dispute
  | _ => none

/-- `TaskBoard::tasks_with_unsettled_dispute_bonds`. -/
def tasksWithUnsettledDisputeBonds (s : TaskBoard) : List Uuid :=
  s.tasks.values.filterMap fun task => do
    let d ← disputeOf task
    let _ ← d.resolution
    let bond ← s.pendingDeposits.lookup d.bondEscrowId
    if bond.status = .consumed then some task.id else none

/-- `TaskBoard::unswept_exchange_deposits`. -/
def unsweptExchangeDeposits (s : TaskBoard) : List Uuid :=
  (s.pendingDeposits.values.filter fun d =>
    d.status = .consumed ∧ d.purpose = .fundExchangeAccount).map PendingDeposit.id

end TaskBoard

/-! ## Where a deposit stands -/

/-- The ways a deposit may stand. -/
inductive Standing
  /-- Reserved, and not expired. -/
  | reserved
  /-- Reserved and expired: to be refunded. -/
  | overdue
  /-- Consumed by a task that is not closed. -/
  | funding
  /-- Consumed by a closed task: to be refunded. -/
  | unrefunded
  /-- Consumed by the exchange: to be swept into custody. -/
  | unswept
  /-- The bond of a dispute that is not resolved. -/
  | disputed
  /-- The bond of a resolved dispute: to be settled. -/
  | unsettled
  /-- Being disbursed, by a payment that is not confirmed. -/
  | disbursing
  /-- Disbursed, by a payment that is confirmed. -/
  | refunded
  deriving DecidableEq, Repr

/-- The only payment of a deposit. -/
structure TaskBoard.OnlyPayment (s : TaskBoard) (id : Uuid) (p : Payment) : Prop where
  mem : s.payments.lookup p.id = some p
  pays : p.purpose.depositId? = some id
  only : ∀ pid q, s.payments.lookup pid = some q → q.purpose.depositId? = some id → q = p

/-- What it means for a deposit to stand in a way. -/
def Standing.Holds (s : TaskBoard) (now : DateTime) (d : PendingDeposit) : Standing → Prop
  | reserved => d.status = .reserved ∧ now ≤ d.expiresAt
  | overdue => d.status = .reserved ∧ d.expiresAt < now ∧ d ∈ s.overdueReservedEscrows now
  | funding => d.status = .consumed ∧ ∃ x t, s.tasks.lookup x = some t ∧ t.escrowId = some d.id ∧
      t.status ≠ .closed
  | unrefunded => d.status = .consumed ∧ ∃ x t, s.tasks.lookup x = some t ∧ t.escrowId = some d.id ∧
      t.status = .closed ∧ x ∈ s.closedTasksWithUnrefundedEscrow
  | unswept => d.status = .consumed ∧ d.purpose = .fundExchangeAccount ∧ d.id ∈ s.unsweptExchangeDeposits
  | disputed => d.status = .consumed ∧ ∃ x t dispute, s.tasks.lookup x = some t ∧
      disputeOf t = some dispute ∧ dispute.bondEscrowId = d.id ∧ dispute.resolution = none
  | unsettled => d.status = .consumed ∧ ∃ x t dispute, s.tasks.lookup x = some t ∧
      disputeOf t = some dispute ∧ dispute.bondEscrowId = d.id ∧ x ∈ s.tasksWithUnsettledDisputeBonds
  | disbursing => d.status = .disbursing ∧ ∃ p, s.OnlyPayment d.id p ∧ p.status ≠ .confirmed
  | refunded => d.status = .refunded ∧ ∃ p, s.OnlyPayment d.id p ∧ p.status = .confirmed

/-! ## Runs -/

/-- What is done to the board. -/
inductive EstateOp
  /-- An operation on the tasks, or the confirmation of a deposit for one or for a bond. -/
  | task (op : TaskOp)
  | reserveEscrow (derive : Uuid → PublicKey) (id : Uuid) (createdAt : DateTime)
    (depositor : PublicKey) (requiredAmount : ℕ) (purpose : EscrowPurpose) (expiresAt : DateTime)
  | confirmExchangeDeposit (id : Uuid) (observedAmount networkFee : ℕ) (now : DateTime)
  /-- The exchange and the faucet, which write nothing else. -/
  | ledger (exchangeAccounts : Finmap fun _ : PublicKey => ExchangeAccount)
    (orders : Finmap fun _ : Uuid => Order) (trades : Finmap fun _ : Uuid => Trade)
    (faucetGrants : Finmap fun _ : PublicKey => ℤ)
  /-- A call on the journal of payments. -/
  | journal (op : JournalOp)

namespace EstateOp

variable (c : Crypto)

/-- The state after a step. -/
def after (s : Journal) : EstateOp → Journal
  | task op => { s with hub.board := op.apply s.hub.board }
  | reserveEscrow derive id createdAt depositor requiredAmount purpose expiresAt =>
    { s with hub.board := (TaskBoard.reserveEscrow derive id createdAt depositor requiredAmount
        purpose expiresAt s.hub.board).1 }
  | confirmExchangeDeposit id observedAmount networkFee now =>
    { s with hub.board :=
        (TaskBoard.confirmExchangeDeposit id observedAmount networkFee now s.hub.board).1 }
  | ledger exchangeAccounts orders trades faucetGrants =>
    { s with hub.board := { s.hub.board with exchangeAccounts, orders, trades, faucetGrants } }
  | journal op => op.after c s

/-- What the callers see to: ids are fresh, windows valid and the clock in range. A deposit
    is reserved by `reserveEscrow` only, and nothing is read back from the store. -/
def Enabled (s : Journal) : EstateOp → Prop
  | task (.createTask taskId ..) => taskId ∉ s.hub.board.tasks
  | task (.createConsensusTask taskId ..) => taskId ∉ s.hub.board.tasks
  | task (.createDisputableTask taskId ..) => taskId ∉ s.hub.board.tasks
  | task (.confirmEscrow _ _ now taskId _) => taskId ∉ s.hub.board.tasks ∧ OnClock now
  | task (.restorePendingDeposit _) => False
  | reserveEscrow _ id _ _ _ purpose _ => id ∉ s.hub.board.pendingDeposits ∧ purpose.Joinable
  | journal op => op ≠ .crash ∧ op.Enabled s
  | _ => True

end EstateOp

/-! ## What an operation on the tasks leaves alone -/

/-- The id of a task and the deposits it names. -/
def Task.names (t : Task) : Uuid × Option Uuid × Option Uuid := (t.id, t.escrowId, t.bondId?)

/-- Tasks may have changed, but neither which there are nor the deposits they name; no
    deposit and no payment has. -/
structure TaskBoard.Untouched (b b' : TaskBoard) : Prop where
  tasks : ∀ x, (b'.tasks.lookup x).map Task.names = (b.tasks.lookup x).map Task.names
  deposits : b'.pendingDeposits = b.pendingDeposits
  payments : b'.payments = b.payments

namespace Task

variable {t t' : Task}

/-- A task names its deposits by its kind. -/
theorem names_of_kind (hid : t'.id = t.id) (hescrow : t'.escrowId = t.escrowId)
    (hkind : t'.kind = t.kind) : t'.names = t.names := by
  rw [names, names, hid, hescrow, bondId?, bondId?, hkind]

/-- A vote does not change what its task names. -/
theorem names_of_consensus {kind kind' : ConsensusKind} (hid : t'.id = t.id)
    (hescrow : t'.escrowId = t.escrowId) (hkind : t.kind = .consensus kind)
    (hkind' : t'.kind = .consensus kind') : t'.names = t.names := by
  rw [names, names, hid, hescrow, bondId?, bondId?, hkind, hkind']

/-- A bond is named by the dispute. -/
theorem names_of_disputable {kind kind' : DisputableKind} (hid : t'.id = t.id)
    (hescrow : t'.escrowId = t.escrowId) (hkind : t.kind = .disputable kind)
    (hkind' : t'.kind = .disputable kind')
    (hbond : kind'.dispute.map Dispute.bondEscrowId = kind.dispute.map Dispute.bondEscrowId) :
    t'.names = t.names := by
  rw [names, names, hid, hescrow, bondId?, bondId?, hkind, hkind']
  dsimp only
  rw [hbond]

end Task

namespace TaskBoard

open Call

variable {b s s' : TaskBoard} {id : Uuid} {t t' : Task}

namespace Untouched

/-- Nothing has happened. -/
theorem refl (b : TaskBoard) : Untouched b b := ⟨fun _ => rfl, rfl, rfl⟩

/-- One call that leaves the deposits alone after another. -/
theorem trans (h : Untouched b s) (h' : Untouched s s') : Untouched b s' where
  tasks x := (h'.tasks x).trans (h.tasks x)
  deposits := h'.deposits.trans h.deposits
  payments := h'.payments.trans h.payments

/-- What the deposits of a task were, they are. -/
theorem names_eq (h : Untouched b s) (ht : s.tasks.lookup id = some t) :
    (b.tasks.lookup id).map Task.names = some t.names := by
  rw [← h.tasks id, ht, Option.map_some]

/-- Writing a task with the same names. -/
theorem insert (h : Untouched b s) (ht : (b.tasks.lookup id).map Task.names = some t.names) :
    Untouched b { s with tasks := s.tasks.insert id t } where
  tasks x := by
    rw [Finmap.lookup_insert_eq]
    split_ifs with hx
    · rw [hx, ht, Option.map_some]
    · exact h.tasks x
  deposits := h.deposits
  payments := h.payments

/-- A task is written that names the same deposits. -/
theorem write (h : Untouched b s) (ht : s.tasks.lookup id = some t) (hnames : t'.names = t.names) :
    Untouched b { s with tasks := s.tasks.insert id t' } :=
  h.insert ((h.names_eq ht).trans (congrArg some hnames.symm))

/-- Nothing of a board that it depends on has changed. -/
theorem of_eq (h : Untouched b s) (htasks : s'.tasks = s.tasks)
    (hdeposits : s'.pendingDeposits = s.pendingDeposits) (hpayments : s'.payments = s.payments) :
    Untouched b s' where
  tasks x := by rw [htasks, h.tasks x]
  deposits := hdeposits.trans h.deposits
  payments := hpayments.trans h.payments

end Untouched

/-! ### The constructs of an operation -/

/-- A call on a task leaves the deposits alone, if the task names the same ones after it. -/
theorem untouched_onTask {α : Type} {f : TaskBoard → Task → Outcome BoardError (α × Task)}
    (hf : ∀ s t a t', f s t = .ok (a, t') → t'.names = t.names) :
    Preserves (Untouched b) (onTask id f) := by
  refine .of_state fun s hs => triple_onTask.conseq (fun _ h => h) (fun a s' hs' => ?_)
    (fun _ s' hs' => ?_) fun s' hs' => ?_
  · obtain ⟨t, t', ht, hft, rfl⟩ := hs'
    exact hs.write ht (hf s t a t' hft)
  · rw [hs'.1]
    exact hs
  · rw [hs'.1]
    exact hs

/-- So does an annotation. -/
theorem untouched_updateTask {f : Task → Task} (hf : ∀ t, (f t).names = t.names) :
    Preserves (Untouched b) (updateTask id f) := by
  refine .get_bind fun s hs => .lift_known (fun t ht => ?_) (fun _ _ => hs) fun _ => hs
  refine .modify ?_
  rintro _ rfl
  exact hs.write (Outcome.okOr_eq_ok.1 ht) (hf t)

/-- A call that is left out changes nothing. -/
theorem untouched_when {p : Prop} [Decidable p] {x : BoardCall Unit}
    (hx : Preserves (Untouched b) x) : Preserves (Untouched b) (Call.when p x) := by
  rw [Call.when]
  split_ifs
  · exact hx
  · exact .pure _

/-- Reputations are not of the deposits. -/
theorem untouched_addFailed (pk : PublicKey) : Preserves (Untouched b) (addFailed pk) :=
  .bind .get fun _ => .bind (.lift _) fun _ => .modify fun _ h => h.of_eq rfl rfl rfl

/-- Nor are earnings. -/
theorem untouched_addEarned (pk : PublicKey) (n : ℕ) : Preserves (Untouched b) (addEarned pk n) :=
  .bind .get fun _ => .bind (.lift _) fun _ => .modify fun _ h => h.of_eq rfl rfl rfl

/-- Nor is what an agent has completed. -/
theorem untouched_addCompleted (pk : PublicKey) : Preserves (Untouched b) (addCompleted pk) :=
  .bind .get fun _ => .bind (.lift _) fun _ => .modify fun _ h => h.of_eq rfl rfl rfl

/-- A pass leaves them alone if each of its moves does. -/
theorem untouched_sweepOver {f : Task → Outcome BoardError (Option Task)}
    (hf : ∀ t t', f t = .ok (some t') → t'.names = t.names) (ids : List Uuid) :
    Preserves (Untouched b) (sweepOver f ids) := by
  induction ids with
  | nil => exact .pure _
  | cons x ids ih =>
    refine .get_bind fun s hs => .lift_known (fun moved hmoved => ?_) (fun _ _ => hs) fun _ => hs
    refine Triple.bind (R := fun _ => Untouched b) ?_ fun _ => Triple.bind ih fun _ => .pure fun _ h => h
    cases moved with
    | none =>
      refine .pure ?_
      rintro _ rfl
      exact hs
    | some t' =>
      refine .modify ?_
      rintro s' rfl
      cases ht : s'.tasks.lookup x with
      | none =>
        rw [ht] at hmoved
        cases hmoved
      | some t =>
        rw [ht] at hmoved
        exact hs.write ht (hf t t' hmoved)

/-- It goes over all tasks. -/
theorem untouched_sweep {f : Task → Outcome BoardError (Option Task)}
    (hf : ∀ t t', f t = .ok (some t') → t'.names = t.names) : Preserves (Untouched b) (sweep f) :=
  .bind .get fun _ => untouched_sweepOver hf _

/-! ### The operations -/

theorem untouched_setMinReputation (minReputation : ℕ) :
    Preserves (Untouched b) (setMinReputation id minReputation) :=
  untouched_updateTask fun _ => Task.names_of_kind rfl rfl rfl

theorem untouched_setCapabilities (capabilities : Finset String) :
    Preserves (Untouched b) (setCapabilities id capabilities) :=
  untouched_updateTask fun _ => Task.names_of_kind rfl rfl rfl

/-- A cancelled task still names its escrow, which is to be refunded. -/
theorem untouched_cancelTask : Preserves (Untouched b) (cancelTask id) := by
  refine untouched_onTask fun s t a t' h => ?_
  simp only [Outcome.bind_eq_ok, Outcome.pure_eq, Outcome.ok.injEq, Prod.mk.injEq] at h
  obtain ⟨_, -, _, -, -, rfl⟩ := h
  exact Task.names_of_kind rfl rfl rfl

/-- A claim is of no deposit. -/
theorem untouched_claimTask (claimant : PublicKey) (deadline : DateTime) :
    Preserves (Untouched b) (claimTask id claimant deadline) := by
  refine untouched_onTask fun s t a t' h => ?_
  simp only [Outcome.bind_eq_ok, Outcome.pure_eq, Outcome.ok.injEq, Prod.mk.injEq] at h
  obtain ⟨_, -, _, -, _, -, _, -, -, rfl⟩ := h
  exact Task.names_of_kind rfl rfl rfl

/-- Nor is an assignment. -/
theorem untouched_joinConsensusTask (agent : PublicKey) (now filledAt : DateTime) :
    Preserves (Untouched b) (joinConsensusTask id agent now filledAt) := by
  -- The task is still a consensus one when it is found to be full.
  refine Triple.bind (R := fun _ s => Untouched b s ∧ ∃ t kind, s.tasks.lookup id = some t ∧
    t.kind = .consensus kind) (.of_state fun s hs => triple_onTask.conseq (fun _ h => h)
      (fun a s' hs' => ?_) (fun _ s' hs' => hs'.1 ▸ hs) fun s' hs' => hs'.1 ▸ hs) fun kind => ?_
  · obtain ⟨t, t', ht, hf, rfl⟩ := hs'
    simp only [Outcome.bind_eq_ok, Outcome.pure_eq, Outcome.ok.injEq, Prod.mk.injEq,
      consensusOf_eq_ok] at hf
    obtain ⟨kind, hkind, _, -, _, -, _, -, _, -, _, -, -, rfl⟩ := hf
    exact ⟨hs.write ht (Task.names_of_consensus rfl rfl hkind rfl), _, _, Finmap.lookup_insert _, rfl⟩
  · refine .when (.of_state fun s hs => triple_onTask.conseq (fun _ h => h) (fun a s' hs' => ?_)
      (fun _ s' hs' => hs'.1 ▸ hs.1) fun s' hs' => hs'.1 ▸ hs.1) fun s hs => hs.1
    obtain ⟨t, t', ht, hf, rfl⟩ := hs'
    obtain ⟨hs, t₁, kind₁, ht₁, hkind₁⟩ := hs
    obtain rfl := Option.some.inj (ht₁.symm.trans ht)
    obtain ⟨_, -, hf⟩ := Outcome.bind_eq_ok.1 hf
    obtain ⟨-, rfl⟩ := Prod.mk.inj (Outcome.ok.inj hf)
    exact hs.write ht (Task.names_of_consensus rfl rfl hkind₁ rfl)

/-- Nor is an output. -/
theorem untouched_submit (submitter : PublicKey) (outputHash : Hash) :
    Preserves (Untouched b) (submit id submitter outputHash) := by
  refine .bind (untouched_onTask fun s t a t' h => ?_) fun _ => .bind (untouched_when
    (.bind (untouched_onTask fun s t a t' h => ?_) fun _ => untouched_addFailed _)) fun _ => .pure _
  · simp only [Outcome.bind_eq_ok] at h
    obtain ⟨_, -, _, -, _, -, h⟩ := h
    split_ifs at h
    · obtain ⟨-, rfl⟩ := Prod.mk.inj (Outcome.ok.inj h)
      exact Task.names_of_kind rfl rfl rfl
    · obtain ⟨-, rfl⟩ := Prod.mk.inj (Outcome.ok.inj h)
      exact Task.names_of_kind rfl rfl rfl
  · obtain ⟨_, -, h⟩ := Outcome.bind_eq_ok.1 h
    obtain ⟨-, rfl⟩ := Prod.mk.inj (Outcome.ok.inj h)
    exact Task.names_of_kind rfl rfl rfl

/-- Nor is an entry of a contest. -/
theorem untouched_submitContestAnswer (submitter : PublicKey) (answer : String) (now : DateTime) :
    Preserves (Untouched b) (submitContestAnswer id submitter answer now) := by
  refine untouched_onTask fun s t a t' h => ?_
  simp only [Outcome.bind_eq_ok, Outcome.pure_eq, Outcome.ok.injEq, Prod.mk.injEq,
    disputableOf_eq_ok] at h
  obtain ⟨kind, hkind, _, -, _, -, _, -, _, -, _, -, _, -, _, -, -, rfl⟩ := h
  exact Task.names_of_disputable rfl rfl hkind rfl rfl

/-- A closed contest names the escrow it is paid from. -/
theorem untouched_closeContest (caller : PublicKey) (now : DateTime) :
    Preserves (Untouched b) (closeContest id caller now) := by
  refine untouched_onTask fun s t a t' h => ?_
  simp only [Outcome.bind_eq_ok, disputableOf_eq_ok] at h
  obtain ⟨_, -, kind, hkind, _, -, _, -, _, -, h⟩ := h
  split_ifs at h
  · obtain ⟨-, rfl⟩ := Prod.mk.inj (Outcome.ok.inj h)
    exact Task.names_of_kind rfl rfl rfl
  · obtain ⟨_, -, h⟩ := Outcome.bind_eq_ok.1 h
    obtain ⟨-, rfl⟩ := Prod.mk.inj (Outcome.ok.inj h)
    exact Task.names_of_disputable rfl rfl hkind rfl rfl

/-- So does one with a pick. -/
theorem untouched_pickAnswer (caller answerer : PublicKey) (now : DateTime) :
    Preserves (Untouched b) (pickAnswer id caller answerer now) := by
  refine untouched_onTask fun s t a t' h => ?_
  simp only [Outcome.bind_eq_ok, Outcome.pure_eq, Outcome.ok.injEq, Prod.mk.injEq,
    disputableOf_eq_ok] at h
  obtain ⟨kind, hkind, _, -, _, -, _, -, _, -, -, rfl⟩ := h
  exact Task.names_of_disputable rfl rfl hkind rfl rfl

/-- A dispute keeps its bond when it is resolved. -/
theorem untouched_resolveDispute (outcome : DisputeResolution) :
    Preserves (Untouched b) (resolveDispute id outcome) := by
  refine .bind (untouched_onTask fun s t a t' h => ?_) fun _ => .bind (untouched_addFailed _)
    fun _ => .bind (untouched_onTask fun s t a t' h => ?_) fun _ => .pure _
  · simp only [Outcome.bind_eq_ok, Outcome.pure_eq, Outcome.ok.injEq, Prod.mk.injEq,
      disputableOf_eq_ok, Outcome.expect_eq_ok] at h
    obtain ⟨_, -, claimant, -, kind, hkind, d, hd, -, rfl⟩ := h
    exact Task.names_of_disputable rfl rfl hkind rfl (by rw [hd]; rfl)
  · obtain ⟨-, rfl⟩ := Prod.mk.inj (Outcome.ok.inj h)
    exact Task.names_of_kind rfl rfl rfl

/-- A vote does not change what is paid from. -/
theorem names_resolved {kind : ConsensusKind} (hkind : t.kind = .consensus kind)
    (winningAnswer : Option String) : (resolved t kind winningAnswer).names = t.names := by
  cases winningAnswer with
  | none => exact Task.names_of_kind rfl rfl rfl
  | some w => exact Task.names_of_consensus rfl rfl hkind rfl

/-- So the task names the same escrow after it. -/
theorem untouched_resolveConsensus : Preserves (Untouched b) (resolveConsensus id) := by
  refine .get_bind fun s hs => ?_
  have hsame : ∀ s', s' = s → Untouched b s' := by
    rintro _ rfl
    exact hs
  split
  · exact .pure hsame
  · next t ht =>
    split
    · next kind hkind =>
      refine Triple.bind (R := fun _ => Untouched b) ?_ fun _ => .modify fun s' hs' => ?_
      · exact (Preserves.forEach fun pk _ => untouched_addFailed pk).conseq hsame (fun _ _ h => h)
          (fun _ _ h => h) fun _ h => h
      · exact hs'.insert (by rw [hs.names_eq ht, names_resolved hkind])
    · exact .pure hsame

/-- And so it does after the last answer. -/
theorem untouched_submitConsensusAnswer (agent : PublicKey) (answer : String) (now : DateTime) :
    Preserves (Untouched b) (submitConsensusAnswer id agent answer now) := by
  refine .bind (untouched_onTask fun s t a t' h => ?_) fun _ =>
    .bind (untouched_when untouched_resolveConsensus) fun _ => .pure _
  simp only [Outcome.bind_eq_ok, Outcome.pure_eq, Outcome.ok.injEq, Prod.mk.injEq,
    consensusOf_eq_ok] at h
  obtain ⟨kind, hkind, _, -, _, -, _, -, _, -, _, -, -, rfl⟩ := h
  exact Task.names_of_consensus rfl rfl hkind rfl

/-- The votes that have expired are counted alike. -/
theorem untouched_resolveExpiredConsensusTasks (now : DateTime) :
    Preserves (Untouched b) (resolveExpiredConsensusTasks now) :=
  .bind .get fun _ => .bind (.forEach fun _ _ => untouched_resolveConsensus) fun _ => .pure _

theorem untouched_closeUnclosedContests (now : DateTime) :
    Preserves (Untouched b) (closeUnclosedContests now) := by
  refine untouched_sweep fun t t' h => ?_
  rw [closeUnclosed] at h
  split_ifs at h
  · obtain ⟨_, -, h⟩ := Outcome.bind_eq_ok.1 h
    have h := Outcome.ok.inj h
    split_ifs at h
    obtain rfl := Option.some.inj h
    exact Task.names_of_kind rfl rfl rfl
  · cases Outcome.ok.inj h

theorem untouched_splitUnpickedContests (now : DateTime) :
    Preserves (Untouched b) (splitUnpickedContests now) := by
  refine untouched_sweep fun t t' h => ?_
  rw [splitUnpicked] at h
  split at h
  · next kind hkind =>
    split_ifs at h
    · obtain rfl := Option.some.inj (Outcome.ok.inj h)
      exact Task.names_of_disputable rfl rfl hkind rfl rfl
    · cases Outcome.ok.inj h
  · cases Outcome.ok.inj h

theorem untouched_finalizeUnchallengedDisputableTasks (now : DateTime) :
    Preserves (Untouched b) (finalizeUnchallengedDisputableTasks now) := by
  refine untouched_sweep fun t t' h => ?_
  rw [finalizeUnchallenged] at h
  split at h
  · split_ifs at h
    · obtain rfl := Option.some.inj (Outcome.ok.inj h)
      exact Task.names_of_kind rfl rfl rfl
    · cases Outcome.ok.inj h
  · cases Outcome.ok.inj h

theorem untouched_cancelUnderstaffedConsensusTasks (now : DateTime) :
    Preserves (Untouched b) (cancelUnderstaffedConsensusTasks now) := by
  refine untouched_sweep fun t t' h => ?_
  rw [cancelUnderstaffed] at h
  split at h
  · split_ifs at h
    · obtain rfl := Option.some.inj (Outcome.ok.inj h)
      exact Task.names_of_kind rfl rfl rfl
    · cases Outcome.ok.inj h
  · cases Outcome.ok.inj h

theorem untouched_expireClaims (now : DateTime) : Preserves (Untouched b) (expireClaims now) := by
  refine untouched_sweep fun t t' h => ?_
  rw [expireClaim] at h
  split_ifs at h
  · obtain rfl := Option.some.inj (Outcome.ok.inj h)
    exact Task.names_of_kind rfl rfl rfl
  · cases Outcome.ok.inj h

/-! ### Payouts -/

/-- A task that is paid names what it was paid from. -/
theorem names_paidTask {recipient : PublicKey} {kind : TaskKind} {nowFullyPaid credited : Bool}
    (h : t.payRecipient recipient = .ok (some (kind, nowFullyPaid, credited))) (now : DateTime) :
    (paidTask t now kind nowFullyPaid).names = t.names := by
  have hid : (paidTask t now kind nowFullyPaid).id = t.id := by
    rw [paidTask]
    split_ifs <;> rfl
  have hescrow : (paidTask t now kind nowFullyPaid).escrowId = t.escrowId := by
    rw [paidTask]
    split_ifs <;> rfl
  have hpaid : (paidTask t now kind nowFullyPaid).kind = kind := Task.paidTask_kind ..
  cases Task.pays_of_payRecipient h with
  | hashMatch hkind => exact Task.names_of_kind hid hescrow (hpaid.trans hkind.symm)
  | consensus hkind => exact Task.names_of_consensus hid hescrow hkind hpaid
  | contest hkind => exact Task.names_of_disputable hid hescrow hkind hpaid rfl
  | single hkind => exact Task.names_of_kind hid hescrow (hpaid.trans hkind.symm)

/-- So it does when a recipient is marked as paid. -/
theorem untouched_markRecipientPaid (recipient : PublicKey) (amount : ℕ) (now : DateTime) :
    Preserves (Untouched b) (markRecipientPaid id recipient amount now) := by
  refine .bind (untouched_onTask fun s t a t' h => ?_) fun paid => ?_
  · simp only [Outcome.bind_eq_ok, Outcome.pure_eq, Outcome.ok.injEq, Prod.mk.injEq] at h
    obtain ⟨_, -, paid, hpaid, -, rfl⟩ := h
    cases paid with
    | none => rfl
    | some p => exact names_paidTask hpaid now
  · split
    · exact .pure _
    · exact .bind (untouched_when (untouched_addCompleted _)) fun _ =>
        .bind (untouched_addEarned _ _) fun _ => .pure _

/-- And so it does when its payout is given up. -/
theorem untouched_markPayoutFailed : Preserves (Untouched b) (markPayoutFailed id) := by
  refine .bind (untouched_onTask fun s t a t' h => ?_) fun _ => .bind .get fun _ =>
    .bind (.modify fun _ h => h.of_eq rfl rfl rfl) fun _ => .pure _
  simp only [Outcome.bind_eq_ok, Outcome.pure_eq, Outcome.ok.injEq, Prod.mk.injEq] at h
  obtain ⟨_, -, -, rfl⟩ := h
  exact Task.names_of_kind rfl rfl rfl

/-- Putting a task back as it was. -/
theorem Untouched.rollback (h : Untouched b s) (hb : b.TasksKeyed) (id : Uuid) :
    Untouched b ((b.tasks.lookup id).elim s fun task => s.restoreTask task) := by
  cases ht : b.tasks.lookup id with
  | none => exact h
  | some t =>
    refine h.insert ?_
    rw [hb id t ht, ht, Option.map_some]

/-- Whether the payout is saved as paid or put back, the deposits are as they were. -/
theorem untouched_recordConfirmedPayout {store : TaskBoard} (hb : b.TasksKeyed) (now : DateTime)
    (commits : Bool) (taskId : Uuid) (recipient : PublicKey) (amount : ℕ) :
    Untouched b (recordConfirmedPayout now commits taskId recipient amount ⟨b, store⟩).1.board := by
  have hmark : Untouched b (markRecipientPaid taskId recipient amount now b).1 :=
    (untouched_markRecipientPaid recipient amount now).apply (.refl b)
  rw [recordConfirmedPayout]
  generalize markRecipientPaid taskId recipient amount now b = r at hmark
  obtain ⟨board, paid | e | _⟩ := r
  · have hclear : Untouched b (board.clearPayoutAttempt taskId recipient) := hmark.of_eq rfl rfl rfl
    dsimp only
    split
    · exact hclear
    · split_ifs
      · exact hclear
      · have hback := hclear.rollback hb taskId
        rw [rollbackPayout]
        cases b.payoutAttempt taskId recipient with
        | none => exact hback.of_eq rfl rfl rfl
        | some a => exact hback.of_eq rfl rfl rfl
  · exact hmark
  · exact hmark

/-- So they are when it is given up, or is not. -/
theorem untouched_abandonPayout {store : TaskBoard} (hb : b.TasksKeyed) (commits : Bool)
    (attempt : PayoutAttempt) :
    Untouched b (abandonPayout commits attempt ⟨b, store⟩).1.board := by
  have hmark : Untouched b (markPayoutFailed attempt.taskId b).1 :=
    untouched_markPayoutFailed.apply (.refl b)
  rw [abandonPayout]
  generalize markPayoutFailed attempt.taskId b = r at hmark
  obtain ⟨board, dropped | e | _⟩ := r
  · dsimp only
    split
    · exact hmark
    · split_ifs
      · exact hmark
      · obtain ⟨attempts, hframe⟩ := @restoreAll_frame
          ((b.tasks.lookup attempt.taskId).elim board fun task => board.restoreTask task) dropped
        dsimp only
        rw [hframe]
        exact (hmark.rollback hb attempt.taskId).of_eq rfl rfl rfl
  · exact hmark
  · exact hmark

/-- An attempt is of no deposit. -/
theorem untouched_recordPayoutAttempt (attempt : PayoutAttempt) :
    Untouched b (b.recordPayoutAttempt attempt) := by
  have hattempt : Untouched b (b.restorePayoutAttempt attempt) := (Untouched.refl b).of_eq rfl rfl rfl
  rcases b.recordPayoutAttempt_cases attempt with h | ⟨t, ht, -, -, h⟩ <;> rw [h]
  · exact hattempt
  · have hnames : Task.names { t with status := .submitted } = t.names := Task.names_of_kind rfl rfl rfl
    exact hattempt.write ht hnames

end TaskBoard

/-- The operations that create a task, or touch a deposit. -/
def TaskOp.Touches : TaskOp → Prop
  | createTask .. => True
  | createConsensusTask .. => True
  | createDisputableTask .. => True
  | restorePendingDeposit _ => True
  | confirmEscrow .. => True
  | confirmDisputeBond .. => True
  | _ => False

/-- Every step of the tasks leaves the deposits alone, but for those that say what they do to
    one. -/
theorem TaskOp.untouched {b : TaskBoard} (hb : b.TasksKeyed) {op : TaskOp} (hop : ¬ op.Touches) :
    Untouched b (op.apply b) := by
  cases op with
  | setMinReputation _ n => exact (untouched_setMinReputation n).apply (.refl b)
  | setCapabilities _ capabilities => exact (untouched_setCapabilities capabilities).apply (.refl b)
  | cancelTask => exact untouched_cancelTask.apply (.refl b)
  | claimTask _ claimant deadline => exact (untouched_claimTask claimant deadline).apply (.refl b)
  | joinConsensusTask _ agent now filledAt =>
    exact (untouched_joinConsensusTask agent now filledAt).apply (.refl b)
  | submit _ submitter outputHash => exact (untouched_submit submitter outputHash).apply (.refl b)
  | submitContestAnswer _ submitter answer now =>
    exact (untouched_submitContestAnswer submitter answer now).apply (.refl b)
  | closeContest _ caller now => exact (untouched_closeContest caller now).apply (.refl b)
  | pickAnswer _ caller answerer now => exact (untouched_pickAnswer caller answerer now).apply (.refl b)
  | resolveDispute _ outcome => exact (untouched_resolveDispute outcome).apply (.refl b)
  | creditForfeitedBond recipient bondAmount => exact (untouched_addEarned recipient bondAmount).apply (.refl b)
  | submitConsensusAnswer _ agent answer now =>
    exact (untouched_submitConsensusAnswer agent answer now).apply (.refl b)
  | resolveExpiredConsensusTasks now => exact (untouched_resolveExpiredConsensusTasks now).apply (.refl b)
  | closeUnclosedContests now => exact (untouched_closeUnclosedContests now).apply (.refl b)
  | splitUnpickedContests now => exact (untouched_splitUnpickedContests now).apply (.refl b)
  | finalizeUnchallengedDisputableTasks now =>
    exact (untouched_finalizeUnchallengedDisputableTasks now).apply (.refl b)
  | cancelUnderstaffedConsensusTasks now =>
    exact (untouched_cancelUnderstaffedConsensusTasks now).apply (.refl b)
  | expireClaims now => exact (untouched_expireClaims now).apply (.refl b)
  | recordPayoutAttempt attempt => exact untouched_recordPayoutAttempt attempt
  | recordConfirmedPayout now commits taskId recipient amount store =>
    exact untouched_recordConfirmedPayout hb now commits taskId recipient amount
  | abandonPayout commits attempt store => exact untouched_abandonPayout hb commits attempt
  | _ => exact absurd trivial hop

/-! ## Deposits and what they stand for -/

/-- What a task names a deposit as. -/
inductive Role
  | escrow
  | bond
  deriving DecidableEq, Repr

/-- The deposit that a task names in a role. -/
def Task.held : Role → Task → Option Uuid
  | .escrow, t => t.escrowId
  | .bond, t => t.bondId?

/-- What a deposit is for, if it is for a task. -/
def EscrowPurpose.role? : EscrowPurpose → Option Role
  | .disputeBond _ _ => some .bond
  | .fundExchangeAccount => none
  | _ => some .escrow

namespace TaskBoard

/-- The deposit that the task `x` names in a role. -/
def heldBy (b : TaskBoard) (role : Role) (x : Uuid) : Option Uuid :=
  (b.tasks.lookup x).bind (Task.held role)

/-- The status of a deposit. -/
def statusOf (b : TaskBoard) (id : Uuid) : Option EscrowStatus :=
  (b.pendingDeposits.lookup id).map PendingDeposit.status

/-- Tasks name deposits made for that, which are more than reserved, each its own; and a
    deposit made for a task has one once it is consumed. -/
structure Named (b : TaskBoard) : Prop where
  named : ∀ role x id, b.heldBy role x = some id → ∃ d, b.pendingDeposits.lookup id = some d ∧
    d.purpose.role? = some role ∧ d.status ≠ .reserved
  once : ∀ role x x' id, b.heldBy role x = some id → b.heldBy role x' = some id → x = x'
  backed : ∀ role id d, b.pendingDeposits.lookup id = some d → d.status = .consumed →
    d.purpose.role? = some role → ∃ x, b.heldBy role x = some id

/-- Payments disburse deposits, each its own, and a deposit that is being disbursed or has
    been has one. -/
structure Journaled (b : TaskBoard) : Prop where
  keyed : ∀ pid p, b.payments.lookup pid = some p → p.id = pid
  submissions : ∀ pid p, b.payments.lookup pid = some p → p.submissions ≤ maxPayoutSubmissions
  paid : ∀ pid p id, b.payments.lookup pid = some p → p.purpose.depositId? = some id →
    b.statusOf id = some p.depositStatus
  alone : ∀ pid p pid' p' id, b.payments.lookup pid = some p → b.payments.lookup pid' = some p' →
    p.purpose.depositId? = some id → p'.purpose.depositId? = some id → pid = pid'
  unpaid : ∀ id, b.statusOf id = some .disbursing ∨ b.statusOf id = some .refunded →
    ∃ pid p, b.payments.lookup pid = some p ∧ p.purpose.depositId? = some id

/-- The deposits of a board are accounted for. -/
structure Accounted (b : TaskBoard) : Prop where
  tasks : b.TasksKeyed
  deposits : b.DepositsKeyed
  joinable : b.DepositsJoinable
  named : b.Named
  journaled : b.Journaled

variable {b b' : TaskBoard} {id x : Uuid} {d : PendingDeposit} {status : EscrowStatus} {role : Role}
  {task : Task} {payment : Payment}

/-! ### What does not matter to them -/

/-- What holds a deposit is the same. -/
theorem Untouched.heldBy_eq (h : Untouched b b') (role : Role) (x : Uuid) :
    b'.heldBy role x = b.heldBy role x := by
  have hnames := h.tasks x
  rw [heldBy, heldBy]
  cases ht : b.tasks.lookup x with
  | none =>
    rw [ht, Option.map_none, Option.map_eq_none_iff] at hnames
    rw [hnames]
  | some t =>
    rw [ht, Option.map_some, Option.map_eq_some_iff] at hnames
    obtain ⟨t', ht', hnames⟩ := hnames
    rw [ht', Option.bind_some, Option.bind_some]
    obtain ⟨-, hnames⟩ := Prod.mk.inj hnames
    obtain ⟨hescrow, hbond⟩ := Prod.mk.inj hnames
    cases role with
    | escrow => exact hescrow
    | bond => exact hbond

/-- The tasks stand under the same ids. -/
theorem Untouched.keyed (h : Untouched b b') (hb : b.TasksKeyed) : b'.TasksKeyed := by
  intro x t' ht'
  have hnames := h.tasks x
  rw [ht', Option.map_some, eq_comm, Option.map_eq_some_iff] at hnames
  obtain ⟨t, ht, hnames⟩ := hnames
  rw [← (Prod.mk.inj hnames).1, hb x t ht]

/-- What is named depends on the deposits and on what holds them. -/
theorem Named.congr (h : b.Named) (hdeposits : b'.pendingDeposits = b.pendingDeposits)
    (hheld : ∀ role x, b'.heldBy role x = b.heldBy role x) : b'.Named where
  named role x id hid := by
    rw [hheld] at hid
    rw [hdeposits]
    exact h.named role x id hid
  once role x x' id hid hid' := by
    rw [hheld] at hid hid'
    exact h.once role x x' id hid hid'
  backed role id d hd hstatus hrole := by
    rw [hdeposits] at hd
    obtain ⟨x, hx⟩ := h.backed role id d hd hstatus hrole
    exact ⟨x, by rw [hheld, hx]⟩

/-- What is journaled depends on the payments and on the status of the deposits. -/
theorem Journaled.congr (h : b.Journaled) (hpayments : b'.payments = b.payments)
    (hstatus : ∀ id, b'.statusOf id = b.statusOf id) : b'.Journaled where
  keyed := hpayments ▸ h.keyed
  submissions := hpayments ▸ h.submissions
  paid pid p id hp hid := by
    rw [hpayments] at hp
    rw [hstatus]
    exact h.paid pid p id hp hid
  alone := hpayments ▸ h.alone
  unpaid id hid := by
    rw [hstatus] at hid
    rw [hpayments]
    exact h.unpaid id hid

/-- The status of a deposit is its own. -/
theorem statusOf_congr (h : b'.pendingDeposits = b.pendingDeposits) (id : Uuid) :
    b'.statusOf id = b.statusOf id := by
  rw [statusOf, statusOf, h]

/-- So a step that leaves the deposits alone leaves them accounted for. -/
theorem Untouched.accounted (h : Untouched b b') (hb : b.Accounted) : b'.Accounted where
  tasks := h.keyed hb.tasks
  deposits := by
    rw [DepositsKeyed, h.deposits]
    exact hb.deposits
  joinable := by
    rw [DepositsJoinable, h.deposits]
    exact hb.joinable
  named := hb.named.congr h.deposits h.heldBy_eq
  journaled := hb.journaled.congr h.payments (statusOf_congr h.deposits)

/-! ### Writing a deposit -/

/-- One deposit is written. -/
theorem statusOf_insert (hdeposits : b'.pendingDeposits = b.pendingDeposits.insert id d) (y : Uuid) :
    b'.statusOf y = if y = id then some d.status else b.statusOf y := by
  rw [statusOf, statusOf, hdeposits, Finmap.lookup_insert_eq]
  split_ifs <;> rfl

/-- A deposit is reserved. -/
theorem Named.reserve (h : b.Named) (hfresh : id ∉ b.pendingDeposits) (hreserved : d.status = .reserved)
    (hdeposits : b'.pendingDeposits = b.pendingDeposits.insert id d)
    (hheld : ∀ role x, b'.heldBy role x = b.heldBy role x) : b'.Named where
  named role x y hy := by
    rw [hheld] at hy
    obtain ⟨d', hd', hrole, hstatus⟩ := h.named role x y hy
    refine ⟨d', ?_, hrole, hstatus⟩
    rw [hdeposits, Finmap.lookup_insert_of_ne, hd']
    rintro rfl
    exact hfresh (Finmap.mem_iff.2 ⟨d', hd'⟩)
  once role x x' y hy hy' := by
    rw [hheld] at hy hy'
    exact h.once role x x' y hy hy'
  backed role y d' hd' hstatus hrole := by
    rw [hdeposits, Finmap.lookup_insert_eq] at hd'
    split_ifs at hd'
    · rw [← Option.some.inj hd', hreserved] at hstatus
      cases hstatus
    · obtain ⟨x, hx⟩ := h.backed role y d' hd' hstatus hrole
      exact ⟨x, by rw [hheld, hx]⟩

/-- A deposit moves on, and not to a task. -/
theorem Named.restate (h : b.Named) (hd : b.pendingDeposits.lookup id = some d)
    (hdeposits : b'.pendingDeposits = b.pendingDeposits.insert id { d with status })
    (hheld : ∀ role x, b'.heldBy role x = b.heldBy role x) (hreserved : status ≠ .reserved)
    (hconsumed : status = .consumed → d.purpose.role? = none) : b'.Named where
  named role x y hy := by
    rw [hheld] at hy
    obtain ⟨d', hd', hrole, hstatus⟩ := h.named role x y hy
    rw [hdeposits, Finmap.lookup_insert_eq]
    split_ifs with hyid
    · rw [hyid] at hd'
      obtain rfl := Option.some.inj (hd.symm.trans hd')
      exact ⟨_, rfl, hrole, hreserved⟩
    · exact ⟨d', hd', hrole, hstatus⟩
  once role x x' y hy hy' := by
    rw [hheld] at hy hy'
    exact h.once role x x' y hy hy'
  backed role y d' hd' hstatus hrole := by
    rw [hdeposits, Finmap.lookup_insert_eq] at hd'
    split_ifs at hd'
    · obtain rfl := Option.some.inj hd'
      rw [show d.purpose.role? = some role from hrole] at hconsumed
      cases hconsumed hstatus
    · obtain ⟨x, hx⟩ := h.backed role y d' hd' hstatus hrole
      exact ⟨x, by rw [hheld, hx]⟩

/-- A reserved deposit is consumed by a task, which names it. -/
theorem Named.consume (h : b.Named) (hd : b.pendingDeposits.lookup id = some d)
    (hreserved : d.status = .reserved) (hrole : d.purpose.role? = some role)
    (hdeposits : b'.pendingDeposits = b.pendingDeposits.insert id { d with status := .consumed })
    (hnone : b.heldBy role x = none)
    (hheld : ∀ r y, b'.heldBy r y = if r = role ∧ y = x then some id else b.heldBy r y) : b'.Named := by
  -- No other task names a deposit that is only reserved.
  have hfree : ∀ r y, b.heldBy r y ≠ some id := fun r y hy => by
    obtain ⟨d', hd', -, hstatus⟩ := h.named r y id hy
    obtain rfl := Option.some.inj (hd.symm.trans hd')
    exact hstatus hreserved
  refine ⟨fun r y z hz => ?_, fun r y y' z hz hz' => ?_, fun r z d' hd' hstatus hr => ?_⟩
  · rw [hdeposits, Finmap.lookup_insert_eq]
    rw [hheld] at hz
    split_ifs at hz with hry
    · obtain rfl := Option.some.inj hz
      rw [if_pos rfl]
      exact ⟨_, rfl, by rw [hry.1]; exact hrole, nofun⟩
    · rw [if_neg fun he : z = id => hfree r y (he ▸ hz)]
      exact h.named r y z hz
  · -- Of two tasks that name it one is new, and the other would have named a reserved deposit.
    rw [hheld] at hz hz'
    split_ifs at hz hz' with hry hry' hry'
    · rw [hry.2, hry'.2]
    · exact absurd hz' (Option.some.inj hz ▸ hfree r y')
    · exact absurd hz (Option.some.inj hz' ▸ hfree r y)
    · exact h.once r y y' z hz hz'
  · -- The deposit that is consumed has its task, and the others had theirs.
    rw [hdeposits, Finmap.lookup_insert_eq] at hd'
    split_ifs at hd' with hzid
    · obtain rfl := Option.some.inj hd'
      obtain rfl := Option.some.inj (hrole.symm.trans hr)
      exact ⟨x, by rw [hheld, if_pos ⟨rfl, rfl⟩, hzid]⟩
    · obtain ⟨y, hy⟩ := h.backed r z d' hd' hstatus hr
      refine ⟨y, ?_⟩
      rw [hheld, if_neg, hy]
      rintro ⟨rfl, rfl⟩
      rw [hnone] at hy
      cases hy

/-- A deposit that no payment disburses is reserved, or consumed. -/
theorem Journaled.restate (h : b.Journaled) (hpayments : b'.payments = b.payments)
    (hstatus : ∀ y, b'.statusOf y = if y = id then some status else b.statusOf y)
    (hfree : b.statusOf id = none ∨ b.statusOf id = some .reserved)
    (hnew : status = .reserved ∨ status = .consumed) : b'.Journaled where
  keyed := hpayments ▸ h.keyed
  submissions := hpayments ▸ h.submissions
  paid pid p y hp hy := by
    rw [hpayments] at hp
    have hpaid := h.paid pid p y hp hy
    rw [hstatus, if_neg, hpaid]
    rintro rfl
    rw [hpaid] at hfree
    rcases p.depositStatus_cases with hp' | hp' <;> simp [hp'] at hfree
  alone := hpayments ▸ h.alone
  unpaid y hy := by
    rw [hpayments]
    rw [hstatus] at hy
    split_ifs at hy
    · rcases hnew with rfl | rfl <;> simp at hy
    · exact h.unpaid y hy

/-! ### Writing a payment -/

/-- A payment is written, new or further on, with the status of the deposit it disburses. -/
theorem Journaled.write (h : b.Journaled)
    (hpayments : b'.payments = b.payments.insert payment.id payment)
    (hsub : payment.submissions ≤ maxPayoutSubmissions)
    (hold : ∀ p, b.payments.lookup payment.id = some p →
      p.purpose.depositId? = payment.purpose.depositId?)
    (halone : ∀ pid p y, b.payments.lookup pid = some p → p.purpose.depositId? = some y →
      payment.purpose.depositId? = some y → pid = payment.id)
    (hstatus : ∀ y, b'.statusOf y =
      if payment.purpose.depositId? = some y then some payment.depositStatus else b.statusOf y) :
    b'.Journaled := by
  -- A payment is the one that is written, or another that was there.
  have hlookup : ∀ pid p, b'.payments.lookup pid = some p →
      pid = payment.id ∧ p = payment ∨ pid ≠ payment.id ∧ b.payments.lookup pid = some p := by
    intro pid p hp
    rw [hpayments, Finmap.lookup_insert_eq] at hp
    split_ifs at hp with he
    · exact .inl ⟨he, (Option.some.inj hp).symm⟩
    · exact .inr ⟨he, hp⟩
  refine ⟨fun pid p hp => ?_, fun pid p hp => ?_, fun pid p y hp hy => ?_,
    fun pid p pid' p' y hp hp' hy hy' => ?_, fun y hy => ?_⟩
  · rcases hlookup pid p hp with ⟨rfl, rfl⟩ | ⟨-, hp⟩
    · rfl
    · exact h.keyed pid p hp
  · rcases hlookup pid p hp with ⟨rfl, rfl⟩ | ⟨-, hp⟩
    · exact hsub
    · exact h.submissions pid p hp
  · rcases hlookup pid p hp with ⟨rfl, rfl⟩ | ⟨hne, hp⟩
    · rw [hstatus, if_pos hy]
    · rw [hstatus, if_neg fun he => hne (halone pid p y hp hy he)]
      exact h.paid pid p y hp hy
  · -- Two payments of one deposit are one, whether it is the one that is written or not.
    rcases hlookup pid p hp with ⟨rfl, rfl⟩ | ⟨-, hp⟩
    · rcases hlookup pid' p' hp' with ⟨rfl, -⟩ | ⟨-, hp'⟩
      · rfl
      · exact (halone pid' p' y hp' hy' hy).symm
    · rcases hlookup pid' p' hp' with ⟨rfl, rfl⟩ | ⟨-, hp'⟩
      · exact halone pid p y hp hy hy'
      · exact h.alone pid p pid' p' y hp hp' hy hy'
  · by_cases hpay : payment.purpose.depositId? = some y
    · exact ⟨payment.id, payment, by rw [hpayments, Finmap.lookup_insert], hpay⟩
    · rw [hstatus, if_neg hpay] at hy
      obtain ⟨pid, p, hp, hpy⟩ := h.unpaid y hy
      refine ⟨pid, p, ?_, hpy⟩
      rw [hpayments, Finmap.lookup_insert_of_ne, hp]
      -- The payment that is written over is of the same deposit.
      rintro rfl
      exact hpay (by rw [← hold p hp, hpy])

/-! ### The operations -/

namespace Accounted

variable {depositId taskId : Uuid} {observedAmount networkFee : ℕ} {now createdAt : DateTime}

/-- A deposit changes its status only. -/
theorem restated (h : b.Accounted) (hd : b.pendingDeposits.lookup id = some d)
    (hdeposits : b'.pendingDeposits = b.pendingDeposits.insert id { d with status }) :
    b'.DepositsKeyed ∧ b'.DepositsJoinable := by
  refine ⟨fun y d' hd' => ?_, h.joinable.restate hd hdeposits⟩
  rw [hdeposits, Finmap.lookup_insert_eq] at hd'
  split_ifs at hd' with hy
  · rw [← Option.some.inj hd', hy]
    exact h.deposits id d hd
  · exact h.deposits y d' hd'

/-- A deposit that is reserved is new, and nothing holds it. -/
theorem reserve (h : b.Accounted) (hfresh : d.id ∉ b.pendingDeposits) (hreserved : d.status = .reserved)
    (hjoinable : d.purpose.Joinable) : (b.restorePendingDeposit d).Accounted where
  tasks := h.tasks
  deposits := DepositsKeyed.insert h.deposits rfl
  joinable := h.joinable.restore hjoinable
  named := h.named.reserve hfresh hreserved rfl fun _ _ => rfl
  journaled := by
    refine h.journaled.restate rfl (statusOf_insert rfl) (.inl ?_) (.inl hreserved)
    rw [statusOf, Finmap.lookup_eq_none.2 hfresh, Option.map_none]

/-- A task is created that names no deposit. -/
theorem create (h : b.Accounted) (hfresh : task.id ∉ b.tasks) (hescrow : task.escrowId = none)
    (hbond : task.bondId? = none) : (b.restoreTask task).Accounted where
  tasks := TasksKeyed.insert h.tasks rfl
  deposits := h.deposits
  joinable := h.joinable
  named := by
    refine h.named.congr rfl fun role y => ?_
    rw [heldBy, heldBy, restoreTask, Finmap.lookup_insert_eq]
    split_ifs with hy
    · rw [hy, Finmap.lookup_eq_none.2 hfresh]
      cases role with
      | escrow => exact hescrow
      | bond => exact hbond
    · rfl
  journaled := h.journaled.congr rfl fun _ => rfl

/-- A reserved deposit is consumed by a task that was just written. -/
theorem consume (h : b.Accounted) (hd : b.pendingDeposits.lookup id = some d)
    (hreserved : d.status = .reserved) (hrole : d.purpose.role? = some role) (hid : task.id = x)
    (hnone : b.heldBy role x = none)
    (hheld : ∀ r, task.held r = if r = role then some id else b.heldBy r x) :
    Accounted { b.consume id d with tasks := b.tasks.insert x task } := by
  have hkept : DepositsKeyed { b.consume id d with tasks := b.tasks.insert x task } ∧
      DepositsJoinable { b.consume id d with tasks := b.tasks.insert x task } :=
    h.restated hd rfl
  refine ⟨TasksKeyed.insert h.tasks hid, hkept.1, hkept.2, ?_, ?_⟩
  · refine h.named.consume hd hreserved hrole rfl hnone fun r y => ?_
    rw [heldBy, heldBy, Finmap.lookup_insert_eq]
    by_cases hy : y = x
    · rw [if_pos hy, Option.bind_some, hheld, hy, heldBy]
      simp only [and_true]
    · rw [if_neg hy, if_neg fun he => hy he.2]
  · refine h.journaled.restate rfl (statusOf_insert rfl) (.inr ?_) (.inr rfl)
    rw [statusOf, hd, Option.map_some, hreserved]

/-- A deposit that funds a bounty is held by a task. -/
theorem role?_of_bounty? {purpose : EscrowPurpose} {n : ℕ} (h : purpose.bounty? = some n) :
    purpose.role? = some .escrow := by
  cases purpose with
  | disputeBond _ _ => cases h
  | fundExchangeAccount => cases h
  | _ => rfl

/-- An escrow that is confirmed is held by its new task, from then on and by nothing else. -/
theorem confirmEscrow (h : b.Accounted) (hfresh : taskId ∉ b.tasks) (hnow : OnClock now) :
    (TaskBoard.confirmEscrow depositId observedAmount now taskId createdAt b).1.Accounted ∧
      (TaskBoard.confirmEscrow depositId observedAmount now taskId createdAt b).1.payments = b.payments := by
  have hend : Call.Ends _ _ _ (TaskBoard.confirmEscrow depositId observedAmount now taskId createdAt b) :=
    triple_confirmEscrow _ rfl
  generalize TaskBoard.confirmEscrow depositId observedAmount now taskId createdAt b = r at hend
  obtain ⟨b', task | e | _⟩ := r
  · obtain ⟨d, created, hd, hconf, hcreated, rfl, rfl⟩ := hend
    have hnone : ∀ r, b.heldBy r taskId = none := fun r => by
      rw [heldBy, Finmap.lookup_eq_none.2 hfresh, Option.bind_none]
    refine ⟨h.consume hd hconf.reserved (role?_of_bounty? hcreated.bounty) hcreated.id_eq (hnone _)
      fun r => ?_, rfl⟩
    rw [hnone]
    cases r with
    | escrow => rfl
    | bond => exact hcreated.bondId?_eq
  · obtain rfl : b' = b := hend
    exact ⟨h, rfl⟩
  · -- The join deadline is in range, so there is no panic.
    obtain ⟨d, intent, hd, hpurpose, -, hminutes, -⟩ := hend
    have hjoinable := h.joinable depositId d hd
    rw [hpurpose] at hjoinable
    exact absurd hminutes (hnow.addMinutes_ne_none hjoinable.1 hjoinable.2)

/-- A bond is confirmed for the task it names. -/
theorem triple_bondOf :
    Call.Triple (· = b) (TaskBoard.confirmDisputeBond depositId observedAmount now)
      (fun _ _ => ∃ d, b.pendingDeposits.lookup depositId = some d ∧ d.purpose.role? = some .bond)
      (fun _ _ => True) fun _ => True := by
  refine .get_bind fun s₀ hs₀ => ?_
  subst hs₀
  refine .lift_known (fun d hd => ?_) (fun _ _ => trivial) fun _ => trivial
  refine .lift_known (fun bond hbond => ?_) (fun _ _ => trivial) fun _ => trivial
  have hrole : d.purpose.role? = some .bond := by
    cases hp : d.purpose with
    | disputeBond => rfl
    | _ =>
      rw [hp] at hbond
      cases hbond
  have hbond : ∃ d, s₀.pendingDeposits.lookup depositId = some d ∧ d.purpose.role? = some .bond :=
    ⟨d, Outcome.okOr_eq_ok.1 hd, hrole⟩
  exact .of_forall (fun _ _ => hbond) (fun _ _ => trivial) fun _ => trivial

/-- A bond that is confirmed is held by its dispute. -/
theorem confirmDisputeBond (h : b.Accounted) :
    (TaskBoard.confirmDisputeBond depositId observedAmount now b).1.Accounted ∧
      (TaskBoard.confirmDisputeBond depositId observedAmount now b).1.payments = b.payments := by
  have hend : Call.Ends _ _ _ (TaskBoard.confirmDisputeBond depositId observedAmount now b) :=
    (triple_confirmDisputeBond.and triple_bondOf) _ ⟨rfl, rfl⟩
  generalize TaskBoard.confirmDisputeBond depositId observedAmount now b = r at hend
  obtain ⟨b', task | e | _⟩ := r
  · obtain ⟨⟨d, x, t, kind, dispute, hd, hconf, ht, hkind, -, hfree, hbond, rfl, rfl⟩, d', hd', hrole⟩ := hend
    obtain rfl := Option.some.inj (hd.symm.trans hd')
    have hheld : ∀ r, b.heldBy r x = t.held r := fun r => by rw [heldBy, ht, Option.bind_some]
    refine ⟨h.consume hd hconf.reserved hrole (h.tasks x t ht) ?_ fun r => ?_, rfl⟩
    · rw [hheld, Task.held, Task.bondId?, hkind]
      dsimp only
      rw [hfree, Option.map_none]
    · rw [hheld]
      cases r with
      | escrow => rfl
      | bond => exact congrArg some hbond
  · obtain rfl : b' = b := hend.1
    exact ⟨h, rfl⟩
  · obtain rfl : b' = b := hend.1
    exact ⟨h, rfl⟩

/-- A deposit of the exchange is consumed, whether the balance it is credited to fits or not. -/
theorem triple_consumeExchange :
    Call.Triple (· = b) (TaskBoard.confirmExchangeDeposit depositId observedAmount networkFee now)
      (fun _ b' => ∃ d accounts, b.pendingDeposits.lookup depositId = some d ∧ d.status = .reserved ∧
        d.purpose.role? = none ∧ b' = { b.consume depositId d with exchangeAccounts := accounts })
      (fun _ => (· = b))
      fun b' => ∃ d, b.pendingDeposits.lookup depositId = some d ∧ d.status = .reserved ∧
        d.purpose.role? = none ∧ b' = b.consume depositId d := by
  refine .get_bind fun s₀ hs₀ => ?_
  subst hs₀
  refine .lift_known (fun d hd => ?_) (fun _ _ => rfl) fun h => absurd h Outcome.okOr_ne_panic
  refine .lift_known (fun _ hpurpose => ?_) (fun _ _ => rfl) fun h => absurd h Outcome.ensure_ne_panic
  refine .lift_known (fun _ hreserved => ?_) (fun _ _ => rfl) fun h => absurd h Outcome.ensure_ne_panic
  refine .lift_known (fun _ _ => ?_) (fun _ _ => rfl) fun h => absurd h Outcome.ensure_ne_panic
  refine .lift_known (fun _ _ => ?_) (fun _ _ => rfl) fun h => absurd h Outcome.ensure_ne_panic
  have hd := Outcome.okOr_eq_ok.1 hd
  have hreserved := Outcome.ensure_eq_ok.1 hreserved
  have hrole : d.purpose.role? = none := by rw [Outcome.ensure_eq_ok.1 hpurpose]; rfl
  refine .modify_bind (.bind (.get_bind fun s₁ hs₁ => ?_) fun _ => .pure fun _ h => h)
  subst hs₁
  refine .lift_known (fun sum _ => .modify fun s' hs' => ?_) (fun _ h => ?_) fun _ => ?_
  · subst hs'
    exact ⟨d, _, hd, hreserved, hrole, rfl⟩
  · exact absurd h Outcome.expect_ne_err
  · exact ⟨d, hd, hreserved, hrole, rfl⟩

/-- An exchange deposit is held by nothing. -/
theorem consumeExchange (h : b.Accounted) (hd : b.pendingDeposits.lookup id = some d)
    (hreserved : d.status = .reserved) (hrole : d.purpose.role? = none) : (b.consume id d).Accounted := by
  have hkept : (b.consume id d).DepositsKeyed ∧ (b.consume id d).DepositsJoinable :=
    h.restated hd rfl
  refine ⟨h.tasks, hkept.1, hkept.2, ?_, ?_⟩
  · exact h.named.restate hd rfl (fun _ _ => rfl) nofun fun _ => hrole
  · refine h.journaled.restate rfl (statusOf_insert rfl) (.inr ?_) (.inr rfl)
    rw [statusOf, hd, Option.map_some, hreserved]

/-- So one that is confirmed is accounted for as soon as it is consumed. -/
theorem confirmExchangeDeposit (h : b.Accounted) :
    (TaskBoard.confirmExchangeDeposit depositId observedAmount networkFee now b).1.Accounted ∧
      (TaskBoard.confirmExchangeDeposit depositId observedAmount networkFee now b).1.payments = b.payments := by
  have hend : Call.Ends _ _ _ (TaskBoard.confirmExchangeDeposit depositId observedAmount networkFee now b) :=
    triple_consumeExchange _ rfl
  generalize TaskBoard.confirmExchangeDeposit depositId observedAmount networkFee now b = r at hend
  obtain ⟨b', credited | e | _⟩ := r
  · obtain ⟨d, accounts, hd, hreserved, hrole, rfl⟩ := hend
    have hsame : Untouched (b.consume depositId d)
        { b.consume depositId d with exchangeAccounts := accounts } := ⟨fun _ => rfl, rfl, rfl⟩
    exact ⟨hsame.accounted (h.consumeExchange hd hreserved hrole), rfl⟩
  · obtain rfl : b' = b := hend
    exact ⟨h, rfl⟩
  · obtain ⟨d, hd, hreserved, hrole, rfl⟩ := hend
    exact ⟨h.consumeExchange hd hreserved hrole, rfl⟩

/-! ### The journal -/

/-- A payment is written with the deposit it disburses, or without one. -/
theorem effects {account : Option (PublicKey × ExchangeAccount)} {deposit : Option PendingDeposit}
    {reputation : Option (PublicKey × Reputation)} {faucet : Bool} (h : b.Accounted)
    (hsub : payment.submissions ≤ maxPayoutSubmissions)
    (hold : ∀ p, b.payments.lookup payment.id = some p →
      p.purpose.depositId? = payment.purpose.depositId?)
    (halone : ∀ pid p y, b.payments.lookup pid = some p → p.purpose.depositId? = some y →
      payment.purpose.depositId? = some y → pid = payment.id)
    (hdeposit : (deposit = none ∧ ∀ y, payment.purpose.depositId? = some y →
        b.statusOf y = some payment.depositStatus) ∨
      ∃ y d, payment.purpose.depositId? = some y ∧ b.pendingDeposits.lookup y = some d ∧
        deposit = some { d with status := payment.depositStatus }) :
    (savePaymentEffects payment account deposit reputation faucet b).Accounted := by
  -- The deposit has its status already, or is written with it.
  rcases hdeposit with ⟨rfl, hsame⟩ | ⟨id, d, hid, hd, rfl⟩
  · refine ⟨h.tasks, h.deposits, h.joinable, h.named.congr rfl fun _ _ => rfl, ?_⟩
    refine h.journaled.write rfl hsub hold halone fun y => ?_
    split_ifs with hy
    · exact hsame y hy
    · rfl
  · have hkey : d.id = id := h.deposits id d hd
    have hdeposits : (savePaymentEffects payment account
        (some { d with status := payment.depositStatus }) reputation faucet b).pendingDeposits =
        b.pendingDeposits.insert id { d with status := payment.depositStatus } := by
      rw [← hkey]
      rfl
    obtain ⟨hkeyed, hjoinable⟩ := h.restated hd hdeposits
    refine ⟨h.tasks, hkeyed, hjoinable, ?_, ?_⟩
    · -- It is being disbursed or refunded, so no task has to name it any more.
      refine h.named.restate hd hdeposits (fun _ _ => rfl) ?_ ?_
      · rcases payment.depositStatus_cases with hs | hs <;> rw [hs] <;> nofun
      · rcases payment.depositStatus_cases with hs | hs <;> rw [hs] <;> nofun
    · refine h.journaled.write rfl hsub hold halone fun y => ?_
      rw [statusOf_insert hdeposits, hid]
      by_cases hy : y = id
      · rw [if_pos hy, if_pos (congrArg some hy.symm)]
      · rw [if_neg hy, if_neg fun he => hy (Option.some.inj he).symm]

/-- A payment is journaled together with the deposit it draws on. -/
theorem prepared {account : Option ExchangeAccount} {deposit : Option PendingDeposit} (h : b.Accounted)
    (hfresh : payment.id ∉ b.payments) (hstatus : payment.status ≠ .confirmed)
    (hsub : payment.submissions ≤ maxPayoutSubmissions)
    (hr : Itx.reserve payment b = .ok (account, deposit)) {faucet : Bool} :
    (savePaymentEffects payment (account.map (payment.recipient, ·)) deposit none faucet b).Accounted := by
  have hdisbursing : payment.depositStatus = .disbursing := if_neg hstatus
  refine h.effects hsub (fun p hp => absurd (Finmap.mem_iff.2 ⟨p, hp⟩) hfresh) (fun pid p y hp hy hpay => ?_) ?_
  · rcases reserve_cases hr with ⟨hp', -⟩ | ⟨_, _, hp', -⟩ | ⟨depositId, _, _, d, hp', hno, -⟩
    · rw [hp'] at hpay
      cases hpay
    · rw [hp'] at hpay
      cases hpay
    · rw [hp'] at hpay
      exact absurd (hy.trans hpay.symm) (hno p (Finmap.mem_values.2 ⟨pid, hp⟩))
  · rcases reserve_cases hr with ⟨hp', -, rfl⟩ | ⟨_, _, hp', -, -, -, rfl⟩ |
      ⟨depositId, _, _, d, hp', -, hd, -, rfl⟩
    · refine .inl ⟨rfl, fun y hy => ?_⟩
      rw [hp'] at hy
      cases hy
    · refine .inl ⟨rfl, fun y hy => ?_⟩
      rw [hp'] at hy
      cases hy
    · exact .inr ⟨depositId, d, by rw [hp']; rfl, hd, by rw [hdisbursing]⟩

/-- One that is seen through settles its deposit. -/
theorem confirmed {current : Payment} {deposit : Option PendingDeposit} {reputation : Option Reputation}
    (h : b.Accounted) (hcurrent : b.payments.lookup current.id = some current)
    (hr : confirmEffects { current with status := .confirmed } b = .ok (deposit, reputation)) :
    (savePaymentEffects { current with status := .confirmed } none deposit
      (reputation.map (current.recipient, ·)) false b).Accounted := by
  refine h.effects (h.journaled.submissions _ current hcurrent) (fun p hp => ?_)
    (fun pid p y hp hy hpay => h.journaled.alone pid p _ current y hp hcurrent hy hpay) ?_
  · rw [← Option.some.inj (hcurrent.symm.trans hp)]
  · rcases confirmEffects_cases hr with ⟨hnone, rfl, -⟩ | ⟨depositId, _, _, d, hp, hd, rfl, -⟩
    · refine .inl ⟨rfl, fun y hy => ?_⟩
      rw [hnone] at hy
      cases hy
    · exact .inr ⟨depositId, d, by rw [hp]; rfl, hd, rfl⟩

/-- One that goes on keeps the deposit it draws on. -/
theorem saved {current next : Payment} (h : b.Accounted)
    (hcurrent : b.payments.lookup next.id = some current) (hsame : current.SameAs next)
    (hstatus : current.status ≠ .confirmed) (hnext : next.status ≠ .confirmed)
    (hsub : next.submissions ≤ maxPayoutSubmissions) :
    (savePaymentEffects next none none none false b).Accounted := by
  have hpurpose : next.purpose = current.purpose := by
    obtain ⟨_, _, _, _, rfl⟩ := hsame
    rfl
  refine h.effects hsub (fun p hp => ?_) (fun pid p y hp hy hpay => ?_) (.inl ⟨rfl, fun y hy => ?_⟩)
  · rw [← Option.some.inj (hcurrent.symm.trans hp), hpurpose]
  · rw [hpurpose] at hpay
    exact h.journaled.alone pid p _ current y hp hcurrent hy hpay
  · rw [hpurpose] at hy
    rw [h.journaled.paid _ current y hcurrent hy, Payment.depositStatus, Payment.depositStatus,
      if_neg hstatus, if_neg hnext]

end Accounted

end TaskBoard

/-! ## Runs keep the deposits accounted for -/

/-- What holds throughout a run: the copies of payments that calls hold are earlier
    versions of those of the journal. -/
structure Journal.Accounted (j : Journal) : Prop where
  board : j.hub.board.Accounted
  copies : ∀ p ∈ j.copies, p.status ≠ .confirmed ∧ p.submissions ≤ maxPayoutSubmissions ∧
    ∃ q, j.hub.board.payments.lookup p.id = some q ∧ p.SameAs q

namespace Journal.Accounted

variable {j : Journal} {s' : Hub} {payment : Payment} {b' : TaskBoard}

/-- A step that leaves the payments where they were, or further on. -/
theorem advance (h : j.Accounted) (hboard : s'.board.Accounted) (hfollows : Follows j.hub.board s'.board) :
    (⟨s', j.copies⟩ : Journal).Accounted where
  board := hboard
  copies p hp := by
    obtain ⟨hstatus, hsub, hcopy⟩ := h.copies p hp
    exact ⟨hstatus, hsub, hfollows.copy hcopy⟩

/-- A payment that needs no transaction is seen through at once, or left as it is. -/
theorem confirms (h : j.Accounted) (hp : Confirms payment j.hub s') :
    s'.board.Accounted ∧ Follows j.hub.board s'.board := by
  obtain ⟨current, hcurrent, hstatus, deposit, reputation, hr, hw, -⟩ := hp
  rw [← h.board.journaled.keyed _ current hcurrent] at hcurrent
  rw [hw]
  refine ⟨h.board.confirmed hcurrent hr, ?_⟩
  exact .write { current with status := .confirmed } rfl hcurrent ⟨_, _, _, _, rfl⟩ hstatus

/-- One that is resolved is seen through, goes on, or is left as it is. -/
theorem resolves (h : j.Accounted) (hcopy : payment ∈ j.copies) (hp : Resolves payment j.hub s') :
    s'.board.Accounted ∧ Follows j.hub.board s'.board := by
  obtain ⟨hstatus, -, q, hq, hsame⟩ := h.copies payment hcopy
  rcases hp with rfl | hp | ⟨next, hnext, current, hcurrent, -, hcs, -, hw, -⟩
  · exact ⟨h.board, .refl _⟩
  · exact h.confirms hp
  · have hsame' := hnext.of_current hq hsame hcurrent
    rw [hw]
    exact ⟨h.board.saved hcurrent hsame' (hcs ▸ hstatus) hnext.status hnext.submissions,
      .write next rfl hcurrent hsame' (hcs ▸ hstatus)⟩

/-- A call on the journal that neither crashes nor reads back. -/
theorem journal (c : Crypto) (h : j.Accounted) {op : JournalOp} (hop : op.Enabled j) (hne : op ≠ .crash) :
    (op.after c j).Accounted := by
  cases op with
  | prepare id now purpose source recipient amount transaction chainHeight commits =>
    have hend : Call.Ends _ _ _ (prepare chainHeight commits
        (Payment.new c id now purpose source recipient amount transaction) j.hub) :=
      triple_prepare chainHeight _ rfl
    rw [JournalOp.after]
    generalize prepare chainHeight commits _ j.hub = r at hend
    obtain ⟨s', p | e | _⟩ := r
    · obtain ⟨hp, -, account, deposit, hr, hw, -⟩ := hend
      have hid : p.id = id := by rw [hp]; rfl
      have hstatus : p.status ≠ .confirmed := by simp [hp, Payment.new]
      have hsub : p.submissions ≤ maxPayoutSubmissions := by
        rw [hp]
        exact Nat.le_of_ble_eq_true rfl
      have hfresh : p.id ∉ j.hub.board.payments := hid ▸ hop
      -- The payment is written together with the account or deposit it draws on.
      have hboard : s'.board.Accounted := by
        rw [hw]
        exact h.board.prepared hfresh hstatus hsub hr
      have hfollows : Follows j.hub.board s'.board := by
        rw [hw]
        exact .insert p rfl fun q hq => absurd (Finmap.mem_iff.2 ⟨q, hq⟩) hfresh
      refine ⟨hboard, fun q hq => ?_⟩
      rcases List.mem_cons.1 hq with rfl | hq
      · refine ⟨hstatus, hsub, q, ?_, .refl q⟩
        rw [hw]
        exact Finmap.lookup_insert _
      · exact (h.advance hboard hfollows).copies q hq
    · obtain rfl : s' = j.hub := hend
      exact h
    · exact hend.elim
  | send payment commits =>
    have hend : Call.Ends _ _ _ (send commits payment j.hub) := triple_send _ rfl
    rw [JournalOp.after]
    generalize send commits payment j.hub = r at hend
    obtain ⟨s', _ | e | _⟩ := r
    · rcases hend with rfl | hend
      · exact h
      · obtain ⟨hboard, hfollows⟩ := h.confirms hend
        exact h.advance hboard hfollows
    · obtain rfl : s' = j.hub := hend
      exact h
    · exact hend.elim
  | read =>
    -- What is read are payments of the board that are not confirmed.
    refine ⟨h.board, fun p hp => ?_⟩
    rcases List.mem_append.1 hp with hp | hp
    · exact h.copies p hp
    · rw [List.mem_filter, decide_eq_true_iff] at hp
      obtain ⟨id, hid⟩ := Finmap.mem_values.1 hp.1
      have hkey := h.board.journaled.keyed id p hid
      exact ⟨hp.2, h.board.journaled.submissions id p hid, p, by rw [hkey]; exact hid, .refl p⟩
  | resolve payment now replies commits =>
    obtain ⟨hstatus, hsub, -⟩ := h.copies payment hop
    have hend : Call.Ends _ _ _ (resolve c now replies commits payment j.hub) :=
      triple_resolve c hstatus hsub _ rfl
    rw [JournalOp.after]
    generalize resolve c now replies commits payment j.hub = r at hend
    obtain ⟨s', _ | e | _⟩ := r
    · obtain ⟨hboard, hfollows⟩ := h.resolves hop hend
      exact h.advance hboard hfollows
    · obtain rfl : s' = j.hub := hend
      exact h
    · exact hend.elim
  | crash => exact absurd rfl hne

/-- A step that writes no payment. -/
theorem of_board (h : j.Accounted) (hboard : b'.Accounted) (hpayments : b'.payments = j.hub.board.payments) :
    (⟨⟨b', j.hub.store⟩, j.copies⟩ : Journal).Accounted := by
  refine h.advance hboard fun id p hp => ⟨p, ?_, .refl p, fun _ => rfl⟩
  rw [hpayments]
  exact hp

/-- A step of the tasks confirms one deposit, or leaves all alone. -/
theorem task (h : j.Accounted) (op : TaskOp) (hop : (EstateOp.task op).Enabled j) :
    (op.apply j.hub.board).Accounted ∧ (op.apply j.hub.board).payments = j.hub.board.payments := by
  by_cases htouches : op.Touches
  · cases op with
    | createTask => exact ⟨h.board.create hop rfl rfl, rfl⟩
    | createConsensusTask => exact ⟨h.board.create hop rfl rfl, rfl⟩
    | createDisputableTask => exact ⟨h.board.create hop rfl rfl, rfl⟩
    | restorePendingDeposit => exact hop.elim
    | confirmEscrow => exact h.board.confirmEscrow hop.1 hop.2
    | confirmDisputeBond => exact h.board.confirmDisputeBond
    | _ => exact htouches.elim
  · have huntouched := TaskOp.untouched h.board.tasks htouches
    exact ⟨huntouched.accounted h.board, huntouched.payments⟩

/-- Every step keeps the deposits accounted for. -/
theorem step (c : Crypto) (h : j.Accounted) {op : EstateOp} (hop : op.Enabled j) :
    (op.after c j).Accounted := by
  cases op with
  | task op =>
    obtain ⟨hboard, hpayments⟩ := h.task op hop
    exact h.of_board hboard hpayments
  | reserveEscrow => exact h.of_board (h.board.reserve hop.1 rfl hop.2) rfl
  | confirmExchangeDeposit =>
    obtain ⟨hboard, hpayments⟩ := h.board.confirmExchangeDeposit
    exact h.of_board hboard hpayments
  | ledger exchangeAccounts orders trades faucetGrants =>
    have hsame : Untouched j.hub.board
        { j.hub.board with exchangeAccounts, orders, trades, faucetGrants } := ⟨fun _ => rfl, rfl, rfl⟩
    exact h.of_board (hsame.accounted h.board) rfl
  | journal op => exact h.journal c hop.2 hop.1

end Journal.Accounted

/-- The runs of a hub, from a board whose deposits are accounted for. -/
def estates (c : Crypto) : System Journal EstateOp where
  init := { j | j.hub.board.Accounted ∧ j.copies = [] }
  step j op j' := op.Enabled j ∧ j' = op.after c j

/-- So they are over every run. -/
theorem accounted_of_reachable {c : Crypto} {j : Journal} (hr : (estates c).Reachable j) : j.Accounted := by
  refine hr.invariant (I := Journal.Accounted) ?_ ?_
  · rintro j ⟨hboard, hcopies⟩
    refine ⟨hboard, fun p hp => ?_⟩
    rw [hcopies] at hp
    cases hp
  · rintro j op _ h - ⟨hop, rfl⟩
    exact h.step c hop

/-- A board before any deposit is accounted for. -/
theorem TaskBoard.Undeposited.accounted {b : TaskBoard} (h : b.Undeposited)
    (hsub : ∀ id p, b.payments.lookup id = some p → p.submissions ≤ maxPayoutSubmissions) : b.Accounted := by
  have hdeposit : ∀ {α : Prop} id d, b.pendingDeposits.lookup id = some d → α := by
    intro α id d hd
    rw [h.deposits, Finmap.lookup_empty] at hd
    cases hd
  have hpay : ∀ {α : Prop} id p y, b.payments.lookup id = some p → p.purpose.depositId? = some y → α := by
    intro α id p y hp hy
    rw [(h.payments id p hp).2] at hy
    cases hy
  have hheld : ∀ {α : Prop} role x id, b.heldBy role x = some id → α := by
    intro α role x id hid
    obtain ⟨t, ht, hheld⟩ := Option.bind_eq_some_iff.1 hid
    obtain ⟨-, hescrow, hbond⟩ := h.tasks x t ht
    cases role with
    | escrow =>
      rw [Task.held, hescrow] at hheld
      cases hheld
    | bond =>
      rw [Task.held, hbond] at hheld
      cases hheld
  -- There are no deposits to be named, and no payments that disburse one.
  refine ⟨fun x t ht => (h.tasks x t ht).1, fun id d hd => hdeposit id d hd, fun id d hd => hdeposit id d hd,
    ⟨fun role x id hid => hheld role x id hid, fun role x _ id hid => hheld role x id hid,
      fun _ id d hd => hdeposit id d hd⟩,
    ⟨fun pid p hp => (h.payments pid p hp).1, hsub, fun pid p y hp hy => hpay pid p y hp hy,
      fun pid p _ _ y hp _ hy => hpay pid p y hp hy, fun id hid => ?_⟩⟩
  rw [statusOf, h.deposits, Finmap.lookup_empty] at hid
  simp at hid

/-! ## Every deposit stands in one way -/

section

variable {b : TaskBoard} {id x : Uuid} {d : PendingDeposit} {t : Task} {now : DateTime}

/-- A task that names a consumed deposit as its escrow is returned once it is closed. -/
theorem mem_closedTasksWithUnrefundedEscrow (hb : b.TasksKeyed) (ht : b.tasks.lookup x = some t)
    (hescrow : t.escrowId = some id) (hd : b.pendingDeposits.lookup id = some d)
    (hconsumed : d.status = .consumed) (hclosed : t.status = .closed) :
    x ∈ b.closedTasksWithUnrefundedEscrow := by
  have hid : t.id = x := hb x t ht
  have hfor : b.escrowForTask t.id = some d := by
    rw [escrowForTask, hid, ht, Option.bind_some, hescrow, Option.bind_some, hd]
  refine List.mem_map.2 ⟨t, List.mem_filter.2 ⟨List.mem_filter.2 ⟨?_, decide_eq_true hclosed⟩, ?_⟩, hid⟩
  · exact Finmap.mem_values.2 ⟨x, ht⟩
  · rw [hfor, Option.any_some]
    exact decide_eq_true hconsumed

/-- A resolved dispute whose bond is consumed is returned. -/
theorem mem_tasksWithUnsettledDisputeBonds (hb : b.TasksKeyed) :
    x ∈ b.tasksWithUnsettledDisputeBonds ↔ ∃ t dispute bond, b.tasks.lookup x = some t ∧
      disputeOf t = some dispute ∧ dispute.resolution ≠ none ∧
      b.pendingDeposits.lookup dispute.bondEscrowId = some bond ∧ bond.status = .consumed := by
  rw [tasksWithUnsettledDisputeBonds, List.mem_filterMap]
  constructor
  · rintro ⟨t, ht, hselect⟩
    obtain ⟨y, hy⟩ := Finmap.mem_values.1 ht
    obtain ⟨dispute, hdispute, hselect⟩ := Option.bind_eq_some_iff.1 hselect
    obtain ⟨resolution, hresolution, hselect⟩ := Option.bind_eq_some_iff.1 hselect
    obtain ⟨bond, hbond, hselect⟩ := Option.bind_eq_some_iff.1 hselect
    split_ifs at hselect with hconsumed
    have hyx : y = x := (hb y t hy).symm.trans (Option.some.inj hselect)
    exact ⟨t, dispute, bond, hyx ▸ hy, hdispute, by rw [hresolution]; nofun, hbond, hconsumed⟩
  · rintro ⟨t, dispute, bond, ht, hdispute, hresolution, hbond, hconsumed⟩
    obtain ⟨resolution, hresolution⟩ := Option.ne_none_iff_exists'.1 hresolution
    refine ⟨t, Finmap.mem_values.2 ⟨x, ht⟩, ?_⟩
    rw [hdispute, Option.bind_eq_bind, Option.bind_some, hresolution, Option.bind_eq_bind, Option.bind_some,
      Option.bind_eq_bind, hbond, Option.bind_some, if_pos hconsumed, hb x t ht]

/-- An exchange deposit that is consumed is found by the sweep. -/
theorem mem_unsweptExchangeDeposits (hd : b.pendingDeposits.lookup id = some d)
    (hconsumed : d.status = .consumed) (hpurpose : d.purpose = .fundExchangeAccount) :
    d.id ∈ b.unsweptExchangeDeposits :=
  List.mem_map.2 ⟨d, List.mem_filter.2 ⟨Finmap.mem_values.2 ⟨id, hd⟩,
    decide_eq_true ⟨hconsumed, hpurpose⟩⟩, rfl⟩

/-- A reserved deposit is found by the sweep once it has expired. -/
theorem mem_overdueReservedEscrows (hd : b.pendingDeposits.lookup id = some d) :
    d ∈ b.overdueReservedEscrows now ↔ d.status = .reserved ∧ d.expiresAt < now := by
  rw [overdueReservedEscrows, List.mem_filter, decide_eq_true_iff]
  exact and_iff_right (Finmap.mem_values.2 ⟨id, hd⟩)

/-- The bond of a task is that of its dispute. -/
theorem bondId?_eq (t : Task) : t.bondId? = (disputeOf t).map Dispute.bondEscrowId := by
  rw [Task.bondId?, disputeOf]
  cases t.kind <;> rfl

end

namespace TaskBoard.Accounted

variable {b : TaskBoard} {id x x' : Uuid} {d : PendingDeposit} {t t' : Task} {dispute dispute' : Dispute}

/-- What a task names as its escrow is one. -/
theorem role_escrow (h : b.Accounted) (hd : b.pendingDeposits.lookup id = some d)
    (ht : b.tasks.lookup x = some t) (hescrow : t.escrowId = some id) :
    d.purpose.role? = some .escrow := by
  have hheld : b.heldBy .escrow x = some id := by rw [heldBy, ht]; exact hescrow
  obtain ⟨d', hd', hrole, -⟩ := h.named.named _ x id hheld
  rw [Option.some.inj (hd.symm.trans hd'), hrole]

/-- What a dispute names as its bond is one. -/
theorem role_bond (h : b.Accounted) (hd : b.pendingDeposits.lookup id = some d)
    (ht : b.tasks.lookup x = some t) (hdispute : disputeOf t = some dispute)
    (hbond : dispute.bondEscrowId = id) : d.purpose.role? = some .bond := by
  have hheld : b.heldBy .bond x = some id := by
    rw [heldBy, ht, Option.bind_some, Task.held, bondId?_eq, hdispute, Option.map_some, hbond]
  obtain ⟨d', hd', hrole, -⟩ := h.named.named _ x id hheld
  rw [Option.some.inj (hd.symm.trans hd'), hrole]

/-- A deposit is the escrow of one task. -/
theorem escrow_once (h : b.Accounted) (ht : b.tasks.lookup x = some t) (hescrow : t.escrowId = some id)
    (ht' : b.tasks.lookup x' = some t') (hescrow' : t'.escrowId = some id) : t = t' := by
  have hheld : b.heldBy .escrow x = some id := by rw [heldBy, ht]; exact hescrow
  have hheld' : b.heldBy .escrow x' = some id := by rw [heldBy, ht']; exact hescrow'
  obtain rfl := h.named.once _ x x' id hheld hheld'
  exact Option.some.inj (ht.symm.trans ht')

/-- A deposit is the bond of one dispute. -/
theorem bond_once (h : b.Accounted) (ht : b.tasks.lookup x = some t) (hdispute : disputeOf t = some dispute)
    (hbond : dispute.bondEscrowId = id) (ht' : b.tasks.lookup x' = some t')
    (hdispute' : disputeOf t' = some dispute') (hbond' : dispute'.bondEscrowId = id) :
    x = x' ∧ dispute = dispute' := by
  have hheld : b.heldBy .bond x = some id := by
    rw [heldBy, ht, Option.bind_some, Task.held, bondId?_eq, hdispute, Option.map_some, hbond]
  have hheld' : b.heldBy .bond x' = some id := by
    rw [heldBy, ht', Option.bind_some, Task.held, bondId?_eq, hdispute', Option.map_some, hbond']
  obtain rfl := h.named.once _ x x' id hheld hheld'
  obtain rfl := Option.some.inj (ht.symm.trans ht')
  exact ⟨rfl, Option.some.inj (hdispute.symm.trans hdispute')⟩

/-- The payment of a deposit that is being disbursed, or has been. -/
theorem exists_onlyPayment (h : b.Accounted)
    (hstatus : b.statusOf id = some .disbursing ∨ b.statusOf id = some .refunded) :
    ∃ p, b.OnlyPayment id p ∧ b.statusOf id = some p.depositStatus := by
  obtain ⟨pid, p, hp, hid⟩ := h.journaled.unpaid id hstatus
  have hkey := h.journaled.keyed pid p hp
  refine ⟨p, ⟨hkey ▸ hp, hid, fun pid' q hq hq' => ?_⟩, h.journaled.paid pid p id hp hid⟩
  obtain rfl := h.journaled.alone pid' q pid p id hq hp hq' hid
  exact Option.some.inj (hq.symm.trans hp)

end TaskBoard.Accounted

namespace Standing

/-- The status of a deposit that stands so. -/
def status : Standing → EscrowStatus
  | reserved => .reserved
  | overdue => .reserved
  | disbursing => .disbursing
  | refunded => .refunded
  | _ => .consumed

/-- What a consumed deposit that stands so is for. -/
def role? : Standing → Option Role
  | funding => some .escrow
  | unrefunded => some .escrow
  | disputed => some .bond
  | unsettled => some .bond
  | _ => none

/-- Whether what was waited for has happened: the deposit has expired, its task is closed,
    or the dispute is resolved. -/
def due : Standing → Bool
  | overdue => true
  | unrefunded => true
  | unsettled => true
  | _ => false

/-- A standing is known by its status, what holds the deposit, and what is due. -/
theorem ext (s s' : Standing) (hstatus : s.status = s'.status) (hrole : s.role? = s'.role?)
    (hdue : s.due = s'.due) : s = s' := by
  revert hstatus hrole hdue
  cases s <;> cases s' <;> decide

/-- Only a consumed deposit is held by something. -/
theorem role?_of_status (s : Standing) (hstatus : s.status ≠ .consumed) : s.role? = none := by
  revert hstatus
  cases s <;> decide

/-- The ways that only differ by what was waited for. -/
theorem due_cases (s s' : Standing) (hstatus : s.status = s'.status) (hrole : s.role? = s'.role?)
    (hdue : s.due = false) (hdue' : s'.due = true) : (s = reserved ∧ s' = overdue) ∨
      (s = funding ∧ s' = unrefunded) ∨ (s = disputed ∧ s' = unsettled) := by
  revert hstatus hrole hdue hdue'
  cases s <;> cases s' <;> decide

variable {b : TaskBoard} {id : Uuid} {d : PendingDeposit} {now : DateTime}
  {s s' : Standing}

/-- A deposit has one status. -/
theorem Holds.status_eq (h : s.Holds b now d) : s.status = d.status := by
  cases s <;> exact h.1.symm

/-- What holds it is what it was made for. -/
theorem Holds.role?_eq (hb : b.Accounted) (hd : b.pendingDeposits.lookup id = some d)
    (hconsumed : d.status = .consumed) (h : s.Holds b now d) : s.role? = d.purpose.role? := by
  obtain rfl := hb.deposits id d hd
  cases s with
  | funding =>
    obtain ⟨-, x, t, ht, hescrow, -⟩ := h
    exact (hb.role_escrow hd ht hescrow).symm
  | unrefunded =>
    obtain ⟨-, x, t, ht, hescrow, -⟩ := h
    exact (hb.role_escrow hd ht hescrow).symm
  | unswept => rw [h.2.1]; rfl
  | disputed =>
    obtain ⟨-, x, t, dispute, ht, hdispute, hbond, -⟩ := h
    exact (hb.role_bond hd ht hdispute hbond).symm
  | unsettled =>
    obtain ⟨-, x, t, dispute, ht, hdispute, hbond, -⟩ := h
    exact (hb.role_bond hd ht hdispute hbond).symm
  | _ =>
    rw [h.1] at hconsumed
    cases hconsumed

/-- Nothing has both happened and not. -/
theorem Holds.not_due (hb : b.Accounted) (hstatus : s.status = s'.status)
    (hrole : s.role? = s'.role?) (h : s.Holds b now d)
    (h' : s'.Holds b now d) (hdue : s.due = false) : s'.due = false := by
  rw [← Bool.not_eq_true]
  intro hdue'
  rcases due_cases s s' hstatus hrole hdue hdue' with ⟨rfl, rfl⟩ | ⟨rfl, rfl⟩ | ⟨rfl, rfl⟩
  · exact absurd h'.2.1 (not_lt.2 h.2)
  · obtain ⟨-, x, t, ht, hescrow, hopen⟩ := h
    obtain ⟨-, x', t', ht', hescrow', hclosed, -⟩ := h'
    obtain rfl := hb.escrow_once ht hescrow ht' hescrow'
    exact hopen hclosed
  · obtain ⟨-, x, t, dispute, ht, hdispute, hbond, hopen⟩ := h
    obtain ⟨-, x', t', dispute', ht', hdispute', hbond', hselected⟩ := h'
    obtain ⟨rfl, rfl⟩ := hb.bond_once ht hdispute hbond ht' hdispute' hbond'
    obtain ⟨t₁, dispute₁, bond, ht₁, hdispute₁, hresolved, -⟩ :=
      (mem_tasksWithUnsettledDisputeBonds hb.tasks).1 hselected
    obtain rfl := Option.some.inj (ht.symm.trans ht₁)
    obtain rfl := Option.some.inj (hdispute.symm.trans hdispute₁)
    exact hresolved hopen

/-- So it has one standing. -/
theorem Holds.unique (hb : b.Accounted) (hd : b.pendingDeposits.lookup id = some d)
    (h : s.Holds b now d) (h' : s'.Holds b now d) : s = s' := by
  have hstatus : s.status = s'.status := h.status_eq.trans h'.status_eq.symm
  have hrole : s.role? = s'.role? := by
    by_cases hconsumed : d.status = .consumed
    · rw [h.role?_eq hb hd hconsumed, h'.role?_eq hb hd hconsumed]
    · rw [role?_of_status s (h.status_eq ▸ hconsumed), role?_of_status s' (h'.status_eq ▸ hconsumed)]
  refine ext s s' hstatus hrole ?_
  cases hdue : s.due with
  | false => exact (h.not_due hb hstatus hrole h' hdue).symm
  | true =>
    cases hdue' : s'.due with
    | false =>
      rw [h'.not_due hb hstatus.symm hrole.symm h hdue'] at hdue
      cases hdue
    | true => rfl

/-- Whatever its status, a deposit stands in some way. -/
theorem exists_holds (hb : b.Accounted) (hd : b.pendingDeposits.lookup id = some d) (now : DateTime) :
    ∃ s : Standing, s.Holds b now d := by
  obtain rfl := hb.deposits id d hd
  have hstatusOf : b.statusOf d.id = some d.status := by rw [statusOf, hd, Option.map_some]
  cases hstatus : d.status with
  | reserved =>
    rcases le_or_gt now d.expiresAt with hlive | hexpired
    · exact ⟨reserved, hstatus, hlive⟩
    · exact ⟨overdue, hstatus, hexpired, (mem_overdueReservedEscrows hd).2 ⟨hstatus, hexpired⟩⟩
  | consumed =>
    -- A consumed deposit is what some task or dispute holds, unless it funds an account.
    cases hrole : d.purpose.role? with
    | none =>
      have hpurpose : d.purpose = .fundExchangeAccount := by
        cases hp : d.purpose with
        | fundExchangeAccount => rfl
        | _ =>
          rw [hp] at hrole
          cases hrole
      exact ⟨unswept, hstatus, hpurpose, mem_unsweptExchangeDeposits hd hstatus hpurpose⟩
    | some role =>
      obtain ⟨x, hx⟩ := hb.named.backed role d.id d hd hstatus hrole
      obtain ⟨t, ht, hheld⟩ := Option.bind_eq_some_iff.1 hx
      cases role with
      | escrow =>
        -- The task that names it is closed, and the sweep finds it, or still goes on.
        by_cases hclosed : t.status = .closed
        · exact ⟨unrefunded, hstatus, x, t, ht, hheld, hclosed,
            mem_closedTasksWithUnrefundedEscrow hb.tasks ht hheld hd hstatus hclosed⟩
        · exact ⟨funding, hstatus, x, t, ht, hheld, hclosed⟩
      | bond =>
        rw [Task.held, bondId?_eq, Option.map_eq_some_iff] at hheld
        obtain ⟨dispute, hdispute, hbond⟩ := hheld
        by_cases hresolved : dispute.resolution = none
        · exact ⟨disputed, hstatus, x, t, dispute, ht, hdispute, hbond, hresolved⟩
        -- The dispute is resolved, so the sweep over unsettled bonds finds it.
        · refine ⟨unsettled, hstatus, x, t, dispute, ht, hdispute, hbond, ?_⟩
          exact (mem_tasksWithUnsettledDisputeBonds hb.tasks).2
            ⟨t, dispute, d, ht, hdispute, hresolved, hbond ▸ hd, hstatus⟩
  | disbursing =>
    rw [hstatus] at hstatusOf
    -- It has one payment, which is not confirmed, since a confirmed one would have refunded it.
    obtain ⟨p, hp, hpaid⟩ := hb.exists_onlyPayment (.inl hstatusOf)
    refine ⟨disbursing, hstatus, p, hp, fun hconfirmed => ?_⟩
    rw [hstatusOf, Payment.depositStatus, if_pos hconfirmed] at hpaid
    cases hpaid
  | refunded =>
    rw [hstatus] at hstatusOf
    obtain ⟨p, hp, hpaid⟩ := hb.exists_onlyPayment (.inr hstatusOf)
    refine ⟨refunded, hstatus, p, hp, ?_⟩
    by_contra hconfirmed
    rw [hstatusOf, Payment.depositStatus, if_neg hconfirmed] at hpaid
    cases hpaid

end Standing

/-- **No deposit is stranded**: on every board that is reached and at any time, a deposit
    stands in one way and in one only, each way that calls for the sweep being one that a
    selector returns; and a verified task with payouts to send is among those whose payouts
    the sweep sends. -/
theorem no_deposit_stranded (c : Crypto) {j : Journal} (hr : (estates c).Reachable j) (now : DateTime) :
    (∀ id d, j.hub.board.pendingDeposits.lookup id = some d →
      ∃! s : Standing, s.Holds j.hub.board now d) ∧
    ∀ x t, j.hub.board.tasks.lookup x = some t → t.status = .verified →
      j.hub.board.unsubmittedPayouts x ≠ [] → t ∈ j.hub.board.verifiedUnpaidTasks := by
  have hb := (accounted_of_reachable hr).board
  refine ⟨fun id d hd => ?_, fun x t ht hverified _ => ?_⟩
  · obtain ⟨s, hs⟩ := Standing.exists_holds hb hd now
    exact ⟨s, hs, fun s' hs' => hs'.unique hb hd hs⟩
  · exact List.mem_filter.2 ⟨Finmap.mem_values.2 ⟨x, ht⟩, decide_eq_true hverified⟩

/-! A task is funded and cancelled, and a bond is put up for another: by the time a third
deposit has expired the first is to be refunded, and the second waits for the dispute. -/

def sampleFunding : EstateOp :=
  .reserveEscrow (fun id => id) 1 0 8 1000 (.fundHashMatchTask ⟨"", 1000, 42, 0, ∅⟩) 100

def sampleChallenge (id : Uuid) : EstateOp :=
  .reserveEscrow (fun id => id) id 0 9 500 (.disputeBond 5 "wrong") 100

def sampleEstate (ops : List EstateOp) : Journal :=
  ops.foldl (EstateOp.after pairingCrypto) ⟨⟨sampleTasks, sampleTasks⟩, []⟩

def sampleStanding : Journal :=
  sampleEstate [sampleFunding, .task (.confirmEscrow 1 1000 50 7 50), .task (.cancelTask 7),
    sampleChallenge 2, .task (.confirmDisputeBond 2 500 50), sampleChallenge 3]

/-- A run goes on by a step. -/
theorem estates_after {c : Crypto} {j : Journal} (op : EstateOp) (hr : (estates c).Reachable j)
    (hop : op.Enabled j) : (estates c).Reachable (op.after c j) :=
  hr.step trivial ⟨hop, rfl⟩

/-- A task is cancelled, and its deposit is still to be refunded. -/
theorem sampleStanding_reachable : (estates pairingCrypto).Reachable sampleStanding := by
  have h₀ : (estates pairingCrypto).Reachable ⟨⟨sampleTasks, sampleTasks⟩, []⟩ := by
    refine .init ⟨sampleTasks_undeposited.accounted fun id p hp => ?_, rfl⟩
    rw [show sampleTasks.payments = ∅ from rfl, Finmap.lookup_empty] at hp
    cases hp
  have h₁ := estates_after sampleFunding h₀ ⟨show 1 ∉ sampleTasks.pendingDeposits by decide +kernel, trivial⟩
  have h₂ := estates_after (.task (.confirmEscrow 1 1000 50 7 50)) h₁
    ⟨show 7 ∉ (EstateOp.after _ _ _).hub.board.tasks by decide +kernel, by decide, by decide⟩
  have h₃ := estates_after (.task (.cancelTask 7)) h₂ trivial
  have h₄ := estates_after (sampleChallenge 2) h₃
    ⟨show 2 ∉ (EstateOp.after _ _ _).hub.board.pendingDeposits by decide +kernel, trivial⟩
  have h₅ := estates_after (.task (.confirmDisputeBond 2 500 50)) h₄ trivial
  exact estates_after (sampleChallenge 3) h₅
    ⟨show 3 ∉ (EstateOp.after _ _ _).hub.board.pendingDeposits by decide +kernel, trivial⟩

/-- The deposit of the cancelled task has that standing, and no other. -/
theorem no_deposit_stranded_sample :
    ∃ d, sampleStanding.hub.board.pendingDeposits.lookup 1 = some d ∧
      Standing.unrefunded.Holds sampleStanding.hub.board 200 d ∧
      ∀ s : Standing, s.Holds sampleStanding.hub.board 200 d → s = .unrefunded := by
  obtain ⟨d, hd, hkept⟩ : ∃ d, sampleStanding.hub.board.pendingDeposits.lookup 1 = some d ∧
      (d.id, d.status) = (1, .consumed) := Option.map_eq_some_iff.1 (by decide +kernel)
  obtain ⟨t, ht, htask⟩ : ∃ t, sampleStanding.hub.board.tasks.lookup 7 = some t ∧
      (t.escrowId, t.status) = (some 1, .closed) := Option.map_eq_some_iff.1 (by decide +kernel)
  have hselected : 7 ∈ sampleStanding.hub.board.closedTasksWithUnrefundedEscrow := by decide +kernel
  obtain ⟨hdeposits, -⟩ := no_deposit_stranded pairingCrypto sampleStanding_reachable 200
  obtain ⟨hid, hstatus⟩ := Prod.mk.inj hkept
  obtain ⟨hescrow, hclosed⟩ := Prod.mk.inj htask
  have hholds : Standing.unrefunded.Holds sampleStanding.hub.board 200 d :=
    ⟨hstatus, 7, t, ht, hid ▸ hescrow, hclosed, hselected⟩
  exact ⟨d, hd, hholds, fun s hs => (hdeposits 1 d hd).unique hs hholds⟩

end Itx
