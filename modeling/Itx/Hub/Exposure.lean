import Itx.Hub.TaskRuns

/-!
# The exposure of consensus tasks

The bounty that rides on the consensus tasks that are not settled is to stay under a ceiling
(`ensure_consensus_exposure_allows`, `hub/src/handlers.rs`). A request is checked against what
is on the board, under a read lock. Its task lands under a later one: `create_consensus_task`
creates it, `create_consensus_task_escrow` reserves a deposit for it, and the task lands when
the deposit is confirmed.

A check remembers what it saw (`Check`): the exposure, and how many consensus tasks had
landed. What lands on a board on which none has landed since keeps to the ceiling, as
nothing but a landing raises the exposure (`TaskOp.exposure_le`). What lands later may not:
`exposure_passed` is two requests checked one after the other, before either of them lands.
-/

namespace Itx

open TaskBoard Call

namespace Task

/-- Whether a task is a consensus task. -/
def isConsensus (task : Task) : Bool :=
  match task.kind with
  | .consensus _ => true
  | _ => false

/-- Whether the bounty of a task rides on a consensus that is not settled. -/
def isExposed (task : Task) : Bool :=
  task.isConsensus ∧ task.status ≠ .paid ∧ task.status ≠ .closed

variable {t t' : Task}

/-- The kind of a task is the one it was created with. -/
theorem Moves.isConsensus_eq (h : t.Moves t') : t'.isConsensus = t.isConsensus := by
  cases h with
  | work h =>
    cases h with
    | join hkind => rw [isConsensus, isConsensus, hkind]
    | fill _ hkind => rw [isConsensus, isConsensus, hkind]
    | enter _ hkind => rw [isConsensus, isConsensus, hkind]
    | close _ hkind => rw [isConsensus, isConsensus, hkind]
    | pick hkind => rw [isConsensus, isConsensus, hkind]
    | split hkind => rw [isConsensus, isConsensus, hkind]
    | file _ hkind => rw [isConsensus, isConsensus, hkind]
    | rule _ hkind => rw [isConsensus, isConsensus, hkind]
    | answer _ hkind => rw [isConsensus, isConsensus, hkind]
    | vote hkind =>
      unfold TaskBoard.resolved
      split <;> simp [isConsensus, hkind]
    | _ => rfl
  | @pay recipient kind nowFullyPaid credited now h hpay =>
    have hkind : isConsensus { t with kind } = t.isConsensus := by
      cases pays_of_payRecipient hpay with
      | hashMatch hkind => rw [isConsensus, isConsensus, hkind]
      | consensus hkind => rw [isConsensus, isConsensus, hkind]
      | contest hkind => rw [isConsensus, isConsensus, hkind]
      | single hkind => rw [isConsensus, isConsensus, hkind]
    unfold TaskBoard.paidTask
    split <;> exact hkind
  | _ => rfl

/-- What a task adds to the exposure. -/
def stake (task : Task) : ℕ := if task.isExposed then task.bounty else 0

/-- No write raises it: a task that is paid or closed stays so. -/
theorem Moves.stake_le (h : t.Moves t') : t'.stake ≤ t.stake := by
  have hstatus := h.status_mem
  rw [stake, stake, h.bounty_eq]
  split_ifs with ht' ht
  · exact le_rfl
  · refine absurd ?_ ht
    rw [isExposed, decide_eq_true_eq, h.isConsensus_eq] at ht'
    rw [isExposed, decide_eq_true_eq]
    refine ⟨ht'.1, fun hpaid => ht'.2.1 ?_, fun hclosed => ht'.2.2 ?_⟩
    · rw [hpaid] at hstatus
      exact List.mem_singleton.1 hstatus
    · rw [hclosed] at hstatus
      exact List.mem_singleton.1 hstatus
  · exact Nat.zero_le _
  · exact le_rfl

theorem MovesTo.stake_le (h : t.MovesTo t') : t'.stake ≤ t.stake :=
  h.preserves (P := fun t' => t'.stake ≤ t.stake) (fun _ _ hle hmove => hmove.stake_le.trans hle)
    le_rfl

end Task

namespace TaskBoard

variable {s s' : TaskBoard} {taskId : Uuid} {task : Task}

/-- `TaskBoard::consensus_exposure`. -/
def consensusExposure (s : TaskBoard) : ℕ :=
  saturatingSum ((s.tasks.values.filter Task.isExposed).map Task.bounty)

/-- The exposure, before it is cut off at the last value in range. -/
def stakes (s : TaskBoard) : ℕ := s.tasks.total fun _ t => t.stake

theorem consensusExposure_eq : s.consensusExposure = min s.stakes (u64Bound - 1) := by
  rw [consensusExposure, saturatingSum_eq, Finmap.sum_filter_values]
  rfl

/-- Without new consensus tasks the exposure does not rise. -/
theorem MovedBy.exposure_le (h : MovedBy Task.Moves s s')
    (hnew : ∀ x t', s'.tasks.lookup x = some t' → s.tasks.lookup x = none → t'.isConsensus = false) :
    s'.consensusExposure ≤ s.consensusExposure := by
  have hstakes : s'.stakes ≤ s.stakes := by
    refine Finmap.total_le_total fun x => ?_
    cases ht' : s'.tasks.lookup x with
    | none =>
      rw [Finmap.weight, ht']
      exact Nat.zero_le _
    | some t' =>
      rw [Finmap.weight_of_lookup ht']
      cases ht : s.tasks.lookup x with
      | none =>
        rw [Task.stake, if_neg]
        · exact Nat.zero_le _
        · rw [Task.isExposed, hnew x t' ht' ht]
          simp
      | some t =>
        rw [Finmap.weight_of_lookup ht]
        obtain ⟨t₁, ht₁, hmoves⟩ := h.moved x t ht
        obtain rfl := Option.some.inj (ht'.symm.trans ht₁)
        exact Task.MovesTo.stake_le hmoves
  rw [consensusExposure_eq, consensusExposure_eq]
  omega

/-- A consensus task that lands adds its bounty. -/
theorem exposure_insert (hnew : taskId ∉ s.tasks)
    (htasks : s'.tasks = s.tasks.insert taskId task) :
    s'.consensusExposure ≤ saturatingAdd s.consensusExposure task.bounty := by
  have hstakes : s'.stakes = task.stake + s.stakes := by
    rw [stakes, htasks, Finmap.total_insert_of_notMem hnew]
    rfl
  have hstake : task.stake ≤ task.bounty := by
    rw [Task.stake]
    split_ifs
    · exact le_rfl
    · exact Nat.zero_le _
  rw [consensusExposure_eq, consensusExposure_eq, hstakes, saturatingAdd]
  omega

end TaskBoard

/-! ## What does not land a consensus task -/

namespace TaskOp

/-- The operations that may create a task. -/
def Creates : TaskOp → Prop
  | createTask .. => True
  | createConsensusTask .. => True
  | createDisputableTask .. => True
  | confirmEscrow .. => True
  | _ => False

/-- The operations of the hub other than those of the requests for consensus tasks. A deposit
    for one is only reserved by them, and keeps its purpose. -/
def Aside (b : TaskBoard) : TaskOp → Prop
  | createConsensusTask .. => False
  | confirmEscrow .. => False
  | restorePendingDeposit deposit => (∀ intent, deposit.purpose ≠ .fundConsensusTask intent) ∨
      ∃ d, b.pendingDeposits.lookup deposit.id = some d ∧ d.purpose = deposit.purpose
  | _ => True

variable {s : TaskRun} {op : TaskOp}

/-- The tasks there are, if none is created. -/
theorem keys_eq (hs : s.board.Tidy) (hop : op.Enabled s) (h : ¬ op.Creates) :
    (op.apply s.board).tasks.keys = s.board.tasks.keys := by
  by_cases hworks : op.Works
  · exact (TaskOp.progress hs hop hworks).keys
  cases op with
  | restorePendingDeposit => rfl
  | confirmDisputeBond depositId observedAmount now =>
    have hend : Ends _ _ _ (TaskBoard.confirmDisputeBond depositId observedAmount now s.board) :=
      triple_confirmDisputeBond _ rfl
    rw [TaskOp.apply]
    generalize TaskBoard.confirmDisputeBond depositId observedAmount now s.board = r at hend
    obtain ⟨b, task | error | _⟩ := r
    · obtain ⟨d, x, t, kind, dispute, -, -, ht, -, -, -, -, -, rfl⟩ := hend
      exact Finmap.keys_insert_of_lookup ht
    · rw [hend]
    · rw [hend]
  | creditForfeitedBond recipient bondAmount =>
    rcases TaskOp.creditForfeitedBond_cases with h | h <;> rw [h]
    rfl
  | recordPayoutAttempt attempt =>
    rcases s.board.recordPayoutAttempt_cases attempt with h | ⟨t, ht, -, -, h⟩ <;>
      rw [TaskOp.apply, h]
    · rfl
    · exact Finmap.keys_insert_of_lookup ht
  | recordConfirmedPayout now commits taskId recipient amount store =>
    rcases @recordConfirmedPayout_cases ⟨s.board, store⟩ taskId recipient amount now commits
      hs.keyed hs.attemptsKeyed with h | ⟨b, hb, h⟩ | ⟨-, t, _, _, _, ht, -, -, h, -⟩
    · rw [TaskOp.apply, h.tasks]
    · rw [TaskOp.apply, h]
      cases hb with
      | again ht => exact Finmap.keys_insert_of_lookup ht
      | paid ht => exact Finmap.keys_insert_of_lookup ht
    · rw [TaskOp.apply, h]
      exact Finmap.keys_insert_of_lookup ht
  | abandonPayout commits attempt store =>
    rcases abandonPayout_cases (s := ⟨s.board, store⟩) hs.keyed hs.attemptsKeyed with h | h
    · rw [TaskOp.apply, h.tasks]
    · obtain ⟨t, ht, -, htasks⟩ := h.task
      rw [TaskOp.apply, htasks]
      exact Finmap.keys_insert_of_lookup ht
  | createTask | createConsensusTask | createDisputableTask | confirmEscrow =>
    exact absurd trivial h
  | _ => exact absurd not_false hworks

/-- A deposit that is not reserved by the operation was there before, for the same purpose. -/
theorem purpose_eq (hs : s.board.Tidy) (hop : op.Enabled s)
    (hne : ∀ deposit, op ≠ .restorePendingDeposit deposit) {id : Uuid} {d' : PendingDeposit}
    (hd' : (op.apply s.board).pendingDeposits.lookup id = some d') :
    ∃ d, s.board.pendingDeposits.lookup id = some d ∧ d.purpose = d'.purpose := by
  have hsame : ∀ b : TaskBoard, b.pendingDeposits = s.board.pendingDeposits →
      b.pendingDeposits.lookup id = some d' →
      ∃ d, s.board.pendingDeposits.lookup id = some d ∧ d.purpose = d'.purpose :=
    fun b hb hd' => ⟨d', hb ▸ hd', rfl⟩
  -- A deposit that is consumed keeps its purpose.
  have hconsume : ∀ x d, s.board.pendingDeposits.lookup x = some d →
      (s.board.consume x d).pendingDeposits.lookup id = some d' →
      ∃ d, s.board.pendingDeposits.lookup id = some d ∧ d.purpose = d'.purpose := by
    intro x d hd hd'
    rw [TaskBoard.consume, Finmap.lookup_insert_eq] at hd'
    split_ifs at hd' with hx
    · exact ⟨d, hx ▸ hd, by rw [← Option.some.inj hd']⟩
    · exact ⟨d', hd', rfl⟩
  by_cases hworks : op.Works
  · exact hsame _ (TaskOp.progress hs hop hworks).deposits hd'
  cases op with
  | createTask | createConsensusTask | createDisputableTask => exact hsame _ rfl hd'
  | restorePendingDeposit deposit => exact absurd rfl (hne deposit)
  | confirmEscrow depositId observedAmount now taskId createdAt =>
    have hend : Ends _ _ _ (TaskBoard.confirmEscrow depositId observedAmount now taskId createdAt
        s.board) := triple_confirmEscrow _ rfl
    rw [TaskOp.apply] at hd'
    generalize TaskBoard.confirmEscrow depositId observedAmount now taskId createdAt s.board = r
      at hend hd'
    obtain ⟨b, task | error | _⟩ := r
    · obtain ⟨d, created, hd, -, -, -, rfl⟩ := hend
      exact hconsume depositId d hd hd'
    · exact hsame b (congrArg pendingDeposits hend) hd'
    · obtain ⟨d, intent, hd, -, -, -, rfl⟩ := hend
      exact hconsume depositId d hd hd'
  | confirmDisputeBond depositId observedAmount now =>
    have hend : Ends _ _ _ (TaskBoard.confirmDisputeBond depositId observedAmount now s.board) :=
      triple_confirmDisputeBond _ rfl
    rw [TaskOp.apply] at hd'
    generalize TaskBoard.confirmDisputeBond depositId observedAmount now s.board = r at hend hd'
    obtain ⟨b, task | error | _⟩ := r
    · obtain ⟨d, x, t, kind, dispute, hd, -, -, -, -, -, -, -, rfl⟩ := hend
      exact hconsume depositId d hd hd'
    · exact hsame b (congrArg pendingDeposits hend) hd'
    · exact hsame b (congrArg pendingDeposits hend) hd'
  | creditForfeitedBond recipient bondAmount =>
    rcases TaskOp.creditForfeitedBond_cases with h | h <;> rw [h] at hd'
    · exact hsame _ rfl hd'
    · exact hsame _ rfl hd'
  | recordPayoutAttempt attempt =>
    rcases s.board.recordPayoutAttempt_cases attempt with h | ⟨t, -, -, -, h⟩ <;>
      rw [TaskOp.apply, h] at hd'
    · exact hsame _ rfl hd'
    · exact hsame _ rfl hd'
  | recordConfirmedPayout now commits taskId recipient amount store =>
    rcases @recordConfirmedPayout_cases ⟨s.board, store⟩ taskId recipient amount now commits
      hs.keyed hs.attemptsKeyed with h | ⟨b, hb, h⟩ | ⟨-, _, _, _, _, -, -, -, -, -, h⟩
    · exact hsame _ h.deposits hd'
    · rw [TaskOp.apply, h] at hd'
      exact hsame _ hb.frame.2.1 hd'
    · exact hsame _ h hd'
  | abandonPayout commits attempt store =>
    rcases abandonPayout_cases (s := ⟨s.board, store⟩) hs.keyed hs.attemptsKeyed with h | h
    · exact hsame _ h.deposits hd'
    · exact hsame _ h.deposits hd'
  | _ => exact absurd not_false hworks

/-- Nothing but the requests for consensus tasks raises the exposure. -/
theorem exposure_le (hs : s.board.Tidy) (hop : op.Enabled s) (haside : op.Aside s.board) :
    (op.apply s.board).consensusExposure ≤ s.board.consensusExposure := by
  refine (TaskOp.moved hs hop).exposure_le fun x t' ht' ht => ?_
  by_cases hcreates : op.Creates
  · -- The task that is created is of another kind.
    have hcreated : ∀ {task : Task}, (op.apply s.board).tasks = s.board.tasks.insert task.id task →
        task.isConsensus = false → t'.isConsensus = false := by
      intro task htasks hkind
      rw [htasks, Finmap.lookup_insert_eq] at ht'
      split_ifs at ht'
      · rw [← Option.some.inj ht']
        exact hkind
      · rw [ht] at ht'
        cases ht'
    cases op with
    | createTask => exact hcreated rfl rfl
    | createDisputableTask => exact hcreated rfl rfl
    | _ => first | exact haside.elim | exact hcreates.elim
  · have hmem : x ∈ s.board.tasks.keys := by
      rw [← TaskOp.keys_eq hs hop hcreates]
      exact Finmap.mem_keys.2 (Finmap.mem_iff.2 ⟨t', ht'⟩)
    rw [Finmap.lookup_eq_none] at ht
    exact absurd (Finmap.mem_keys.1 hmem) ht

end TaskOp

/-! ## Requests -/

/-- What a request saw when it was checked: the exposure, and how many consensus tasks had
    landed. -/
structure Check where
  bounty : ℕ
  exposure : ℕ
  landed : ℕ
  deriving DecidableEq, Repr

/-- The tasks of a board, and the requests for consensus tasks. -/
structure ExposureRun where
  run : TaskRun
  /-- The requests that passed the check, and have yet to create or reserve. -/
  passed : List Check
  /-- The checks of those that reserved a deposit. -/
  reserved : Finmap fun _ : Uuid => Check
  /-- How many consensus tasks have landed. -/
  landed : ℕ

/-- What is done. -/
inductive ExposureOp
  /-- A request is checked. -/
  | check (bounty : ℕ)
  /-- `create_consensus_task` creates its task. -/
  | create (check : Check) (taskId : Uuid) (createdAt : DateTime) (poster : PublicKey)
    (description : String) (numAssignees : ℕ) (joinDeadline : DateTime) (window : ℤ)
  /-- `create_consensus_task_escrow` reserves its deposit. -/
  | reserve (check : Check) (deposit : PendingDeposit)
  /-- `confirm_task_escrow`, of a deposit for any kind of task. -/
  | confirm (depositId : Uuid) (observedAmount : ℕ) (now : DateTime) (taskId : Uuid)
    (createdAt : DateTime)
  /-- Anything else that is done to the tasks. -/
  | other (op : TaskOp)

/-- `ensure_consensus_exposure_allows`. -/
def TaskBoard.exposureAllows (s : TaskBoard) (consensusMaxExposure bounty : ℕ) : Bool :=
  ¬ saturatingAdd s.consensusExposure bounty > consensusMaxExposure

namespace ExposureOp

/-- What a request does, and when. -/
def Enabled (r : ExposureRun) : ExposureOp → Prop
  | check _ => True
  | create c taskId createdAt poster description numAssignees joinDeadline window =>
    c ∈ r.passed ∧ (TaskOp.createConsensusTask taskId createdAt poster description c.bounty
      numAssignees joinDeadline window).Enabled r.run
  | reserve c deposit => c ∈ r.passed ∧ deposit.id ∉ r.run.board.pendingDeposits ∧
      (TaskOp.restorePendingDeposit deposit).Enabled r.run ∧
      ∃ intent, deposit.purpose = .fundConsensusTask intent ∧ intent.bounty = c.bounty
  | confirm depositId observedAmount now taskId createdAt =>
    (TaskOp.confirmEscrow depositId observedAmount now taskId createdAt).Enabled r.run
  | other op => op.Aside r.run.board ∧ op.Enabled r.run

/-- The state after it. -/
def after (consensusMaxExposure : ℕ) (r : ExposureRun) : ExposureOp → ExposureRun
  | check bounty =>
    if r.run.board.exposureAllows consensusMaxExposure bounty then
      { r with passed := ⟨bounty, r.run.board.consensusExposure, r.landed⟩ :: r.passed }
    else r
  | create c taskId createdAt poster description numAssignees joinDeadline window =>
    { r with
      run := (TaskOp.createConsensusTask taskId createdAt poster description c.bounty numAssignees
        joinDeadline window).after r.run
      passed := r.passed.erase c
      landed := r.landed + 1 }
  | reserve c deposit =>
    { r with
      run := (TaskOp.restorePendingDeposit deposit).after r.run
      passed := r.passed.erase c
      reserved := r.reserved.insert deposit.id c }
  | confirm depositId observedAmount now taskId createdAt =>
    let run := (TaskOp.confirmEscrow depositId observedAmount now taskId createdAt).after r.run
    { r with
      run
      landed := if (run.board.tasks.lookup taskId).any Task.isConsensus then r.landed + 1
        else r.landed }
  | other op => { r with run := op.after r.run }

/-- No consensus task has landed since the check of the request whose task would land now. -/
def Undisturbed (r : ExposureRun) : ExposureOp → Prop
  | create c .. => c.landed = r.landed
  | confirm depositId .. => ∀ c, r.reserved.lookup depositId = some c → c.landed = r.landed
  | _ => True

end ExposureOp

/-- The runs under a ceiling, from a board on which nothing is reserved. -/
def exposureRuns (consensusMaxExposure : ℕ) : System ExposureRun ExposureOp where
  init := {r | r.run ∈ (taskRuns r.run.board).init ∧ r.run.board.pendingDeposits = ∅ ∧
    r.passed = [] ∧ r.reserved = ∅ ∧ r.landed = 0}
  step r op r' := op.Enabled r ∧ r' = op.after consensusMaxExposure r

/-- The check of a request whose task has yet to land, or has. -/
def ExposureRun.Remembers (r : ExposureRun) (c : Check) : Prop :=
  c ∈ r.passed ∨ ∃ id, r.reserved.lookup id = some c

/-- What is known of the requests of a run. -/
structure ExposureRun.Sound (consensusMaxExposure : ℕ) (r : ExposureRun) : Prop where
  tidy : r.run.board.Tidy
  allowed : ∀ c, r.Remembers c → saturatingAdd c.exposure c.bounty ≤ consensusMaxExposure
  landed : ∀ c, r.Remembers c → c.landed ≤ r.landed
  exposure : ∀ c, r.Remembers c → c.landed = r.landed → r.run.board.consensusExposure ≤ c.exposure
  funded : ∀ id d intent, r.run.board.pendingDeposits.lookup id = some d →
    d.purpose = .fundConsensusTask intent → ∃ c, r.reserved.lookup id = some c ∧
      c.bounty = intent.bounty

section

variable {consensusMaxExposure : ℕ} {r r' : ExposureRun} {op : ExposureOp}

theorem saturatingAdd_mono {a b n : ℕ} (h : a ≤ b) : saturatingAdd a n ≤ saturatingAdd b n := by
  rw [saturatingAdd, saturatingAdd]
  omega

/-- The exposure does not rise, and what is remembered was. -/
theorem ExposureRun.Sound.of_le (h : r.Sound consensusMaxExposure) (htidy : r'.run.board.Tidy)
    (hle : r'.run.board.consensusExposure ≤ r.run.board.consensusExposure)
    (hremembers : ∀ c, r'.Remembers c → r.Remembers c) (hlanded : r'.landed = r.landed)
    (hfunded : ∀ id d intent, r'.run.board.pendingDeposits.lookup id = some d →
      d.purpose = .fundConsensusTask intent → ∃ c, r'.reserved.lookup id = some c ∧
        c.bounty = intent.bounty) : r'.Sound consensusMaxExposure where
  tidy := htidy
  allowed c hc := h.allowed c (hremembers c hc)
  landed c hc := by
    rw [hlanded]
    exact h.landed c (hremembers c hc)
  exposure c hc he := by
    rw [hlanded] at he
    exact hle.trans (h.exposure c (hremembers c hc) he)
  funded := hfunded

/-- A consensus task lands: no check is as recent. -/
theorem ExposureRun.Sound.of_landed (h : r.Sound consensusMaxExposure) (htidy : r'.run.board.Tidy)
    (hremembers : ∀ c, r'.Remembers c → r.Remembers c) (hlanded : r'.landed = r.landed + 1)
    (hfunded : ∀ id d intent, r'.run.board.pendingDeposits.lookup id = some d →
      d.purpose = .fundConsensusTask intent → ∃ c, r'.reserved.lookup id = some c ∧
        c.bounty = intent.bounty) : r'.Sound consensusMaxExposure where
  tidy := htidy
  allowed c hc := h.allowed c (hremembers c hc)
  landed c hc := by
    rw [hlanded]
    exact (h.landed c (hremembers c hc)).trans (Nat.le_succ _)
  exposure c hc he := by
    have := h.landed c (hremembers c hc)
    omega
  funded := hfunded

/-- A deposit keeps its purpose, and the check it was reserved with. -/
theorem ExposureRun.Sound.funded_after {taskOp : TaskOp} (h : r.Sound consensusMaxExposure)
    (hop : taskOp.Enabled r.run) (hne : ∀ deposit, taskOp ≠ .restorePendingDeposit deposit)
    {id : Uuid} {d' : PendingDeposit} {intent : ConsensusTaskIntent}
    (hd' : (taskOp.after r.run).board.pendingDeposits.lookup id = some d')
    (hpurpose : d'.purpose = .fundConsensusTask intent) :
    ∃ c, r.reserved.lookup id = some c ∧ c.bounty = intent.bounty := by
  rw [TaskOp.after_board] at hd'
  obtain ⟨d, hd, he⟩ := TaskOp.purpose_eq h.tidy hop hne hd'
  exact h.funded id d intent hd (he.trans hpurpose)

/-- What lands keeps to what its check allowed, if none has landed since. -/
theorem ExposureRun.Sound.land {b : TaskBoard} {taskId : Uuid} {task : Task} {c : Check}
    (h : r.Sound consensusMaxExposure) (hc : r.Remembers c) (hrecent : c.landed = r.landed)
    (hnew : taskId ∉ r.run.board.tasks) (htasks : b.tasks = r.run.board.tasks.insert taskId task)
    (hbounty : task.bounty = c.bounty) : b.consensusExposure ≤ consensusMaxExposure := by
  calc b.consensusExposure ≤ saturatingAdd r.run.board.consensusExposure task.bounty :=
        exposure_insert hnew htasks
    _ ≤ saturatingAdd c.exposure task.bounty := saturatingAdd_mono (h.exposure c hc hrecent)
    _ ≤ consensusMaxExposure := by
        rw [hbounty]
        exact h.allowed c hc

/-- The consensus task a confirmation lands is the one its deposit was reserved for. -/
theorem confirmEscrow_lands {s : TaskBoard} {depositId taskId : Uuid} {observedAmount : ℕ}
    {now createdAt : DateTime} (hnew : taskId ∉ s.tasks)
    (h : (((TaskOp.confirmEscrow depositId observedAmount now taskId createdAt).apply
      s).tasks.lookup taskId).any Task.isConsensus) :
    ∃ d task, s.pendingDeposits.lookup depositId = some d ∧
      ((TaskOp.confirmEscrow depositId observedAmount now taskId createdAt).apply s).tasks =
        s.tasks.insert taskId task ∧
      ∃ intent, d.purpose = .fundConsensusTask intent ∧ task.bounty = intent.bounty := by
  have hend : Ends _ _ _ (TaskBoard.confirmEscrow depositId observedAmount now taskId createdAt s) :=
    triple_confirmEscrow _ rfl
  have hnone : s.tasks.lookup taskId = none := Finmap.lookup_eq_none.2 hnew
  rw [TaskOp.apply] at h ⊢
  generalize TaskBoard.confirmEscrow depositId observedAmount now taskId createdAt s = o at h hend
  obtain ⟨s', task | error | _⟩ := o
  · obtain ⟨d, created, hd, -, hcreated, rfl, rfl⟩ := hend
    refine ⟨d, _, hd, rfl, ?_⟩
    dsimp only at h ⊢
    rw [Finmap.lookup_insert, Option.any_some, Task.isConsensus] at h
    split at h
    · next kind hkind =>
      obtain ⟨-, intent, hintent, -⟩ := hcreated.consensus kind hkind
      have hbounty := hcreated.bounty
      rw [hintent] at hbounty
      exact ⟨intent, hintent, (Option.some.inj hbounty).symm⟩
    · cases h
  · obtain rfl : s' = s := hend
    rw [hnone] at h
    cases h
  · obtain ⟨d, intent, -, -, -, -, rfl⟩ := hend
    change ((s.tasks.lookup taskId).any Task.isConsensus) = true at h
    rw [hnone] at h
    cases h

/-- A confirmation that lands no consensus task does not raise the exposure. -/
theorem confirmEscrow_exposure_le {s : TaskRun} {depositId taskId : Uuid} {observedAmount : ℕ}
    {now createdAt : DateTime} (hs : s.board.Tidy) (hnew : taskId ∉ s.board.tasks)
    (h : ¬ (((TaskOp.confirmEscrow depositId observedAmount now taskId createdAt).apply
      s.board).tasks.lookup taskId).any Task.isConsensus) :
    ((TaskOp.confirmEscrow depositId observedAmount now taskId createdAt).apply
      s.board).consensusExposure ≤ s.board.consensusExposure := by
  have hen : (TaskOp.confirmEscrow depositId observedAmount now taskId createdAt).Enabled s := hnew
  have hmoved := TaskOp.moved hs hen
  refine hmoved.exposure_le fun x t' ht' ht => ?_
  -- The only task that may be new is the one the confirmation draws an id for.
  have hx : x = taskId := by
    have hend : Ends _ _ _ (TaskBoard.confirmEscrow depositId observedAmount now taskId createdAt
        s.board) := triple_confirmEscrow _ rfl
    by_contra hne
    rw [TaskOp.apply] at ht'
    generalize TaskBoard.confirmEscrow depositId observedAmount now taskId createdAt s.board = o
      at ht' hend
    obtain ⟨s', task | error | _⟩ := o
    · obtain ⟨d, created, -, -, -, -, rfl⟩ := hend
      dsimp only at ht'
      rw [Finmap.lookup_insert_of_ne _ hne, ht] at ht'
      cases ht'
    · obtain rfl : s' = s.board := hend
      rw [ht] at ht'
      cases ht'
    · obtain ⟨d, intent, -, -, -, -, rfl⟩ := hend
      change s.board.tasks.lookup x = some t' at ht'
      rw [ht] at ht'
      cases ht'
  subst hx
  rw [ht', Option.any_some, Bool.not_eq_true] at h
  exact h

/-- A step keeps what is known of the requests. If none has landed since the check of the one
    that lands, it keeps to the ceiling. -/
theorem ExposureRun.Sound.step (h : r.Sound consensusMaxExposure) (hop : op.Enabled r) :
    (op.after consensusMaxExposure r).Sound consensusMaxExposure ∧ (op.Undisturbed r →
      r.run.board.consensusExposure ≤ consensusMaxExposure →
      (op.after consensusMaxExposure r).run.board.consensusExposure ≤ consensusMaxExposure) := by
  have htidy : ∀ {taskOp : TaskOp}, taskOp.Enabled r.run → (taskOp.after r.run).board.Tidy := by
    intro taskOp hen
    rw [TaskOp.after_board]
    exact TaskOp.tidy h.tidy hen
  have hpassed : ∀ {c c' : Check}, c' ∈ r.passed.erase c → r.Remembers c' := fun hc' =>
    .inl (List.mem_of_mem_erase hc')
  cases op with
  | check bounty =>
    rw [ExposureOp.after]
    split_ifs with hallows
    · rw [exposureAllows, decide_eq_true_eq, not_lt] at hallows
      -- The new check is remembered with the exposure it has seen, which is that of now.
      have hcons : ∀ c, ExposureRun.Remembers { r with passed :=
          ⟨bounty, r.run.board.consensusExposure, r.landed⟩ :: r.passed } c →
          c = ⟨bounty, r.run.board.consensusExposure, r.landed⟩ ∨ r.Remembers c := by
        rintro c (hc | hc)
        · exact (List.mem_cons.1 hc).imp_right .inl
        · exact .inr (.inr hc)
      refine ⟨⟨h.tidy, fun c hc => ?_, fun c hc => ?_, fun c hc he => ?_, h.funded⟩, fun _ => id⟩
      · rcases hcons c hc with rfl | hc
        · exact hallows
        · exact h.allowed c hc
      · rcases hcons c hc with rfl | hc
        · exact le_rfl
        · exact h.landed c hc
      · rcases hcons c hc with rfl | hc
        · exact le_rfl
        · exact h.exposure c hc he
    · exact ⟨h, fun _ => id⟩
  | create c taskId createdAt poster description numAssignees joinDeadline window =>
    obtain ⟨hc, hen⟩ := hop
    refine ⟨h.of_landed (htidy hen) ?_ rfl fun id d intent hd hpurpose =>
      h.funded_after hen (by simp) hd hpurpose, fun hrecent _ => ?_⟩
    · rintro c' (hc' | hc')
      · exact hpassed hc'
      · exact .inr hc'
    -- If no request has landed since the check, there is still room for what it was made for.
    · exact h.land (.inl hc) hrecent hen.1 rfl rfl
  | reserve c deposit =>
    obtain ⟨hc, hnew, hen, intent, hpurpose, hbounty⟩ := hop
    refine ⟨h.of_le (htidy hen) le_rfl ?_ rfl ?_, fun _ => id⟩
    · rintro c' (hc' | ⟨id, hc'⟩)
      · exact hpassed hc'
      · rw [ExposureOp.after, Finmap.lookup_insert_eq] at hc'
        split_ifs at hc'
        · rw [← Option.some.inj hc']
          exact .inl hc
        · exact .inr ⟨id, hc'⟩
    · intro id d intent' hd hpurpose'
      rw [ExposureOp.after] at hd ⊢
      rw [TaskOp.after_board, TaskOp.apply, restorePendingDeposit, Finmap.lookup_insert_eq] at hd
      rw [Finmap.lookup_insert_eq]
      split_ifs at hd ⊢ with hid
      · obtain rfl := Option.some.inj hd
        obtain rfl := EscrowPurpose.fundConsensusTask.inj (hpurpose.symm.trans hpurpose')
        exact ⟨c, rfl, hbounty.symm⟩
      · exact h.funded id d intent' hd hpurpose'
  | confirm depositId observedAmount now taskId createdAt =>
    have hen : (TaskOp.confirmEscrow depositId observedAmount now taskId createdAt).Enabled r.run := hop
    have hfunded : ∀ id d intent, ((TaskOp.confirmEscrow depositId observedAmount now taskId
        createdAt).after r.run).board.pendingDeposits.lookup id = some d →
        d.purpose = .fundConsensusTask intent → ∃ c, r.reserved.lookup id = some c ∧
          c.bounty = intent.bounty :=
      fun id d intent hd hpurpose => h.funded_after hen (by simp) hd hpurpose
    rw [ExposureOp.after]
    dsimp only
    split_ifs with hconsensus
    · refine ⟨h.of_landed (htidy hen) (fun _ => id) rfl hfunded, fun hrecent _ => ?_⟩
      rw [TaskOp.after_board] at hconsensus ⊢
      -- The deposit was reserved with a check, and this is the one that lands now.
      obtain ⟨d, task, hd, htasks, hpurpose⟩ := confirmEscrow_lands hop hconsensus
      obtain ⟨intent, hintent, hbounty⟩ := hpurpose
      obtain ⟨c, hc, hcheck⟩ := h.funded depositId d intent hd hintent
      exact h.land (.inr ⟨depositId, hc⟩) (hrecent c hc) hop htasks (hbounty.trans hcheck.symm)
    · have hle : ((TaskOp.confirmEscrow depositId observedAmount now taskId createdAt).after
          r.run).board.consensusExposure ≤ r.run.board.consensusExposure := by
        rw [TaskOp.after_board] at hconsensus ⊢
        exact confirmEscrow_exposure_le h.tidy hop hconsensus
      exact ⟨h.of_le (htidy hen) hle (fun _ => id) rfl hfunded, fun _ => hle.trans⟩
  | other taskOp =>
    obtain ⟨haside, hen⟩ := hop
    have hle : (taskOp.after r.run).board.consensusExposure ≤ r.run.board.consensusExposure := by
      rw [TaskOp.after_board]
      exact TaskOp.exposure_le h.tidy hen haside
    refine ⟨h.of_le (htidy hen) hle (fun _ => id) rfl fun id d intent hd hpurpose => ?_,
      fun _ => hle.trans⟩
    by_cases hne : ∀ deposit, taskOp ≠ .restorePendingDeposit deposit
    · exact h.funded_after hen hne hd hpurpose
    · -- The deposit is for something else, or was there before.
      obtain ⟨deposit, hne⟩ := not_forall.1 hne
      obtain rfl := not_not.1 hne
      rw [ExposureOp.after, TaskOp.after_board, TaskOp.apply, restorePendingDeposit,
        Finmap.lookup_insert_eq] at hd
      split_ifs at hd with hid
      · obtain rfl := Option.some.inj hd
        rcases haside with hother | ⟨d, hd, he⟩
        · exact absurd hpurpose (hother intent)
        · rw [hid]
          exact h.funded _ d intent hd (he.trans hpurpose)
      · exact h.funded id d intent hd hpurpose

theorem ExposureRun.sound_of_reachable {C : ExposureRun → ExposureOp → Prop}
    (h : (exposureRuns consensusMaxExposure).ReachableBy C r) : r.Sound consensusMaxExposure := by
  refine h.invariant ?_ ?_
  · rintro r ⟨⟨hstarted, -⟩, hdeposits, hpassed, hreserved, -⟩
    have hnobody : ∀ c, ¬ r.Remembers c := by
      rintro c (hc | ⟨id, hc⟩)
      · simp [hpassed] at hc
      · simp [hreserved] at hc
    refine ⟨hstarted.tidy, fun c hc => absurd hc (hnobody c), fun c hc => absurd hc (hnobody c),
      fun c hc => absurd hc (hnobody c), fun id d intent hd => ?_⟩
    rw [hdeposits, Finmap.lookup_empty] at hd
    cases hd
  · rintro r op _ hr - ⟨hop, rfl⟩
    exact (hr.step hop).1

/-- The tasks of before there were contests are exposed to nothing. -/
theorem TaskBoard.Started.exposure_eq {b : TaskBoard} (h : b.Started) : b.consensusExposure = 0 := by
  have hstakes : b.stakes ≤ Finmap.total (fun _ t => t.stake) (∅ : Finmap fun _ : Uuid => Task) := by
    refine Finmap.total_le_total fun x => ?_
    cases ht : b.tasks.lookup x with
    | none =>
      rw [Finmap.weight, ht]
      exact Nat.zero_le _
    | some t =>
      obtain ⟨kind, hkind, -⟩ := (h.tasks x t ht).2.kind
      rw [Finmap.weight_of_lookup ht, Task.stake, if_neg]
      · exact Nat.zero_le _
      · simp [Task.isExposed, Task.isConsensus, hkind]
  rw [Finmap.total_empty] at hstakes
  rw [consensusExposure_eq]
  omega

/-- **The ceiling**, over every run in which no consensus task lands between the check of a
    request and the landing of its own. -/
theorem exposure_within_ceiling
    (h : (exposureRuns consensusMaxExposure).ReachableBy (fun r op => op.Undisturbed r) r) :
    r.run.board.consensusExposure ≤ consensusMaxExposure := by
  refine h.invariant_of (I := fun r => r.run.board.consensusExposure ≤ consensusMaxExposure)
    (fun r hr => ExposureRun.sound_of_reachable hr) ?_ ?_
  · rintro r ⟨⟨hstarted, -⟩, -⟩
    rw [hstarted.exposure_eq]
    exact Nat.zero_le _
  · rintro r op _ hr hle hundisturbed ⟨hop, rfl⟩
    exact (hr.step hop).2 hundisturbed hle

end

/-! Two requests of `6` each, under a ceiling of `10`. -/

/-- An empty board. -/
def sampleRequests : ExposureRun := ⟨⟨TaskBoard.new, [], [], []⟩, [], ∅, 0⟩

/-- A request creates its task. -/
def sampleLanding (check : Check) (taskId : Uuid) : ExposureOp :=
  .create check taskId 0 1 "" 2 100 60

theorem sampleRequests_reachable {C : ExposureRun → ExposureOp → Prop} :
    (exposureRuns 10).ReachableBy C sampleRequests :=
  .init ⟨⟨started_new, rfl⟩, rfl, rfl, rfl, rfl⟩

theorem sampleLanding_enabled {r : ExposureRun} {check : Check} {taskId : Uuid}
    (hcheck : check ∈ r.passed) (hnew : taskId ∉ r.run.board.tasks) :
    (sampleLanding check taskId).Enabled r := ⟨hcheck, hnew, by decide⟩

theorem ExposureRun.reachable_after {C : ExposureRun → ExposureOp → Prop} {r : ExposureRun}
    (op : ExposureOp) (hr : (exposureRuns 10).ReachableBy C r) (hC : C r op) (hop : op.Enabled r) :
    (exposureRuns 10).ReachableBy C (op.after 10 r) := hr.step hC ⟨hop, rfl⟩

/-- Both are checked before either of them lands, and both land. -/
theorem exposure_passed :
    ∃ r, (exposureRuns 10).Reachable r ∧ 10 < r.run.board.consensusExposure := by
  have h₀ : (exposureRuns 10).Reachable sampleRequests := sampleRequests_reachable
  have h₁ := ExposureRun.reachable_after (.check 6) h₀ trivial trivial
  have h₂ := ExposureRun.reachable_after (.check 6) h₁ trivial trivial
  have h₃ := ExposureRun.reachable_after (sampleLanding ⟨6, 0, 0⟩ 1) h₂ trivial
    (sampleLanding_enabled (by decide +kernel) (by decide +kernel))
  have h₄ := ExposureRun.reachable_after (sampleLanding ⟨6, 0, 0⟩ 2) h₃ trivial
    (sampleLanding_enabled (by decide +kernel) (by decide +kernel))
  exact ⟨_, h₄, by decide +kernel⟩

/-- The second is checked after the first has landed, and is refused. -/
theorem exposure_within_ceiling_refused :
    ∃ r, (exposureRuns 10).ReachableBy (fun r op => op.Undisturbed r) r ∧
      r.run.board.consensusExposure = 6 ∧ r.passed = [] ∧ r.run.board.consensusExposure ≤ 10 := by
  have h₀ : (exposureRuns 10).ReachableBy (fun r op => op.Undisturbed r) sampleRequests :=
    sampleRequests_reachable
  have h₁ := ExposureRun.reachable_after (.check 6) h₀ trivial trivial
  have h₂ := ExposureRun.reachable_after (sampleLanding ⟨6, 0, 0⟩ 1) h₁ rfl
    (sampleLanding_enabled (by decide +kernel) (by decide +kernel))
  have h₃ := ExposureRun.reachable_after (.check 6) h₂ trivial trivial
  exact ⟨_, h₃, by decide +kernel, by decide +kernel, exposure_within_ceiling h₃⟩

end Itx
