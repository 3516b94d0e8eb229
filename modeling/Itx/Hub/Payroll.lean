import Itx.Hub.Building
import Itx.Hub.Submitting

/-!
# Attempts are saved before a payout is handed over

A payout is handed to the node once its attempts are saved, each in a transaction of the store of
its own, and once they are on the board (`submit_task_payout`). A payout that was lost is handed to
the node again, the same transaction, once the attempts that carry it are saved again
(`resend_lost_payout`). Any save may fail, which ends the call, and the hub may crash between any
two steps: the board is then what the store has.

* `Build.Whole`: of the recipients of a transaction all or none have an attempt that carries it, but
  for those recorded as paid. It stays so of the board, as what is recorded replaces the attempts of
  a transaction all or none (`Payroll.Sound.overlap`);
* `payouts_durable`: as long as no crash finds the store otherwise, the recipients of what is handed
  to the node have an attempt in the store, or are recorded as paid;
* `payouts_durable_fails`: a crash between the saves of two attempts leaves one, and the transaction
  it carries is handed over without the other.
-/

namespace Itx

open Call

/-! ## Calls -/

/-- What a payout of a task depends on: whether it comes from a deposit, what is allocated, and who
    was paid. -/
structure Payees where
  escrowed : Bool
  allocated : List (PublicKey × ℕ)
  paid : PublicKey → Bool

namespace TaskBoard

def payeesOf (s : TaskBoard) (t : Task) : Payees where
  escrowed := (t.escrowId.bind fun id => s.pendingDeposits.lookup id).isSome
  allocated := t.allocatedPayouts
  paid := t.isRecipientPaid

def payees (s : TaskBoard) (taskId : Uuid) : Option Payees := (s.tasks.lookup taskId).map s.payeesOf

/-- A recipient is recorded as paid. -/
def IsPaid (s : TaskBoard) (taskId : Uuid) (recipient : PublicKey) : Prop :=
  ∃ v ∈ s.payees taskId, v.paid recipient

/-- What `submit_task_payout` is called for: all that a task with a deposit still owes, and of
    another task a recipient that was not paid. -/
def Settles (s : TaskBoard) (taskId : Uuid) (recipients : List (PublicKey × ℕ)) : Prop :=
  ∃ v ∈ s.payees taskId,
    if v.escrowed then recipients = v.allocated.filter fun p => !v.paid p.1
    else ∃ p, recipients = [p] ∧ ¬v.paid p.1

/-- The attempts of a task that carry a transaction, as `resend_lost_payout` counts them up. -/
def resentLegs (s : TaskBoard) (taskId : Uuid) (tx : Transaction) (submittedAt : DateTime) :
    List PayoutAttempt :=
  ((s.payoutAttemptsForTask taskId).filter fun leg => leg.transaction = some tx).map fun leg =>
    { leg with submissions := leg.submissions + 1, submittedAt }

end TaskBoard

/-- A transaction that was built, and the recipients it was built for. -/
structure Build where
  taskId : Uuid
  transaction : Transaction
  recipients : List (PublicKey × ℕ)
  deriving DecidableEq

/-- A call that hands over a transaction: the attempts it saves first, those it has yet to save, and
    whether they are on the board. -/
structure Dispatch where
  transaction : Transaction
  attempts : List PayoutAttempt
  todo : List PayoutAttempt
  recorded : Bool

/-- A hub, the calls for its tasks, and what was built. -/
structure Payroll where
  hub : Hub
  calls : Finmap fun _ : Uuid => Dispatch
  built : List Build

/-- What becomes of a row that is saved: a failed save may be kept nonetheless. -/
inductive Save
  | saved
  | failed (kept : Bool)

inductive PayrollOp
  /-- `submit_task_payout` builds a transaction and its attempts. -/
  | submit (taskId : Uuid) (signingKey : PrivateKey) (source : PublicKey)
    (recipients : List (PublicKey × ℕ)) (changePubkey : PublicKey) (utxos : UtxoReply)
    (ids : ℕ → Uuid) (submittedAt : DateTime)
  /-- `resend_lost_payout` takes up the transaction of an attempt. -/
  | resend (taskId : Uuid) (recipient : PublicKey) (submittedAt : DateTime)
  /-- The next attempt of a call is saved. -/
  | save (taskId : Uuid) (outcome : Save)
  /-- The attempts of a call are put on the board. -/
  | record (taskId : Uuid)
  /-- The task is saved after that. A call goes on without, if this fails. -/
  | saveTask (taskId : Uuid)
  /-- The transaction is handed to the node (`submit_transaction`). -/
  | hand (taskId : Uuid)
  /-- A payout is recorded as paid, and committed. -/
  | confirm (now : DateTime) (taskId : Uuid) (recipient : PublicKey) (amount : ℕ)
  /-- The hub crashes, and starts from its store. -/
  | crash

section

variable (c : Crypto) (g : Signing)

/-- The transaction and the attempts `submit_task_payout` makes. -/
def TaskBoard.draft (s : TaskBoard) (taskId : Uuid) (signingKey : PrivateKey) (source : PublicKey)
    (recipients : List (PublicKey × ℕ)) (changePubkey : PublicKey) (utxos : UtxoReply)
    (ids : ℕ → Uuid) (submittedAt : DateTime) : Option (Transaction × List PayoutAttempt) :=
  match buildPaymentFrom c g s ids utxos signingKey source recipients changePubkey
    (recipients.map fun p => (taskId, p.1)) with
  | .ok tx => (s.attemptsOf c taskId source submittedAt tx recipients).map fun attempts => (tx, attempts)
  | _ => none

namespace PayrollOp

/-- The state after a step. -/
def after (t : Payroll) : PayrollOp → Payroll
  | submit taskId signingKey source recipients changePubkey utxos ids submittedAt =>
    match t.hub.board.draft c g taskId signingKey source recipients changePubkey utxos ids submittedAt with
    | some (tx, attempts) =>
      { t with
        calls := t.calls.insert taskId ⟨tx, attempts, attempts, false⟩
        built := ⟨taskId, tx, recipients⟩ :: t.built }
    | none => t
  | resend taskId recipient submittedAt =>
    match (t.hub.board.payoutAttempt taskId recipient).bind PayoutAttempt.transaction with
    | some tx =>
      let legs := t.hub.board.resentLegs taskId tx submittedAt
      { t with calls := t.calls.insert taskId ⟨tx, legs, legs, false⟩ }
    | none => t
  | save taskId outcome =>
    match t.calls.lookup taskId with
    | some ⟨tx, attempts, attempt :: todo, recorded⟩ =>
      let saved : Hub := { t.hub with store := t.hub.store.restorePayoutAttempt attempt }
      match outcome with
      | .saved => { t with hub := saved, calls := t.calls.insert taskId ⟨tx, attempts, todo, recorded⟩ }
      | .failed kept => { t with hub := if kept then saved else t.hub, calls := t.calls.erase taskId }
    | _ => t
  | record taskId =>
    match t.calls.lookup taskId with
    | some ⟨tx, attempts, [], false⟩ =>
      { t with
        hub := { t.hub with board := t.hub.board.recordPayoutAttempts attempts }
        calls := t.calls.insert taskId ⟨tx, attempts, [], true⟩ }
    | _ => t
  | saveTask taskId =>
    match t.calls.lookup taskId, t.hub.board.tasks.lookup taskId with
    | some ⟨_, _, _, true⟩, some task => { t with hub := { t.hub with store := t.hub.store.restoreTask task } }
    | _, _ => t
  | hand taskId =>
    match t.calls.lookup taskId with
    | some ⟨_, _, _, true⟩ => { t with calls := t.calls.erase taskId }
    | _ => t
  | confirm now taskId recipient amount =>
    { t with hub := (recordConfirmedPayout now true taskId recipient amount t.hub).1 }
  | crash => ⟨⟨t.hub.store, t.hub.store⟩, ∅, t.built⟩

/-- A task has one call at a time. The outputs of a transaction have fresh ids, so that it is none
    of those built before. -/
def Enabled (t : Payroll) : PayrollOp → Prop
  | submit taskId signingKey source recipients changePubkey utxos ids submittedAt =>
    taskId ∉ t.calls ∧ t.hub.board.Settles taskId recipients ∧
      ∀ tx attempts, t.hub.board.draft c g taskId signingKey source recipients changePubkey utxos ids
        submittedAt = some (tx, attempts) → ∀ b ∈ t.built, b.transaction ≠ tx
  | resend taskId _ _ => taskId ∉ t.calls
  | confirm now taskId recipient amount => taskId ∉ t.calls ∧
    (recordConfirmedPayout now true taskId recipient amount t.hub).2 = .ok true
  | _ => True

end PayrollOp

/-- The shares of a task are of different keys, and who wins it is ruled once it is settled. -/
structure Task.Regular (t : Task) : Prop where
  distinct : t.Distinct
  ruled : t.Settled → t.Ruled

/-- What the records of a board stand under, and of what tasks they are. -/
structure TaskBoard.Regular (s : TaskBoard) : Prop where
  tasksKeyed : s.TasksKeyed
  attemptsKeyed : s.AttemptsKeyed
  tasks : ∀ x t, s.tasks.lookup x = some t → t.Regular

/-- The runs of a hub that has started. What attempts it has are of before transactions were kept
    with them, and for recipients that were not paid. -/
def payrolls : System Payroll PayrollOp where
  init := { t | t.hub.board = t.hub.store ∧ t.hub.store.Regular ∧
    (∀ x pk a, t.hub.store.payoutAttempts.lookup (x, pk) = some a →
      a.transaction = none ∧ ¬t.hub.store.IsPaid x pk) ∧ t.calls = ∅ ∧ t.built = [] }
  step t op t' := op.Enabled c g t ∧ t' = op.after c g t

end

/-! ## What is to be shown -/

namespace Build

variable (b : Build)

/-- The keys a transaction was built for. -/
def keys : List PublicKey := b.recipients.map Prod.fst

/-- The attempt at a payout carries the transaction. -/
def Carried (s : TaskBoard) (recipient : PublicKey) : Prop :=
  ∃ a, s.payoutAttempts.lookup (b.taskId, recipient) = some a ∧ a.transaction = some b.transaction

/-- All or none of the recipients have an attempt that carries the transaction, but for those that
    were paid. -/
def Whole (s : TaskBoard) : Prop :=
  (∃ pk, b.Carried s pk) → ∀ pk ∈ b.keys, b.Carried s pk ∨ s.IsPaid b.taskId pk

/-- The store has an attempt at an output of the transaction, or the recipient was paid. -/
def Covered (c : Crypto) (store : TaskBoard) (recipient : PublicKey) : Prop :=
  (∃ a, store.payoutAttempts.lookup (b.taskId, recipient) = some a ∧
    a.outputHash ∈ b.transaction.outputs.map c.hashOutput) ∨ store.IsPaid b.taskId recipient

end Build

namespace Payroll

/-- A call is about to hand the transaction to the node. -/
def Hands (t : Payroll) (b : Build) : Prop :=
  b ∈ t.built ∧ ∃ d ∈ t.calls.lookup b.taskId, d.recorded ∧ d.transaction = b.transaction

/-- A crash finds all or none of the attempts at each transaction in the store. -/
def CrashesWhole (t : Payroll) (op : PayrollOp) : Prop :=
  op = .crash → ∀ b ∈ t.built, b.Whole t.hub.store

end Payroll

variable {c : Crypto} {g : Signing} {s s' : TaskBoard} {t t' : Payroll} {b b' : Build} {x : Uuid}
  {pk : PublicKey}

/-! ## What is written -/

namespace Task.Regular

variable {task : Task}

theorem submitted (h : task.Regular) (hstatus : task.status = .verified) :
    Task.Regular { task with status := .submitted } where
  distinct := h.distinct
  ruled _ := h.ruled (by rw [Task.Settled, hstatus]; decide)

theorem paid {recipient : PublicKey} {kind : TaskKind} {nowFullyPaid credited : Bool} (h : task.Regular)
    (hstatus : task.status = .verified ∨ task.status = .submitted)
    (hpays : task.Pays recipient kind nowFullyPaid credited) (now : DateTime) :
    (TaskBoard.paidTask task now kind nowFullyPaid).Regular where
  distinct k hk := by
    rw [paidTask_kind] at hk
    subst hk
    cases hpays with
    | contest hkind => exact nodup_map_updateFirst (fun _ => rfl) (h.distinct _ hkind)
    | single hkind => exact h.distinct _ hkind
  ruled _ := hpays.ruled (h.ruled (by rcases hstatus with hs | hs <;> rw [Task.Settled, hs] <;> decide)) now

end Task.Regular

namespace TaskBoard

theorem payees_insert {task : Task} (htasks : s'.tasks = s.tasks.insert x task)
    (hdeposits : s'.pendingDeposits = s.pendingDeposits) (y : Uuid) :
    s'.payees y = if y = x then some (s.payeesOf task) else s.payees y := by
  have hof : s'.payeesOf = s.payeesOf := by
    funext t
    rw [payeesOf, hdeposits, payeesOf]
  rw [payees, hof, htasks, Finmap.lookup_insert_eq]
  split_ifs <;> rfl

theorem IsPaid.congr (h : s'.payees x = s.payees x) : s'.IsPaid x pk ↔ s.IsPaid x pk := by
  rw [IsPaid, IsPaid, h]

theorem Regular.insert {task : Task} (h : s.Regular) (htasks : s'.tasks = s.tasks.insert x task)
    (hattempts : s'.AttemptsKeyed) (hid : task.id = x) (htask : task.Regular) : s'.Regular where
  tasksKeyed := by
    rw [TasksKeyed, htasks]
    exact h.tasksKeyed.insert hid
  attemptsKeyed := hattempts
  tasks y t ht := by
    rw [htasks, Finmap.lookup_insert_eq] at ht
    split_ifs at ht
    · exact Option.some.inj ht ▸ htask
    · exact h.tasks y t ht

/-- Putting an attempt on the board changes none of what its task pays. -/
theorem regular_recordPayoutAttempt (a : PayoutAttempt) (h : s.Regular) :
    (s.recordPayoutAttempt a).Regular ∧ (s.recordPayoutAttempt a).payees = s.payees ∧
      (s.recordPayoutAttempt a).pendingDeposits = s.pendingDeposits := by
  have hkeyed : (s.restorePayoutAttempt a).AttemptsKeyed := restorePayoutAttempt_keyed h.attemptsKeyed
  rcases s.recordPayoutAttempt_cases a with hrec | ⟨task, htask, hstatus, -, hrec⟩
  · rw [hrec]
    exact ⟨⟨h.tasksKeyed, hkeyed, h.tasks⟩, rfl, rfl⟩
  · have hid : task.id = a.taskId := h.tasksKeyed _ _ htask
    have htasks : (s.recordPayoutAttempt a).tasks =
        s.tasks.insert a.taskId { task with status := .submitted } := by
      rw [hrec]
    have hdeposits : (s.recordPayoutAttempt a).pendingDeposits = s.pendingDeposits := by
      rw [hrec]
      rfl
    have hkeyed' : (s.recordPayoutAttempt a).AttemptsKeyed := by
      rw [hrec]
      exact hkeyed
    refine ⟨h.insert htasks hkeyed' hid ((h.tasks _ _ htask).submitted hstatus), funext fun y => ?_, hdeposits⟩
    rw [payees_insert htasks hdeposits]
    split_ifs with hy
    · have hne : task.status ≠ .paid := by
        rw [hstatus]
        decide
      have hpaid : ({ task with status := .submitted } : Task).isRecipientPaid = task.isRecipientPaid :=
        funext (Task.isRecipientPaid_status hne (by decide))
      rw [hy, payees, htask, Option.map_some, payeesOf, hpaid]
      rfl
    · rfl

theorem regular_recordPayoutAttempts (attempts : List PayoutAttempt) (h : s.Regular) :
    (s.recordPayoutAttempts attempts).Regular ∧ (s.recordPayoutAttempts attempts).payees = s.payees ∧
      (s.recordPayoutAttempts attempts).pendingDeposits = s.pendingDeposits := by
  induction attempts generalizing s with
  | nil => exact ⟨h, rfl, rfl⟩
  | cons a attempts ih =>
    obtain ⟨hregular, hpayees, hdeposits⟩ := regular_recordPayoutAttempt a h
    obtain ⟨hregular', hpayees', hdeposits'⟩ := ih hregular
    exact ⟨hregular', hpayees'.trans hpayees, hdeposits'.trans hdeposits⟩

/-- The legs of a resend are attempts of the board, but for when they were submitted and how often. -/
theorem mem_resentLegs {tx : Transaction} {submittedAt : DateTime} {leg : PayoutAttempt}
    (hkeyed : s.AttemptsKeyed) (h : leg ∈ s.resentLegs x tx submittedAt) :
    ∃ a, s.payoutAttempts.lookup leg.leg = some a ∧ a.transaction = some tx ∧ a.taskId = x ∧
      leg = { a with submissions := a.submissions + 1, submittedAt } := by
  obtain ⟨a, ha, rfl⟩ := List.mem_map.1 h
  obtain ⟨hmem, htx⟩ := List.mem_filter.1 ha
  obtain ⟨pk, hpk⟩ := mem_payoutAttemptsForTask.1 hmem
  obtain ⟨hid, hrecipient⟩ := hkeyed _ _ a hpk
  refine ⟨a, ?_, of_decide_eq_true htx, hid, rfl⟩
  rw [PayoutAttempt.leg, hid, hrecipient]
  exact hpk

/-- And all of those that carry the transaction. -/
theorem leg_mem_resentLegs {tx : Transaction} {submittedAt : DateTime} {leg : Uuid × PublicKey}
    {a : PayoutAttempt}
    (hkeyed : s.AttemptsKeyed) (ha : s.payoutAttempts.lookup leg = some a) (htx : a.transaction = some tx)
    (hid : leg.1 = x) : leg ∈ (s.resentLegs x tx submittedAt).map PayoutAttempt.leg := by
  obtain ⟨y, pk⟩ := leg
  obtain rfl : y = x := hid
  obtain ⟨hy, hr⟩ := hkeyed y pk a ha
  refine List.mem_map.2 ⟨_, List.mem_map_of_mem (List.mem_filter.2
    ⟨mem_payoutAttemptsForTask.2 ⟨pk, ha⟩, decide_eq_true htx⟩), ?_⟩
  rw [PayoutAttempt.leg]
  exact Prod.ext hy hr

/-- What the board has of a task is saved. -/
theorem payees_restoreTask {task : Task} (h : s.TasksKeyed) (htask : s.tasks.lookup x = some task)
    (hdeposits : s'.pendingDeposits = s.pendingDeposits) (hpayees : s'.payees = s.payees) :
    (s'.restoreTask task).payees = s.payees := by
  have htasks : (s'.restoreTask task).tasks = s'.tasks.insert x task := by
    rw [restoreTask, h x task htask]
  have hsame : (s'.restoreTask task).pendingDeposits = s'.pendingDeposits := rfl
  funext y
  rw [payees_insert htasks hsame]
  split_ifs with hy
  · rw [hy, payees, htask, Option.map_some, payeesOf, hdeposits, payeesOf]
  · rw [hpayees]

/-- What is recorded of a task when a recipient is paid. -/
theorem Recorded.task {s s' : TaskBoard} {recipient : PublicKey} {amount : ℕ} {now : DateTime}
    (h : Recorded x recipient amount now s s') (hs : s.Regular) :
    ∃ task task', s.tasks.lookup x = some task ∧ s'.tasks = s.tasks.insert x task' ∧ task'.id = x ∧
      task'.Regular ∧ task'.escrowId = task.escrowId ∧ task'.allocatedPayouts = task.allocatedPayouts ∧
      ∀ pk, task'.isRecipientPaid pk ↔ pk = recipient ∨ task.isRecipientPaid pk := by
  cases h with
  | @again task htask hstatus hpay =>
    refine ⟨task, task, htask, rfl, hs.tasksKeyed _ _ htask, hs.tasks _ _ htask, rfl, rfl, fun pk => ?_⟩
    refine ⟨.inr, fun hpk => hpk.elim (fun hpk => ?_) id⟩
    rw [hpk]
    exact Task.isRecipientPaid_of_again hpay
  | @paid task kind nowFullyPaid credited htask hstatus hpay =>
    have hregular := hs.tasks _ _ htask
    have hpays := Task.pays_of_payRecipient hpay
    have hne : task.status ≠ .paid := by
      rcases hstatus with hs | hs <;> rw [hs] <;> decide
    have hsettled : task.Settled := by
      rcases hstatus with hs | hs <;> rw [Task.Settled, hs] <;> decide
    have hone := hpays.paysOne hne hregular.distinct (hregular.ruled hsettled) now
    have hmoves : task.Moves (paidTask task now kind nowFullyPaid) := .pay now hstatus hpay
    exact ⟨task, _, htask, rfl, hmoves.id_eq.trans (hs.tasksKeyed _ _ htask), hregular.paid hstatus hpays now,
      hmoves.escrowId_eq, hpays.allocatedPayouts_eq now, hone.paid_iff⟩

theorem Regular.confirm {task : Task} (h : s.Regular) (htasks : s'.tasks = s.tasks.insert x task)
    (hattempts : s'.payoutAttempts = s.payoutAttempts.erase (x, pk)) (hid : task.id = x)
    (htask : task.Regular) :
    s'.Regular := by
  refine h.insert htasks (fun y pk' a ha => ?_) hid htask
  rw [hattempts, Finmap.lookup_erase_eq] at ha
  split_ifs at ha
  exact h.attemptsKeyed y pk' a ha

/-- A payout that is recorded, as the board and the store have it. -/
structure Confirmed (x : Uuid) (recipient : PublicKey) (hub hub' : Hub) : Prop where
  regular : hub'.board.Regular ∧ hub'.store.Regular
  deposits : hub'.board.pendingDeposits = hub.board.pendingDeposits ∧
    hub'.store.pendingDeposits = hub.store.pendingDeposits
  attempts : hub'.board.payoutAttempts = hub.board.payoutAttempts.erase (x, recipient) ∧
    hub'.store.payoutAttempts = hub.store.payoutAttempts.erase (x, recipient)
  payees : ∃ v v', hub.board.payees x = some v ∧ v'.escrowed = v.escrowed ∧ v'.allocated = v.allocated ∧
    (∀ pk, v'.paid pk ↔ pk = recipient ∨ v.paid pk) ∧
    (∀ y, hub'.board.payees y = if y = x then some v' else hub.board.payees y) ∧
    ∀ y, hub'.store.payees y = if y = x then some v' else hub.store.payees y

end TaskBoard

open TaskBoard

/-- A payout is recorded by the board and by the store alike. -/
theorem confirmed_of_recordConfirmedPayout {hub : Hub} {now : DateTime} {recipient : PublicKey} {amount : ℕ}
    (hboard : hub.board.Regular) (hstore : hub.store.Regular)
    (hdeposits : hub.store.pendingDeposits = hub.board.pendingDeposits)
    (h : (recordConfirmedPayout now true x recipient amount hub).2 = .ok true) :
    Confirmed x recipient hub (recordConfirmedPayout now true x recipient amount hub).1 := by
  have hend : Call.Ends _ _ _ (markRecipientPaid x recipient amount now hub.board) :=
    triple_markRecipientPaid _ rfl
  rw [recordConfirmedPayout] at h ⊢
  generalize markRecipientPaid x recipient amount now hub.board = r at hend h
  obtain ⟨board, paid | error | _⟩ := r
  · have hrec : Recorded x recipient amount now hub.board board := hend
    obtain ⟨-, hdep, hatt, -⟩ := hrec.frame
    obtain ⟨task, task', htask, htasks, hid, hregular, hescrow, hallocated, hpaid⟩ := hrec.task hboard
    have hlookup : (board.clearPayoutAttempt x recipient).tasks.lookup x = some task' := by
      rw [clearPayoutAttempt, htasks, Finmap.lookup_insert]
    simp only [hlookup, if_true]
    generalize hcleared : board.clearPayoutAttempt x recipient = board'
    generalize hsaved : saveConfirmedPayout task' recipient (board'.reputationOf recipient) hub.store = store'
    have hboardTasks : board'.tasks = hub.board.tasks.insert x task' := by rw [← hcleared, ← htasks]; rfl
    have hboardDeposits : board'.pendingDeposits = hub.board.pendingDeposits := by rw [← hcleared, ← hdep]; rfl
    have hboardAttempts : board'.payoutAttempts = hub.board.payoutAttempts.erase (x, recipient) := by
      rw [← hcleared, ← hatt]
      rfl
    have hstoreTasks : store'.tasks = hub.store.tasks.insert x task' := by rw [← hsaved, ← hid]; rfl
    have hstoreDeposits : store'.pendingDeposits = hub.store.pendingDeposits := by rw [← hsaved]; rfl
    have hstoreAttempts : store'.payoutAttempts = hub.store.payoutAttempts.erase (x, recipient) := by
      rw [← hsaved, ← hid]
      rfl
    refine ⟨⟨hboard.confirm hboardTasks hboardAttempts hid hregular,
      hstore.confirm hstoreTasks hstoreAttempts hid hregular⟩, ⟨hboardDeposits, hstoreDeposits⟩,
      ⟨hboardAttempts, hstoreAttempts⟩, hub.board.payeesOf task, hub.board.payeesOf task', ?_, ?_, hallocated,
      hpaid, payees_insert hboardTasks hboardDeposits, ?_⟩
    · rw [payees, htask, Option.map_some]
    · rw [payeesOf, payeesOf, hescrow]
    · have hof : hub.board.payeesOf task' = hub.store.payeesOf task' := by rw [payeesOf, payeesOf, hdeposits]
      rw [hof]
      exact payees_insert hstoreTasks hstoreDeposits
  · cases h
  · cases h

/-! ## The invariant -/

/-- An attempt at a payout of a transaction. -/
structure Build.Made (c : Crypto) (b : Build) (a : PayoutAttempt) : Prop where
  taskId : a.taskId = b.taskId
  transaction : a.transaction = some b.transaction
  recipient : a.recipient ∈ b.keys
  outputHash : a.outputHash ∈ b.transaction.outputs.map c.hashOutput

/-- Whom a transaction was built for: a task with a deposit owes nobody else, and another task is
    paid one recipient at a time. -/
def Build.Scope (b : Build) (v : Payees) : Prop :=
  if v.escrowed then
    (∀ p ∈ v.allocated, ¬v.paid p.1 → p.1 ∈ b.keys) ∧ ∀ pk ∈ b.keys, pk ∈ v.allocated.map Prod.fst
  else ∃ pk, b.keys = [pk]

namespace Payroll

/-- The attempts of a board or a store are for recipients that were not paid, and at payouts of the
    transactions they carry. -/
def Legs (c : Crypto) (built : List Build) (s : TaskBoard) : Prop :=
  ∀ x pk a, s.payoutAttempts.lookup (x, pk) = some a →
    ¬s.IsPaid x pk ∧ ∀ tx, a.transaction = some tx → ∃ b ∈ built, b.transaction = tx ∧ b.Made c a

theorem Legs.mono {built : List Build} (h : Legs c built s) : Legs c (b :: built) s := by
  refine fun x pk a ha => ⟨(h x pk a ha).1, fun tx htx => ?_⟩
  obtain ⟨b', hb', hmade⟩ := (h x pk a ha).2 tx htx
  exact ⟨b', List.mem_cons_of_mem _ hb', hmade⟩

/-- A call has an attempt for each recipient of its transaction that was not paid, saved or to be
    saved. -/
structure Ready (c : Crypto) (hub : Hub) (b : Build) (d : Dispatch) : Prop where
  transaction : d.transaction = b.transaction
  all : ∀ pk ∈ b.keys, hub.board.IsPaid b.taskId pk ∨ ∃ a ∈ d.attempts, a.recipient = pk
  made : ∀ a ∈ d.attempts, b.Made c a
  unpaid : ∀ a ∈ d.attempts, ¬hub.board.IsPaid b.taskId a.recipient
  todo : ∀ a ∈ d.todo, a ∈ d.attempts
  saved : ∀ a ∈ d.attempts, a ∈ d.todo ∨ b.Covered c hub.store a.recipient
  recorded : d.recorded → d.todo = []

/-- The invariant of the runs. -/
structure Sound (c : Crypto) (t : Payroll) : Prop where
  board : t.hub.board.Regular
  store : t.hub.store.Regular
  deposits : t.hub.store.pendingDeposits = t.hub.board.pendingDeposits
  payees : t.hub.store.payees = t.hub.board.payees
  unique : ∀ b ∈ t.built, ∀ b' ∈ t.built, b.transaction = b'.transaction → b = b'
  scope : ∀ b ∈ t.built, ∃ v ∈ t.hub.board.payees b.taskId, b.Scope v
  boardLegs : Legs c t.built t.hub.board
  storeLegs : Legs c t.built t.hub.store
  whole : ∀ b ∈ t.built, b.Whole t.hub.board
  calls : ∀ x d, t.calls.lookup x = some d → ∃ b ∈ t.built, b.taskId = x ∧ Ready c t.hub b d

namespace Sound

/-- Two transactions of a task that have a recipient in common that was not paid have them all. -/
theorem overlap (h : t.Sound c) (hb : b ∈ t.built) (hb' : b' ∈ t.built) (htask : b.taskId = b'.taskId)
    (hpk : pk ∈ b.keys) (hpk' : pk ∈ b'.keys) {other : PublicKey} (hother : other ∈ b'.keys)
    (hunpaid : ¬t.hub.board.IsPaid b.taskId other) : other ∈ b.keys := by
  obtain ⟨v, hv, hscope⟩ := h.scope b hb
  obtain ⟨v', hv', hscope'⟩ := h.scope b' hb'
  rw [← htask] at hv'
  obtain rfl : v = v' := Option.some.inj ((Option.mem_def.1 hv).symm.trans hv')
  rw [Build.Scope] at hscope hscope'
  split_ifs at hscope hscope' with hescrowed
  · obtain ⟨p, hp, rfl⟩ := List.mem_map.1 (hscope'.2 other hother)
    exact hscope.1 p hp fun hpaid => hunpaid ⟨v, hv, hpaid⟩
  · obtain ⟨single, hkeys⟩ := hscope
    obtain ⟨single', hkeys'⟩ := hscope'
    rw [hkeys, List.mem_singleton] at hpk
    rw [hkeys', List.mem_singleton] at hpk' hother
    rw [hkeys, hother, ← hpk', hpk]
    exact List.mem_singleton_self _

/-- What is handed over has been saved. -/
theorem covered (h : t.Sound c) (hands : t.Hands b) (hpk : pk ∈ b.keys) : b.Covered c t.hub.store pk := by
  obtain ⟨hb, d, hd, hrecorded, htx⟩ := hands
  obtain ⟨b', hb', -, hready⟩ := h.calls _ d hd
  obtain rfl := h.unique b hb b' hb' (htx.symm.trans hready.transaction)
  rcases hready.all pk hpk with hpaid | ⟨a, ha, rfl⟩
  · exact .inr ((IsPaid.congr (congrFun h.payees _)).2 hpaid)
  · refine (hready.saved a ha).resolve_left ?_
    rw [hready.recorded hrecorded]
    exact List.not_mem_nil

/-- The call for a task ends. -/
theorem endCall (h : t.Sound c) (x : Uuid) : Sound c { t with calls := t.calls.erase x } where
  __ := h
  calls y d hd := by
    rw [Finmap.lookup_erase_eq] at hd
    split_ifs at hd
    exact h.calls y d hd

/-- A call for a task begins. -/
theorem beginCall {d : Dispatch} (h : t.Sound c) (hb : b ∈ t.built) (hready : Ready c t.hub b d) :
    Sound c { t with calls := t.calls.insert b.taskId d } where
  __ := h
  calls y d' hd := by
    rw [Finmap.lookup_insert_eq] at hd
    split_ifs at hd with hy
    · obtain rfl := Option.some.inj hd
      exact ⟨b, hb, hy.symm, hready⟩
    · exact h.calls y d' hd

/-- A transaction is built that none of the attempts carries. -/
theorem build (h : t.Sound c) (hfresh : ∀ b' ∈ t.built, b'.transaction ≠ b.transaction)
    (hscope : ∃ v ∈ t.hub.board.payees b.taskId, b.Scope v) : Sound c { t with built := b :: t.built } where
  __ := h
  unique b₁ h₁ b₂ h₂ htx := by
    rcases List.mem_cons.1 h₁ with heq | hmem <;> rcases List.mem_cons.1 h₂ with heq' | hmem'
    · exact heq.trans heq'.symm
    · exact absurd (htx.symm.trans (congrArg _ heq)) (hfresh b₂ hmem')
    · exact absurd (htx.trans (congrArg _ heq')) (hfresh b₁ hmem)
    · exact h.unique b₁ hmem b₂ hmem' htx
  scope := List.forall_mem_cons.2 ⟨hscope, h.scope⟩
  boardLegs := h.boardLegs.mono
  storeLegs := h.storeLegs.mono
  whole := by
    refine List.forall_mem_cons.2 ⟨?_, h.whole⟩
    rintro ⟨pk, a, ha, htx⟩
    obtain ⟨b', hb', hsame, -⟩ := (h.boardLegs _ _ a ha).2 _ htx
    exact absurd hsame (hfresh b' hb')
  calls x d hd := by
    obtain ⟨b', hb', hready⟩ := h.calls x d hd
    exact ⟨b', List.mem_cons_of_mem _ hb', hready⟩

/-- `submit_task_payout` makes an attempt for each recipient. -/
theorem submit {recipients : List (PublicKey × ℕ)} {tx : Transaction} {attempts : List PayoutAttempt}
    {source : PublicKey} {submittedAt : DateTime} (h : t.Sound c) (hsettles : t.hub.board.Settles x recipients)
    (hfresh : ∀ b ∈ t.built, b.transaction ≠ tx)
    (hattempts : t.hub.board.attemptsOf c x source submittedAt tx recipients = some attempts) :
    Sound c { t with
      calls := t.calls.insert x ⟨tx, attempts, attempts, false⟩
      built := ⟨x, tx, recipients⟩ :: t.built } := by
  obtain ⟨hof, hlegs⟩ := attemptsOf_eq_some hattempts
  obtain ⟨v, hv, hrecipients⟩ := hsettles
  have hunpaid : ∀ pk ∈ Build.keys ⟨x, tx, recipients⟩, ¬t.hub.board.IsPaid x pk := by
    rintro pk hpk ⟨v', hv', hpaid⟩
    obtain rfl : v = v' := Option.some.inj ((Option.mem_def.1 hv).symm.trans hv')
    obtain ⟨p, hp, rfl⟩ := List.mem_map.1 hpk
    split_ifs at hrecipients
    · rw [hrecipients, List.mem_filter] at hp
      simp [hpaid] at hp
    · obtain ⟨q, hq, hnot⟩ := hrecipients
      rw [hq, List.mem_singleton] at hp
      exact hnot (hp ▸ hpaid)
  have hscope : ∃ v ∈ t.hub.board.payees x, Build.Scope ⟨x, tx, recipients⟩ v := by
    refine ⟨v, hv, ?_⟩
    rw [Build.Scope]
    split_ifs at hrecipients ⊢
    · refine ⟨fun p hp hpaid => List.mem_map_of_mem ?_, fun pk hpk => ?_⟩
      · rw [hrecipients, List.mem_filter]
        exact ⟨hp, by simpa using hpaid⟩
      · rw [Build.keys, hrecipients] at hpk
        exact List.map_subset _ (List.filter_subset_self _) hpk
    · obtain ⟨p, hp, -⟩ := hrecipients
      exact ⟨p.1, by rw [Build.keys, hp]; rfl⟩
  -- The legs of the attempts are the recipients.
  have hmem : ∀ pk, pk ∈ Build.keys ⟨x, tx, recipients⟩ ↔ ∃ a ∈ attempts, a.recipient = pk := by
    intro pk
    have hkeys : attempts.map PayoutAttempt.recipient = recipients.map Prod.fst := by
      have := congrArg (List.map Prod.snd) hlegs
      rwa [List.map_map, List.map_map] at this
    rw [Build.keys, ← hkeys, List.mem_map]
  refine (h.build hfresh hscope).beginCall List.mem_cons_self ⟨rfl, fun pk hpk => .inr ((hmem pk).1 hpk),
    fun a ha => ?_, fun a ha => hunpaid _ ((hmem _).2 ⟨a, ha, rfl⟩), fun a ha => ha, fun a ha => .inl ha,
    fun he => absurd he Bool.false_ne_true⟩
  exact ⟨(hof a ha).taskId, (hof a ha).transaction, (hmem _).2 ⟨a, ha, rfl⟩, (hof a ha).outputHash⟩

/-- `resend_lost_payout` takes up all attempts that carry the transaction. -/
theorem resend {a : PayoutAttempt} {tx : Transaction} (h : t.Sound c)
    (ha : t.hub.board.payoutAttempts.lookup (x, pk) = some a) (htx : a.transaction = some tx)
    (submittedAt : DateTime) :
    let legs := t.hub.board.resentLegs x tx submittedAt
    Sound c { t with calls := t.calls.insert x ⟨tx, legs, legs, false⟩ } := by
  intro legs
  obtain ⟨b, hb, rfl, hmade⟩ := (h.boardLegs x pk a ha).2 tx htx
  have htask := h.board.attemptsKeyed x pk a ha
  obtain rfl : b.taskId = x := hmade.taskId.symm.trans htask.1
  have hlegs : ∀ leg ∈ legs, b.Made c leg ∧ ¬t.hub.board.IsPaid b.taskId leg.recipient := by
    intro leg hleg
    obtain ⟨a', ha', htx', hid, rfl⟩ := mem_resentLegs h.board.attemptsKeyed hleg
    obtain ⟨hunpaid, hof⟩ := h.boardLegs _ _ a' ha'
    obtain ⟨b', hb', hsame, hmade'⟩ := hof _ htx'
    obtain rfl := h.unique b' hb' b hb hsame
    exact ⟨⟨hmade'.taskId, hmade'.transaction, hmade'.recipient, hmade'.outputHash⟩, hid ▸ hunpaid⟩
  refine h.beginCall hb ⟨rfl, fun other hother => ?_, fun leg hleg => (hlegs leg hleg).1,
    fun leg hleg => (hlegs leg hleg).2, fun leg hleg => hleg, fun leg hleg => .inl hleg,
    fun he => absurd he Bool.false_ne_true⟩
  rcases h.whole b hb ⟨pk, a, ha, htx⟩ other hother with ⟨a', ha', htx'⟩ | hpaid
  · obtain ⟨leg, hleg, he⟩ := List.mem_map.1 (leg_mem_resentLegs h.board.attemptsKeyed ha' htx' rfl)
    exact .inr ⟨leg, hleg, congrArg Prod.snd he⟩
  · exact .inl hpaid

/-- An attempt of a call is saved. What other calls have saved is of other tasks. -/
theorem saves {d : Dispatch} {a : PayoutAttempt} (h : t.Sound c) (hd : t.calls.lookup x = some d)
    (ha : a ∈ d.attempts) :
    Sound c { t with hub := { t.hub with store := t.hub.store.restorePayoutAttempt a } } := by
  obtain ⟨b, hb, rfl, hready⟩ := h.calls x d hd
  have hmade := hready.made a ha
  have hlookup : ∀ y pk, (t.hub.store.restorePayoutAttempt a).payoutAttempts.lookup (y, pk) =
      if (y, pk) = (a.taskId, a.recipient) then some a else t.hub.store.payoutAttempts.lookup (y, pk) :=
    fun y pk => Finmap.lookup_insert_eq ..
  refine { h with
    store := ⟨h.store.tasksKeyed, restorePayoutAttempt_keyed h.store.attemptsKeyed, h.store.tasks⟩
    storeLegs := fun y pk a' ha' => ?_
    calls := fun y d' hd' => ?_ }
  · rw [hlookup] at ha'
    split_ifs at ha' with hleg
    · obtain rfl := Option.some.inj ha'
      obtain ⟨rfl, rfl⟩ := Prod.mk.inj hleg
      refine ⟨fun hpaid => hready.unpaid a ha ?_, fun tx htx => ⟨b, hb, ?_, hmade⟩⟩
      · rw [← hmade.taskId]
        exact (IsPaid.congr (congrFun h.payees _)).1 hpaid
      · exact Option.some.inj (hmade.transaction.symm.trans htx)
    · exact h.storeLegs y pk a' ha'
  · obtain ⟨b', hb', rfl, hready'⟩ := h.calls y d' hd'
    refine ⟨b', hb', rfl, { hready' with saved := fun a' ha' => ?_ }⟩
    refine (hready'.saved a' ha').imp_right ?_
    rintro (⟨kept, hkept, hhash⟩ | hpaid)
    · by_cases hleg : (b'.taskId, a'.recipient) = (a.taskId, a.recipient)
      · -- The calls are of one task, so that they are one.
        have htask : b'.taskId = b.taskId := (congrArg Prod.fst hleg).trans hmade.taskId
        obtain rfl : d = d' := Option.some.inj (hd.symm.trans (htask ▸ hd'))
        obtain rfl := h.unique b hb b' hb' (hready.transaction.symm.trans hready'.transaction)
        refine .inl ⟨a, ?_, hmade.outputHash⟩
        rw [hlookup, if_pos hleg]
      · refine .inl ⟨kept, ?_, hhash⟩
        rw [hlookup, if_neg hleg]
        exact hkept
    · exact .inr hpaid

/-- The attempts of a call replace those at another transaction of the task all or none. -/
theorem whole_recordPayoutAttempts {d : Dispatch} (h : t.Sound c) (hb : b ∈ t.built) (hb' : b' ∈ t.built)
    (hready : Ready c t.hub b d) : b'.Whole (t.hub.board.recordPayoutAttempts d.attempts) := by
  obtain ⟨-, hpayees, -⟩ := regular_recordPayoutAttempts d.attempts h.board
  have hpaid : ∀ {pk}, t.hub.board.IsPaid b'.taskId pk →
      (t.hub.board.recordPayoutAttempts d.attempts).IsPaid b'.taskId pk :=
    (IsPaid.congr (congrFun hpayees _)).2
  have hleg : ∀ a ∈ d.attempts, a.leg = (b.taskId, a.recipient) := fun a ha =>
    Prod.ext (hready.made a ha).taskId rfl
  rintro ⟨first, a₀, ha₀, htx₀⟩ pk hpk
  rw [recordPayoutAttempts_attempts] at ha₀
  -- The transaction is that of the call, and all its legs carry it now.
  by_cases hsame : b'.transaction = b.transaction
  · obtain rfl := h.unique b' hb' b hb hsame
    rcases hready.all pk hpk with hold | ⟨a, ha, rfl⟩
    · exact .inr (hpaid hold)
    · obtain ⟨a', ha', -, hlookup⟩ := lookup_savePayoutAttempts_of_mem (s := t.hub.board)
        (hleg a ha ▸ List.mem_map_of_mem ha : (b'.taskId, a.recipient) ∈ d.attempts.map PayoutAttempt.leg)
      refine .inl ⟨a', ?_, (hready.made a' ha').transaction⟩
      rw [recordPayoutAttempts_attempts]
      exact hlookup
  · -- The leg that carries the other transaction was not replaced.
    have hfirst : (b'.taskId, first) ∉ d.attempts.map PayoutAttempt.leg := by
      intro hmem
      obtain ⟨a, ha, -, hlookup⟩ := lookup_savePayoutAttempts_of_mem (s := t.hub.board) hmem
      obtain rfl := Option.some.inj (ha₀.symm.trans hlookup)
      exact hsame (Option.some.inj (htx₀.symm.trans (hready.made _ ha).transaction))
    rw [lookup_savePayoutAttempts_of_notMem hfirst] at ha₀
    by_cases hmem : (b'.taskId, pk) ∈ d.attempts.map PayoutAttempt.leg
    · -- Then the call also has an attempt for the first recipient, which it would have replaced.
      exfalso
      obtain ⟨a, ha, he⟩ := List.mem_map.1 hmem
      obtain ⟨htask, rfl⟩ := Prod.mk.inj ((hleg a ha).symm.trans he)
      obtain ⟨hunpaid, hof⟩ := h.boardLegs _ _ a₀ ha₀
      obtain ⟨b₀, hb₀, hsame₀, hmade₀⟩ := hof _ htx₀
      obtain rfl := h.unique b₀ hb₀ b' hb' hsame₀
      have hrecipient := (h.board.attemptsKeyed _ _ a₀ ha₀).2
      rw [← htask] at hunpaid hfirst
      have hkey :=
        h.overlap hb hb' htask (hready.made a ha).recipient hpk (hrecipient ▸ hmade₀.recipient) hunpaid
      obtain ⟨a₁, ha₁, hfirst₁⟩ := (hready.all first hkey).resolve_left hunpaid
      exact hfirst (List.mem_map.2 ⟨a₁, ha₁, by rw [hleg a₁ ha₁, hfirst₁]⟩)
    · refine (h.whole b' hb' ⟨first, a₀, ha₀, htx₀⟩ pk hpk).imp ?_ hpaid
      rintro ⟨a, ha, htx⟩
      refine ⟨a, ?_, htx⟩
      rw [recordPayoutAttempts_attempts, lookup_savePayoutAttempts_of_notMem hmem]
      exact ha

/-- The attempts of a call are put on the board. They replace those at another transaction of the
    task all or none. -/
theorem records {d : Dispatch} (h : t.Sound c) (hd : t.calls.lookup x = some d) :
    Sound c { t with hub := { t.hub with board := t.hub.board.recordPayoutAttempts d.attempts } } := by
  obtain ⟨b, hb, rfl, hready⟩ := h.calls x d hd
  obtain ⟨hregular, hpayees, hdeposits⟩ := regular_recordPayoutAttempts d.attempts h.board
  have hpaid : ∀ y pk, (t.hub.board.recordPayoutAttempts d.attempts).IsPaid y pk ↔ t.hub.board.IsPaid y pk :=
    fun y pk => IsPaid.congr (congrFun hpayees y)
  have hattempts := recordPayoutAttempts_attempts d.attempts t.hub.board
  -- A leg of the call has its attempt, and any other what it had.
  have hmem : ∀ {leg a}, (t.hub.board.recordPayoutAttempts d.attempts).payoutAttempts.lookup leg = some a →
      leg ∈ d.attempts.map PayoutAttempt.leg → a ∈ d.attempts ∧ a.leg = leg := by
    intro leg a ha hleg
    obtain ⟨a', ha', hleg', hlookup⟩ := lookup_savePayoutAttempts_of_mem (s := t.hub.board) hleg
    rw [hattempts, hlookup] at ha
    obtain rfl := Option.some.inj ha
    exact ⟨ha', hleg'⟩
  have hnotMem : ∀ {leg}, leg ∉ d.attempts.map PayoutAttempt.leg →
      (t.hub.board.recordPayoutAttempts d.attempts).payoutAttempts.lookup leg =
        t.hub.board.payoutAttempts.lookup leg := by
    intro leg hleg
    rw [hattempts, lookup_savePayoutAttempts_of_notMem hleg]
  refine { h with board := hregular, deposits := h.deposits.trans hdeposits.symm,
                  payees := h.payees.trans hpayees.symm, scope := fun b' hb' => ?_,
                  boardLegs := fun y pk a ha => ?_, whole := fun b' hb' => ?_, calls := fun y d' hd' => ?_ }
  · rw [hpayees]
    exact h.scope b' hb'
  · rw [hpaid]
    -- An attempt of the call is of an unpaid recipient, by when it was drafted.
    by_cases hleg : (y, pk) ∈ d.attempts.map PayoutAttempt.leg
    · obtain ⟨hin, hsame⟩ := hmem ha hleg
      obtain ⟨rfl, rfl⟩ := Prod.mk.inj hsame
      have hmade := hready.made a hin
      refine ⟨hmade.taskId ▸ hready.unpaid a hin, fun tx htx => ⟨b, hb, ?_, hmade⟩⟩
      exact Option.some.inj (hmade.transaction.symm.trans htx)
    · rw [hnotMem hleg] at ha
      exact h.boardLegs y pk a ha
  · exact h.whole_recordPayoutAttempts hb hb' hready
  · obtain ⟨b', hb', rfl, hready'⟩ := h.calls y d' hd'
    exact ⟨b', hb', rfl, { hready' with
      all := fun pk hpk => (hready'.all pk hpk).imp_left (hpaid _ _).2
      unpaid := fun a ha hp => hready'.unpaid a ha ((hpaid _ _).1 hp) }⟩

/-- A task is saved as the board has it. -/
theorem saveTask {task : Task} (h : t.Sound c) (htask : t.hub.board.tasks.lookup x = some task) :
    Sound c { t with hub := { t.hub with store := t.hub.store.restoreTask task } } := by
  have hid : task.id = x := h.board.tasksKeyed x task htask
  have hpayees : (t.hub.store.restoreTask task).payees = t.hub.store.payees :=
    (payees_restoreTask h.board.tasksKeyed htask h.deposits h.payees).trans h.payees.symm
  have hpaid : ∀ {y pk}, (t.hub.store.restoreTask task).IsPaid y pk ↔ t.hub.store.IsPaid y pk :=
    IsPaid.congr (congrFun hpayees _)
  refine { h with
    store := h.store.insert (by rw [← hid]; rfl) h.store.attemptsKeyed hid (h.board.tasks x task htask)
    payees := hpayees.trans h.payees
    storeLegs := fun y pk a ha => ?_
    calls := fun y d hd => ?_ }
  · rw [hpaid]
    exact h.storeLegs y pk a ha
  · obtain ⟨b, hb, rfl, hready⟩ := h.calls y d hd
    exact ⟨b, hb, rfl, { hready with
      saved := fun a ha => (hready.saved a ha).imp_right fun hcov => hcov.imp_right hpaid.2 }⟩

/-- A payout is recorded as paid, and its attempt dropped. -/
theorem confirm {hub : Hub} (h : t.Sound c) (hcall : x ∉ t.calls) (hconfirmed : Confirmed x pk t.hub hub) :
    Sound c { t with hub } := by
  obtain ⟨v, v', hv, hescrowed, hallocated, hpaid, hboard, hstore⟩ := hconfirmed.payees
  have hsame : hub.store.payees = hub.board.payees := by
    funext y
    rw [hboard, hstore, h.payees]
  -- One recipient more is paid.
  have hiff : ∀ {y other}, hub.board.IsPaid y other ↔
      y = x ∧ other = pk ∨ t.hub.board.IsPaid y other := by
    intro y other
    rw [IsPaid, IsPaid, hboard]
    split_ifs with hy
    · subst hy
      rw [hv]
      simp [hpaid]
    · simp [hy]
  have hlegs : ∀ {s s' : TaskBoard}, s'.payoutAttempts = s.payoutAttempts.erase (x, pk) →
      s.payees = t.hub.board.payees → s'.payees = hub.board.payees → Legs c t.built s → Legs c t.built s' := by
    intro s s' hattempts hpayees hpayees' hs y other a ha
    rw [hattempts, Finmap.lookup_erase_eq] at ha
    -- The attempt that is left is of somebody else.
    split_ifs at ha with hne
    refine ⟨?_, (hs y other a ha).2⟩
    rw [IsPaid.congr (congrFun hpayees' y), hiff]
    rintro (⟨rfl, rfl⟩ | hold)
    · exact hne rfl
    · exact (hs y other a ha).1 ((IsPaid.congr (congrFun hpayees y)).2 hold)
  refine
    { board := hconfirmed.regular.1
      store := hconfirmed.regular.2
      deposits := hconfirmed.deposits.2.trans (h.deposits.trans hconfirmed.deposits.1.symm)
      payees := hsame
      unique := h.unique
      scope := fun b hb => ?_
      boardLegs := hlegs hconfirmed.attempts.1 rfl rfl h.boardLegs
      storeLegs := hlegs hconfirmed.attempts.2 h.payees hsame h.storeLegs
      whole := fun b hb => ?_
      calls := fun y d hd => ?_ }
  · obtain ⟨w, hw, hscope⟩ := h.scope b hb
    dsimp only
    rw [hboard]
    split_ifs with hy
    · rw [hy, hv] at hw
      obtain rfl := Option.some.inj hw
      refine ⟨v', rfl, ?_⟩
      rw [Build.Scope] at hscope ⊢
      rw [hescrowed, hallocated]
      split_ifs at hscope ⊢
      · exact ⟨fun p hp hnot => hscope.1 p hp fun hold => hnot ((hpaid _).2 (.inr hold)), hscope.2⟩
      · exact hscope
    · exact ⟨w, hw, hscope⟩
  · -- Of the transaction the paid leg is dropped, and the others carry it as before.
    have hcarried : ∀ {other}, b.Carried hub.board other ↔
        ¬(b.taskId = x ∧ other = pk) ∧ b.Carried t.hub.board other := by
      intro other
      rw [Build.Carried, Build.Carried, hconfirmed.attempts.1]
      simp only [Finmap.lookup_erase_eq, Prod.mk.injEq]
      split_ifs with hboth
      · simp [hboth]
      · simp [hboth]
    rintro ⟨first, hfirst⟩ other hother
    rw [hcarried] at hfirst ⊢
    rw [hiff]
    by_cases hboth : b.taskId = x ∧ other = pk
    · exact .inr (.inl hboth)
    · exact (h.whole b hb ⟨first, hfirst.2⟩ other hother).imp (fun hold => ⟨hboth, hold⟩) .inr
  · -- No call on this task is under way, so the calls see the same recipients as paid.
    obtain ⟨b, hb, rfl, hready⟩ := h.calls y d hd
    have hne : b.taskId ≠ x := by
      rintro rfl
      exact hcall (Finmap.mem_of_lookup_eq_some hd)
    have hunchanged : ∀ {other}, hub.board.IsPaid b.taskId other ↔ t.hub.board.IsPaid b.taskId other :=
      hiff.trans (or_iff_right fun hy => hne hy.1)
    refine ⟨b, hb, rfl, { hready with
      all := fun other hother => (hready.all other hother).imp_left hunchanged.2
      unpaid := fun a ha hpaid => hready.unpaid a ha (hunchanged.1 hpaid)
      saved := fun a ha => (hready.saved a ha).imp_right ?_ }⟩
    rintro (⟨kept, hkept, hhash⟩ | hold)
    · refine .inl ⟨kept, ?_, hhash⟩
      dsimp only
      rw [hconfirmed.attempts.2, Finmap.lookup_erase_eq, if_neg fun he => hne (Prod.mk.inj he).1]
      exact hkept
    · refine .inr ((IsPaid.congr (congrFun hsame _)).2 (hunchanged.2 ?_))
      exact (IsPaid.congr (congrFun h.payees _)).1 hold

/-- The hub starts from its store. -/
theorem crash (h : t.Sound c) (hwhole : ∀ b ∈ t.built, b.Whole t.hub.store) :
    Sound c ⟨⟨t.hub.store, t.hub.store⟩, ∅, t.built⟩ where
  board := h.store
  store := h.store
  deposits := rfl
  payees := rfl
  unique := h.unique
  scope b hb := by
    dsimp only
    rw [h.payees]
    exact h.scope b hb
  boardLegs := h.storeLegs
  storeLegs := h.storeLegs
  whole := hwhole
  calls x d hd := by
    rw [Finmap.lookup_empty] at hd
    cases hd

/-- Every step keeps it, but for a crash that finds the attempts at a transaction in part. -/
theorem step {op : PayrollOp} (h : t.Sound c) (hop : op.Enabled c g t) (hwhole : t.CrashesWhole op) :
    (op.after c g t).Sound c := by
  cases op with
  | submit taskId signingKey source recipients changePubkey utxos ids submittedAt =>
    rw [PayrollOp.after]
    split
    · next tx attempts hdraft =>
      obtain ⟨-, hsettles, hfresh⟩ := hop
      have hfresh := hfresh tx attempts hdraft
      rw [draft] at hdraft
      split at hdraft
      · obtain ⟨made, hmade, he⟩ := Option.map_eq_some_iff.1 hdraft
        obtain ⟨rfl, rfl⟩ := Prod.mk.inj he
        exact h.submit hsettles hfresh hmade
      · cases hdraft
    · exact h
  | resend taskId recipient submittedAt =>
    rw [PayrollOp.after]
    split
    · next tx htx =>
      obtain ⟨a, ha, htx⟩ := Option.bind_eq_some_iff.1 htx
      exact h.resend ha htx submittedAt
    · exact h
  | save taskId outcome =>
    rw [PayrollOp.after]
    split
    · next tx attempts a todo recorded hd =>
      -- The attempt is the first of those that are still to be saved.
      obtain ⟨b, hb, htask, hready⟩ := h.calls _ _ hd
      have hin : a ∈ attempts := hready.todo a List.mem_cons_self
      have hsaves := h.saves hd hin
      cases outcome with
      | saved =>
        subst htask
        obtain ⟨b', hb', htask', hready'⟩ := hsaves.calls _ _ hd
        refine htask' ▸ hsaves.beginCall hb' { hready' with
          todo := fun a' ha' => hready'.todo a' (List.mem_cons_of_mem _ ha')
          saved := fun a' ha' => ?_
          recorded := fun hr => (List.cons_ne_nil _ _ (hready'.recorded hr)).elim }
        -- It is the one saved now, or it is to be saved still, or it was saved before.
        rcases hready'.saved a' ha' with hmem | hcov
        · rcases List.mem_cons.1 hmem with rfl | hmem
          · refine .inr (.inl ⟨a', ?_, (hready'.made a' ha').outputHash⟩)
            rw [← (hready'.made a' ha').taskId]
            exact Finmap.lookup_insert _
          · exact .inl hmem
        · exact .inr hcov
      | failed kept =>
        -- A save that is reported as failed may have been kept all the same.
        cases kept with
        | true => exact hsaves.endCall taskId
        | false => exact h.endCall taskId
    · exact h
  | record taskId =>
    rw [PayrollOp.after]
    split
    · next tx attempts hd =>
      have hrecords := h.records hd
      obtain ⟨b, hb, rfl, hready⟩ := hrecords.calls _ _ hd
      exact hrecords.beginCall hb { hready with recorded := fun _ => rfl }
    · exact h
  | saveTask taskId =>
    rw [PayrollOp.after]
    split
    · next task _ htask => exact h.saveTask htask
    · exact h
  | hand taskId =>
    rw [PayrollOp.after]
    split
    · exact h.endCall taskId
    · exact h
  | confirm now taskId recipient amount =>
    exact h.confirm hop.1 (confirmed_of_recordConfirmedPayout h.board h.store h.deposits hop.2)
  | crash => exact h.crash (hwhole rfl)

end Sound

theorem sound_of_payrolls (hr : (payrolls c g).ReachableBy CrashesWhole t) : t.Sound c := by
  refine hr.invariant ?_ fun t op t' h hwhole hst => ?_
  · -- At the start no call is under way and nothing is built.
    rintro t ⟨hboard, hregular, hattempts, hcalls, hbuilt⟩
    have hlegs : Legs c t.built t.hub.store := fun x pk a ha =>
      ⟨(hattempts x pk a ha).2, fun tx htx => by
        rw [(hattempts x pk a ha).1] at htx
        cases htx⟩
    have hnone : ∀ {P : Build → Prop}, ∀ b ∈ t.built, P b := by
      rw [hbuilt]
      exact fun b hb => absurd hb List.not_mem_nil
    exact
      { board := hboard ▸ hregular
        store := hregular
        deposits := by rw [hboard]
        payees := by rw [hboard]
        unique := hnone
        scope := hnone
        boardLegs := by rwa [hboard]
        storeLegs := hlegs
        whole := hnone
        calls := fun x d hd => by
          rw [hcalls, Finmap.lookup_empty] at hd
          cases hd }
  · obtain ⟨hop, rfl⟩ := hst
    exact h.step hop hwhole

end Payroll

/-- In the runs in which no crash finds some of the attempts at a transaction in the store and not
    the others, whoever a transaction pays that is handed to the node has an attempt in the store
    at an output of it, or is recorded as paid. -/
theorem payouts_durable (c : Crypto) (g : Signing) (t : Payroll)
    (hr : (payrolls c g).ReachableBy Payroll.CrashesWhole t) :
    ∀ b, t.Hands b → ∀ pk ∈ b.keys, b.Covered c t.hub.store pk :=
  fun _ hands _ hpk => (Payroll.sound_of_payrolls hr).covered hands hpk

/-! A payout of two shares from a deposit. -/

namespace PayrollSample

def signing : Signing where
  publicKey key := key
  signOutput _ key := key

/-- Two assignees have agreed. -/
def task : Task :=
  { TaskBoard.newTask 1 0 6 "" 2000 (.consensus ⟨2, 0, 60, none,
      ((∅ : Finmap fun _ : PublicKey => ConsensusAssignment).insert 8 ⟨some "42", false, some 1000⟩).insert 9
        ⟨some "42", false, some 1000⟩⟩) with
    status := .verified
    escrowId := some 5 }

def deposit : PendingDeposit where
  id := 5
  depositor := 6
  depositPubkey := 7
  requiredAmount := 2000
  purpose := .fundConsensusTask ⟨"", 2000, 2, 60, 60, 0, ∅⟩
  status := .consumed
  createdAt := 0
  expiresAt := 100

def board : TaskBoard := (TaskBoard.new.restoreTask task).restorePendingDeposit deposit

def start : Payroll := ⟨⟨board, board⟩, ∅, []⟩

def recipients : List (PublicKey × ℕ) := [(8, 1000), (9, 1000)]

/-- What the node says of the deposit. -/
def utxos : UtxoReply := [(false, { value := 3000, uniqueId := 0, pubkey := 7 })]

/-- The payout of both. -/
def build : Build where
  taskId := 1
  transaction :=
    { inputs := [{ prevTransactionOutputHash := 9003049, signature := 7 }]
      outputs := [{ value := 1000, uniqueId := 0, pubkey := 8 },
        { value := 1000, uniqueId := 1, pubkey := 9 }] }
  recipients

abbrev step (op : PayrollOp) (t : Payroll) : Payroll := op.after pairingCrypto signing t

def submitted : Payroll := step (.submit 1 7 7 recipients 6 utxos id 0) start

/-- One of the attempts is saved, and then the hub crashes. -/
def inPart : Payroll := step (.save 1 .saved) submitted

/-- The attempt that was saved is resent. -/
def lost : Payroll :=
  step (.record 1) (step (.save 1 .saved) (step (.resend 1 8 9) (step .crash inPart)))

/-- The hub crashes when both are saved. -/
def kept : Payroll := step (.save 1 .saved) inPart

/-- One of them is resent, with the other. -/
def resent : Payroll :=
  step (.record 1) (step (.save 1 .saved) (step (.save 1 .saved) (step (.resend 1 8 9) (step .crash kept))))

theorem reachable_step {C : Payroll → PayrollOp → Prop} {t : Payroll} (op : PayrollOp)
    (h : (payrolls pairingCrypto signing).ReachableBy C t) (hC : C t op)
    (hop : op.Enabled pairingCrypto signing t) : (payrolls pairingCrypto signing).ReachableBy C (step op t) :=
  .step h hC ⟨hop, rfl⟩

theorem regular_board : board.Regular := by
  have htasks : ∀ x t, board.tasks.lookup x = some t → x = 1 ∧ t = task := by
    intro x t ht
    change ((∅ : Finmap fun _ : Uuid => Task).insert 1 task).lookup x = some t at ht
    rw [Finmap.lookup_insert_eq] at ht
    split_ifs at ht with hx
    · exact ⟨hx, (Option.some.inj ht).symm⟩
    · cases ht
  refine ⟨fun x t ht => ?_, ?_, fun x t ht => ?_⟩
  · obtain ⟨rfl, rfl⟩ := htasks x t ht
    rfl
  · rintro x pk a ⟨⟩
  · obtain ⟨-, rfl⟩ := htasks x t ht
    refine ⟨?_, fun _ => ?_⟩ <;> rintro k ⟨⟩

theorem reachable_inPart {C : Payroll → PayrollOp → Prop} (hC : ∀ t op, op ≠ .crash → C t op) :
    (payrolls pairingCrypto signing).ReachableBy C inPart := by
  have hstart : (payrolls pairingCrypto signing).ReachableBy C start := by
    refine .init ⟨rfl, regular_board, ?_, rfl, rfl⟩
    rintro x pk a ⟨⟩
  have hsettles : board.Settles 1 recipients :=
    ⟨board.payeesOf task, rfl, by rw [if_pos (by decide +kernel)]; decide +kernel⟩
  have hfree : 1 ∉ start.calls := by decide
  have hsubmitted : (payrolls pairingCrypto signing).ReachableBy C submitted :=
    reachable_step (.submit 1 7 7 recipients 6 utxos id 0) hstart (hC _ _ nofun)
      ⟨hfree, hsettles, fun _ _ _ b hb => absurd hb List.not_mem_nil⟩
  exact reachable_step (.save 1 .saved) hsubmitted (hC _ _ nofun) trivial

/-- The call for the task is about to hand over the payout of both. -/
theorem hands_build {t : Payroll} (hbuilt : t.built = [build])
    (hcall : (t.calls.lookup 1).map (fun d => (d.recorded, d.transaction)) = some (true, build.transaction)) :
    t.Hands build := by
  obtain ⟨d, hd, hfields⟩ := Option.map_eq_some_iff.1 hcall
  obtain ⟨hrecorded, htx⟩ := Prod.mk.inj hfields
  refine ⟨?_, d, hd, hrecorded, htx⟩
  rw [hbuilt]
  exact List.mem_singleton_self _

end PayrollSample

open PayrollSample in
/-- A crash between the two saves leaves the attempt at one of the shares. The transaction that is
    resent pays the other as well, of which the hub knows nothing. -/
theorem payouts_durable_fails : (payrolls pairingCrypto signing).Reachable lost ∧ lost.Hands build ∧
    9 ∈ build.keys ∧ (∃ o ∈ build.transaction.outputs, o.pubkey = 9) ∧
    ¬build.Covered pairingCrypto lost.hub.store 9 := by
  have hcrashed := reachable_step .crash (reachable_inPart fun _ _ _ => trivial) trivial trivial
  have hresent := reachable_step (.resend 1 8 9) hcrashed trivial (Finmap.notMem_empty)
  have hlost :=
    reachable_step (.record 1) (reachable_step (.save 1 .saved) hresent trivial trivial) trivial trivial
  refine ⟨hlost, hands_build (by decide +kernel) (by decide +kernel), by decide, by decide, ?_⟩
  have hnone : lost.hub.store.payoutAttempts.lookup (1, 9) = none := by decide +kernel
  have hunpaid : (lost.hub.store.payees 1).map (fun v => v.paid 9) = some false := by decide +kernel
  rintro (⟨a, ha, -⟩ | ⟨v, hv, hpaid⟩)
  · cases hnone.symm.trans ha
  · have hv : lost.hub.store.payees 1 = some v := hv
    rw [hv, Option.map_some, hpaid] at hunpaid
    cases hunpaid

open PayrollSample in
/-- After a crash when both attempts are saved, the one that is resent goes with the other. -/
theorem payouts_durable_sample : resent.Hands build ∧ build.Covered pairingCrypto resent.hub.store 9 := by
  have hkept := reachable_step (.save 1 .saved) (reachable_inPart (C := Payroll.CrashesWhole) fun _ _ hne he =>
    absurd he hne) nofun trivial
  have hwhole : Payroll.CrashesWhole kept .crash := by
    intro _ b hb
    have hbuilt : kept.built = [build] := by decide +kernel
    rw [hbuilt, List.mem_singleton] at hb
    subst hb
    intro _ pk hpk
    have hcarried : ∀ pk ∈ build.keys,
        (kept.hub.store.payoutAttempts.lookup (1, pk)).map PayoutAttempt.transaction =
        some (some build.transaction) := by decide +kernel
    obtain ⟨a, ha, htx⟩ := Option.map_eq_some_iff.1 (hcarried pk hpk)
    exact .inl ⟨a, ha, htx⟩
  have hcrashed := reachable_step .crash hkept hwhole trivial
  have hresent := reachable_step (.resend 1 8 9) hcrashed nofun Finmap.notMem_empty
  have hsaved :=
    reachable_step (.save 1 .saved) (reachable_step (.save 1 .saved) hresent nofun trivial) nofun trivial
  have hreachable := reachable_step (.record 1) hsaved nofun trivial
  have hands : resent.Hands build := hands_build (by decide +kernel) (by decide +kernel)
  exact ⟨hands, payouts_durable pairingCrypto signing resent hreachable build hands 9 (by decide)⟩

end Itx
