import Itx.Hub.Effects
import Itx.Hub.TaskRuns

/-!
# One payment funds one task, on disk

A handler changes the board in memory and then commits what it changed
(`hub/src/handlers.rs`): confirming an escrow writes the new task and the consumed
deposit in one transaction, most of the others write the task alone. Between the two
steps other handlers run, the commit may fail, and the hub may be killed; a restart
reads the board back from the store.

A task funded by an escrow whose first commit has not succeeded is on the board and not
in the store. Any later handler that saves it alone puts it in the store beside a
deposit still `Reserved`, which a restart then offers once more
(`funded_twice_after_restart`). As long as every task saved alone is one that the store
holds already, a deposit in the store funds at most one task, and never as a mere
reservation (`escrow_funds_one_task_durably`).
-/

namespace Itx

namespace TaskBoard

/-- `TaskBoard::overdue_reserved_escrows`. -/
def overdueReservedEscrows (s : TaskBoard) (now : DateTime) : List PendingDeposit :=
  s.pendingDeposits.values.filter fun d => d.status = .reserved ∧ d.expiresAt < now

/-- The escrow of a task, if there is such a task. -/
def escrowOf (s : TaskBoard) (taskId : Uuid) : Option (Option Uuid) :=
  (s.tasks.lookup taskId).map Task.escrowId

/-- Every deposit that funds a task is more than reserved, and funds no other. -/
structure FundsOnce (s : TaskBoard) : Prop where
  spent : ∀ id d, s.escrowOf id = some (some d) →
    ∃ deposit, s.pendingDeposits.lookup d = some deposit ∧ deposit.status ≠ .reserved
  once : ∀ id id' d, s.escrowOf id = some (some d) → s.escrowOf id' = some (some d) → id = id'

/-- The deposits of a board stand under their ids. -/
def DepositsKeyed (s : TaskBoard) : Prop := ∀ id d, s.pendingDeposits.lookup id = some d → d.id = id

end TaskBoard

open TaskBoard

/-! ## Handlers, commits and restarts -/

/-- What a handler is about to commit, as it read it off the board: some tasks
    (`save_task` and its batches), with a deposit for `save_task_and_deposit`. -/
structure TaskWrite where
  tasks : List Task
  deposit : Option PendingDeposit

/-- The rows of a commit. -/
def TaskWrite.rows (w : TaskWrite) (store : TaskBoard) : TaskBoard :=
  let store := w.tasks.foldl (fun store task => store.restoreTask task) store
  w.deposit.elim store fun deposit => store.restorePendingDeposit deposit

/-- The tasks with some ids, as they stand on a board. -/
def TaskBoard.readTasks (s : TaskBoard) (ids : List Uuid) : TaskWrite where
  tasks := ids.filterMap s.tasks.lookup
  deposit := none

/-- The board in memory, the store, and the commits of the handlers under way. -/
structure Funding where
  board : TaskBoard
  store : TaskBoard
  writes : List TaskWrite

/-- What happens to the hub. -/
inductive FundingOp
  /-- The handlers that reserve an escrow. Its id is not known to anybody before the
      deposit is committed. -/
  | reserveEscrow (derive : Uuid → PublicKey) (id : Uuid) (createdAt : DateTime)
    (depositor : PublicKey) (requiredAmount : ℕ) (purpose : EscrowPurpose) (expiresAt : DateTime)
    (commits : Bool)
  /-- `confirm_task_escrow`, up to its commit. -/
  | confirmTaskEscrow (id : Uuid) (observedAmount : ℕ) (now : DateTime) (taskId : Uuid)
    (createdAt : DateTime)
  /-- What `claim_task`, the submissions and the passes of the sweep do to the board. -/
  | work (op : TaskOp)
  /-- A handler or a pass of the sweep reads tasks that it is about to save. -/
  | read (ids : List Uuid)
  /-- The handlers that commit what they are about to publish, under the lock of the
      board: `cancel_task`, `close_task`, `pick_answer`, and a contest answer, which is put
      back if it is refused. -/
  | staged (op : TaskOp) (ids : List Uuid) (commits : Bool)
  /-- A refund is journaled, or a disbursement of a deposit. -/
  | prepare (chainHeight : ℕ) (commits : Bool) (payment : Payment)
  | confirm (commits : Bool) (payment : Payment)
  /-- A commit succeeds or fails. -/
  | commit (index : ℕ) (commits : Bool)
  /-- The hub is killed, and its board read back from the store. -/
  | restart

namespace FundingOp

/-- The hub after a step. -/
def after (s : Funding) : FundingOp → Funding
  | reserveEscrow derive id createdAt depositor requiredAmount purpose expiresAt commits =>
    match TaskBoard.reserveEscrow derive id createdAt depositor requiredAmount purpose expiresAt
      s.board with
    | (board, .ok deposit) =>
      { s with board, store := if commits then s.store.restorePendingDeposit deposit else s.store }
    | (board, _) => { s with board }
  | confirmTaskEscrow id observedAmount now taskId createdAt =>
    match confirmEscrow id observedAmount now taskId createdAt s.board with
    | (board, .ok task) =>
      { s with board, writes := ⟨[task], board.pendingDeposits.lookup id⟩ :: s.writes }
    | (board, _) => { s with board }
  | work op => { s with board := op.apply s.board }
  | read ids => { s with writes := s.board.readTasks ids :: s.writes }
  | staged op ids commits =>
    if commits then
      let board := op.apply s.board
      { s with board, store := (board.readTasks ids).rows s.store }
    else s
  | prepare chainHeight commits payment =>
    let hub := (Itx.prepare chainHeight commits payment ⟨s.board, s.store⟩).1
    { s with board := hub.board, store := hub.store }
  | confirm commits payment =>
    let hub := (Itx.confirm commits payment ⟨s.board, s.store⟩).1
    { s with board := hub.board, store := hub.store }
  | commit index commits =>
    match s.writes[index]? with
    | none => s
    | some w =>
      { s with
        store := if commits then w.rows s.store else s.store
        writes := s.writes.eraseIdx index }
  | restart => ⟨s.store, s.store, []⟩

/-- What the callers see to: ids are fresh, windows valid and the clock in range. -/
def Enabled (s : Funding) : FundingOp → Prop
  | reserveEscrow _ id _ _ _ purpose _ _ => id ∉ s.board.pendingDeposits ∧ purpose.Validated
  | confirmTaskEscrow _ _ _ taskId _ => taskId ∉ s.board.tasks
  | work op => op.Works ∧ op.Enabled ⟨s.board, [], [], []⟩
  | staged op _ _ => op.Works ∧ op.Enabled ⟨s.board, [], [], []⟩
  | _ => True

end FundingOp

/-- The runs of a hub, from a store in which every deposit funds one task at most. -/
def fundingRuns : System Funding FundingOp where
  init := {s | s.board = s.store ∧ s.writes = [] ∧ s.store.Tidy ∧ s.store.DepositsKeyed ∧
    s.store.FundsOnce}
  step s op s' := op.Enabled s ∧ s' = op.after s

/-- A commit of tasks alone finds in the store those that an escrow funds. -/
def TaskWrite.Follows (w : TaskWrite) (store : TaskBoard) : Prop :=
  w.deposit = none → ∀ t ∈ w.tasks, t.escrowId.isSome → t.id ∈ store.tasks

/-- The steps whose commits, if they succeed, save alone no funded task that the store does not hold
    already. -/
def FundingOp.Follows (s : Funding) : FundingOp → Prop
  | commit index commits => commits → ∀ w ∈ s.writes[index]?, w.Follows s.store
  | staged op ids commits => commits → ((op.apply s.board).readTasks ids).Follows s.store
  | _ => True

/-! ## What a commit does to the store -/

namespace TaskBoard

variable {s s' b : TaskBoard} {id d : Uuid} {e : Option Uuid} {task : Task} {w : TaskWrite}
  {deposit : PendingDeposit}

theorem escrowOf_congr (h : s'.tasks = s.tasks) (id : Uuid) : s'.escrowOf id = s.escrowOf id := by
  rw [escrowOf, escrowOf, h]

theorem escrowOf_restoreTask (task : Task) (s : TaskBoard) (id : Uuid) :
    (s.restoreTask task).escrowOf id = if id = task.id then some task.escrowId else s.escrowOf id := by
  rw [escrowOf, restoreTask, Finmap.lookup_insert_eq]
  split_ifs
  · rfl
  · rfl

theorem mem_tasks_of_escrowOf (h : id ∈ s.tasks) : ∃ e, s.escrowOf id = some e := by
  obtain ⟨t, ht⟩ := Finmap.mem_iff.1 h
  exact ⟨t.escrowId, by rw [escrowOf, ht, Option.map_some]⟩

/-- Writing a deposit that is more than reserved. -/
theorem FundsOnce.restorePendingDeposit (h : s.FundsOnce) (hd : deposit.status ≠ .reserved) :
    (s.restorePendingDeposit deposit).FundsOnce where
  spent id d hid := by
    rw [TaskBoard.restorePendingDeposit, Finmap.lookup_insert_eq]
    split_ifs
    · exact ⟨deposit, rfl, hd⟩
    · exact h.spent id d hid
  once := h.once

/-- What a commit of tasks leaves is what was there, or one of them. -/
theorem escrowOf_rows (h : (w.rows s).escrowOf id = some e) :
    s.escrowOf id = some e ∨ ∃ t ∈ w.tasks, t.id = id ∧ t.escrowId = e := by
  have htasks : (w.rows s).tasks = (w.tasks.foldl (fun store task => store.restoreTask task) s).tasks := by
    rw [TaskWrite.rows]
    cases w.deposit <;> rfl
  rw [escrowOf_congr htasks] at h
  clear htasks
  generalize w.tasks = l at h ⊢
  induction l generalizing s with
  | nil => exact .inl h
  | cons task l ih =>
    rcases ih h with h | ⟨t, ht, hid⟩
    · rw [escrowOf_restoreTask] at h
      split_ifs at h with hid
      · exact .inr ⟨task, List.mem_cons_self, hid.symm, Option.some.inj h⟩
      · exact .inl h
    · exact .inr ⟨t, List.mem_cons_of_mem _ ht, hid⟩

theorem rows_pendingDeposits (w : TaskWrite) (s : TaskBoard) :
    (w.rows s).pendingDeposits =
      w.deposit.elim s.pendingDeposits fun d => s.pendingDeposits.insert d.id d := by
  have hfold : ∀ (l : List Task) (s : TaskBoard),
      (l.foldl (fun store task => store.restoreTask task) s).pendingDeposits = s.pendingDeposits := by
    intro l
    induction l with
    | nil => exact fun _ => rfl
    | cons task l ih => exact fun s => ih (s.restoreTask task)
  rw [TaskWrite.rows]
  cases w.deposit with
  | none => exact hfold _ s
  | some d => exact congrArg (Finmap.insert d.id d) (hfold _ s)

end TaskBoard

/-- A commit under way: its tasks are sound and have the escrows they have on the board,
    and its deposit, which has been consumed, is theirs. -/
structure TaskWrite.Copied (b : TaskBoard) (w : TaskWrite) : Prop where
  sound : ∀ t ∈ w.tasks, t.Sound
  escrow : ∀ t ∈ w.tasks, b.escrowOf t.id = some t.escrowId
  deposit : ∀ d ∈ w.deposit, d.status ≠ .reserved ∧ d.purpose.Validated ∧
    ∀ t ∈ w.tasks, ∀ e, t.escrowId = some e → e = d.id

/-- What holds of the hub throughout a run. The board is ahead of the store: it has every
    task the store has, with the same escrow. -/
structure Funding.Good (s : Funding) : Prop where
  tidy : s.board.Tidy
  tidyStore : s.store.Tidy
  keyed : s.board.DepositsKeyed
  keyedStore : s.store.DepositsKeyed
  once : s.board.FundsOnce
  onceStore : s.store.FundsOnce
  ahead : ∀ id e, s.store.escrowOf id = some e → s.board.escrowOf id = some e
  writes : ∀ w ∈ s.writes, w.Copied s.board

section

variable {s : Funding} {b store : TaskBoard} {w : TaskWrite} {id : Uuid} {e : Option Uuid}

/-- A commit keeps the board ahead of the store. -/
theorem TaskWrite.Copied.ahead (hw : w.Copied b)
    (h : ∀ id e, store.escrowOf id = some e → b.escrowOf id = some e)
    (hid : (w.rows store).escrowOf id = some e) : b.escrowOf id = some e := by
  rcases escrowOf_rows hid with hid | ⟨t, ht, rfl, rfl⟩
  · exact h id e hid
  · exact hw.escrow t ht

/-- A commit that follows what the store holds keeps its deposits funding one task. -/
theorem TaskWrite.Copied.fundsOnce (hw : w.Copied b) (hb : b.FundsOnce) (hstore : store.FundsOnce)
    (hahead : ∀ id e, store.escrowOf id = some e → b.escrowOf id = some e)
    (hfollows : w.Follows store) : (w.rows store).FundsOnce where
  spent id d hid := by
    rw [rows_pendingDeposits]
    cases hdeposit : w.deposit with
    | none =>
      rcases escrowOf_rows hid with hid | ⟨t, ht, rfl, he⟩
      · exact hstore.spent id d hid
      · -- The task is in the store already, with the escrow it has on the board.
        obtain ⟨e, he'⟩ := mem_tasks_of_escrowOf (hfollows hdeposit t ht (by rw [he]; rfl))
        have hb := hahead t.id e he'
        rw [hw.escrow t ht, he] at hb
        exact hstore.spent t.id d (by rw [he', hb])
    | some deposit =>
      obtain ⟨hspent, -, hown⟩ := hw.deposit deposit hdeposit
      rw [Option.elim_some, Finmap.lookup_insert_eq]
      split_ifs with hd
      · exact ⟨deposit, rfl, hspent⟩
      · rcases escrowOf_rows hid with hid | ⟨t, ht, -, he⟩
        · exact hstore.spent id d hid
        · exact absurd (hown t ht d he) hd
  once id id' d hid hid' := hb.once id id' d (hw.ahead hahead hid) (hw.ahead hahead hid')

theorem TaskBoard.Tidy.restoreTask {task : Task} (h : b.Tidy) (ht : task.Sound) :
    (b.restoreTask task).Tidy where
  keyed x t hx := by
    rw [TaskBoard.restoreTask, Finmap.lookup_insert_eq] at hx
    split_ifs at hx with hid
    · rw [← Option.some.inj hx, hid]
    · exact h.keyed x t hx
  attemptsKeyed := h.attemptsKeyed
  sound x t hx := by
    rw [TaskBoard.restoreTask, Finmap.lookup_insert_eq] at hx
    split_ifs at hx
    · rw [← Option.some.inj hx]
      exact ht
    · exact h.sound x t hx
  deposits := h.deposits

theorem TaskBoard.Tidy.restorePendingDeposit {deposit : PendingDeposit} (h : b.Tidy)
    (hd : deposit.purpose.Validated) : (b.restorePendingDeposit deposit).Tidy where
  keyed := h.keyed
  attemptsKeyed := h.attemptsKeyed
  sound := h.sound
  deposits x d hx := by
    rw [TaskBoard.restorePendingDeposit, Finmap.lookup_insert_eq] at hx
    split_ifs at hx
    · rw [← Option.some.inj hx]
      exact hd
    · exact h.deposits x d hx

theorem TaskBoard.DepositsKeyed.insert (h : b.DepositsKeyed) {deposit : PendingDeposit}
    (hid : deposit.id = id) :
    DepositsKeyed { b with pendingDeposits := b.pendingDeposits.insert id deposit } := by
  intro x d hx
  rw [Finmap.lookup_insert_eq] at hx
  split_ifs at hx with hxid
  · rw [← Option.some.inj hx, hid, hxid]
  · exact h x d hx

theorem TaskWrite.Copied.rows_tidy (hw : w.Copied b) (h : store.Tidy) (hkeyed : store.DepositsKeyed) :
    (w.rows store).Tidy ∧ (w.rows store).DepositsKeyed := by
  have htasks : (w.tasks.foldl (fun store task => store.restoreTask task) store).Tidy ∧
      (w.tasks.foldl (fun store task => store.restoreTask task) store).DepositsKeyed := by
    have hsound := hw.sound
    generalize w.tasks = l at hsound
    induction l generalizing store with
    | nil => exact ⟨h, hkeyed⟩
    | cons task l ih =>
      exact ih (h.restoreTask (hsound task List.mem_cons_self)) hkeyed fun t ht =>
        hsound t (List.mem_cons_of_mem _ ht)
  rw [TaskWrite.rows]
  cases hdeposit : w.deposit with
  | none => exact htasks
  | some deposit =>
    exact ⟨htasks.1.restorePendingDeposit (hw.deposit deposit hdeposit).2.1,
      htasks.2.insert rfl⟩

/-- A commit under way stays a copy as long as the tasks of the board keep their escrows. -/
theorem TaskWrite.Copied.mono {b' : TaskBoard} (hw : w.Copied b)
    (h : ∀ id e, b.escrowOf id = some e → b'.escrowOf id = some e) : w.Copied b' where
  sound := hw.sound
  escrow t ht := h _ _ (hw.escrow t ht)
  deposit := hw.deposit

/-- A copy of tasks of the board. -/
theorem copied_readTasks (hb : b.Tidy) (ids : List Uuid) : (b.readTasks ids).Copied b where
  sound t ht := by
    obtain ⟨x, -, hx⟩ := List.mem_filterMap.1 ht
    exact hb.sound x t hx
  escrow t ht := by
    obtain ⟨x, -, hx⟩ := List.mem_filterMap.1 ht
    rw [hb.keyed x t hx, escrowOf, hx, Option.map_some]
  deposit := nofun

/-! ## Steps -/

/-- A step of the board that keeps the escrows of its tasks leaves the hub good. -/
theorem Funding.Good.board {b : TaskBoard} (h : s.Good) (htidy : b.Tidy) (hkeyed : b.DepositsKeyed)
    (honce : b.FundsOnce) (hescrow : ∀ id e, s.board.escrowOf id = some e → b.escrowOf id = some e) :
    ({ s with board := b } : Funding).Good where
  tidy := htidy
  tidyStore := h.tidyStore
  keyed := hkeyed
  keyedStore := h.keyedStore
  once := honce
  onceStore := h.onceStore
  ahead id e he := hescrow id e (h.ahead id e he)
  writes w hw := (h.writes w hw).mono hescrow

/-- What only moves tasks along keeps their escrows and the deposits. -/
theorem TaskBoard.Progress.escrowOf_eq {b' : TaskBoard} (h : Progress b b') (id : Uuid) :
    b'.escrowOf id = b.escrowOf id := by
  cases ht : b.tasks.lookup id with
  | none =>
    have hkeys : id ∉ b'.tasks := by
      rw [← Finmap.mem_keys, h.keys, Finmap.mem_keys]
      exact Finmap.lookup_eq_none.1 ht
    rw [TaskBoard.escrowOf, TaskBoard.escrowOf, ht, Finmap.lookup_eq_none.2 hkeys]
  | some t =>
    obtain ⟨t', ht', hmoves⟩ := h.moved id t ht
    have hescrow : t'.escrowId = t.escrowId :=
      Task.MovesTo.preserves (P := fun x => x.escrowId = t.escrowId)
        (fun _ _ hx hmove => hmove.escrowId_eq.trans hx)
        (Relation.ReflTransGen.mono (fun _ _ => .work) _ _ hmoves) rfl
    rw [TaskBoard.escrowOf, TaskBoard.escrowOf, ht, ht', Option.map_some, Option.map_some, hescrow]

theorem Funding.Good.work {op : TaskOp} (h : s.Good) (hworks : op.Works)
    (hop : op.Enabled ⟨s.board, [], [], []⟩) : ({ s with board := op.apply s.board } : Funding).Good := by
  have hprogress : Progress s.board (op.apply s.board) :=
    @TaskOp.progress ⟨s.board, [], [], []⟩ op h.tidy hop hworks
  have hescrow := hprogress.escrowOf_eq
  refine h.board (hprogress.worked.tidy h.tidy) ?_ ⟨?_, ?_⟩ fun id e he => ?_
  · rw [DepositsKeyed, hprogress.deposits]
    exact h.keyed
  · intro id d hid
    rw [hprogress.deposits]
    exact h.once.spent id d (by rw [← hescrow, hid])
  · intro id id' d hid hid'
    rw [hescrow] at hid hid'
    exact h.once.once id id' d hid hid'
  · rw [hescrow, he]

/-- A commit of a handler under way. -/
theorem Funding.Good.commit (h : s.Good) (hw : w.Copied s.board) (hfollows : w.Follows s.store) :
    ({ s with store := w.rows s.store } : Funding).Good where
  tidy := h.tidy
  tidyStore := (hw.rows_tidy h.tidyStore h.keyedStore).1
  keyed := h.keyed
  keyedStore := (hw.rows_tidy h.tidyStore h.keyedStore).2
  once := h.once
  onceStore := hw.fundsOnce h.once h.onceStore h.ahead hfollows
  ahead _ _ hid := hw.ahead h.ahead hid
  writes := h.writes

/-- A deposit that funds nothing is written. -/
theorem TaskBoard.FundsOnce.reserve {deposit : PendingDeposit} (h : b.FundsOnce)
    (hnew : ∀ taskId, b.escrowOf taskId ≠ some (some deposit.id)) :
    (b.restorePendingDeposit deposit).FundsOnce where
  spent id d hid := by
    rw [TaskBoard.restorePendingDeposit, Finmap.lookup_insert_eq]
    split_ifs with hd
    · exact absurd (hd ▸ hid) (hnew id)
    · exact h.spent id d hid
  once := h.once

theorem Funding.Good.reserve {deposit : PendingDeposit} (h : s.Good)
    (hnew : deposit.id ∉ s.board.pendingDeposits) (hd : deposit.purpose.Validated) (commits : Bool) :
    ({ s with
      board := s.board.restorePendingDeposit deposit
      store := if commits then s.store.restorePendingDeposit deposit else s.store } : Funding).Good := by
  have hfree : ∀ taskId, s.board.escrowOf taskId ≠ some (some deposit.id) := by
    intro taskId hid
    obtain ⟨_, hlookup, -⟩ := h.once.spent taskId _ hid
    exact hnew (Finmap.mem_iff.2 ⟨_, hlookup⟩)
  have hboard := h.board (h.tidy.restorePendingDeposit hd) (h.keyed.insert rfl) (h.once.reserve hfree)
    fun _ _ he => he
  cases commits with
  | false => exact hboard
  | true =>
    exact
      { tidy := hboard.tidy, keyed := hboard.keyed, once := hboard.once, writes := hboard.writes
        tidyStore := h.tidyStore.restorePendingDeposit hd
        keyedStore := h.keyedStore.insert rfl
        onceStore := h.onceStore.reserve fun taskId hid => hfree taskId (h.ahead _ _ hid)
        ahead := h.ahead }

/-- A deposit is confirmed: the task it funds is new, and no other names the deposit, which
    was a mere reservation. -/
theorem Funding.Good.confirmTaskEscrow {observedAmount : ℕ} {now createdAt : DateTime} {taskId : Uuid}
    (h : s.Good) (hnew : taskId ∉ s.board.tasks) :
    ((FundingOp.confirmTaskEscrow id observedAmount now taskId createdAt).after s).Good := by
  have hend : Call.Ends _ _ _ (confirmEscrow id observedAmount now taskId createdAt s.board) :=
    triple_confirmEscrow _ rfl
  have hworked : Worked s.board (confirmEscrow id observedAmount now taskId createdAt s.board).1 :=
    worked_confirmEscrow hnew h.tidy.deposits
  have htidy := hworked.tidy h.tidy
  rw [FundingOp.after]
  generalize confirmEscrow id observedAmount now taskId createdAt s.board = r at hend htidy
  obtain ⟨b, task | error | _⟩ := r
  · obtain ⟨deposit, created, hd, hconf, hcreated, rfl, rfl⟩ := hend
    set task : Task := { created with escrowId := some id } with htask
    have hid : task.id = taskId := hcreated.id_eq
    -- The new task names the deposit, the others name what they named.
    have hescrow : ∀ x, TaskBoard.escrowOf { s.board.consume id deposit with
        tasks := s.board.tasks.insert taskId task } x =
          if x = taskId then some (some id) else s.board.escrowOf x := by
      intro x
      rw [TaskBoard.escrowOf, Finmap.lookup_insert_eq]
      split_ifs
      · rfl
      · rfl
    have hnone : s.board.escrowOf taskId = none := by
      rw [TaskBoard.escrowOf, Finmap.lookup_eq_none.2 hnew, Option.map_none]
    -- No task has named it so far: it was reserved, and what is named is not.
    have hfree : ∀ x, s.board.escrowOf x ≠ some (some id) := by
      intro x hx
      obtain ⟨d, hlookup, hstatus⟩ := h.once.spent x id hx
      obtain rfl := Option.some.inj (hd.symm.trans hlookup)
      exact hstatus hconf.reserved
    have hmono : ∀ x e, s.board.escrowOf x = some e → TaskBoard.escrowOf { s.board.consume id deposit
        with tasks := s.board.tasks.insert taskId task } x = some e := by
      intro x e he
      rw [hescrow, if_neg fun hx => ?_, he]
      rw [hx, hnone] at he
      cases he
    have hgood := h.board htidy ((h.keyed.insert (h.keyed id deposit hd) : DepositsKeyed
      (s.board.consume id deposit))) ⟨fun x d hx => ?_, fun x x' d hx hx' => ?_⟩ hmono
    · refine { hgood with writes := fun w hw => ?_ }
      rcases List.mem_cons.1 hw with rfl | hw
      · refine ⟨fun t ht => ?_, fun t ht => ?_, fun d hd' => ?_⟩
        · obtain rfl := List.mem_singleton.1 ht
          exact htidy.sound taskId task (Finmap.lookup_insert _)
        · obtain rfl := List.mem_singleton.1 ht
          rw [hescrow, if_pos hid]
        · have hlookup : (s.board.consume id deposit).pendingDeposits.lookup id = some d := hd'
          have hvalid := htidy.deposits id d hlookup
          rw [consume, Finmap.lookup_insert] at hlookup
          obtain rfl := Option.some.inj hlookup
          refine ⟨by simp, hvalid, fun t ht e he => ?_⟩
          obtain rfl := List.mem_singleton.1 ht
          rw [← Option.some.inj he]
          exact (h.keyed id deposit hd).symm
      · exact hgood.writes w hw
    · rw [consume, Finmap.lookup_insert_eq]
      split_ifs with hxd
      · exact ⟨_, rfl, by simp⟩
      · rw [hescrow] at hx
        split_ifs at hx
        · exact absurd (Option.some.inj (Option.some.inj hx)).symm hxd
        · exact h.once.spent x d hx
    · rw [hescrow] at hx hx'
      split_ifs at hx hx' with hxt hxt' hxt'
      · rw [hxt, hxt']
      · rw [← Option.some.inj (Option.some.inj hx)] at hx'
        exact absurd hx' (hfree x')
      · rw [← Option.some.inj (Option.some.inj hx')] at hx
        exact absurd hx (hfree x)
      · exact h.once.once x x' d hx hx'
  · obtain rfl : b = s.board := hend
    exact h
  · obtain ⟨deposit, intent, hd, -, -, -, rfl⟩ := hend
    refine h.board htidy (h.keyed.insert (h.keyed id deposit hd)) ⟨fun x d hx => ?_, h.once.once⟩
      fun _ _ he => he
    rw [consume, Finmap.lookup_insert_eq]
    split_ifs
    · exact ⟨_, rfl, by simp⟩
    · exact h.once.spent x d hx

/-- A payment is journaled or confirmed, with a deposit that is no longer a reservation. -/
theorem Funding.Good.wrote {payment : Payment} {account : Option (PublicKey × ExchangeAccount)}
    {deposit : Option PendingDeposit} {reputation : Option (PublicKey × Reputation)} {faucet : Bool}
    {hub : Hub} (h : s.Good)
    (hd : ∀ d ∈ deposit, d.status ≠ .reserved ∧ d.purpose.Validated)
    (hwrote : Wrote (savePaymentEffects payment account deposit reputation faucet)
      ⟨s.board, s.store⟩ hub) :
    ({ s with board := hub.board, store := hub.store } : Funding).Good := by
  obtain ⟨hboard, hstore⟩ := hwrote
  have hrows : ∀ b : TaskBoard, b.Tidy → b.DepositsKeyed → b.FundsOnce →
      (savePaymentEffects payment account deposit reputation faucet b).Tidy ∧
      (savePaymentEffects payment account deposit reputation faucet b).DepositsKeyed ∧
      (savePaymentEffects payment account deposit reputation faucet b).FundsOnce := by
    intro b htidy hkeyed honce
    cases deposit with
    | none =>
      exact ⟨⟨htidy.keyed, htidy.attemptsKeyed, htidy.sound, htidy.deposits⟩, hkeyed,
        ⟨honce.spent, honce.once⟩⟩
    | some d =>
      obtain ⟨hstatus, hvalid⟩ := hd d rfl
      have htidy := htidy.restorePendingDeposit hvalid
      have honce := honce.restorePendingDeposit hstatus
      exact ⟨⟨htidy.keyed, htidy.attemptsKeyed, htidy.sound, htidy.deposits⟩, hkeyed.insert rfl,
        ⟨honce.spent, honce.once⟩⟩
  obtain ⟨htidy, hkeyed, honce⟩ := hrows _ h.tidy h.keyed h.once
  obtain ⟨htidyStore, hkeyedStore, honceStore⟩ := hrows _ h.tidyStore h.keyedStore h.onceStore
  rw [hboard, hstore]
  exact ⟨htidy, htidyStore, hkeyed, hkeyedStore, honce, honceStore, h.ahead, fun w hw =>
    (h.writes w hw).mono fun _ _ he => he⟩

theorem Funding.Good.prepare {chainHeight : ℕ} {commits : Bool} {payment : Payment} (h : s.Good) :
    ((FundingOp.prepare chainHeight commits payment).after s).Good := by
  have hend : Call.Ends _ _ _ (Itx.prepare chainHeight commits payment ⟨s.board, s.store⟩) :=
    triple_prepare chainHeight _ rfl
  rw [FundingOp.after]
  generalize Itx.prepare chainHeight commits payment ⟨s.board, s.store⟩ = r at hend
  obtain ⟨hub, p | error | _⟩ := r
  · obtain ⟨-, -, account, deposit, hreserve, hwrote⟩ := hend
    refine h.wrote (fun d hd => ?_) hwrote
    rcases reserve_cases hreserve with ⟨-, -, rfl⟩ | ⟨_, _, -, -, -, -, rfl⟩ |
      ⟨depositId, _, _, d', -, -, hd', -, rfl⟩
    · cases hd
    · cases hd
    · obtain rfl := Option.some.inj hd
      exact ⟨nofun, h.tidy.deposits depositId d' hd'⟩
  · obtain rfl : hub = ⟨s.board, s.store⟩ := hend
    exact h
  · exact hend.elim

theorem Funding.Good.confirm {commits : Bool} {payment : Payment} (h : s.Good) :
    ((FundingOp.confirm commits payment).after s).Good := by
  have hend : Call.Ends _ _ _ (Itx.confirm commits payment ⟨s.board, s.store⟩) := triple_confirm _ rfl
  rw [FundingOp.after]
  generalize Itx.confirm commits payment ⟨s.board, s.store⟩ = r at hend
  obtain ⟨hub, _ | error | _⟩ := r
  · rcases hend with rfl | ⟨current, -, -, deposit, reputation, heffects, hwrote⟩
    · exact h
    · refine h.wrote (fun d hd => ?_) hwrote
      rcases confirmEffects_cases heffects with ⟨-, rfl, -⟩ | ⟨depositId, _, _, d', -, hd', rfl, -⟩
      · cases hd
      · obtain rfl := Option.some.inj hd
        exact ⟨nofun, h.tidy.deposits depositId d' hd'⟩
  · obtain rfl : hub = ⟨s.board, s.store⟩ := hend
    exact h
  · exact hend.elim

/-- What one step preserves, if its commit follows what the store holds. -/
theorem Funding.Good.step {op : FundingOp} (h : s.Good) (hfollows : op.Follows s)
    (hop : op.Enabled s) : (op.after s).Good := by
  cases op with
  | reserveEscrow derive id createdAt depositor requiredAmount purpose expiresAt commits =>
    exact h.reserve hop.1 hop.2 commits
  | confirmTaskEscrow id observedAmount now taskId createdAt => exact h.confirmTaskEscrow hop
  | work op => exact h.work hop.1 hop.2
  | read ids =>
    refine { h with writes := fun w hw => ?_ }
    rcases List.mem_cons.1 hw with rfl | hw
    · exact copied_readTasks h.tidy ids
    · exact h.writes w hw
  | staged op ids commits =>
    cases commits with
    | false => exact h
    | true =>
      have hgood := h.work hop.1 hop.2
      exact hgood.commit (copied_readTasks hgood.tidy ids) (hfollows rfl)
  | prepare chainHeight commits payment => exact h.prepare
  | confirm commits payment => exact h.confirm
  | commit index commits =>
    rw [FundingOp.after]
    cases hw : s.writes[index]? with
    | none => exact h
    | some w =>
      have hrest : ∀ w' ∈ s.writes.eraseIdx index, w'.Copied s.board := fun w' hw' =>
        h.writes w' (List.mem_of_mem_eraseIdx hw')
      cases commits with
      | false => exact { h with writes := hrest }
      | true =>
        have hcommit := h.commit (h.writes w (List.mem_of_getElem? hw)) (hfollows rfl w hw)
        exact { hcommit with writes := hrest }
  | restart =>
    exact ⟨h.tidyStore, h.tidyStore, h.keyedStore, h.keyedStore, h.onceStore, h.onceStore,
      fun _ _ he => he, nofun⟩

theorem good_of_reachable (hr : fundingRuns.ReachableBy (fun s op => op.Follows s) s) : s.Good := by
  refine hr.invariant ?_ ?_
  · rintro ⟨b, store, writes⟩ ⟨hb, hw, htidy, hkeyed, honce⟩
    obtain rfl : b = store := hb
    obtain rfl : writes = [] := hw
    exact ⟨htidy, htidy, hkeyed, hkeyed, honce, honce, fun _ _ he => he, nofun⟩
  · rintro s op _ h hfollows ⟨hop, rfl⟩
    exact h.step hfollows hop

/-- **One payment funds one task, on disk.** Over every run in which a commit that saves
    funded tasks alone finds them in the store, a deposit that a stored task names is stored
    as more than a reservation, and no other stored task names it; so after a restart it can
    neither be confirmed again nor refunded as unused. -/
theorem escrow_funds_one_task_durably
    (hr : fundingRuns.ReachableBy (fun s op => op.Follows s) s) {taskId : Uuid} {task : Task}
    {d : Uuid} (ht : s.store.tasks.lookup taskId = some task) (hd : task.escrowId = some d) :
    (∃ deposit, s.store.pendingDeposits.lookup d = some deposit ∧ deposit.status ≠ .reserved) ∧
    (∀ taskId' task', s.store.tasks.lookup taskId' = some task' → task'.escrowId = some d →
      taskId' = taskId) ∧
    (∀ observedAmount now id createdAt created,
      (confirmEscrow d observedAmount now id createdAt (FundingOp.restart.after s).board).2 ≠
        .ok created) ∧
    ∀ now, ∀ deposit ∈ (FundingOp.restart.after s).board.overdueReservedEscrows now,
      deposit.id ≠ d := by
  have h := good_of_reachable hr
  have hname : ∀ {taskId task}, s.store.tasks.lookup taskId = some task → task.escrowId = some d →
      s.store.escrowOf taskId = some (some d) := by
    intro taskId task ht hd
    rw [TaskBoard.escrowOf, ht, Option.map_some, hd]
  obtain ⟨deposit, hdeposit, hstatus⟩ := h.onceStore.spent taskId d (hname ht hd)
  refine ⟨⟨deposit, hdeposit, hstatus⟩, fun taskId' task' ht' hd' => ?_,
    fun observedAmount now id createdAt created hok => ?_, fun now deposit' hmem hid => ?_⟩
  · exact h.onceStore.once taskId' taskId d (hname ht' hd') (hname ht hd)
  · have hend : Call.Ends _ _ _ (confirmEscrow d observedAmount now id createdAt s.store) :=
      triple_confirmEscrow _ rfl
    change (confirmEscrow d observedAmount now id createdAt s.store).2 = .ok created at hok
    rw [Call.Ends, hok] at hend
    obtain ⟨deposit', _, hdeposit', hconf, -⟩ := hend
    obtain rfl := Option.some.inj (hdeposit.symm.trans hdeposit')
    exact hstatus hconf.reserved
  · obtain ⟨hvalue, hoverdue⟩ := List.mem_filter.1 hmem
    obtain ⟨k, hk⟩ := Finmap.mem_values.1 hvalue
    rw [← h.keyedStore k deposit' hk, hid] at hk
    obtain rfl := Option.some.inj (hdeposit.symm.trans hk)
    exact hstatus (of_decide_eq_true hoverdue).1

end

/-! ## A payment that funds two tasks

The commit of a confirmation fails, and the hub goes on. The task is claimed, which saves it
alone; after a restart, the deposit funds another task. -/

/-- A deposit is reserved and confirmed, up to the commit of its task. -/
def fundingOps : List FundingOp :=
  [.reserveEscrow (fun id => id) 1 0 5 1000 (.fundHashMatchTask ⟨"", 900, 0, 0, ∅⟩) 100 true,
    .confirmTaskEscrow 1 1000 50 7 50]

/-- The task is claimed, and saved alone. -/
def claimOps : List FundingOp := [.work (.claimTask 7 6 200), .read [7], .commit 0 true]

def fundingAfter (ops : List FundingOp) : Funding :=
  ops.foldl FundingOp.after ⟨TaskBoard.new, TaskBoard.new, []⟩

def fundedTwice : Funding :=
  fundingAfter (fundingOps ++ .commit 0 false :: claimOps ++
    [.restart, .confirmTaskEscrow 1 1000 60 8 60, .commit 0 true])

def fundedOnce : Funding := fundingAfter (fundingOps ++ .commit 0 true :: claimOps)

/-- Nothing is on a new board. -/
theorem new_fundsOnce : TaskBoard.new.Tidy ∧ TaskBoard.new.DepositsKeyed ∧ TaskBoard.new.FundsOnce := by
  have htasks : ∀ x, TaskBoard.new.tasks.lookup x = none := fun _ => Finmap.lookup_empty _
  have hdeposits : ∀ x, TaskBoard.new.pendingDeposits.lookup x = none := fun _ => Finmap.lookup_empty _
  have hattempts : ∀ x, TaskBoard.new.payoutAttempts.lookup x = none := fun _ => Finmap.lookup_empty _
  have hescrow : ∀ x, TaskBoard.new.escrowOf x = none := fun x => by
    rw [TaskBoard.escrowOf, htasks, Option.map_none]
  refine ⟨⟨?_, ?_, ?_, ?_⟩, ?_, ?_, ?_⟩
  · exact fun x t h => absurd ((htasks x).symm.trans h) nofun
  · exact fun x pk a h => absurd ((hattempts (x, pk)).symm.trans h) nofun
  · exact fun x t h => absurd ((htasks x).symm.trans h) nofun
  · exact fun x d h => absurd ((hdeposits x).symm.trans h) nofun
  · exact fun x d h => absurd ((hdeposits x).symm.trans h) nofun
  · exact fun x d h => absurd ((hescrow x).symm.trans h) nofun
  · exact fun x x' d h => absurd ((hescrow x).symm.trans h) nofun

theorem fundingRuns_init {C : Funding → FundingOp → Prop} :
    fundingRuns.ReachableBy C (fundingAfter []) :=
  .init ⟨rfl, rfl, new_fundsOnce⟩

theorem fundingRuns_after {C : Funding → FundingOp → Prop} {s : Funding} (op : FundingOp)
    (hr : fundingRuns.ReachableBy C s) (hC : C s op) (hop : op.Enabled s) :
    fundingRuns.ReachableBy C (op.after s) :=
  .step hr hC ⟨hop, rfl⟩

theorem fundingOps_reachable {C : Funding → FundingOp → Prop}
    (hC : ∀ s, ∀ op ∈ fundingOps, C s op) :
    fundingRuns.ReachableBy C (fundingAfter fundingOps) := by
  have h₁ := fundingRuns_after (.reserveEscrow (fun id => id) 1 0 5 1000
      (.fundHashMatchTask ⟨"", 900, 0, 0, ∅⟩) 100 true) fundingRuns_init
    (hC _ _ List.mem_cons_self)
    ⟨show 1 ∉ TaskBoard.new.pendingDeposits by decide +kernel, trivial⟩
  exact fundingRuns_after (.confirmTaskEscrow 1 1000 50 7 50) h₁
    (hC _ _ (List.mem_cons_of_mem _ List.mem_cons_self))
    (show 7 ∉ (FundingOp.after _ _).board.tasks by decide +kernel)

/-- A deposit funds two tasks of the store, after one commit that failed. -/
theorem funded_twice_after_restart : fundingRuns.Reachable fundedTwice ∧
    fundedTwice.store.escrowOf 7 = some (some 1) ∧ fundedTwice.store.escrowOf 8 = some (some 1) ∧
    ¬ fundedTwice.store.FundsOnce := by
  have h₇ : fundedTwice.store.escrowOf 7 = some (some 1) := by decide +kernel
  have h₈ : fundedTwice.store.escrowOf 8 = some (some 1) := by decide +kernel
  refine ⟨?_, h₇, h₈, fun h => absurd (h.once 7 8 1 h₇ h₈) (by decide)⟩
  have h₁ := fundingRuns_after (.commit 0 false)
    (fundingOps_reachable (C := fun _ _ => True) fun _ _ _ => trivial) trivial trivial
  have h₂ := fundingRuns_after (.work (.claimTask 7 6 200)) h₁ trivial ⟨nofun, trivial⟩
  have h₃ := fundingRuns_after (.read [7]) h₂ trivial trivial
  have h₄ := fundingRuns_after (.commit 0 true) h₃ trivial trivial
  have h₅ := fundingRuns_after .restart h₄ trivial trivial
  have h₆ := fundingRuns_after (.confirmTaskEscrow 1 1000 60 8 60) h₅ trivial
    (show 8 ∉ (FundingOp.after _ _).board.tasks by decide +kernel)
  exact fundingRuns_after (.commit 0 true) h₆ trivial trivial

/-- With the first commit made, saving the claimed task alone leaves the deposit consumed. -/
theorem escrow_funds_one_task_durably_claimed :
    (fundedOnce.store.pendingDeposits.lookup 1).map PendingDeposit.status = some .consumed ∧
    ∃ deposit, fundedOnce.store.pendingDeposits.lookup 1 = some deposit ∧
      deposit.status ≠ .reserved := by
  have hreach : fundingRuns.ReachableBy (fun s op => op.Follows s) fundedOnce := by
    have h₀ : fundingRuns.ReachableBy (fun s op => op.Follows s) (fundingAfter fundingOps) := by
      refine fundingOps_reachable fun s op hop => ?_
      rcases List.mem_cons.1 hop with rfl | hop
      · trivial
      · obtain rfl := List.mem_singleton.1 hop
        trivial
    -- The first commit carries the deposit of its task.
    have hpaired : ((fundingAfter fundingOps).writes[0]?.bind TaskWrite.deposit).isSome := by
      decide +kernel
    have h₁ := fundingRuns_after (.commit 0 true) h₀ (fun _ w hw hnone => by
      rw [Option.mem_def.1 hw, Option.bind_some, hnone] at hpaired
      cases hpaired) trivial
    have h₂ := fundingRuns_after (.work (.claimTask 7 6 200)) h₁ trivial ⟨nofun, trivial⟩
    have h₃ := fundingRuns_after (.read [7]) h₂ trivial trivial
    have hread : (Funding.writes (fundingAfter (fundingOps ++ [.commit 0 true,
        .work (.claimTask 7 6 200), .read [7]])))[0]?.map (fun w => w.tasks.map Task.id) = some [7] := by
      decide +kernel
    have hstored : 7 ∈ (fundingAfter (fundingOps ++ [.commit 0 true,
        .work (.claimTask 7 6 200), .read [7]])).store.tasks := by
      decide +kernel
    refine fundingRuns_after (.commit 0 true) h₃ (fun _ w hw _ t ht _ => ?_) trivial
    obtain ⟨w', hw', hids⟩ := Option.map_eq_some_iff.1 hread
    obtain rfl := Option.some.inj (hw'.symm.trans hw)
    have hid : t.id ∈ w'.tasks.map Task.id := List.mem_map_of_mem ht
    rw [hids, List.mem_singleton] at hid
    rw [hid]
    exact hstored
  obtain ⟨task, ht, hd⟩ : ∃ task, fundedOnce.store.tasks.lookup 7 = some task ∧
      task.escrowId = some 1 := Option.map_eq_some_iff.1 (by decide +kernel)
  exact ⟨by decide +kernel, (escrow_funds_one_task_durably hreach ht hd).1⟩

end Itx
