import Itx.Hub.Paying
import Itx.Lib.System
import Itx.Lib.WriteBack

/-!
# The tasks in the store

What is done to a task is done on the board, under its lock, and then saved
(`hub/src/handlers.rs`, `hub/src/main.rs`). Some handlers save while they hold the lock:
a contest answer, a close, a pick and a cancel. The others (a claim, the answers of the two
other kinds of tasks) take a copy of the task, release the lock and then save the copy;
and the passes of the sweep come back for each of the tasks they moved, to copy and save
it. Between the two anything else may run.

So two joins of a consensus task that save in the opposite order leave in the store a task
that one of the assignees never joined (`stored_task_behind`). As long as no copy of a
task is saved after a later one, a task that nothing is done to any more is in the store
as it is on the board (`stored_task_current`).
-/

namespace Itx

open TaskBoard

/-! ## Handlers, passes and saves -/

/-- What `claim_task` does to the board: one joins a consensus task, and claims the others. -/
def TaskBoard.claimOrJoin (id : Uuid) (pubkey : PublicKey) (deadline now filledAt : DateTime) :
    BoardCall Unit := do
  let s ← Call.get
  let task ← Call.lift (.okOr .notFound (s.tasks.lookup id))
  match task.kind with
  | .consensus _ => joinConsensusTask id pubkey now filledAt
  | _ => TaskBoard.claimTask id pubkey deadline

/-- The passes of the sweep that move tasks. -/
inductive Pass
  | expireClaims
  | cancelUnderstaffedConsensusTasks
  | resolveExpiredConsensusTasks
  | finalizeUnchallengedDisputableTasks
  | closeUnclosedContests
  | splitUnpickedContests
  deriving DecidableEq, Repr

/-- A pass, and the tasks it moved. -/
def Pass.run (now : DateTime) : Pass → BoardCall (List Uuid)
  | expireClaims => TaskBoard.expireClaims now
  | cancelUnderstaffedConsensusTasks => TaskBoard.cancelUnderstaffedConsensusTasks now
  | resolveExpiredConsensusTasks => TaskBoard.resolveExpiredConsensusTasks now
  | finalizeUnchallengedDisputableTasks => TaskBoard.finalizeUnchallengedDisputableTasks now
  | closeUnclosedContests => TaskBoard.closeUnclosedContests now
  | splitUnpickedContests => TaskBoard.splitUnpickedContests now

/-- The board, the store and the copies on their way to it; the tasks that passes of the
    sweep have yet to persist, and those whose payouts have been recorded and not saved. -/
structure DiskRun where
  board : TaskBoard
  disk : WriteBack Uuid Task
  swept : List Uuid
  payouts : List Uuid
  /-- Some call has panicked: it never finishes. -/
  panicked : Bool

namespace DiskRun

/-- A handler changes a task, and takes a copy of it before it releases the board. -/
def handle {α : Type} (s : DiskRun) (id : Uuid) (call : BoardCall α) : DiskRun :=
  match call s.board with
  | (board, .ok _) =>
    match board.tasks.lookup id with
    | some task => { s with board, disk := (s.disk.change [id]).read task.id task }
    | none => { s with board, panicked := true }
  | (board, .err _) => { s with board }
  | (board, .panic) => { s with board, panicked := true }

/-- A handler that saves its copy before it releases the board. -/
def hold {α : Type} (s : DiskRun) (id : Uuid) (call : BoardCall α) : DiskRun :=
  match call s.board with
  | (board, .ok _) =>
    match board.tasks.lookup id with
    | some task => { s with board, disk := ((s.disk.change [id]).read task.id task).save 0 }
    | none => { s with board, panicked := true }
  | (board, .err _) => { s with board }
  | (board, .panic) => { s with board, panicked := true }

/-- A handler that changes a task on a board of its own, and saves it before the live
    board gets it. -/
def stage (s : DiskRun) (id : Uuid) (call : BoardCall Unit) : DiskRun :=
  match s.board.tasks.lookup id with
  | none => s
  | some task =>
    match call (TaskBoard.new.restoreTask task) with
    | (staged, .ok _) =>
      match staged.tasks.lookup id with
      | some task =>
        { s with
          board := s.board.restoreTask task
          disk := ((s.disk.change [task.id]).read task.id task).save 0 }
      | none => { s with panicked := true }
    | (_, .err _) => s
    | (_, .panic) => { s with panicked := true }

end DiskRun

/-- What happens to the hub, from one release of the board or `await` to the next. -/
inductive DiskOp
  | claimTask (id : Uuid) (pubkey : PublicKey) (deadline now filledAt : DateTime)
  | submitHashMatchTask (id : Uuid) (pubkey : PublicKey) (outputHash : Hash)
  | submitConsensusTask (id : Uuid) (pubkey : PublicKey) (output : String) (now : DateTime)
  | submitDisputableTask (id : Uuid) (pubkey : PublicKey) (answer : String) (now : DateTime)
  | closeTask (id : Uuid) (pubkey : PublicKey) (now : DateTime)
  | pickAnswer (id : Uuid) (pubkey answerer : PublicKey) (now : DateTime)
  | cancelTask (id : Uuid)
  /-- A pass of the sweep, until it releases the board. -/
  | sweep (pass : Pass) (now : DateTime)
  /-- `persist_task_by_id` reads a task that a pass moved. -/
  | persistTaskById (id : Uuid)
  /-- `submit_task_payout` records its attempts, all of them on one task. -/
  | recordPayoutAttempts (id : Uuid) (attempts : List PayoutAttempt)
  /-- `submit_task_payout` then saves the task, under a lock that keeps writers out. -/
  | saveSubmitted (id : Uuid)
  /-- The save of a copy. -/
  | save (index : ℕ)

namespace DiskOp

/-- The hub after a step. -/
def after (s : DiskRun) : DiskOp → DiskRun
  | claimTask id pubkey deadline now filledAt =>
    s.handle id (claimOrJoin id pubkey deadline now filledAt)
  | submitHashMatchTask id pubkey outputHash => s.handle id (submit id pubkey outputHash)
  | submitConsensusTask id pubkey output now =>
    s.handle id (submitConsensusAnswer id pubkey output now)
  | submitDisputableTask id pubkey answer now =>
    s.hold id (submitContestAnswer id pubkey answer now)
  | closeTask id pubkey now => s.stage id (closeContest id pubkey now)
  | pickAnswer id pubkey answerer now => s.stage id (TaskBoard.pickAnswer id pubkey answerer now)
  | cancelTask id => s.stage id (TaskBoard.cancelTask id)
  | sweep pass now =>
    match pass.run now s.board with
    | (board, .ok ids) => { s with board, disk := s.disk.change ids, swept := ids ++ s.swept }
    -- A pass has no error to return.
    | (board, _) => { s with board, panicked := true }
  | persistTaskById id =>
    match s.board.tasks.lookup id with
    | some task => { s with disk := s.disk.read task.id task, swept := s.swept.erase id }
    | none => { s with swept := s.swept.erase id }
  | recordPayoutAttempts id attempts =>
    { s with
      board := attempts.foldl (fun board attempt => board.recordPayoutAttempt attempt) s.board
      disk := s.disk.change [id]
      payouts := id :: s.payouts }
  | saveSubmitted id =>
    match s.board.tasks.lookup id with
    | some task =>
      { s with disk := (s.disk.read task.id task).save 0, payouts := s.payouts.erase id }
    | none => { s with payouts := s.payouts.erase id }
  | save index => { s with disk := s.disk.save index }

/-- Only what a pass moved is persisted, and only what was recorded is saved. -/
def Enabled (s : DiskRun) : DiskOp → Prop
  | persistTaskById id => id ∈ s.swept
  | recordPayoutAttempts id attempts => ∀ attempt ∈ attempts, attempt.taskId = id
  | saveSubmitted id => id ∈ s.payouts
  | _ => True

/-- The saves that put no earlier copy of a task in the place of a later one. -/
def InOrder (s : DiskRun) : DiskOp → Prop
  | save index => s.disk.InOrder index
  | _ => True

end DiskOp

/-- The runs of a hub that has just been started: its board is what the store holds. -/
def diskRuns : System DiskRun DiskOp where
  init := { s | s.board.TasksKeyed ∧
    s = ⟨s.board, .start s.board.tasks.lookup, [], [], false⟩ }
  step s op s' := op.Enabled s ∧ s' = op.after s

/-- Everything done to a task has finished. -/
structure DiskRun.AtRest (s : DiskRun) (id : Uuid) : Prop where
  copies : ∀ c ∈ s.disk.copies, c.key ≠ id
  swept : id ∉ s.swept
  payouts : id ∉ s.payouts
  panicked : s.panicked = false

/-! ## What a call does to the tasks -/

namespace TaskBoard

open Call

variable {s s' s'' : TaskBoard} {id : Uuid} {t t' : Task}

/-- Only one task was written, which keeps its id. -/
structure Altered (id : Uuid) (s s' : TaskBoard) : Prop where
  present : ∃ t, s'.tasks.lookup id = some t
  same : ∀ x, x ≠ id → s'.tasks.lookup x = s.tasks.lookup x
  keyed : s.TasksKeyed → s'.TasksKeyed

namespace Altered

/-- One task is written, and under its own id. -/
theorem write (ht : s.tasks.lookup id = some t) (hid : t'.id = t.id)
    (htasks : s'.tasks = s.tasks.insert id t') : Altered id s s' where
  present := ⟨t', by rw [htasks, Finmap.lookup_insert]⟩
  same x hx := by rw [htasks, Finmap.lookup_insert_of_ne _ hx]
  keyed h := (h.insert (hid.trans (h id t ht))).congr htasks

/-- Nothing is written. -/
theorem of_eq (ht : s.tasks.lookup id = some t) (htasks : s'.tasks = s.tasks) : Altered id s s' where
  present := ⟨t, by rw [htasks, ht]⟩
  same x _ := by rw [htasks]
  keyed h := h.congr htasks

/-- What is written of a task twice is written of it alone. -/
theorem trans (h : Altered id s s') (h' : Altered id s' s'') : Altered id s s'' where
  present := h'.present
  same x hx := (h'.same x hx).trans (h.same x hx)
  keyed hs := h'.keyed (h.keyed hs)

end Altered

/-- A call that touches one task, or fails before it does. -/
abbrev Touches {α : Type} (id : Uuid) (s : TaskBoard) (x : BoardCall α) : Prop :=
  Triple (· = s) x (fun _ => Altered id s) (fun _ s' => s'.tasks = s.tasks) fun _ => True

/-- The rest of such a call, which does not fail any more. -/
abbrev Finishes {α : Type} (id : Uuid) (s : TaskBoard) (x : BoardCall α) : Prop :=
  Triple (· = s) x (fun _ => Altered id s) (fun _ _ => False) fun _ => True

/-- A call on a task writes that task, and keeps its id. -/
theorem touches_onTask {α : Type} {f : TaskBoard → Task → Outcome BoardError (α × Task)}
    (h : ∀ t a t', f s t = .ok (a, t') → t'.id = t.id) : Touches id s (onTask id f) := by
  refine triple_onTask.conseq (fun _ h => h) (fun a s' hs' => ?_) (fun _ s' hs' => ?_) fun _ _ => trivial
  · obtain ⟨t, t', ht, hf, rfl⟩ := hs'
    exact .write ht (h t a t' hf) rfl
  · rw [hs'.1]

/-- On a task that is there, one whose body does not fail comes to an end. -/
theorem finishes_onTask {α : Type} {f : TaskBoard → Task → Outcome BoardError (α × Task)}
    (hid : ∃ t, s.tasks.lookup id = some t) (h : ∀ t a t', f s t = .ok (a, t') → t'.id = t.id)
    (herr : ∀ t e, f s t ≠ .err e) : Finishes id s (onTask id f) := by
  obtain ⟨t, ht⟩ := hid
  refine triple_onTask.conseq (fun _ h => h) (fun a s' hs' => ?_) (fun e s' hs' => ?_) fun _ _ => trivial
  · obtain ⟨t, t', ht, hf, rfl⟩ := hs'
    exact .write ht (h t a t' hf) rfl
  · exact herr t e (hs'.2 t ht)

/-- A call may fail until it has written; what follows then has to come to an end. -/
theorem Touches.bind {α β : Type} {x : BoardCall α} {f : α → BoardCall β} (hx : Touches id s x)
    (hf : ∀ a s', (∃ t, s'.tasks.lookup id = some t) → Finishes id s' (f a)) :
    Touches id s (x >>= f) := by
  refine Triple.bind hx fun a => .of_state fun s₁ hs₁ => ?_
  -- What follows leaves the other tasks as the first call left them.
  exact (hf a s₁ hs₁.present).conseq (fun _ h => h) (fun _ _ h => hs₁.trans h)
    (fun _ _ h => h.elim) fun _ _ => trivial

/-- Calls that come to an end come to an end one after the other. -/
theorem Finishes.bind {α β : Type} {x : BoardCall α} {f : α → BoardCall β} (hx : Finishes id s x)
    (hf : ∀ a s', (∃ t, s'.tasks.lookup id = some t) → Finishes id s' (f a)) :
    Finishes id s (x >>= f) := by
  refine Triple.bind hx fun a => .of_state fun s₁ hs₁ => ?_
  exact (hf a s₁ hs₁.present).conseq (fun _ h => h) (fun _ _ h => hs₁.trans h)
    (fun _ _ h => h) fun _ _ => trivial

/-- Returning writes nothing. -/
theorem finishes_pure {α : Type} (hid : ∃ t, s.tasks.lookup id = some t) (a : α) :
    Finishes id s (pure a : BoardCall α) := by
  obtain ⟨t, ht⟩ := hid
  refine .pure ?_
  rintro _ rfl
  exact .of_eq ht rfl

/-- Nor does a call that is left out. -/
theorem finishes_when {p : Prop} [Decidable p] {x : BoardCall Unit}
    (hid : ∃ t, s.tasks.lookup id = some t) (hx : Finishes id s x) : Finishes id s (Call.when p x) := by
  rw [Call.when]
  split_ifs
  · exact hx
  · exact finishes_pure hid _

/-- Counting a failure may panic, but has no error. -/
theorem infallible_addFailed (pk : PublicKey) : Infallible (addFailed pk) :=
  .bind .get fun _ => .bind (.expect _) fun _ => .modify _

/-- It writes no task. -/
theorem finishes_addFailed (hid : ∃ t, s.tasks.lookup id = some t) (pk : PublicKey) :
    Finishes id s (addFailed pk) := by
  obtain ⟨t, ht⟩ := hid
  -- It reads the board and writes a reputation, so the tasks stay as they are.
  have hpreserves : Preserves (fun s' => s'.tasks = s.tasks) (addFailed pk) :=
    .bind .get fun _ => .bind (.lift _) fun _ => .modify fun _ h => h
  refine ((infallible_addFailed pk).triple hpreserves).conseq ?_ (fun _ _ h => ?_) (fun _ _ h => h)
    fun _ _ => trivial
  · rintro _ rfl
    rfl
  · exact .of_eq ht h

/-- The vote is counted in the one task. The losers are charged beside it. -/
theorem finishes_resolveConsensus (hid : ∃ t, s.tasks.lookup id = some t) :
    Finishes id s (resolveConsensus id) := by
  refine .get_bind fun s₁ hs₁ => ?_
  subst hs₁
  split
  · exact finishes_pure hid _
  · next t ht =>
    split
    · next kind hkind =>
      have hpreserves : Preserves (fun s' => s'.tasks = s₁.tasks)
          (forEach (losers kind (majorityAnswer kind.assignees)) addFailed) :=
        .forEach fun _ _ => .bind .get fun _ => .bind (.lift _) fun _ => .modify fun _ h => h
      have hlosers := (Infallible.forEach fun pk (_ : pk ∈ losers kind (majorityAnswer kind.assignees)) =>
        infallible_addFailed pk).triple hpreserves
      refine Triple.bind (hlosers.conseq ?_ (fun _ _ h => h) (fun _ _ h => h) fun _ _ => trivial)
        fun _ => .modify fun s₂ hs₂ => ?_
      · rintro _ rfl
        rfl
      · -- The tasks are those before the losers were charged.
        refine .write ht ?_ (congrArg (Finmap.insert id _) hs₂)
        cases majorityAnswer kind.assignees <;> rfl
    · exact finishes_pure hid _

/-! ### Handlers -/

/-- A claim is written in the task. -/
theorem touches_claimTask (claimant : PublicKey) (deadline : DateTime) :
    Touches id s (TaskBoard.claimTask id claimant deadline) := by
  refine touches_onTask fun t a t' h => ?_
  simp only [Outcome.bind_eq_ok, Outcome.pure_eq, Outcome.ok.injEq, Prod.mk.injEq] at h
  obtain ⟨_, -, _, -, _, -, _, -, -, rfl⟩ := h
  rfl

/-- An assignee is written in the task. -/
theorem touches_joinConsensusTask (agent : PublicKey) (now filledAt : DateTime) :
    Touches id s (joinConsensusTask id agent now filledAt) := by
  -- First the assignment is written; the last of them also starts the clock, which may panic.
  refine Touches.bind (touches_onTask fun t a t' h => ?_) fun kind s₁ hid =>
    finishes_when hid (finishes_onTask hid (fun t a t' h => ?_) fun t e =>
      Outcome.expect_bind_ne_err fun _ => nofun)
  · simp only [Outcome.bind_eq_ok, Outcome.pure_eq, Outcome.ok.injEq, Prod.mk.injEq] at h
    obtain ⟨_, -, _, -, _, -, _, -, _, -, _, -, -, rfl⟩ := h
    rfl
  · obtain ⟨_, -, h⟩ := Outcome.bind_eq_ok.1 h
    obtain ⟨-, rfl⟩ := Prod.mk.inj (Outcome.ok.inj h)
    rfl

/-- Either way what comes in is written in the task. -/
theorem touches_claimOrJoin (pubkey : PublicKey) (deadline now filledAt : DateTime) :
    Touches id s (claimOrJoin id pubkey deadline now filledAt) := by
  refine .get_bind fun s₁ hs₁ => ?_
  subst hs₁
  -- The task decides which of the two it is, and without one nothing is written.
  refine .lift_known (fun t _ => ?_) (fun _ _ => rfl) fun h => absurd h Outcome.okOr_ne_panic
  split
  · exact touches_joinConsensusTask pubkey now filledAt
  · exact touches_claimTask pubkey deadline

/-- An output is written in the task. -/
theorem touches_submit (submitter : PublicKey) (outputHash : Hash) :
    Touches id s (submit id submitter outputHash) := by
  refine Touches.bind (touches_onTask fun t a t' h => ?_) fun verified s₁ hid => ?_
  · simp only [Outcome.bind_eq_ok] at h
    obtain ⟨_, -, _, -, _, -, h⟩ := h
    split_ifs at h
    · obtain ⟨-, rfl⟩ := Prod.mk.inj (Outcome.ok.inj h)
      rfl
    · obtain ⟨-, rfl⟩ := Prod.mk.inj (Outcome.ok.inj h)
      rfl
  · -- A wrong output reopens the task and charges its claimant, both past the last error.
    refine Finishes.bind (finishes_when hid (Finishes.bind (finishes_onTask hid (fun t a t' h => ?_)
      fun t e => Outcome.expect_bind_ne_err (by simp)) fun _ s₂ hid => finishes_addFailed hid _))
      fun _ s₂ hid => finishes_pure hid _
    obtain ⟨_, -, h⟩ := Outcome.bind_eq_ok.1 h
    obtain ⟨-, rfl⟩ := Prod.mk.inj (Outcome.ok.inj h)
    rfl

/-- So is an answer, with the vote if it is the last one. -/
theorem touches_submitConsensusAnswer (agent : PublicKey) (answer : String) (now : DateTime) :
    Touches id s (submitConsensusAnswer id agent answer now) := by
  refine Touches.bind (touches_onTask fun t a t' h => ?_) fun kind s₁ hid =>
    Finishes.bind (finishes_when hid (finishes_resolveConsensus hid)) fun _ _ hid =>
      finishes_pure hid _
  simp only [Outcome.bind_eq_ok, Outcome.pure_eq, Outcome.ok.injEq, Prod.mk.injEq] at h
  obtain ⟨_, -, _, -, _, -, _, -, _, -, _, -, -, rfl⟩ := h
  rfl

/-- So is an entry of a contest. -/
theorem touches_submitContestAnswer (submitter : PublicKey) (answer : String) (now : DateTime) :
    Touches id s (submitContestAnswer id submitter answer now) := by
  refine touches_onTask fun t a t' h => ?_
  simp only [Outcome.bind_eq_ok, Outcome.pure_eq, Outcome.ok.injEq, Prod.mk.injEq] at h
  obtain ⟨_, -, _, -, _, -, _, -, _, -, _, -, _, -, _, -, -, rfl⟩ := h
  rfl

/-- Closing a contest is written in it. -/
theorem touches_closeContest (caller : PublicKey) (now : DateTime) :
    Touches id s (closeContest id caller now) := by
  refine touches_onTask fun t a t' h => ?_
  simp only [Outcome.bind_eq_ok] at h
  obtain ⟨_, -, _, -, _, -, _, -, _, -, h⟩ := h
  split_ifs at h
  · obtain ⟨-, rfl⟩ := Prod.mk.inj (Outcome.ok.inj h)
    rfl
  · obtain ⟨_, -, h⟩ := Outcome.bind_eq_ok.1 h
    obtain ⟨-, rfl⟩ := Prod.mk.inj (Outcome.ok.inj h)
    rfl

/-- So is the answer that is picked. -/
theorem touches_pickAnswer (caller answerer : PublicKey) (now : DateTime) :
    Touches id s (TaskBoard.pickAnswer id caller answerer now) := by
  refine touches_onTask fun t a t' h => ?_
  simp only [Outcome.bind_eq_ok, Outcome.pure_eq, Outcome.ok.injEq, Prod.mk.injEq] at h
  obtain ⟨_, -, _, -, _, -, _, -, _, -, -, rfl⟩ := h
  rfl

/-- A cancelled task is written as such. -/
theorem touches_cancelTask : Touches id s (TaskBoard.cancelTask id) := by
  refine touches_onTask fun t a t' h => ?_
  simp only [Outcome.bind_eq_ok, Outcome.pure_eq, Outcome.ok.injEq, Prod.mk.injEq] at h
  obtain ⟨_, -, _, -, -, rfl⟩ := h
  rfl

/-! ### Passes -/

/-- Only these tasks were written, and they keep their ids. -/
structure SweptOver (ids : List Uuid) (s s' : TaskBoard) : Prop where
  same : ∀ x, x ∉ ids → s'.tasks.lookup x = s.tasks.lookup x
  keyed : s.TasksKeyed → s'.TasksKeyed

/-- A pass that returns all it has moved. -/
abbrev Sweeps (s : TaskBoard) (x : BoardCall (List Uuid)) : Prop :=
  Triple (· = s) x (fun ids => SweptOver ids s) (fun _ _ => True) fun _ => True

/-- A pass may find nothing to do. -/
theorem SweptOver.refl (ids : List Uuid) (s : TaskBoard) : SweptOver ids s s :=
  ⟨fun _ _ => rfl, fun h => h⟩

/-- A pass writes the tasks it names, one after the other. -/
theorem sweeps_sweepOver {f : Task → Outcome BoardError (Option Task)}
    (hf : ∀ t t', f t = .ok (some t') → t'.id = t.id) (hs : s.TasksKeyed) (ids : List Uuid) :
    Sweeps s (sweepOver f ids) := by
  induction ids generalizing s with
  | nil =>
    refine .pure ?_
    rintro _ rfl
    exact .refl _ _
  | cons x ids ih =>
    refine .get_bind fun s₁ hs₁ => ?_
    subst hs₁
    refine .lift_known (fun moved hmoved => ?_) (fun _ _ => trivial) fun _ => trivial
    -- What the head of the list does, with the id it is returned under.
    have hhead : Triple (· = s₁) (Call.when moved.isSome (Call.modify fun s =>
        { s with tasks := moved.elim s.tasks (s.tasks.insert x) }) : BoardCall Unit)
        (fun _ s₂ => SweptOver (moved.toList.map Task.id) s₁ s₂) (fun _ _ => True)
        fun _ => True := by
      cases moved with
      | none =>
        refine .pure ?_
        rintro _ rfl
        exact .refl _ _
      | some t' =>
        obtain ⟨t, ht, hft⟩ : ∃ t, s₁.tasks.lookup x = some t ∧ f t = .ok (some t') := by
          cases ht : s₁.tasks.lookup x with
          | none =>
            rw [ht] at hmoved
            cases hmoved
          | some t =>
            rw [ht] at hmoved
            exact ⟨t, rfl, hmoved⟩
        have hid : t'.id = x := (hf t t' hft).trans (hs x t ht)
        refine .modify ?_
        rintro _ rfl
        refine ⟨fun y hy => Finmap.lookup_insert_of_ne _ fun he => hy ?_, fun h => h.insert hid⟩
        rw [he, ← hid]
        exact List.mem_singleton_self _
    refine Triple.bind hhead fun _ => .of_state fun s₂ hs₂ => ?_
    -- Each task is written once at most, so what the rest leaves of the others is as before.
    refine Triple.bind (ih (hs₂.keyed hs)) fun rest => .pure fun s₃ hs₃ => ?_
    refine ⟨fun y hy => ?_, fun h => hs₃.keyed (hs₂.keyed h)⟩
    rw [List.mem_append, not_or] at hy
    exact (hs₃.same y hy.2).trans (hs₂.same y hy.1)

/-- It names them before it writes the first. -/
theorem sweeps_sweep {f : Task → Outcome BoardError (Option Task)}
    (hf : ∀ t t', f t = .ok (some t') → t'.id = t.id) (hs : s.TasksKeyed) : Sweeps s (sweep f) := by
  refine .get_bind fun s₁ hs₁ => ?_
  subst hs₁
  exact sweeps_sweepOver hf hs _

/-- A task of the pass may be written once more. -/
theorem SweptOver.touched {ids : List Uuid} (h : SweptOver ids s s') (hid : id ∈ ids)
    (h' : Altered id s' s'') : SweptOver ids s s'' where
  same x hx := (h'.same x fun he => hx (he ▸ hid)).trans (h.same x hx)
  keyed hs := h'.keyed (h.keyed hs)

/-- The votes that have expired are counted one by one. -/
theorem sweeps_resolveExpiredConsensusTasks (now : DateTime) :
    Sweeps s (resolveExpiredConsensusTasks now) := by
  refine .get_bind fun s₁ hs₁ => ?_
  subst hs₁
  refine Triple.bind (R := fun _ s₂ => SweptOver ((s₁.tasks.values.filter (isDue now)).map Task.id) s₁ s₂)
    ?_ fun _ => .pure fun _ h => h
  generalize (s₁.tasks.values.filter (isDue now)).map Task.id = due
  have hloop : Triple (SweptOver due s₁) (forEach due resolveConsensus) (fun _ => SweptOver due s₁)
      (fun _ _ => True) fun _ => True := by
    -- An id that is due is still on the board when its turn comes, or nothing is done.
    refine Triple.forEach fun id hid => .of_state fun s₂ hs₂ => ?_
    cases ht : s₂.tasks.lookup id with
    | none =>
      refine .get_bind fun s₃ hs₃ => ?_
      subst hs₃
      rw [ht]
      refine .pure ?_
      rintro _ rfl
      exact hs₂
    | some t =>
      exact (finishes_resolveConsensus ⟨t, ht⟩).conseq (fun _ h => h) (fun _ _ => hs₂.touched hid)
        (fun _ _ _ => trivial) fun _ _ => trivial
  refine hloop.conseq ?_ (fun _ _ h => h) (fun _ _ h => h) fun _ h => h
  rintro _ rfl
  exact .refl due _

/-- So every pass of the sweep writes the tasks it returns, and no other. -/
theorem sweeps_run (hs : s.TasksKeyed) (now : DateTime) (pass : Pass) : Sweeps s (pass.run now) := by
  cases pass with
  | expireClaims =>
    refine sweeps_sweep (fun t t' h => ?_) hs
    rw [expireClaim] at h
    split_ifs at h
    · obtain rfl := Option.some.inj (Outcome.ok.inj h)
      rfl
    · cases Outcome.ok.inj h
  | cancelUnderstaffedConsensusTasks =>
    refine sweeps_sweep (fun t t' h => ?_) hs
    rw [cancelUnderstaffed] at h
    split at h
    · split_ifs at h
      · obtain rfl := Option.some.inj (Outcome.ok.inj h)
        rfl
      · cases Outcome.ok.inj h
    · cases Outcome.ok.inj h
  | resolveExpiredConsensusTasks => exact sweeps_resolveExpiredConsensusTasks now
  | finalizeUnchallengedDisputableTasks =>
    refine sweeps_sweep (fun t t' h => ?_) hs
    rw [finalizeUnchallenged] at h
    split at h
    · split_ifs at h
      · obtain rfl := Option.some.inj (Outcome.ok.inj h)
        rfl
      · cases Outcome.ok.inj h
    · cases Outcome.ok.inj h
  | closeUnclosedContests =>
    refine sweeps_sweep (fun t t' h => ?_) hs
    rw [closeUnclosed] at h
    split_ifs at h
    · obtain ⟨_, -, h⟩ := Outcome.bind_eq_ok.1 h
      have h := Outcome.ok.inj h
      split_ifs at h
      obtain rfl := Option.some.inj h
      rfl
    · cases Outcome.ok.inj h
  | splitUnpickedContests =>
    refine sweeps_sweep (fun t t' h => ?_) hs
    rw [splitUnpicked] at h
    split at h
    · split_ifs at h
      · obtain rfl := Option.some.inj (Outcome.ok.inj h)
        rfl
      · cases Outcome.ok.inj h
    · cases Outcome.ok.inj h

/-! ### Payouts -/

/-- Attempts at the payouts of a task may move that task on. -/
theorem sweptOver_recordPayoutAttempts {attempts : List PayoutAttempt}
    (h : ∀ attempt ∈ attempts, attempt.taskId = id) (s : TaskBoard) :
    SweptOver [id] s (attempts.foldl (fun board attempt => board.recordPayoutAttempt attempt) s) := by
  induction attempts generalizing s with
  | nil => exact .refl _ s
  | cons attempt attempts ih =>
    have hid : attempt.taskId = id := h attempt List.mem_cons_self
    have hrest := ih (fun a ha => h a (List.mem_cons_of_mem _ ha)) (s.recordPayoutAttempt attempt)
    have hhead : SweptOver [id] s (s.recordPayoutAttempt attempt) := by
      rcases s.recordPayoutAttempt_cases attempt with h | ⟨t, ht, -, -, h⟩
      · rw [h]
        exact ⟨fun _ _ => rfl, fun h => h⟩
      · have haltered : Altered id s (s.recordPayoutAttempt attempt) := by
          rw [hid] at ht h
          -- Only the status is changed, so the task is stored where it was.
          have hsame : ({ t with status := .submitted } : Task).id = t.id := rfl
          rw [h]
          exact .write ht hsame rfl
        exact (SweptOver.refl [id] s).touched (List.mem_singleton_self _) haltered
    exact ⟨fun x hx => (hrest.same x hx).trans (hhead.same x hx), fun hs => hrest.keyed (hhead.keyed hs)⟩

end TaskBoard

/-! ## Runs -/

/-- What a run that has not panicked keeps. -/
structure DiskRun.Sound (s : DiskRun) : Prop where
  keyed : s.board.TasksKeyed
  covers : s.disk.Covers s.board.tasks.lookup {id | id ∈ s.swept ∨ id ∈ s.payouts}

namespace DiskRun.Sound

variable {s : DiskRun} {board : TaskBoard} {id : Uuid} {task : Task} {ids : List Uuid}

/-- A handler has changed a task: it is to be read again. -/
theorem changed (h : s.Sound) (haltered : Altered id s.board board) :
    (s.disk.change [id]).Covers board.tasks.lookup
      ({x | x ∈ s.swept ∨ x ∈ s.payouts} ∪ {x | x ∈ [id]}) :=
  h.covers.change fun x hx => haltered.same x fun he => hx (List.mem_singleton.2 he)

/-- What was owed before a task changed is still owed once it is read. -/
theorem owed_subset (hid : task.id = id) :
    ({x | x ∈ s.swept ∨ x ∈ s.payouts} ∪ {x | x ∈ [id]}) \ {task.id} ⊆
      {x | x ∈ s.swept ∨ x ∈ s.payouts} := by
  rintro x ⟨hx | hx, hne⟩
  · exact hx
  · exact absurd (List.mem_singleton.1 hx) (hid ▸ hne)

/-- A call that failed changed no task. -/
theorem refused (h : s.Sound) (htasks : board.tasks = s.board.tasks) : DiskRun.Sound { s with board } where
  keyed := h.keyed.congr htasks
  covers := by
    dsimp only
    rw [htasks]
    exact h.covers

/-- The copy is taken as the task is changed, so it is the one to be saved for it. -/
theorem handle {α : Type} {call : BoardCall α} (h : s.Sound) (hcall : Touches id s.board call)
    (hp : (s.handle id call).panicked = false) : (s.handle id call).Sound := by
  have hend := hcall s.board rfl
  rw [DiskRun.handle] at hp ⊢
  generalize call s.board = r at hend hp
  obtain ⟨board, a | e | _⟩ := r
  · obtain ⟨task, ht⟩ := hend.present
    simp only [ht]
    have hkeyed := hend.keyed h.keyed
    have hid : task.id = id := hkeyed id task ht
    -- The other tasks are owed as before, and this one is read just now.
    exact ⟨hkeyed, ((h.changed hend).read (hid ▸ ht)).mono (owed_subset hid)⟩
  · exact h.refused hend
  · cases hp

/-- The copy is saved before anybody else can change the task. -/
theorem hold {α : Type} {call : BoardCall α} (h : s.Sound) (hcall : Touches id s.board call)
    (hp : (s.hold id call).panicked = false) : (s.hold id call).Sound := by
  have hend := hcall s.board rfl
  rw [DiskRun.hold] at hp ⊢
  generalize call s.board = r at hend hp
  obtain ⟨board, a | e | _⟩ := r
  · obtain ⟨task, ht⟩ := hend.present
    simp only [ht]
    have hkeyed := hend.keyed h.keyed
    have hid : task.id = id := hkeyed id task ht
    exact ⟨hkeyed, ((h.changed hend).hold (hid ▸ ht)).mono (owed_subset hid)⟩
  · exact h.refused hend
  · cases hp

/-- The board takes over a task that is saved already, and keeps its own if the call fails. -/
theorem stage {call : BoardCall Unit} (h : s.Sound) (hcall : ∀ b, Touches id b call)
    (hp : (s.stage id call).panicked = false) : (s.stage id call).Sound := by
  rw [DiskRun.stage] at hp ⊢
  cases ht : s.board.tasks.lookup id with
  | none => exact h
  | some task =>
    -- The board of its own holds the task alone.
    have hnew : (TaskBoard.new.restoreTask task).TasksKeyed := by
      refine TasksKeyed.insert (s := TaskBoard.new) (fun x t hx => ?_) rfl
      rw [show TaskBoard.new.tasks = ∅ from rfl, Finmap.lookup_empty] at hx
      cases hx
    simp only [ht] at hp ⊢
    have hend := hcall _ (TaskBoard.new.restoreTask task) rfl
    generalize call (TaskBoard.new.restoreTask task) = r at hend hp
    obtain ⟨staged, a | e | _⟩ := r
    · obtain ⟨task', ht'⟩ := hend.present
      simp only [ht']
      have hid : task'.id = id := hend.keyed hnew id task' ht'
      have hsame : task'.id = task.id := hid.trans (h.keyed id task ht).symm
      have haltered : Altered task'.id s.board (s.board.restoreTask task') :=
        .write (hid.symm ▸ ht) hsame rfl
      -- What the board took over is what the commit has saved.
      refine ⟨haltered.keyed h.keyed, ((h.changed haltered).hold ?_).mono (owed_subset rfl)⟩
      exact Finmap.lookup_insert _
    · exact h
    · cases hp

/-- The tasks a pass has changed are those it is to save. -/
theorem sweep (h : s.Sound) (pass : Pass) (now : DateTime)
    (hp : ((DiskOp.sweep pass now).after s).panicked = false) :
    ((DiskOp.sweep pass now).after s).Sound := by
  have hend := sweeps_run h.keyed now pass s.board rfl
  rw [DiskOp.after] at hp ⊢
  generalize pass.run now s.board = r at hend hp
  obtain ⟨board, ids | e | _⟩ := r
  · refine ⟨hend.keyed h.keyed, (h.covers.change hend.same).mono fun x hx => ?_⟩
    -- What was to be saved before is so still, and the pass adds what it returned.
    rcases hx with (hx | hx) | hx
    · exact .inl (List.mem_append_right _ hx)
    · exact .inr hx
    · exact .inl (List.mem_append_left _ hx)
  · cases hp
  · cases hp

/-- The sweep saves one of the tasks it has changed, as it is by then. -/
theorem persistTaskById (h : s.Sound) (id : Uuid) : ((DiskOp.persistTaskById id).after s).Sound := by
  rw [DiskOp.after]
  split
  · next task ht =>
    have hid := h.keyed id task ht
    refine ⟨h.keyed, (h.covers.read (hid.symm ▸ ht)).mono fun x hx => ?_⟩
    rw [hid] at hx
    -- The copy is of the task as it is, so nothing more is owed for this id.
    exact hx.1.imp_left (List.mem_erase_of_ne hx.2).2
  · next ht =>
    refine ⟨h.keyed, (h.covers.drop ht).mono fun x hx => ?_⟩
    exact hx.1.imp_left (List.mem_erase_of_ne hx.2).2

/-- A payout saves its task as it is by then. -/
theorem saveSubmitted (h : s.Sound) (id : Uuid) : ((DiskOp.saveSubmitted id).after s).Sound := by
  rw [DiskOp.after]
  split
  · next task ht =>
    have hid := h.keyed id task ht
    refine ⟨h.keyed, (h.covers.hold (hid.symm ▸ ht)).mono fun x hx => ?_⟩
    rw [hid] at hx
    exact hx.1.imp_right (List.mem_erase_of_ne hx.2).2
  · next ht =>
    refine ⟨h.keyed, (h.covers.drop ht).mono fun x hx => ?_⟩
    exact hx.1.imp_right (List.mem_erase_of_ne hx.2).2

/-- The task that the attempts move on is one whose save is to come. -/
theorem recordPayoutAttempts (h : s.Sound) {attempts : List PayoutAttempt}
    (hattempts : ∀ attempt ∈ attempts, attempt.taskId = id) :
    ((DiskOp.recordPayoutAttempts id attempts).after s).Sound := by
  have hswept := sweptOver_recordPayoutAttempts hattempts s.board
  refine ⟨hswept.keyed h.keyed, (h.covers.change hswept.same).mono fun x hx => ?_⟩
  rcases hx with (hx | hx) | hx
  · exact .inl hx
  · exact .inr (List.mem_cons_of_mem _ hx)
  · exact .inr (List.mem_singleton.1 hx ▸ List.mem_cons_self)

/-- Every step keeps it, if saves are in order. -/
theorem step {op : DiskOp} (h : s.Sound) (hop : op.Enabled s) (horder : op.InOrder s)
    (hp : (op.after s).panicked = false) : (op.after s).Sound := by
  cases op with
  | claimTask id pubkey deadline now filledAt =>
    exact h.handle (touches_claimOrJoin pubkey deadline now filledAt) hp
  | submitHashMatchTask id pubkey outputHash => exact h.handle (touches_submit pubkey outputHash) hp
  | submitConsensusTask id pubkey output now =>
    exact h.handle (touches_submitConsensusAnswer pubkey output now) hp
  | submitDisputableTask id pubkey answer now =>
    exact h.hold (touches_submitContestAnswer pubkey answer now) hp
  | closeTask id pubkey now => exact h.stage (fun _ => touches_closeContest pubkey now) hp
  | pickAnswer id pubkey answerer now => exact h.stage (fun _ => touches_pickAnswer pubkey answerer now) hp
  | cancelTask id => exact h.stage (fun _ => touches_cancelTask) hp
  | sweep pass now => exact h.sweep pass now hp
  | persistTaskById id => exact h.persistTaskById id
  | recordPayoutAttempts id attempts => exact h.recordPayoutAttempts hop
  | saveSubmitted id => exact h.saveSubmitted id
  | save index => exact ⟨h.keyed, h.covers.save horder⟩

end DiskRun.Sound

/-- What has panicked stays so. -/
theorem DiskOp.panicked_after {s : DiskRun} (op : DiskOp) (h : (op.after s).panicked = false) :
    s.panicked = false := by
  cases op <;> simp only [DiskOp.after, DiskRun.handle, DiskRun.hold, DiskRun.stage] at h <;>
    (repeat' split at h) <;> first | exact h | cases h

/-- Every run keeps it, by induction on its steps, up to a panic. -/
theorem DiskRun.sound_of_reachable {s : DiskRun} (hr : diskRuns.ReachableBy DiskOp.InOrder s) :
    s.panicked = false → s.Sound := by
  refine hr.invariant (I := fun s => s.panicked = false → s.Sound) ?_ ?_
  · rintro s ⟨hkeyed, hs⟩ -
    -- At the start the store holds the board, and nothing is owed.
    rw [hs]
    exact ⟨hkeyed, WriteBack.Covers.start.mono (Set.empty_subset _)⟩
  · rintro s op _ hs horder ⟨hop, rfl⟩ hp
    -- A step can only have come from a state that had not panicked either.
    exact (hs (op.panicked_after hp)).step hop horder hp

/-- **The store agrees with the board at rest**: in every run whose saves put no earlier
    copy of a task in the place of a later one, a task that everything is finished with is
    stored as it is on the board. -/
theorem stored_task_current {s : DiskRun} (hr : diskRuns.ReachableBy DiskOp.InOrder s) {id : Uuid}
    (hrest : s.AtRest id) {task : Task} (ht : s.board.tasks.lookup id = some task) :
    s.disk.stored id = some task := by
  have hsound := DiskRun.sound_of_reachable hr hrest.panicked
  refine hsound.covers.rest ht ?_ hrest.copies
  -- At rest no save of the task is owed, and no copy of it is on its way.
  rintro (hswept | hpayouts)
  · exact hrest.swept hswept
  · exact hrest.payouts hpayouts

/-! ### Two joins -/

/-- A consensus task for three agents, in the store and on the board. -/
def sampleVote : Task := newTask 1 0 9 "" 900 (.consensus ⟨3, 100, 60, none, ∅⟩)

def sampleDisk : DiskRun :=
  ⟨TaskBoard.new.restoreTask sampleVote, .start (TaskBoard.new.restoreTask sampleVote).tasks.lookup, [], [],
    false⟩

/-- Two agents join the task, and their handlers have yet to save it. -/
def sampleJoins : DiskRun :=
  [DiskOp.claimTask 1 7 50 10 10, .claimTask 1 8 50 11 11].foldl DiskOp.after sampleDisk

/-- A run goes on by a step. -/
theorem DiskOp.reachable_after {C : DiskRun → DiskOp → Prop} {s : DiskRun} (op : DiskOp)
    (hr : diskRuns.ReachableBy C s) (hop : op.Enabled s) (hC : C s op) :
    diskRuns.ReachableBy C (op.after s) :=
  hr.step hC ⟨hop, rfl⟩

/-- Two agents join, and what is saved of it is in order. -/
theorem sampleJoins_reachable : diskRuns.ReachableBy DiskOp.InOrder sampleJoins := by
  have h₀ : diskRuns.ReachableBy DiskOp.InOrder sampleDisk := by
    refine .init ⟨TasksKeyed.insert (fun x t hx => ?_) rfl, rfl⟩
    rw [show TaskBoard.new.tasks = ∅ from rfl, Finmap.lookup_empty] at hx
    cases hx
  have h₁ := DiskOp.reachable_after (.claimTask 1 7 50 10 10) h₀ trivial trivial
  exact DiskOp.reachable_after (.claimTask 1 8 50 11 11) h₁ trivial trivial

/-- The one that joined first saves last: the other is not in the store. -/
theorem stored_task_behind :
    ¬ ∀ s, diskRuns.Reachable s → ∀ id task, s.AtRest id → s.board.tasks.lookup id = some task →
      s.disk.stored id = some task := by
  intro h
  have hr : diskRuns.Reachable ([DiskOp.save 0, .save 0].foldl DiskOp.after sampleJoins) :=
    DiskOp.reachable_after (.save 0)
      (DiskOp.reachable_after (.save 0) sampleJoins_reachable.reachable trivial trivial) trivial trivial
  have hrest : DiskRun.AtRest ([DiskOp.save 0, .save 0].foldl DiskOp.after sampleJoins) 1 :=
    ⟨by decide +kernel, by decide +kernel, by decide +kernel, by decide +kernel⟩
  have hboth : ∃ task, ([DiskOp.save 0, .save 0].foldl DiskOp.after sampleJoins).board.tasks.lookup 1 =
      some task ∧ ([DiskOp.save 0, .save 0].foldl DiskOp.after sampleJoins).disk.stored 1 ≠ some task :=
    ⟨_, rfl, by decide +kernel⟩
  -- The store has the task of the first join alone.
  obtain ⟨task, ht, hne⟩ := hboth
  exact hne (h _ hr 1 task hrest ht)

/-- Saved in the order of the joins, both are. -/
theorem stored_task_current_joins :
    ∃ s, diskRuns.ReachableBy DiskOp.InOrder s ∧ s.AtRest 1 ∧ ∃ task, s.board.tasks.lookup 1 = some task ∧
      (∃ kind, task.kind = .consensus kind ∧ kind.assignees.keys = {7, 8}) ∧ s.disk.stored 1 = some task := by
  have hr : diskRuns.ReachableBy DiskOp.InOrder ([DiskOp.save 1, .save 0].foldl DiskOp.after sampleJoins) := by
    -- The copy read first is saved first.
    refine DiskOp.reachable_after (.save 0) (DiskOp.reachable_after (.save 1) sampleJoins_reachable trivial ?_)
      trivial ?_
    · rintro c hc
      obtain rfl := Option.some.inj hc
      decide +kernel
    · rintro c hc
      obtain rfl := Option.some.inj hc
      decide +kernel
  have hrest : DiskRun.AtRest ([DiskOp.save 1, .save 0].foldl DiskOp.after sampleJoins) 1 :=
    ⟨by decide +kernel, by decide +kernel, by decide +kernel, by decide +kernel⟩
  have hboth : ∃ task, ([DiskOp.save 1, .save 0].foldl DiskOp.after sampleJoins).board.tasks.lookup 1 =
      some task ∧ ∃ kind, task.kind = .consensus kind ∧ kind.assignees.keys = {7, 8} :=
    ⟨_, rfl, _, rfl, by decide +kernel⟩
  generalize [DiskOp.save 1, .save 0].foldl DiskOp.after sampleJoins = s at hr hrest hboth
  obtain ⟨task, ht, hkind⟩ := hboth
  exact ⟨s, hr, hrest, task, ht, hkind, stored_task_current hr hrest ht⟩

end Itx
