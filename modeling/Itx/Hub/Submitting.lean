import Itx.Hub.TaskRuns

/-!
# Submitting a payout

One transaction pays some of the recipients of a task, the first outputs of it in their order. An
attempt is made for each of them (`submit_task_payout`, `hub/src/handlers.rs`): the attempts are
saved one after the other, all of them are then put on the board, and the transaction is handed to
the node last. A transaction the node is found not to hold is submitted once more, and the
attempts that carry it are counted up together (`resend_lost_payout`).
-/

namespace Itx

/-- What an attempt is kept under: its task, and the recipient it pays. -/
def PayoutAttempt.leg (a : PayoutAttempt) : Uuid × PublicKey := (a.taskId, a.recipient)

namespace TaskBoard

section

variable (c : Crypto)

/-- The attempt `submit_task_payout` makes for the recipient at a position: none if the output
    there does not pay the recipient its amount. -/
def attemptAt (s : TaskBoard) (taskId : Uuid) (source : PublicKey) (submittedAt : DateTime)
    (tx : Transaction) (p : (PublicKey × ℕ) × ℕ) : Option PayoutAttempt :=
  (tx.outputs[p.2]?.filter fun o => o.pubkey = p.1.1 ∧ o.value = p.1.2).map fun output =>
    { taskId
      recipient := p.1.1
      amount := p.1.2
      outputHash := c.hashOutput output
      spentInputs := tx.spends
      source
      submittedAt
      submissions := ((s.payoutAttempt taskId p.1.1).map PayoutAttempt.submissions).getD 0 + 1
      transaction := some tx }

/-- The attempts `submit_task_payout` makes of a transaction. -/
def attemptsOf (s : TaskBoard) (taskId : Uuid) (source : PublicKey) (submittedAt : DateTime)
    (tx : Transaction) (recipients : List (PublicKey × ℕ)) : Option (List PayoutAttempt) :=
  recipients.zipIdx.mapM (s.attemptAt c taskId source submittedAt tx)

end

/-- Attempts put on the board, one after the other. -/
def recordPayoutAttempts (attempts : List PayoutAttempt) (s : TaskBoard) : TaskBoard :=
  attempts.foldl (fun s a => s.recordPayoutAttempt a) s

/-- Attempts saved in the store, one after the other (`HubStore::save_payout_attempt`). -/
def savePayoutAttempts (attempts : List PayoutAttempt) (s : TaskBoard) : TaskBoard :=
  attempts.foldl (fun s a => s.restorePayoutAttempt a) s

variable {c : Crypto} {s s' : TaskBoard} {taskId : Uuid} {source : PublicKey} {submittedAt : DateTime}
  {tx : Transaction} {recipients : List (PublicKey × ℕ)} {attempts : List PayoutAttempt}

/-! ## The attempts -/

/-- What an attempt says of the transaction it is made of. -/
structure AttemptOf (c : Crypto) (taskId : Uuid) (source : PublicKey) (tx : Transaction)
    (a : PayoutAttempt) : Prop where
  taskId : a.taskId = taskId
  source : a.source = source
  transaction : a.transaction = some tx
  spentInputs : a.spentInputs = tx.spends
  outputHash : a.outputHash ∈ tx.outputs.map c.hashOutput

theorem attemptAt_eq_some {p : (PublicKey × ℕ) × ℕ} {a : PayoutAttempt}
    (h : s.attemptAt c taskId source submittedAt tx p = some a) :
    AttemptOf c taskId source tx a ∧ a.recipient = p.1.1 ∧ a.amount = p.1.2 := by
  obtain ⟨output, houtput, rfl⟩ := Option.map_eq_some_iff.1 h
  obtain ⟨houtput, -⟩ := Option.filter_eq_some_iff.1 houtput
  exact ⟨⟨rfl, rfl, rfl, rfl, List.mem_map_of_mem (List.mem_of_getElem? houtput)⟩, rfl, rfl⟩

/-- Each recipient has an attempt, and each attempt is for a recipient. -/
theorem attemptsOf_eq_some (h : s.attemptsOf c taskId source submittedAt tx recipients = some attempts) :
    (∀ a ∈ attempts, AttemptOf c taskId source tx a) ∧
      attempts.map PayoutAttempt.leg = recipients.map fun p => (taskId, p.1) := by
  rw [attemptsOf] at h
  generalize hn : (0 : ℕ) = n at h
  clear hn
  induction recipients generalizing attempts n with
  | nil =>
    obtain rfl := Option.some.inj h
    exact ⟨fun _ ha => absurd ha List.not_mem_nil, rfl⟩
  | cons p recipients ih =>
    rw [List.zipIdx_cons, List.mapM_cons] at h
    obtain ⟨a, ha, h⟩ := Option.bind_eq_some_iff.1 h
    obtain ⟨rest, hrest, h⟩ := Option.bind_eq_some_iff.1 h
    obtain rfl := Option.some.inj h
    obtain ⟨hof, hrecipient, -⟩ := attemptAt_eq_some ha
    obtain ⟨hall, hlegs⟩ := ih _ hrest
    refine ⟨List.forall_mem_cons.2 ⟨hof, hall⟩, ?_⟩
    rw [List.map_cons, List.map_cons, hlegs, PayoutAttempt.leg, hof.taskId, hrecipient]

/-! ## Recording them -/

theorem recordPayoutAttempts_attempts (attempts : List PayoutAttempt) (s : TaskBoard) :
    (s.recordPayoutAttempts attempts).payoutAttempts = (s.savePayoutAttempts attempts).payoutAttempts := by
  suffices h : ∀ s s' : TaskBoard, s.payoutAttempts = s'.payoutAttempts →
      (s.recordPayoutAttempts attempts).payoutAttempts = (s'.savePayoutAttempts attempts).payoutAttempts from
    h s s rfl
  induction attempts with
  | nil => exact fun _ _ h => h
  | cons a attempts ih =>
    intro s s' h
    refine ih _ _ ?_
    rw [recordPayoutAttempt_attempts]
    exact congrArg (fun m => m.insert a.leg a) h

/-- What is not among them is as it was. -/
theorem lookup_savePayoutAttempts_of_notMem {leg : Uuid × PublicKey}
    (h : leg ∉ attempts.map PayoutAttempt.leg) :
    (s.savePayoutAttempts attempts).payoutAttempts.lookup leg = s.payoutAttempts.lookup leg := by
  induction attempts generalizing s with
  | nil => rfl
  | cons a attempts ih =>
    rw [List.map_cons, List.mem_cons, not_or] at h
    exact (ih h.2).trans (Finmap.lookup_insert_of_ne _ h.1)

/-- What is among them is one of them. -/
theorem lookup_savePayoutAttempts_of_mem {leg : Uuid × PublicKey}
    (h : leg ∈ attempts.map PayoutAttempt.leg) :
    ∃ a ∈ attempts, a.leg = leg ∧ (s.savePayoutAttempts attempts).payoutAttempts.lookup leg = some a := by
  induction attempts generalizing s with
  | nil => exact absurd h List.not_mem_nil
  | cons a attempts ih =>
    by_cases hrest : leg ∈ attempts.map PayoutAttempt.leg
    · obtain ⟨b, hb, hleg, hlookup⟩ := @ih (s.restorePayoutAttempt a) hrest
      exact ⟨b, List.mem_cons_of_mem _ hb, hleg, hlookup⟩
    · obtain rfl : leg = a.leg := (List.mem_cons.1 h).resolve_right hrest
      refine ⟨a, List.mem_cons_self, rfl, ?_⟩
      exact (lookup_savePayoutAttempts_of_notMem hrest).trans (Finmap.lookup_insert _)

/-- Recording attempts leaves everything but them, and the status of the tasks. -/
theorem recordPayoutAttempts_frame (attempts : List PayoutAttempt) (s : TaskBoard) :
    ∃ tasks payoutAttempts, s.recordPayoutAttempts attempts = { s with tasks, payoutAttempts } := by
  induction attempts generalizing s with
  | nil => exact ⟨_, _, rfl⟩
  | cons a attempts ih =>
    obtain ⟨tasks, payoutAttempts, h⟩ := ih (s.recordPayoutAttempt a)
    have hhead : ∃ tasks payoutAttempts, s.recordPayoutAttempt a = { s with tasks, payoutAttempts } := by
      rcases s.recordPayoutAttempt_cases a with h | ⟨_, -, -, -, h⟩
      · exact ⟨_, _, h⟩
      · exact ⟨_, _, h⟩
    obtain ⟨tasks', payoutAttempts', h'⟩ := hhead
    refine ⟨tasks, payoutAttempts, h.trans ?_⟩
    rw [h']

theorem savePayoutAttempts_frame (attempts : List PayoutAttempt) (s : TaskBoard) :
    ∃ payoutAttempts, s.savePayoutAttempts attempts = { s with payoutAttempts } := by
  induction attempts generalizing s with
  | nil => exact ⟨_, rfl⟩
  | cons a attempts ih => exact ih (s.restorePayoutAttempt a)

end TaskBoard

end Itx
