import Itx.Hub.Allocation

/-!
# What recording a payout does

One lemma for each method that touches the payouts of a task. A call whose commit fails
leaves the board as it was (`Unchanged`), up to an entry for a key that had none; a credit
that overflows panics in the middle of the call (`CreditOverflows`).
-/

namespace Itx

/-- The reputation of a recipient once a payout is recorded. -/
def Reputation.credit (r : Reputation) (credited : Bool) (amount : ℕ) : Reputation :=
  { r with completed := r.completed + credited.toNat, totalEarned := r.totalEarned + amount }

namespace TaskBoard

open Call

variable {s s' : TaskBoard} {taskId : Uuid} {recipient : PublicKey} {amount : ℕ} {now : DateTime}

/-- The payout attempts stand under what they pay. -/
def AttemptsKeyed (s : TaskBoard) : Prop :=
  ∀ x pk a, s.payoutAttempts.lookup (x, pk) = some a → a.taskId = x ∧ a.recipient = pk

/-- Nothing of a board changed, as far as tasks and payouts go. -/
structure Unchanged (s s' : TaskBoard) : Prop where
  tasks : s'.tasks = s.tasks
  attempts : s'.payoutAttempts = s.payoutAttempts
  deposits : s'.pendingDeposits = s.pendingDeposits
  reputation : ∀ pk, s'.reputationOf pk = s.reputationOf pk

theorem Unchanged.refl (s : TaskBoard) : Unchanged s s := ⟨rfl, rfl, rfl, fun _ => rfl⟩

theorem Unchanged.progress (h : Unchanged s s') : Progress s s' where
  toMovedBy := .of_eq h.tasks
  keys := by rw [h.tasks]
  attempts := h.attempts
  deposits := h.deposits
  completed pk := by rw [h.reputation]
  totalEarned pk := by rw [h.reputation]

/-! ## Crediting -/

/-- Whether recording a payout takes a counter of its recipient out of range. -/
def CreditOverflows (s : TaskBoard) (taskId : Uuid) (recipient : PublicKey) (amount : ℕ) : Prop :=
  ∃ t kind nowFullyPaid credited, s.tasks.lookup taskId = some t ∧
    (t.status = .verified ∨ t.status = .submitted) ∧
    t.payRecipient recipient = .ok (some (kind, nowFullyPaid, credited)) ∧
    ((credited = true ∧ u64Bound ≤ (s.reputationOf recipient).completed + 1) ∨
      u64Bound ≤ (s.reputationOf recipient).totalEarned + amount)

/-- The task of a recipient is written, and neither its attempts nor the deposits. -/
def Marked (taskId : Uuid) (recipient : PublicKey) (now : DateTime) (s s' : TaskBoard) : Prop :=
  ∃ t kind nowFullyPaid credited, s.tasks.lookup taskId = some t ∧
    (t.status = .verified ∨ t.status = .submitted) ∧
    t.payRecipient recipient = .ok (some (kind, nowFullyPaid, credited)) ∧
    s'.tasks = s.tasks.insert taskId (paidTask t now kind nowFullyPaid) ∧
    s'.payoutAttempts = s.payoutAttempts ∧ s'.pendingDeposits = s.pendingDeposits

/-- What recording a payout leaves, of the recipient's task and reputation. -/
inductive Recorded (taskId : Uuid) (recipient : PublicKey) (amount : ℕ) (now : DateTime)
    (s : TaskBoard) : TaskBoard → Prop
  /-- The recipient was paid before. -/
  | again {t : Task} (ht : s.tasks.lookup taskId = some t)
    (hstatus : t.status = .verified ∨ t.status = .submitted)
    (hpay : t.payRecipient recipient = .ok none) :
    Recorded taskId recipient amount now s { s with tasks := s.tasks.insert taskId t }
  | paid {t : Task} {kind : TaskKind} {nowFullyPaid credited : Bool}
    (ht : s.tasks.lookup taskId = some t) (hstatus : t.status = .verified ∨ t.status = .submitted)
    (hpay : t.payRecipient recipient = .ok (some (kind, nowFullyPaid, credited))) :
    Recorded taskId recipient amount now s
      { s with
        tasks := s.tasks.insert taskId (paidTask t now kind nowFullyPaid)
        reputation := s.reputation.insert recipient
          ((s.reputationOf recipient).credit credited amount) }

theorem triple_addEarned {pk : PublicKey} :
    Triple (· = s) (addEarned pk amount)
      (fun _ s' => s' = s.restoreReputation pk { s.reputationOf pk with
        totalEarned := (s.reputationOf pk).totalEarned + amount })
      (fun _ _ => False)
      fun s' => s' = s ∧ u64Bound ≤ (s.reputationOf pk).totalEarned + amount := by
  refine .get_bind fun s₁ hs₁ => ?_
  subst hs₁
  refine .lift_known (fun n hn => .modify fun s₂ hs₂ => ?_) (fun _ h => ?_) fun h => ?_
  · obtain ⟨rfl, -⟩ := checkedAdd_eq_some.1 (Outcome.expect_eq_ok.1 hn)
    rw [hs₂]
  · exact Outcome.expect_ne_err h
  · exact ⟨rfl, checked_eq_none.1 (Outcome.expect_eq_panic.1 h)⟩

theorem triple_addCompleted {pk : PublicKey} :
    Triple (· = s) (addCompleted pk)
      (fun _ s' => s' = s.restoreReputation pk { s.reputationOf pk with
        completed := (s.reputationOf pk).completed + 1 })
      (fun _ _ => False)
      fun s' => s' = s ∧ u64Bound ≤ (s.reputationOf pk).completed + 1 := by
  refine .get_bind fun s₁ hs₁ => ?_
  subst hs₁
  refine .lift_known (fun n hn => .modify fun s₂ hs₂ => ?_) (fun _ h => ?_) fun h => ?_
  · obtain ⟨rfl, -⟩ := checkedAdd_eq_some.1 (Outcome.expect_eq_ok.1 hn)
    rw [hs₂]
  · exact Outcome.expect_ne_err h
  · exact ⟨rfl, checked_eq_none.1 (Outcome.expect_eq_panic.1 h)⟩

/-- The two counters of a recipient, one after the other. -/
theorem triple_credit {credited nowFullyPaid : Bool} :
    Triple (· = s) (do
        Call.when credited (addCompleted recipient)
        addEarned recipient amount
        pure nowFullyPaid)
      (fun _ s' => s' = s.restoreReputation recipient
        ((s.reputationOf recipient).credit credited amount))
      (fun _ _ => False)
      fun s' => (∃ reputation, s' = { s with reputation }) ∧
        ((credited = true ∧ u64Bound ≤ (s.reputationOf recipient).completed + 1) ∨
          u64Bound ≤ (s.reputationOf recipient).totalEarned + amount) := by
  cases credited with
  | false =>
    refine Triple.bind (.pure fun _ h => h) fun _ => .bind (triple_addEarned.conseq (fun _ => id)
      (fun _ _ => id) (fun _ _ => id) fun _ h => ⟨⟨_, h.1⟩, .inr h.2⟩) fun _ => .pure fun _ h => h
  | true =>
    refine Triple.bind (triple_addCompleted.conseq (fun _ => id) (fun _ _ => id) (fun _ _ => id)
      fun _ h => ⟨⟨_, h.1⟩, .inl ⟨rfl, h.2⟩⟩) fun _ => .of_state fun s₁ hs₁ => ?_
    subst hs₁
    refine .bind (triple_addEarned.conseq (fun _ => id) (fun _ _ => id) (fun _ _ => id) fun _ h => ?_)
      fun _ => .pure fun s₂ hs₂ => ?_
    · rw [reputationOf_restoreReputation, if_pos rfl] at h
      exact ⟨⟨_, h.1⟩, .inr h.2⟩
    · rw [hs₂, reputationOf_restoreReputation, if_pos rfl]
      simp only [restoreReputation, Finmap.insert_insert]
      rfl

theorem triple_markRecipientPaid :
    Triple (· = s) (markRecipientPaid taskId recipient amount now)
      (fun _ => Recorded taskId recipient amount now s) (fun _ => (· = s))
      fun s' => CreditOverflows s taskId recipient amount ∧ Marked taskId recipient now s s' := by
  refine Triple.bind (triple_onTask.conseq (fun _ => id) (fun _ _ => id) (fun _ _ h => h.1)
    fun s' h => ?_) fun paid => .of_state fun s₁ hs₁ => ?_
  · obtain ⟨-, t, ht, hf⟩ := h
    refine absurd hf (Outcome.bind_ne_panic Outcome.ensure_ne_panic fun _ _ => ?_)
    exact Outcome.bind_ne_panic Task.payRecipient_ne_panic fun _ _ => nofun
  · obtain ⟨t, t', ht, hf, rfl⟩ := hs₁
    simp only [Outcome.bind_eq_ok, Outcome.ensure_eq_ok, Outcome.pure_eq, Outcome.ok.injEq,
      Prod.mk.injEq] at hf
    obtain ⟨_, hstatus, result, hpay, rfl, rfl⟩ := hf
    rcases result with _ | ⟨kind, nowFullyPaid, credited⟩
    · exact .pure fun s₂ hs₂ => hs₂ ▸ .again ht hstatus hpay
    · refine triple_credit.conseq (fun _ => id) (fun _ s₂ hs₂ => ?_) (fun _ _ => False.elim)
        fun s₂ hs₂ => ?_
      · rw [hs₂]
        exact .paid ht hstatus hpay
      · obtain ⟨⟨reputation, rfl⟩, hoverflow⟩ := hs₂
        exact ⟨⟨t, kind, nowFullyPaid, credited, ht, hstatus, hpay, hoverflow⟩,
          t, kind, nowFullyPaid, credited, ht, hstatus, hpay, rfl, rfl, rfl⟩

/-! ## Confirming -/

/-- Only the task and the reputation of its recipient are written. -/
theorem Recorded.frame (h : Recorded taskId recipient amount now s s') :
    (∃ t t', s.tasks.lookup taskId = some t ∧ s'.tasks = s.tasks.insert taskId t') ∧
      s'.pendingDeposits = s.pendingDeposits ∧ s'.payoutAttempts = s.payoutAttempts ∧
      ∀ pk ≠ recipient, s'.reputationOf pk = s.reputationOf pk := by
  cases h with
  | again ht => exact ⟨⟨_, _, ht, rfl⟩, rfl, rfl, fun _ _ => rfl⟩
  | paid ht =>
    refine ⟨⟨_, _, ht, rfl⟩, rfl, rfl, fun pk hpk => ?_⟩
    rw [reputationOf, Finmap.lookup_insert_of_ne _ hpk]
    rfl

/-- What a rolled back record leaves. -/
theorem Recorded.rollback (h : Recorded taskId recipient amount now s s') (hkeyed : s.TasksKeyed)
    (hattempts : s.AttemptsKeyed) :
    Unchanged s (rollbackPayout s taskId recipient (s'.clearPayoutAttempt taskId recipient)) := by
  obtain ⟨⟨t, t', ht, htasks⟩, hdeposits, hsame, hother⟩ := h.frame
  rw [rollbackPayout, ht, payoutAttempt]
  -- The attempt is put back if there was one.
  have herase : ∀ x ≠ (taskId, recipient), (s'.clearPayoutAttempt taskId recipient).payoutAttempts.lookup x =
      s.payoutAttempts.lookup x := by
    intro x hx
    rw [clearPayoutAttempt, Finmap.lookup_erase_ne hx, hsame]
  refine ⟨?_, ?_, ?_, fun pk => ?_⟩
  · have hid := hkeyed taskId t ht
    cases s.payoutAttempts.lookup (taskId, recipient) <;>
      simp only [Option.elim_none, Option.elim_some, restoreExchangeAccount, restoreReputation,
        restoreTask, restorePayoutAttempt, clearPayoutAttempt, hid, htasks, Finmap.insert_insert,
        Finmap.insert_of_lookup ht]
  · refine Finmap.ext_lookup fun x => ?_
    cases ha : s.payoutAttempts.lookup (taskId, recipient) with
    | none =>
      by_cases hx : x = (taskId, recipient)
      · rw [hx, ha]
        exact Finmap.lookup_erase _ _
      · exact herase x hx
    | some a =>
      obtain ⟨hid, hrecipient⟩ := hattempts taskId recipient a ha
      rw [Option.elim_some, restorePayoutAttempt, hid, hrecipient, Finmap.lookup_insert_eq]
      split_ifs with hx
      · rw [hx, ha]
      · exact herase x hx
  · cases s.payoutAttempts.lookup (taskId, recipient) <;> exact hdeposits
  · have hpk : ∀ b : TaskBoard, b.reputation = (s'.reputation.insert recipient
        (s.reputationOf recipient)) → b.reputationOf pk = s.reputationOf pk := by
      intro b hb
      rw [reputationOf, hb, Finmap.lookup_insert_eq]
      split_ifs with hpk
      · rw [hpk]
        rfl
      · exact hother pk hpk
    cases s.payoutAttempts.lookup (taskId, recipient) <;> exact hpk _ rfl

/-! ## Giving up -/

/-- A payout is given up: the task is failed, and its attempts are dropped. -/
structure GivenUp (taskId : Uuid) (s s' : TaskBoard) : Prop where
  task : ∃ t, s.tasks.lookup taskId = some t ∧ (t.status = .verified ∨ t.status = .submitted) ∧
    s'.tasks = s.tasks.insert taskId { t with status := .payoutFailed }
  attempts : ∀ x, s'.payoutAttempts.lookup x =
    if x.1 = taskId then none else s.payoutAttempts.lookup x
  deposits : s'.pendingDeposits = s.pendingDeposits
  reputation : s'.reputation = s.reputation

theorem mem_attempted {pk : PublicKey} :
    pk ∈ s.attempted taskId ↔ (taskId, pk) ∈ s.payoutAttempts := by
  rw [attempted, Finset.mem_ascending, Finset.mem_image]
  constructor
  · rintro ⟨⟨x, pk'⟩, hmem, rfl⟩
    obtain ⟨hmem', rfl⟩ := Finset.mem_filter.1 hmem
    exact Finmap.mem_keys.1 hmem'
  · intro h
    exact ⟨(taskId, pk), Finset.mem_filter.2 ⟨Finmap.mem_keys.2 h, rfl⟩, rfl⟩

theorem mem_payoutAttemptsForTask {a : PayoutAttempt} :
    a ∈ s.payoutAttemptsForTask taskId ↔ ∃ pk, s.payoutAttempts.lookup (taskId, pk) = some a := by
  rw [payoutAttemptsForTask, List.mem_filterMap]
  refine exists_congr fun pk => and_iff_right_of_imp fun h => ?_
  exact mem_attempted.2 (Finmap.mem_of_lookup_eq_some h)

theorem lookup_dropAttempts (x : Uuid × PublicKey) :
    (s.payoutAttempts.eraseAll ((s.attempted taskId).map fun pk => (taskId, pk))).lookup x =
      if x.1 = taskId then none else s.payoutAttempts.lookup x := by
  rw [Finmap.lookup_eraseAll]
  by_cases hx : x.1 = taskId
  · rw [if_pos hx]
    split_ifs with hmem
    · rfl
    · -- It had no attempt.
      refine Finmap.lookup_eq_none.2 fun hx' => hmem ?_
      obtain ⟨y, pk⟩ := x
      obtain rfl : y = taskId := hx
      exact List.mem_map.2 ⟨pk, mem_attempted.2 hx', rfl⟩
  · rw [if_neg hx, if_neg]
    intro hmem
    obtain ⟨pk, -, rfl⟩ := List.mem_map.1 hmem
    exact hx rfl

theorem triple_markPayoutFailed :
    Triple (· = s) (markPayoutFailed taskId)
      (fun dropped s' => GivenUp taskId s s' ∧ dropped = s.payoutAttemptsForTask taskId)
      (fun _ => (· = s)) fun _ => False := by
  refine Triple.bind (triple_onTask.conseq (fun _ => id) (fun _ _ => id) (fun _ _ h => h.1)
    fun s' h => ?_) fun _ => .get_bind fun s₁ hs₁ => ?_
  · obtain ⟨-, t, -, hf⟩ := h
    refine absurd hf (Outcome.bind_ne_panic Outcome.ensure_ne_panic fun _ _ => ?_)
    exact nofun
  · obtain ⟨t, t', ht, hf, rfl⟩ := hs₁
    obtain ⟨_, hstatus, hf⟩ := Outcome.bind_eq_ok.1 hf
    obtain ⟨-, rfl⟩ := Prod.mk.inj (Outcome.ok.inj hf)
    refine .modify_bind (.pure fun s₂ hs₂ => ?_)
    subst hs₂
    exact ⟨⟨⟨t, ht, Outcome.ensure_eq_ok.1 hstatus, rfl⟩, lookup_dropAttempts, rfl, rfl⟩, rfl⟩

/-- Attempts put back one after the other. -/
theorem restoreAll_attempts {l : List PayoutAttempt}
    (hl : ∀ a ∈ l, s.payoutAttempts.lookup (a.taskId, a.recipient) = some a)
    (hs' : ∀ x, s'.payoutAttempts.lookup x = s.payoutAttempts.lookup x ∨
      ∃ a ∈ l, (a.taskId, a.recipient) = x) :
    (l.foldl (fun b a => b.restorePayoutAttempt a) s').payoutAttempts = s.payoutAttempts := by
  induction l generalizing s' with
  | nil => exact Finmap.ext_lookup fun x => (hs' x).resolve_right (by simp)
  | cons a l ih =>
    refine ih (fun b hb => hl b (List.mem_cons_of_mem _ hb)) fun x => ?_
    simp only [restorePayoutAttempt, Finmap.lookup_insert_eq]
    split_ifs with hx
    · rw [hx, hl a List.mem_cons_self]
      exact .inl rfl
    · refine (hs' x).imp_right ?_
      rintro ⟨b, hb, hbx⟩
      rcases List.mem_cons.1 hb with rfl | hb
      · exact absurd hbx.symm hx
      · exact ⟨b, hb, hbx⟩

theorem restoreAll_frame (l : List PayoutAttempt) :
    ∃ attempts, l.foldl (fun b a => b.restorePayoutAttempt a) s' =
      { s' with payoutAttempts := attempts } := by
  induction l generalizing s' with
  | nil => exact ⟨_, rfl⟩
  | cons a l ih =>
    obtain ⟨attempts, h⟩ := @ih (s'.restorePayoutAttempt a)
    exact ⟨attempts, h⟩

theorem GivenUp.rollback (h : GivenUp taskId s s') (hkeyed : s.TasksKeyed)
    (hattempts : s.AttemptsKeyed) :
    Unchanged s ((s.payoutAttemptsForTask taskId).foldl (fun b a => b.restorePayoutAttempt a)
      ((s.tasks.lookup taskId).elim s' fun task => s'.restoreTask task)) := by
  obtain ⟨t, ht, -, htasks⟩ := h.task
  have hid := hkeyed taskId t ht
  rw [ht, Option.elim_some]
  obtain ⟨attempts, hframe⟩ :=
    @restoreAll_frame (s'.restoreTask t) (s.payoutAttemptsForTask taskId)
  refine ⟨?_, restoreAll_attempts (fun a ha => ?_) fun x => ?_, ?_, fun pk => ?_⟩
  · rw [hframe, restoreTask, hid, htasks, Finmap.insert_insert, Finmap.insert_of_lookup ht]
  · obtain ⟨pk, hpk⟩ := mem_payoutAttemptsForTask.1 ha
    obtain ⟨hx, hr⟩ := hattempts _ _ a hpk
    rw [hx, hr, hpk]
  · obtain ⟨y, pk⟩ := x
    rw [restoreTask, h.attempts]
    split_ifs with hy
    · obtain rfl : y = taskId := hy
      cases ha : s.payoutAttempts.lookup (y, pk) with
      | none => exact .inl rfl
      | some a =>
        obtain ⟨hx, hr⟩ := hattempts _ _ a ha
        exact .inr ⟨a, mem_payoutAttemptsForTask.2 ⟨pk, ha⟩, by rw [hx, hr]⟩
    · exact .inl rfl
  · rw [hframe]
    exact h.deposits
  · rw [hframe, reputationOf, reputationOf]
    exact congrArg (fun m : Finmap _ => (m.lookup pk).getD default) h.reputation

/-! ## Sending -/

/-- An attempt is recorded; the task is submitted once nothing it owes is without one. -/
theorem recordPayoutAttempt_cases (attempt : PayoutAttempt) :
    s.recordPayoutAttempt attempt = s.restorePayoutAttempt attempt ∨
      ∃ t, s.tasks.lookup attempt.taskId = some t ∧ t.status = .verified ∧
        (s.restorePayoutAttempt attempt).unsubmittedPayouts attempt.taskId = [] ∧
        s.recordPayoutAttempt attempt = { s.restorePayoutAttempt attempt with
          tasks := s.tasks.insert attempt.taskId { t with status := .submitted } } := by
  rw [recordPayoutAttempt]
  split_ifs with hne
  · exact .inl rfl
  · have hsame : ∀ tasks, tasks = s.tasks → { s.restorePayoutAttempt attempt with tasks } =
        s.restorePayoutAttempt attempt := by
      rintro _ rfl
      rfl
    cases ht : s.tasks.lookup attempt.taskId with
    | none =>
      refine .inl (hsame _ ?_)
      rw [Finmap.modify, restorePayoutAttempt, ht]
    | some t =>
      have hmodify : ∀ f : Task → Task, s.tasks.modify attempt.taskId f =
          s.tasks.insert attempt.taskId (f t) := by
        intro f
        rw [Finmap.modify, ht]
      by_cases hs : t.status = .verified
      · refine .inr ⟨t, rfl, hs, not_not.1 hne, ?_⟩
        have := hmodify fun task =>
          if task.status = .verified then { task with status := .submitted } else task
        rw [if_pos hs] at this
        exact congrArg (fun tasks => { s.restorePayoutAttempt attempt with tasks }) this
      · refine .inl (hsame _ ((hmodify _).trans ?_))
        rw [if_neg hs, Finmap.insert_of_lookup ht]

end TaskBoard

open TaskBoard

variable {s : Hub} {taskId : Uuid} {recipient : PublicKey} {amount : ℕ} {now : DateTime}
  {commits : Bool}

/-- A confirmed payout is recorded and its attempt dropped, or nothing is; or the credit
    overflows once the task is written. -/
theorem recordConfirmedPayout_cases (hkeyed : s.board.TasksKeyed)
    (hattempts : s.board.AttemptsKeyed) :
    Unchanged s.board (recordConfirmedPayout now commits taskId recipient amount s).1.board ∨
      (∃ b, Recorded taskId recipient amount now s.board b ∧
        (recordConfirmedPayout now commits taskId recipient amount s).1.board =
          b.clearPayoutAttempt taskId recipient) ∨
      (CreditOverflows s.board taskId recipient amount ∧ Marked taskId recipient now s.board
        (recordConfirmedPayout now commits taskId recipient amount s).1.board) := by
  have hend : Call.Ends _ _ _ (markRecipientPaid taskId recipient amount now s.board) :=
    triple_markRecipientPaid _ rfl
  rw [recordConfirmedPayout]
  generalize markRecipientPaid taskId recipient amount now s.board = r at hend
  obtain ⟨b, paid | error | _⟩ := r
  · have hrecorded : Recorded taskId recipient amount now s.board b := hend
    obtain ⟨⟨t, t', -, htasks⟩, -⟩ := hrecorded.frame
    have hlookup : (b.clearPayoutAttempt taskId recipient).tasks.lookup taskId = some t' := by
      rw [clearPayoutAttempt, htasks, Finmap.lookup_insert]
    simp only [hlookup]
    cases commits with
    | true => exact .inr (.inl ⟨b, hrecorded, rfl⟩)
    | false => exact .inl (hrecorded.rollback hkeyed hattempts)
  · obtain rfl : b = s.board := hend
    exact .inl (.refl _)
  · exact .inr (.inr hend)

/-- A payout is given up, or nothing is done. -/
theorem abandonPayout_cases {attempt : PayoutAttempt} (hkeyed : s.board.TasksKeyed)
    (hattempts : s.board.AttemptsKeyed) :
    Unchanged s.board (abandonPayout commits attempt s).1.board ∨
      GivenUp attempt.taskId s.board (abandonPayout commits attempt s).1.board := by
  have hend : Call.Ends _ _ _ (markPayoutFailed attempt.taskId s.board) :=
    triple_markPayoutFailed _ rfl
  rw [abandonPayout]
  generalize markPayoutFailed attempt.taskId s.board = r at hend
  obtain ⟨b, dropped | error | _⟩ := r
  · obtain ⟨hgiven, rfl⟩ : GivenUp attempt.taskId s.board b ∧
      dropped = s.board.payoutAttemptsForTask attempt.taskId := hend
    obtain ⟨t, ht, -, htasks⟩ := hgiven.task
    have hlookup : b.tasks.lookup attempt.taskId = some { t with status := .payoutFailed } := by
      rw [htasks, Finmap.lookup_insert]
    simp only [hlookup]
    cases commits with
    | true => exact .inr hgiven
    | false => exact .inl (hgiven.rollback hkeyed hattempts)
  · obtain rfl : b = s.board := hend
    exact .inl (.refl _)
  · exact hend.elim

end Itx
