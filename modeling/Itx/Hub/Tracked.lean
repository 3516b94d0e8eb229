import Itx.Hub.Reconcile
import Itx.Hub.TaskRuns

/-!
# Submitted payouts are tracked

A task that reads `Submitted` has something to pay, and an attempt for each recipient it
has yet to pay (`Tracked`): attempts are added before the task is submitted, one is
dropped only with the payout it is for, and all of them with the task they are of.
-/

namespace Itx

namespace TaskBoard

variable {s s' : TaskBoard} {taskId : Uuid}

/-- Every task that is submitted has an attempt for each recipient it has yet to pay. -/
def Tracked (s : TaskBoard) : Prop :=
  ∀ x t, s.tasks.lookup x = some t → t.status = .submitted →
    t.pendingPayouts ≠ [] ∧ ∀ p ∈ t.pendingPayouts, (x, p.1) ∈ s.payoutAttempts

/-- Nothing is submitted by working on it, and what was stays as it is. -/
theorem Worked.tracked (h : Worked s s') (hs : s.Tracked) : s'.Tracked := by
  intro x t' ht' hstatus
  have hmem : t'.status ∈ [TaskStatus.submitted, .payoutFailed, .paid] := by
    rw [hstatus]
    decide
  cases ht : s.tasks.lookup x with
  | none =>
    obtain ⟨t, hfresh, -, hworks⟩ := h.created x t' ht' ht
    have := Task.WorksTo.status_eq hworks hmem
    rw [hfresh.status, hstatus] at this
    cases this
  | some t =>
    obtain ⟨t₁, ht₁, hworks⟩ := h.moved x t ht
    obtain rfl := Option.some.inj (ht'.symm.trans ht₁)
    have hsubmitted : t.status = .submitted := (Task.WorksTo.status_eq hworks hmem).trans hstatus
    have hsettled : t.Settled := by
      rw [Task.Settled, hsubmitted]
      decide
    obtain ⟨_, _, _, rfl⟩ := Task.WorksTo.of_settled hworks hsettled
    rw [h.attempts]
    exact hs x t ht hsubmitted

/-- One task is written, and the attempts of the others are kept. -/
theorem Tracked.write (hs : s.Tracked) {t' : Task} (htasks : s'.tasks = s.tasks.insert taskId t')
    (hattempts : ∀ x ≠ taskId, ∀ pk, (x, pk) ∈ s.payoutAttempts → (x, pk) ∈ s'.payoutAttempts)
    (ht' : t'.status = .submitted → t'.pendingPayouts ≠ [] ∧
      ∀ p ∈ t'.pendingPayouts, (taskId, p.1) ∈ s'.payoutAttempts) : s'.Tracked := by
  intro x t ht hstatus
  rw [htasks, Finmap.lookup_insert_eq] at ht
  split_ifs at ht with hx
  · obtain rfl := Option.some.inj ht
    rw [hx]
    exact ht' hstatus
  · obtain ⟨hne, hall⟩ := hs x t ht hstatus
    exact ⟨hne, fun p hp => hattempts x hx p.1 (hall p hp)⟩

theorem tracked_recordPayoutAttempt {attempt : PayoutAttempt} (hs : s.Tidy) (htracked : s.Tracked)
    (hop : ∃ t, s.tasks.lookup attempt.taskId = some t ∧ t.Settled ∧
      (attempt.recipient, attempt.amount) ∈ t.allocatedPayouts) :
    (s.recordPayoutAttempt attempt).Tracked := by
  have hadd : ∀ key, key ∈ s.payoutAttempts → key ∈ (s.restorePayoutAttempt attempt).payoutAttempts :=
    fun key hkey => Finmap.mem_insert.2 (.inr hkey)
  rcases s.recordPayoutAttempt_cases attempt with h | ⟨t, ht, hstatus, hnil, h⟩
  · rw [h]
    intro x t ht hstatus
    obtain ⟨hne, hall⟩ := htracked x t ht hstatus
    exact ⟨hne, fun p hp => hadd _ (hall p hp)⟩
  · rw [h]
    refine htracked.write rfl (fun x _ pk hx => hadd _ hx) fun _ => ?_
    have hpaid : t.status ≠ .paid := by
      rw [hstatus]
      decide
    -- What it owes is what it owed when it was verified.
    have hpending : Task.pendingPayouts { t with status := .submitted } = t.pendingPayouts := by
      rw [Task.pendingPayouts_eq (.inr rfl), Task.pendingPayouts_eq (.inl hstatus),
        Task.owedPayouts_status hpaid (by decide)]
    rw [hpending]
    constructor
    · obtain ⟨t₁, ht₁, -, hmem⟩ := hop
      obtain rfl := Option.some.inj (ht.symm.trans ht₁)
      rw [Task.pendingPayouts_eq (.inl hstatus)]
      exact (hs.sound _ t ht).paidUp.owedPayouts_ne_nil hpaid (List.ne_nil_of_mem hmem)
    · intro p hp
      by_contra hnone
      have hmem : p ∈ (s.restorePayoutAttempt attempt).unsubmittedPayouts attempt.taskId := by
        rw [unsubmittedPayouts, show (s.restorePayoutAttempt attempt).tasks = s.tasks from rfl, ht]
        exact List.mem_filter.2 ⟨hp, decide_eq_true hnone⟩
      rw [hnil] at hmem
      cases hmem

/-- A payout is recorded: those who are still owed keep their attempts. -/
theorem tracked_pay {t : Task} {recipient : PublicKey} {kind : TaskKind}
    {nowFullyPaid credited : Bool} {now : DateTime} (hs : s.Tidy) (htracked : s.Tracked)
    (ht : s.tasks.lookup taskId = some t)
    (hpay : t.payRecipient recipient = .ok (some (kind, nowFullyPaid, credited)))
    (htasks : s'.tasks = s.tasks.insert taskId (paidTask t now kind nowFullyPaid))
    (hattempts : ∀ key ∈ s.payoutAttempts, key ≠ (taskId, recipient) → key ∈ s'.payoutAttempts) :
    s'.Tracked := by
  refine htracked.write htasks (fun x hx pk hmem => hattempts _ hmem fun he => ?_) fun hsubmitted => ?_
  · exact hx (Prod.mk.inj he).1
  · -- It was submitted before, and is not fully paid.
    rw [Task.paidTask_status] at hsubmitted
    have hfull : nowFullyPaid = false := by
      cases nowFullyPaid with
      | false => rfl
      | true => cases hsubmitted
    subst hfull
    have hbefore : t.status = .submitted := hsubmitted
    have hpaid : t.status ≠ .paid := by
      rw [hbefore]
      decide
    have hsettled : t.Settled := by
      rw [Task.Settled, hbefore]
      decide
    have hsound := hs.sound taskId t ht
    have hpays := Task.pays_of_payRecipient hpay
    have hone := hpays.paysOne hpaid hsound.allotted.distinct (hsound.paidUp.ruled hsettled) now
    have hafter : (paidTask t now kind false).status = .submitted := hbefore
    rw [Task.pendingPayouts_eq (.inr hafter)]
    constructor
    · have hnot : ¬ ∀ p ∈ t.allocatedPayouts, (paidTask t now kind false).isRecipientPaid p.1 :=
        fun hall => Bool.false_ne_true (hone.full_iff.2 hall)
      push Not at hnot
      obtain ⟨p, hp, hunpaid⟩ := hnot
      refine List.ne_nil_of_mem (Task.mem_owedPayouts.2 ⟨?_, hunpaid⟩)
      rw [hpays.allocatedPayouts_eq now]
      exact hp
    · intro p hp
      obtain ⟨hmem, hunpaid⟩ := Task.mem_owedPayouts.1 hp
      rw [hpays.allocatedPayouts_eq now] at hmem
      rw [hone.paid_iff, not_or] at hunpaid
      refine hattempts _ ((htracked taskId t ht hbefore).2 p ?_) fun he => hunpaid.1 (Prod.mk.inj he).2
      rw [Task.pendingPayouts_eq (.inr hbefore)]
      exact Task.mem_owedPayouts.2 ⟨hmem, hunpaid.2⟩

theorem tracked_recordConfirmedPayout {now : DateTime} {commits : Bool} {recipient : PublicKey}
    {amount : ℕ} {store : TaskBoard} (hs : s.Tidy) (htracked : s.Tracked) :
    (recordConfirmedPayout now commits taskId recipient amount ⟨s, store⟩).1.board.Tracked := by
  rcases @recordConfirmedPayout_cases ⟨s, store⟩ taskId recipient amount now commits
    hs.keyed hs.attemptsKeyed with h | ⟨b, hb, h⟩ | ⟨-, t, _, _, _, ht, -, hpay, htasks, ha, -⟩
  · exact h.progress.worked.tracked htracked
  · rw [h]
    have hkeep : ∀ key ∈ s.payoutAttempts, key ≠ (taskId, recipient) →
        key ∈ (b.clearPayoutAttempt taskId recipient).payoutAttempts := by
      intro key hkey hne
      rw [clearPayoutAttempt, hb.frame.2.2.1]
      exact Finmap.mem_erase.2 ⟨hne, hkey⟩
    cases hb with
    | again ht _ hpay =>
      -- Whoever is paid already is owed nothing.
      refine htracked.write rfl (fun x hx pk hmem => hkeep _ hmem fun he => hx (Prod.mk.inj he).1) ?_
      intro hsubmitted
      obtain ⟨hne, hall⟩ := htracked _ _ ht hsubmitted
      refine ⟨hne, fun p hp => hkeep _ (hall p hp) fun he => ?_⟩
      rw [Task.pendingPayouts_eq (.inr hsubmitted)] at hp
      refine (Task.mem_owedPayouts.1 hp).2 ?_
      rw [(Prod.mk.inj he).2]
      exact Task.isRecipientPaid_of_again hpay
    | paid ht _ hpay => exact tracked_pay hs htracked ht hpay rfl hkeep
  · refine tracked_pay hs htracked ht hpay htasks fun key hkey _ => ?_
    rw [ha]
    exact hkey

theorem tracked_abandonPayout {commits : Bool} {attempt : PayoutAttempt} {store : TaskBoard}
    (hs : s.Tidy) (htracked : s.Tracked) :
    (abandonPayout commits attempt ⟨s, store⟩).1.board.Tracked := by
  rcases abandonPayout_cases (s := ⟨s, store⟩) hs.keyed hs.attemptsKeyed with h | h
  · exact h.progress.worked.tracked htracked
  · obtain ⟨t, ht, -, htasks⟩ := h.task
    refine htracked.write htasks (fun x hx pk hmem => ?_) fun hsubmitted => ?_
    · obtain ⟨a, ha⟩ := Finmap.mem_iff.1 hmem
      refine Finmap.mem_iff.2 ⟨a, ?_⟩
      rw [h.attempts, if_neg hx, ha]
    · cases hsubmitted

end TaskBoard

open TaskBoard

variable {s : TaskRun} {op : TaskOp} {b₀ : TaskBoard} {C : TaskRun → TaskOp → Prop}

/-- What one operation preserves. -/
theorem TaskOp.tracked (hs : s.board.Tidy) (htracked : s.board.Tracked) (hop : op.Enabled s) :
    (op.apply s.board).Tracked := by
  by_cases hsettles : op.Settles
  · cases op with
    | creditForfeitedBond recipient bondAmount =>
      rcases TaskOp.creditForfeitedBond_cases with h | h <;> rw [h]
      · exact htracked
      · exact htracked
    | recordPayoutAttempt attempt => exact tracked_recordPayoutAttempt hs htracked hop
    | recordConfirmedPayout => exact tracked_recordConfirmedPayout hs htracked
    | abandonPayout => exact tracked_abandonPayout hs htracked
    | _ => exact hsettles.elim
  · exact (TaskOp.worked hs hop hsettles).tracked htracked

theorem tracked_of_reachable (h : (taskRuns b₀).ReachableBy C s) : s.board.Tracked := by
  refine h.invariant_of (I := fun s => s.board.Tracked) (fun s => tidy_of_reachable) ?_ ?_
  · rintro _ ⟨hb, rfl⟩ x t ht hstatus
    have hlegacy := (hb.tasks x t ht).2.status
    rw [hstatus] at hlegacy
    exact absurd hlegacy (by decide)
  · rintro s op _ hs htracked - ⟨hop, rfl⟩
    rw [TaskOp.after_board]
    exact TaskOp.tracked hs htracked hop

/-- **A submitted task is tracked**, over every run: it owes something, and there is an
    attempt for each recipient it has yet to pay; nothing it owes is without one, and
    reconciling the board reports no such task. -/
theorem submitted_tracked (hr : (taskRuns b₀).Reachable s) :
    (∀ x t, s.board.tasks.lookup x = some t → t.status = .submitted →
      t.pendingPayouts ≠ [] ∧
      (∀ p ∈ t.pendingPayouts, ∃ a, s.board.payoutAttempt x p.1 = some a) ∧
      s.board.unsubmittedPayouts x = []) ∧
    ∀ f ∈ s.board.reconcile, f.kind ≠ .submittedTaskWithNoPayoutAttempt := by
  have htidy := tidy_of_reachable hr
  have htracked := tracked_of_reachable hr
  constructor
  · intro x t ht hstatus
    obtain ⟨hne, hall⟩ := htracked x t ht hstatus
    refine ⟨hne, fun p hp => Finmap.mem_iff.1 (hall p hp), ?_⟩
    rw [unsubmittedPayouts, ht]
    refine List.filter_eq_nil_iff.2 fun p hp => ?_
    simpa using hall p hp
  · refine reconcile_kind_ne fun t ht hstatus => ?_
    obtain ⟨x, hx⟩ := Finmap.mem_values.1 ht
    obtain ⟨hne, hall⟩ := htracked x t hx hstatus
    obtain ⟨p, hp⟩ := List.exists_mem_of_ne_nil _ hne
    obtain ⟨a, ha⟩ := Finmap.mem_iff.1 (hall p hp)
    rw [htidy.keyed x t hx, ← (htidy.attemptsKeyed x p.1 a ha).1]
    exact hasPayoutAttempt_of_lookup ha

/-- The sample run, once the payout is sent. -/
def sampleSent : TaskRun :=
  TaskOp.after (sampleTaskRun (sampleWork 1000 1)) (.recordPayoutAttempt (sampleAttempt 1000 1))

theorem submitted_tracked_sample : ∃ a, sampleSent.board.payoutAttempt 1 7 = some a := by
  have hr : (taskRuns TaskBoard.new).Reachable sampleSent :=
    reachable_after (.recordPayoutAttempt (sampleAttempt 1000 1)) (reachable_sample 1000 1)
      (fun _ _ => id) trivial ⟨_, sampleTaskRun_verified, List.mem_cons_self, List.mem_cons_self⟩
  exact ((submitted_tracked hr).1 1 { sampleVerified 1000 1 with status := .submitted }
    (by decide) rfl).2.1 (7, 1000) (by decide)

end Itx
