import Itx.Hub.Credits
import Itx.Hub.Disclosure

/-!
# What a task reports of its bounty

A task reports how much of its bounty was seen on the chain and how much is owed
(`bounty_confirmed` and `bounty_pending` of `TaskDto`, `hub/src/handlers.rs`). Both are read
off what the task allocates, whatever its status is. A vote or a contest allocates nothing
before it is decided. But a task that one agent claims is allocated to that agent from the
claim on, so it reports its bounty as owed before anything was verified, and still does once
it is closed (`reports_claimed`).

What is reported is right of every task but those (`reporting_honest_iff`).
-/

namespace Itx

open TaskBoard

namespace Task

variable {t : Task}

/-- What the recipients who were paid were allocated. -/
def paidSum (task : Task) : ℕ :=
  ((task.allocatedPayouts.filter fun p => task.isRecipientPaid p.1).map Prod.snd).sum

/-- What the others are allocated. -/
def owedSum (task : Task) : ℕ := (task.owedPayouts.map Prod.snd).sum

/-- The task names one recipient: whoever claimed it, or won the dispute over it. -/
def NamesOne (task : Task) : Prop :=
  (∃ hash, task.kind = .hashMatch hash ∧ task.claimant.isSome) ∨
  ∃ kind, task.kind = .disputable kind ∧ kind.answers = [] ∧
    (kind.dispute = none ∧ task.claimant.isSome ∨
      ∃ d, kind.dispute = some d ∧ (d.resolution = some .challengerWins ∨
        d.resolution = some .assigneeWins ∧ task.claimant.isSome))

/-- The task names its recipient before it is settled. -/
def Premature (task : Task) : Prop := task.bounty ≠ 0 ∧ ¬ task.Settled ∧ task.NamesOne

/-! ## The totals -/

theorem paidSum_add_owedSum (t : Task) :
    t.paidSum + t.owedSum = (t.allocatedPayouts.map Prod.snd).sum := by
  rw [paidSum, owedSum, owedPayouts]
  induction t.allocatedPayouts with
  | nil => rfl
  | cons p l ih =>
    cases hp : t.isRecipientPaid p.1 with
    | false => simp [hp] at ih ⊢; omega
    | true => simp [hp] at ih ⊢; omega

theorem disputeWinner_isSome {claimant : Option PublicKey} {dispute : Option Dispute} :
    (disputeWinner claimant dispute).isSome ↔ dispute = none ∧ claimant.isSome ∨
      ∃ d, dispute = some d ∧ (d.resolution = some .challengerWins ∨
        d.resolution = some .assigneeWins ∧ claimant.isSome) := by
  cases dispute with
  | none => simp [disputeWinner]
  | some d =>
    cases hd : d.resolution with
    | none => simp [disputeWinner, hd]
    | some r => cases r <;> simp [disputeWinner, hd]

/-- Before it is settled, a task allocates its bounty to the one it names, if it does. -/
theorem Blank.sum_allocated (h : t.Blank) :
    (t.NamesOne → (t.allocatedPayouts.map Prod.snd).sum = t.bounty) ∧
    (¬ t.NamesOne → t.allocatedPayouts = []) := by
  have hsingle : ∀ winner : Option PublicKey,
      (winner.isSome → ((winner.toList.map fun pk => (pk, t.bounty)).map Prod.snd).sum = t.bounty) ∧
      (¬ winner.isSome → (winner.toList.map fun pk => (pk, t.bounty)) = []) := by
    intro winner
    cases winner <;> simp
  cases hkind : t.kind with
  | hashMatch hash =>
    have hnames : t.NamesOne ↔ t.claimant.isSome := by simp [NamesOne, hkind]
    rw [hnames, allocatedPayouts_hashMatch hkind]
    exact hsingle t.claimant
  | consensus kind =>
    have hnil : t.allocatedPayouts = [] := by
      rw [allocatedPayouts_consensus hkind, shares_eq_nil]
      intro pk _
      cases ha : kind.assignees.lookup pk with
      | none => rfl
      | some a => exact (h.consensus kind hkind pk a ha).1
    refine ⟨fun hnames => ?_, fun _ => hnil⟩
    rcases hnames with ⟨hash, hk, -⟩ | ⟨k, hk, -⟩
    · rw [hkind] at hk
      cases hk
    · rw [hkind] at hk
      cases hk
  | disputable kind =>
    by_cases hnil : kind.answers = []
    · have hnames : t.NamesOne ↔ (disputeWinner t.claimant kind.dispute).isSome := by
        rw [disputeWinner_isSome]
        simp [NamesOne, hkind, hnil]
      rw [hnames, allocatedPayouts_single hkind hnil]
      exact hsingle _
    · have hnone : t.allocatedPayouts = [] := by
        rw [allocatedPayouts_contest hkind hnil, shares_eq_nil]
        exact fun a ha => (h.contest kind hkind a ha).1
      refine ⟨fun hnames => ?_, fun _ => hnone⟩
      rcases hnames with ⟨hash, hk, -⟩ | ⟨k, hk, hanswers, -⟩
      · rw [hkind] at hk
        cases hk
      · obtain rfl := TaskKind.disputable.inj (hkind.symm.trans hk)
        exact absurd hanswers hnil

theorem paidSum_eq_zero (h : ∀ pk, ¬ t.isRecipientPaid pk) : t.paidSum = 0 := by
  rw [paidSum, List.filter_eq_nil_iff.2 fun p _ => h p.1]
  rfl

theorem exists_paid_of_paidSum (h : t.paidSum ≠ 0) :
    ∃ p ∈ t.allocatedPayouts, t.isRecipientPaid p.1 := by
  by_contra hnone
  refine h ?_
  rw [paidSum, List.filter_eq_nil_iff.2 fun p hp hpaid => hnone ⟨p, hp, hpaid⟩]
  rfl

/-- Everyone whom a paid task pays was paid. -/
theorem owedSum_of_paid (h : t.PaidUp) (hpaid : t.status = .paid) :
    t.owedSum = 0 := by
  rw [owedSum, owedPayouts, List.filter_eq_nil_iff.2 fun p hp => ?_]
  · rfl
  · simp [(h.paid_iff.1 hpaid).2 p hp]

end Task

/-! ## What is reported -/

/-- Two totals are right of a task: something is pending only while it is to be sent, on its
    way or lost; what counts as seen on the chain was credited to a recipient; both are within
    the bounty; and both are zero of a task that was not decided, or was closed. -/
structure Honest (s : TaskRun) (x : Uuid) (t : Task) (confirmed pending : ℕ) : Prop where
  owed : pending ≠ 0 → t.status ∈ [.verified, .submitted, .payoutFailed]
  credited : confirmed ≠ 0 → ∃ c ∈ s.credits, c.taskId = x ∧ t.isRecipientPaid c.recipient
  within : confirmed + pending ≤ t.bounty
  undecided : ¬ t.Settled → confirmed = 0 ∧ pending = 0

section

variable {b₀ : TaskBoard} {s : TaskRun} {x : Uuid} {t : Task}

/-- What a task reports before it is settled. -/
theorem Task.Sound.reports_unsettled (h : t.Sound) (hsettled : ¬ t.Settled) :
    t.paidSum = 0 ∧ (t.NamesOne → t.owedSum = t.bounty) ∧
      (¬ t.NamesOne → t.owedSum = 0) := by
  have hblank := h.allotted.blank hsettled
  have hstatus : t.status ≠ .paid := by
    intro hpaid
    exact hsettled (by simp [Task.Settled, hpaid])
  have hconfirmed := Task.paidSum_eq_zero (hblank.unpaid.not_isRecipientPaid hstatus)
  have hsum := Task.paidSum_add_owedSum t
  rw [hconfirmed, zero_add] at hsum
  refine ⟨hconfirmed, fun hnames => hsum.trans (hblank.sum_allocated.1 hnames), fun hnames => ?_⟩
  rw [hsum, hblank.sum_allocated.2 hnames]
  rfl

/-- What a task allocates is within its bounty, settled or not. -/
theorem Task.Sound.sum_le (h : t.Sound) : t.paidSum + t.owedSum ≤ t.bounty := by
  rw [Task.paidSum_add_owedSum]
  by_cases hsettled : t.Settled
  · exact h.allotted.within hsettled
  · obtain ⟨hnamed, hunnamed⟩ := (h.allotted.blank hsettled).sum_allocated
    by_cases hnames : t.NamesOne
    · exact (hnamed hnames).le
    · rw [hunnamed hnames]
      exact Nat.zero_le _

/-- What a settled task reports. -/
theorem Task.Sound.honest (h : t.Sound) (hs : s.Credited b₀) (ht : s.board.tasks.lookup x = some t)
    (hsettled : t.Settled) : Honest s x t t.paidSum t.owedSum where
  owed hne := by
    have hpaid : t.status ≠ .paid := fun hpaid => hne (Task.owedSum_of_paid h.paidUp hpaid)
    rw [Task.Settled] at hsettled
    simpa [hpaid] using hsettled
  credited hne := by
    obtain ⟨p, -, hpaid⟩ := Task.exists_paid_of_paidSum hne
    obtain ⟨c, hc, hx, hrecipient⟩ := hs.complete x t p.1 ht hpaid
    exact ⟨c, hc, hx, hrecipient ▸ hpaid⟩
  within := h.sum_le
  undecided hne := absurd hsettled hne

/-- **The reported money is right of a task exactly when the task does not name its recipient
    before it is settled**, in every run where no credit overflows. A task that was claimed
    names its recipient then already, and one that was closed still does. -/
theorem reporting_honest_iff (hr : (taskRuns b₀).ReachableBy TaskOp.Fits s)
    (ht : s.board.tasks.lookup x = some t) (hbounty : t.bounty < u64Bound) :
    ∃ confirmed pending, t.confirmedPayoutTotal = some confirmed ∧
      t.unconfirmedPayoutTotal = some pending ∧ (Honest s x t confirmed pending ↔ ¬ t.Premature) := by
  have hsound := (tidy_of_reachable hr).sound x t ht
  have hle := hsound.sum_le
  refine ⟨t.paidSum, t.owedSum, checkedSum_eq_some.2 ⟨rfl, ?_⟩, checkedSum_eq_some.2 ⟨rfl, ?_⟩, ?_⟩
  · exact lt_of_le_of_lt ((Nat.le_add_right _ _).trans hle) hbounty
  · exact lt_of_le_of_lt ((Nat.le_add_left _ _).trans hle) hbounty
  by_cases hsettled : t.Settled
  · exact ⟨fun _ hearly => hearly.2.1 hsettled, fun _ => hsound.honest (credited_of_reachable hr) ht hsettled⟩
  · obtain ⟨hpaid, hnamed, hunnamed⟩ := hsound.reports_unsettled hsettled
    constructor
    · intro h hearly
      exact hearly.1 ((hnamed hearly.2.2).symm.trans (h.undecided hsettled).2)
    · intro hlate
      have hzero : t.owedSum = 0 := by
        by_cases hnames : t.NamesOne
        · rw [hnamed hnames]
          by_contra hbounty
          exact hlate ⟨hbounty, hsettled, hnames⟩
        · exact hunnamed hnames
      exact
        { owed := fun hne => absurd hzero hne
          credited := fun hne => absurd hpaid hne
          within := hle
          undecided := fun _ => ⟨hpaid, hzero⟩ }

end

/-! ## A task that is only claimed -/

/-- A task that was claimed, and not worked on yet. -/
def sampleClaimed : Task :=
  { newTask 1 0 6 "" 1000 (.hashMatch 42) with
    status := .claimed, claimant := some 7, claimDeadline := some 100 }

/-- A task that an agent has only claimed reports its whole bounty as owed to the agent. -/
theorem reports_claimed : ∃ s t, (taskRuns TaskBoard.new).ReachableBy TaskOp.Fits s ∧
    s.board.tasks.lookup 1 = some t ∧ t.status = .claimed ∧ t.confirmedPayoutTotal = some 0 ∧
    t.unconfirmedPayoutTotal = some 1000 ∧ ¬ Honest s 1 t 0 1000 := by
  have hinit : (taskRuns TaskBoard.new).ReachableBy TaskOp.Fits ⟨TaskBoard.new, [], [], []⟩ :=
    .init ⟨started_new, rfl⟩
  have hcreate := reachable_after (.createTask 1 0 6 "" 1000 42) hinit (fun _ _ h => h) trivial
    Finmap.notMem_empty
  have hclaim := reachable_after (.claimTask 1 7 100) hcreate (fun _ _ h => h) trivial trivial
  refine ⟨_, sampleClaimed, hclaim, by decide, rfl, by decide, by decide, fun h => ?_⟩
  exact absurd (h.owed (by decide)) (by decide)

theorem reporting_honest_sample : ∃ confirmed pending,
    (sampleVerified 1000 1).confirmedPayoutTotal = some confirmed ∧
    (sampleVerified 1000 1).unconfirmedPayoutTotal = some pending ∧
    Honest (sampleTaskRun (sampleWork 1000 1)) 1 (sampleVerified 1000 1) confirmed pending := by
  have hr : (taskRuns TaskBoard.new).ReachableBy TaskOp.Fits (sampleTaskRun (sampleWork 1000 1)) := by
    refine reachable_work 1000 1 (.init ⟨started_new, rfl⟩) (fun _ _ _ h => h) (fun s op hop => ?_)
      Finmap.notMem_empty
    simp only [sampleWork, List.mem_cons, List.not_mem_nil, or_false] at hop
    rcases hop with rfl | rfl | rfl <;> trivial
  obtain ⟨confirmed, pending, hconfirmed, hpending, hiff⟩ :=
    reporting_honest_iff hr sampleTaskRun_verified (by decide)
  exact ⟨confirmed, pending, hconfirmed, hpending, hiff.2 fun hearly => hearly.2.1 (by decide)⟩

end Itx
