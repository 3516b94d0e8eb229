import Itx.Hub.Tracked

/-!
# Bounties are credited once

What the records of payouts credited, over a run: each recipient of a task once, with what
the task allocates it. A recipient is recorded as paid in the same call, in one of three
ways, and a call whose commit fails takes both back.

The counters of a reputation are `u64`s, and adding to one panics past its range. The task
has been written by then, and the panic does not undo it: a run where no credit overflows
(`TaskOp.Fits`) is what the theorem is about.
-/

namespace Itx

namespace Task

variable {t t' : Task}

/-- A contest whose poster did not pick: the bounty is split. -/
def IsSplit (task : Task) : Prop :=
  ∃ kind, task.kind = .disputable kind ∧ kind.answers ≠ [] ∧ kind.picked = none

/-- What a settled task keeps of its payouts. -/
structure Keeps (task task' : Task) : Prop where
  settled : task'.Settled
  allocated : task'.allocatedPayouts = task.allocatedPayouts
  paid : ∀ pk, task.isRecipientPaid pk → task'.isRecipientPaid pk
  split : task'.IsSplit → task.IsSplit

theorem Keeps.refl (h : t.Settled) : t.Keeps t := ⟨h, rfl, fun _ h => h, fun h => h⟩

theorem Keeps.trans {t'' : Task} (h : t.Keeps t') (h' : t'.Keeps t'') : t.Keeps t'' where
  settled := h'.settled
  allocated := h'.allocated.trans h.allocated
  paid pk hpk := h'.paid pk (h.paid pk hpk)
  split hs := h.split (h'.split hs)

/-- Recording a payout neither picks an answer nor takes one away. -/
theorem Pays.split {recipient : PublicKey} {kind : TaskKind} {nowFullyPaid credited : Bool}
    (h : t.Pays recipient kind nowFullyPaid credited) (now : DateTime)
    (hs : (TaskBoard.paidTask t now kind nowFullyPaid).IsSplit) : t.IsSplit := by
  obtain ⟨k, hk, hne, hpicked⟩ := hs
  rw [paidTask_kind] at hk
  subst hk
  cases h with
  | contest hkind hne' => exact ⟨_, hkind, hne', hpicked⟩
  | single hkind hnil => exact absurd hnil hne

/-- Whether a payout counts as a completed task. -/
theorem Pays.credited {recipient : PublicKey} {kind : TaskKind} {nowFullyPaid credited : Bool}
    (h : t.Pays recipient kind nowFullyPaid credited) (hs : t.IsSplit) : credited = false := by
  obtain ⟨k, hk, hne, hpicked⟩ := hs
  cases h with
  | hashMatch hkind => cases hkind.symm.trans hk
  | consensus hkind => cases hkind.symm.trans hk
  | contest hkind =>
    obtain rfl := TaskKind.disputable.inj (hkind.symm.trans hk)
    rw [hpicked]
    rfl
  | single hkind hnil =>
    obtain rfl := TaskKind.disputable.inj (hkind.symm.trans hk)
    exact absurd hnil hne

theorem Moves.keeps (h : t.Moves t') (ht : t.Sound) (hsettled : t.Settled) : t.Keeps t' := by
  refine ⟨MovesTo.settled (.single h) hsettled, h.allocatedPayouts_eq hsettled, ?_, ?_⟩
  · rcases h.settled_cases hsettled with
      ⟨_, _, _, rfl⟩ | ⟨hs, rfl⟩ | ⟨_, _, _, _, now, hs, hpay, rfl⟩ | ⟨hs, rfl⟩
    · exact fun _ h => h
    · intro pk hpk
      rwa [isRecipientPaid_status (by rw [hs]; decide) (by decide)]
    · have hne : t.status ≠ .paid := by rcases hs with hs | hs <;> rw [hs] <;> decide
      have hone := (pays_of_payRecipient hpay).paysOne hne ht.allotted.distinct
        (ht.paidUp.ruled hsettled) now
      exact fun pk hpk => (hone.paid_iff pk).2 (.inr hpk)
    · intro pk hpk
      have hne : t.status ≠ .paid := by rcases hs with hs | hs <;> rw [hs] <;> decide
      rwa [isRecipientPaid_status hne (by decide)]
  · rcases h.settled_cases hsettled with
      ⟨_, _, _, rfl⟩ | ⟨-, rfl⟩ | ⟨_, _, _, _, now, -, hpay, rfl⟩ | ⟨-, rfl⟩
    · exact fun h => h
    · exact fun h => h
    · exact (pays_of_payRecipient hpay).split now
    · exact fun h => h

theorem MovesTo.keeps (h : t.MovesTo t') (ht : t.Sound) (hsettled : t.Settled) : t.Keeps t' := by
  induction h with
  | refl => exact .refl hsettled
  | tail hmoves hmove ih =>
    exact ih.trans (hmove.keeps (MovesTo.sound hmoves ht) ih.settled)

/-- Nobody is paid by working on a task. -/
theorem WorksTo.isRecipientPaid (h : t.WorksTo t') (ht : t.Sound) {pk : PublicKey}
    (hpk : t'.isRecipientPaid pk) : t.isRecipientPaid pk := by
  induction h with
  | refl => exact hpk
  | @tail u u' hworks hwork ih =>
    refine ih ?_
    by_cases hsettled : u.Settled
    · obtain ⟨_, _, _, rfl⟩ := hwork.of_settled hsettled
      exact hpk
    · -- Settling it pays nobody.
      have hu : u.Sound := MovesTo.sound (Relation.ReflTransGen.mono (fun _ _ => .work) _ _ hworks) ht
      have hstatus : u'.status ≠ .paid := by
        intro hpaid
        refine TaskStatus.not_mem_next hsettled (Moves.work hwork).status_mem ?_
        rw [hpaid]
        decide
      exact absurd hpk (((Moves.work hwork).unpaid hu.allotted hsettled).not_isRecipientPaid hstatus pk)

end Task

open TaskBoard

/-! ## The invariant -/

/-- No credit overflows. -/
def TaskOp.Fits (s : TaskRun) : TaskOp → Prop
  | .recordConfirmedPayout _ _ taskId recipient amount _ =>
    ¬ CreditOverflows s.board taskId recipient amount
  | _ => True

namespace TaskRun

/-- What was credited to a key for its tasks, and for the bonds forfeited to it. -/
def earnedBy (s : TaskRun) (pk : PublicKey) : ℕ :=
  ((s.credits.filter fun c => c.recipient = pk).map Credit.earned).sum +
    ((s.bonds.filter fun p => p.1 = pk).map Prod.snd).sum

/-- The tasks a key was credited with. -/
def completedBy (s : TaskRun) (pk : PublicKey) : ℕ :=
  ((s.credits.filter fun c => c.recipient = pk).map Credit.completed).sum

/-- What the credits of a run say of its board. -/
structure Credited (b₀ : TaskBoard) (s : TaskRun) : Prop where
  nodup : (s.credits.map fun c => (c.taskId, c.recipient)).Nodup
  /-- A credit is for what the task allocates, to a recipient it has paid. -/
  sound : ∀ c ∈ s.credits, ∃ t, s.board.tasks.lookup c.taskId = some t ∧ t.Settled ∧
    (c.recipient, c.earned) ∈ t.allocatedPayouts ∧ t.isRecipientPaid c.recipient ∧
    c.completed ≤ 1 ∧ (t.IsSplit → c.completed = 0)
  /-- Every recipient who was paid was credited. -/
  complete : ∀ x t pk, s.board.tasks.lookup x = some t → t.isRecipientPaid pk →
    ∃ c ∈ s.credits, c.taskId = x ∧ c.recipient = pk
  /-- An attempt is for what the task allocates. -/
  recorded : ∀ a ∈ s.recorded, ∃ t, s.board.tasks.lookup a.taskId = some t ∧ t.Settled ∧
    (a.recipient, a.amount) ∈ t.allocatedPayouts
  totalEarned : ∀ pk, (s.board.reputationOf pk).totalEarned =
    (b₀.reputationOf pk).totalEarned + s.earnedBy pk
  completed : ∀ pk, (s.board.reputationOf pk).completed =
    (b₀.reputationOf pk).completed + s.completedBy pk

end TaskRun

variable {s : TaskRun} {op : TaskOp} {b₀ : TaskBoard}

/-- What a credit and an attempt say of a task is kept while the task moves along. -/
theorem TaskRun.Credited.moved (h : s.Credited b₀) (hs : s.board.Tidy) {b : TaskBoard}
    (hmoved : MovedBy Task.Moves s.board b) :
    (∀ c ∈ s.credits, ∃ t, b.tasks.lookup c.taskId = some t ∧ t.Settled ∧
      (c.recipient, c.earned) ∈ t.allocatedPayouts ∧ t.isRecipientPaid c.recipient ∧
      c.completed ≤ 1 ∧ (t.IsSplit → c.completed = 0)) ∧
    ∀ a ∈ s.recorded, ∃ t, b.tasks.lookup a.taskId = some t ∧ t.Settled ∧
      (a.recipient, a.amount) ∈ t.allocatedPayouts := by
  constructor
  · intro c hc
    obtain ⟨t, ht, hsettled, hmem, hpaid, hle, hsplit⟩ := h.sound c hc
    obtain ⟨t', ht', hmoves⟩ := hmoved.moved _ t ht
    have hkeeps := Task.MovesTo.keeps hmoves (hs.sound _ t ht) hsettled
    exact ⟨t', ht', hkeeps.settled, hkeeps.allocated ▸ hmem, hkeeps.paid _ hpaid, hle,
      fun hs => hsplit (hkeeps.split hs)⟩
  · intro a ha
    obtain ⟨t, ht, hsettled, hmem⟩ := h.recorded a ha
    obtain ⟨t', ht', hmoves⟩ := hmoved.moved _ t ht
    have hkeeps := Task.MovesTo.keeps hmoves (hs.sound _ t ht) hsettled
    exact ⟨t', ht', hkeeps.settled, hkeeps.allocated ▸ hmem⟩

/-- Where nobody is paid, nobody new is among those who were. -/
theorem TaskRun.Credited.complete_of_worked (h : s.Credited b₀) (hs : s.board.Tidy) {b : TaskBoard}
    (hworked : Worked s.board b) :
    ∀ x t pk, b.tasks.lookup x = some t → t.isRecipientPaid pk →
      ∃ c ∈ s.credits, c.taskId = x ∧ c.recipient = pk := by
  intro x t' pk ht' hpaid
  cases ht : s.board.tasks.lookup x with
  | none =>
    obtain ⟨t, hfresh, -, hworks⟩ := hworked.created x t' ht' ht
    have := Task.WorksTo.isRecipientPaid hworks hfresh.sound hpaid
    refine absurd this (hfresh.blank.unpaid.not_isRecipientPaid ?_ pk)
    rw [hfresh.status]
    decide
  | some t =>
    obtain ⟨t₁, ht₁, hworks⟩ := hworked.moved x t ht
    obtain rfl := Option.some.inj (ht'.symm.trans ht₁)
    exact h.complete x t pk ht (Task.WorksTo.isRecipientPaid hworks (hs.sound x t ht) hpaid)

theorem TaskRun.Credited.of_worked (h : s.Credited b₀) (hs : s.board.Tidy) {b : TaskBoard}
    (hworked : Worked s.board b) : TaskRun.Credited b₀ { s with board := b } where
  nodup := h.nodup
  sound := (h.moved hs hworked.moved').1
  complete := h.complete_of_worked hs hworked
  recorded := (h.moved hs hworked.moved').2
  totalEarned pk := (hworked.totalEarned pk).trans (h.totalEarned pk)
  completed pk := (hworked.completed pk).trans (h.completed pk)

/-- A forfeited bond adds to what its recipient earned, and to nothing else. -/
theorem TaskOp.creditForfeitedBond_frame (recipient : PublicKey) (bondAmount : ℕ) (b : TaskBoard) :
    ((TaskOp.creditForfeitedBond recipient bondAmount).apply b).tasks = b.tasks ∧
    (∀ pk, (((TaskOp.creditForfeitedBond recipient bondAmount).apply b).reputationOf pk).completed =
      (b.reputationOf pk).completed) ∧
    (∀ pk ≠ recipient, (((TaskOp.creditForfeitedBond recipient bondAmount).apply
      b).reputationOf pk).totalEarned = (b.reputationOf pk).totalEarned) ∧
    (b.reputationOf recipient).totalEarned ≤ (((TaskOp.creditForfeitedBond recipient
      bondAmount).apply b).reputationOf recipient).totalEarned := by
  rcases @TaskOp.creditForfeitedBond_cases recipient bondAmount b with h | h
  · rw [h]
    exact ⟨rfl, fun _ => rfl, fun _ _ => rfl, le_rfl⟩
  · rw [h]
    refine ⟨rfl, fun pk => ?_, fun pk hpk => ?_, ?_⟩
    · rw [reputationOf_restoreReputation]
      split_ifs with hpk
      · rw [hpk]
      · rfl
    · rw [reputationOf_restoreReputation, if_neg hpk]
    · rw [reputationOf_restoreReputation, if_pos rfl]
      exact Nat.le_add_right _ _

theorem TaskRun.Credited.bond (h : s.Credited b₀) (recipient : PublicKey) (bondAmount : ℕ) :
    TaskRun.Credited b₀ (TaskOp.after s (.creditForfeitedBond recipient bondAmount)) := by
  obtain ⟨htasks, hcompleted, hother, hle⟩ :=
    TaskOp.creditForfeitedBond_frame recipient bondAmount s.board
  refine ⟨h.nodup, ?_, ?_, ?_, fun pk => ?_, fun pk => ?_⟩
  · rw [TaskOp.after_board, htasks]
    exact h.sound
  · rw [TaskOp.after_board, htasks]
    exact h.complete
  · rw [TaskOp.after_board, htasks]
    exact h.recorded
  · simp only [TaskOp.after, TaskRun.earnedBy, List.filter_cons]
    have hpk := h.totalEarned pk
    rw [TaskRun.earnedBy] at hpk
    by_cases hr : recipient = pk
    · subst hr
      simp only [decide_true, if_true, List.map_cons, List.sum_cons]
      omega
    · simp only [hr, decide_false, Bool.false_eq_true, if_false]
      rw [hother pk (Ne.symm hr)]
      exact hpk
  · exact (hcompleted pk).trans (h.completed pk)

/-! ## Recording -/

/-- A payout is recorded for the first time: what it credits. -/
theorem creditOf_paid {b b' : TaskBoard} {taskId : Uuid} {recipient : PublicKey} {amount : ℕ}
    {credited : Bool} (hne : b'.tasks.lookup taskId ≠ b.tasks.lookup taskId)
    (hrep : b'.reputationOf recipient = (b.reputationOf recipient).credit credited amount) :
    creditOf b b' taskId recipient =
      some { taskId, recipient, earned := amount, completed := credited.toNat } := by
  rw [creditOf, if_neg hne, hrep, Reputation.credit, Nat.add_sub_cancel_left, Nat.add_sub_cancel_left]

theorem TaskRun.Credited.pay (h : s.Credited b₀) (hs : s.board.Tidy) {taskId : Uuid}
    {recipient : PublicKey} {amount : ℕ} {now : DateTime} {t : Task} {kind : TaskKind}
    {nowFullyPaid credited : Bool}
    (hamount : ∃ a ∈ s.recorded, a.taskId = taskId ∧ a.recipient = recipient ∧ a.amount = amount)
    (ht : s.board.tasks.lookup taskId = some t)
    (hstatus : t.status = .verified ∨ t.status = .submitted)
    (hpay : t.payRecipient recipient = .ok (some (kind, nowFullyPaid, credited))) {b : TaskBoard}
    (htasks : b.tasks = s.board.tasks.insert taskId (paidTask t now kind nowFullyPaid))
    (hrep : b.reputation = s.board.reputation.insert recipient
      ((s.board.reputationOf recipient).credit credited amount)) :
    TaskRun.Credited b₀ { s with
      board := b, credits := (creditOf s.board b taskId recipient).toList ++ s.credits } := by
  have hsettled : t.Settled := by
    rcases hstatus with hs | hs <;> rw [Task.Settled, hs] <;> decide
  have hne : t.status ≠ .paid := by rcases hstatus with hs | hs <;> rw [hs] <;> decide
  have hsound := hs.sound taskId t ht
  have hpays := Task.pays_of_payRecipient hpay
  have hone := hpays.paysOne hne hsound.allotted.distinct (hsound.paidUp.ruled hsettled) now
  have hlookup : b.tasks.lookup taskId = some (paidTask t now kind nowFullyPaid) := by
    rw [htasks, Finmap.lookup_insert]
  -- The call credits, as it changes the task.
  have hreputation : ∀ pk, b.reputationOf pk = if pk = recipient
      then (s.board.reputationOf recipient).credit credited amount else s.board.reputationOf pk := by
    intro pk
    rw [reputationOf, hrep, Finmap.lookup_insert_eq]
    split_ifs <;> rfl
  have hchanged : b.tasks.lookup taskId ≠ s.board.tasks.lookup taskId := by
    intro heq
    rw [hlookup, ht, Option.some.injEq] at heq
    exact hone.unpaid (heq ▸ (hone.paid_iff recipient).2 (.inl rfl))
  have hcredit := creditOf_paid hchanged ((hreputation recipient).trans (if_pos rfl))
  -- What is confirmed is what the task allocates.
  have hmem : (recipient, amount) ∈ t.allocatedPayouts := by
    obtain ⟨a, ha, rfl, rfl, rfl⟩ := hamount
    obtain ⟨t₁, ht₁, -, hmem⟩ := h.recorded a ha
    obtain rfl := Option.some.inj (ht.symm.trans ht₁)
    exact hmem
  have hnew : ∀ c ∈ s.credits, (c.taskId, c.recipient) ≠ (taskId, recipient) := by
    intro c hc he
    obtain ⟨rfl, rfl⟩ := Prod.mk.inj he
    obtain ⟨t₁, ht₁, -, -, hpaid, -⟩ := h.sound c hc
    obtain rfl := Option.some.inj (ht.symm.trans ht₁)
    exact hone.unpaid hpaid
  have hmoved : MovedBy Task.Moves s.board b :=
    .write ht (.single (.pay now hstatus hpay)) htasks
  have hkeeps := (Task.Moves.pay now hstatus hpay).keeps hsound hsettled
  rw [hcredit]
  refine ⟨?_, ?_, fun x t' pk ht' hpaid => ?_, (h.moved hs hmoved).2, fun pk => ?_, fun pk => ?_⟩
  · refine List.nodup_cons.2 ⟨fun hin => ?_, h.nodup⟩
    obtain ⟨c, hc, he⟩ := List.mem_map.1 hin
    exact hnew c hc he
  · intro c hc
    rcases List.mem_cons.1 hc with rfl | hc
    · refine ⟨_, hlookup, hkeeps.settled, hkeeps.allocated ▸ hmem,
        (hone.paid_iff recipient).2 (.inl rfl), Bool.toNat_le credited, fun hsplit => ?_⟩
      rw [hpays.credited (hkeeps.split hsplit)]
      rfl
    · exact (h.moved hs hmoved).1 c hc
  · rw [htasks, Finmap.lookup_insert_eq] at ht'
    split_ifs at ht' with hx
    · obtain rfl := Option.some.inj ht'
      rcases (hone.paid_iff pk).1 hpaid with rfl | hpaid
      · exact ⟨_, List.mem_cons_self, hx.symm, rfl⟩
      · obtain ⟨c, hc, hcid, hcpk⟩ := h.complete taskId t pk ht hpaid
        exact ⟨c, List.mem_cons_of_mem _ hc, hcid.trans hx.symm, hcpk⟩
    · obtain ⟨c, hc, hcid, hcpk⟩ := h.complete x t' pk ht' hpaid
      exact ⟨c, List.mem_cons_of_mem _ hc, hcid, hcpk⟩
  · have hpk := h.totalEarned pk
    simp only [TaskRun.earnedBy, Option.toList_some, List.singleton_append, List.filter_cons,
      hreputation] at hpk ⊢
    by_cases hr : pk = recipient
    · subst hr
      simp only [decide_true, if_true, List.map_cons, List.sum_cons, Reputation.credit]
      omega
    · simp only [hr, Ne.symm hr, decide_false, Bool.false_eq_true, if_false]
      exact hpk
  · have hpk := h.completed pk
    simp only [TaskRun.completedBy, Option.toList_some, List.singleton_append, List.filter_cons,
      hreputation] at hpk ⊢
    by_cases hr : pk = recipient
    · subst hr
      simp only [decide_true, if_true, List.map_cons, List.sum_cons, Reputation.credit]
      omega
    · simp only [hr, Ne.symm hr, decide_false, Bool.false_eq_true, if_false]
      exact hpk

/-- A task is submitted, or given up. -/
theorem TaskRun.Credited.of_status (h : s.Credited b₀) (hs : s.board.Tidy) {b : TaskBoard}
    {taskId : Uuid} {t : Task} {status : TaskStatus} (ht : s.board.tasks.lookup taskId = some t)
    (hne : t.status ≠ .paid) (hne' : status ≠ .paid) (hmove : t.Moves { t with status })
    (htasks : b.tasks = s.board.tasks.insert taskId { t with status })
    (hrep : b.reputation = s.board.reputation) : TaskRun.Credited b₀ { s with board := b } := by
  have hmoved : MovedBy Task.Moves s.board b := .write ht (.single hmove) htasks
  have hreputation : ∀ pk, b.reputationOf pk = s.board.reputationOf pk := fun pk => by
    rw [reputationOf, hrep]
    rfl
  refine ⟨h.nodup, (h.moved hs hmoved).1, fun x t' pk ht' hpaid => ?_, (h.moved hs hmoved).2,
    fun pk => ?_, fun pk => ?_⟩
  · rw [htasks, Finmap.lookup_insert_eq] at ht'
    split_ifs at ht' with hx
    · obtain rfl := Option.some.inj ht'
      rw [Task.isRecipientPaid_status hne hne'] at hpaid
      exact h.complete x t pk (hx ▸ ht) hpaid
    · exact h.complete x t' pk ht' hpaid
  · rw [hreputation]
    exact h.totalEarned pk
  · rw [hreputation]
    exact h.completed pk

theorem TaskRun.Credited.recordAttempt (h : s.Credited b₀) (hs : s.board.Tidy)
    {attempt : PayoutAttempt} (hop : (TaskOp.recordPayoutAttempt attempt).Enabled s) :
    TaskRun.Credited b₀ (TaskOp.after s (.recordPayoutAttempt attempt)) := by
  have hboard : TaskRun.Credited b₀ { s with board := s.board.recordPayoutAttempt attempt } := by
    rcases s.board.recordPayoutAttempt_cases attempt with he | ⟨t, ht, hstatus, -, he⟩
    · rw [he]
      exact ⟨h.nodup, h.sound, h.complete, h.recorded, h.totalEarned, h.completed⟩
    · rw [he]
      exact h.of_status hs ht (by rw [hstatus]; decide) (by decide) (.submitted hstatus) rfl rfl
  refine ⟨hboard.nodup, hboard.sound, hboard.complete, fun a ha => ?_, hboard.totalEarned,
    hboard.completed⟩
  rcases List.mem_cons.1 ha with rfl | ha
  · obtain ⟨t, ht, hsettled, hmem⟩ := hop
    obtain ⟨t', ht', hmoves⟩ := (moved_recordPayoutAttempt a).moved _ t ht
    have hkeeps := Task.MovesTo.keeps hmoves (hs.sound _ t ht) hsettled
    exact ⟨t', ht', hkeeps.settled, hkeeps.allocated ▸ hmem⟩
  · exact hboard.recorded a ha

theorem TaskRun.Credited.confirm (h : s.Credited b₀) (hs : s.board.Tidy) {now : DateTime}
    {commits : Bool} {taskId : Uuid} {recipient : PublicKey} {amount : ℕ} {store : TaskBoard}
    (hop : (TaskOp.recordConfirmedPayout now commits taskId recipient amount store).Enabled s)
    (hfits : ¬ CreditOverflows s.board taskId recipient amount) :
    TaskRun.Credited b₀
      (TaskOp.after s (.recordConfirmedPayout now commits taskId recipient amount store)) := by
  -- Where the task is as it was, nothing is credited.
  have hsame : ∀ b : TaskBoard, b.tasks = s.board.tasks →
      (creditOf s.board b taskId recipient).toList ++ s.credits = s.credits := by
    intro b hb
    rw [creditOf, if_pos (by rw [hb])]
    rfl
  rw [TaskOp.after]
  rcases @recordConfirmedPayout_cases ⟨s.board, store⟩ taskId recipient amount now commits
    hs.keyed hs.attemptsKeyed with he | ⟨b, hb, he⟩ | ⟨hoverflow, -⟩
  · have hcredits := hsame _ he.tasks
    simp only [TaskOp.apply, hcredits]
    exact h.of_worked hs he.progress.worked
  · simp only [TaskOp.apply, he]
    cases hb with
    | again ht _ hpay =>
      have htasks := Finmap.insert_of_lookup ht
      rw [hsame _ htasks]
      refine ⟨h.nodup, ?_, ?_, ?_, h.totalEarned, h.completed⟩
      · exact htasks.symm ▸ h.sound
      · exact htasks.symm ▸ h.complete
      · exact htasks.symm ▸ h.recorded
    | paid ht hstatus hpay => exact h.pay hs hop ht hstatus hpay rfl rfl
  · exact absurd hoverflow hfits

/-- What one operation preserves, as long as no credit overflows. -/
theorem TaskOp.credited (hs : s.board.Tidy) (h : s.Credited b₀) (hop : op.Enabled s)
    (hfits : op.Fits s) : TaskRun.Credited b₀ (op.after s) := by
  by_cases hsettles : op.Settles
  · cases op with
    | creditForfeitedBond recipient bondAmount => exact h.bond recipient bondAmount
    | recordPayoutAttempt attempt => exact h.recordAttempt hs hop
    | recordConfirmedPayout => exact h.confirm hs hop hfits
    | abandonPayout commits attempt store =>
      rcases abandonPayout_cases (s := ⟨s.board, store⟩) hs.keyed hs.attemptsKeyed with he | he
      · exact h.of_worked hs he.progress.worked
      · obtain ⟨t, ht, hstatus, htasks⟩ := he.task
        have hne : t.status ≠ .paid := by rcases hstatus with hs | hs <;> rw [hs] <;> decide
        exact h.of_status hs ht hne (by decide) (.fail hstatus) htasks he.reputation
    | _ => exact hsettles.elim
  · have hafter : op.after s = { s with board := op.apply s.board } := by
      cases op <;> first | rfl | exact absurd trivial hsettles
    rw [hafter]
    exact h.of_worked hs (TaskOp.worked hs hop hsettles)

theorem credited_of_reachable (h : (taskRuns b₀).ReachableBy TaskOp.Fits s) : s.Credited b₀ := by
  refine h.invariant_of (I := TaskRun.Credited b₀) (fun s => tidy_of_reachable) ?_ ?_
  · rintro _ ⟨hb, rfl⟩
    refine ⟨List.nodup_nil, by simp, fun x t pk ht hpaid => ?_, by simp, fun _ => rfl, fun _ => rfl⟩
    -- Nobody was paid by a task of before there were contests.
    have hlegacy := (hb.tasks x t ht).2
    have hstatus : t.status ∉ [TaskStatus.verified, .submitted, .payoutFailed, .paid] := by
      have := hlegacy.status
      cases hs : t.status <;> simp_all
    refine absurd hpaid ((hlegacy.sound.allotted.blank hstatus).unpaid.not_isRecipientPaid ?_ pk)
    intro hpaid'
    exact hstatus (by simp [hpaid'])
  · rintro s op _ hs h hfits ⟨hop, rfl⟩
    exact TaskOp.credited hs h hop hfits

/-- Distinct recipients of a task are paid no more than it allocates. -/
theorem sum_earned_le {credits : List Credit} {allocated : List (PublicKey × ℕ)} {x : Uuid}
    (hnodup : (credits.map fun c => (c.taskId, c.recipient)).Nodup)
    (hmem : ∀ c ∈ credits, c.taskId = x → (c.recipient, c.earned) ∈ allocated) :
    ((credits.filter fun c => c.taskId = x).map Credit.earned).sum ≤
      (allocated.map Prod.snd).sum := by
  have hsubset : ((credits.filter fun c => c.taskId = x).map fun c => (c.recipient, c.earned)) ⊆
      allocated := by
    intro p hp
    obtain ⟨c, hc, rfl⟩ := List.mem_map.1 hp
    obtain ⟨hc, hx⟩ := List.mem_filter.1 hc
    exact hmem c hc (of_decide_eq_true hx)
  have hnodup' : ((credits.filter fun c => c.taskId = x).map fun c =>
      (c.recipient, c.earned)).Nodup := by
    refine List.Nodup.of_map Prod.fst ?_
    rw [List.map_map]
    refine List.Nodup.map_on (fun c hc c' hc' he => ?_) (hnodup.of_map.filter _)
    have hc := List.mem_filter.1 hc
    have hc' := List.mem_filter.1 hc'
    refine List.inj_on_of_nodup_map hnodup hc.1 hc'.1 (Prod.ext ?_ he)
    exact (of_decide_eq_true hc.2).trans (of_decide_eq_true hc'.2).symm
  obtain ⟨l, hperm, hsub⟩ := List.subperm_of_subset hnodup' hsubset
  calc ((credits.filter fun c => c.taskId = x).map Credit.earned).sum
      = (((credits.filter fun c => c.taskId = x).map fun c =>
          (c.recipient, c.earned)).map Prod.snd).sum := by rw [List.map_map]; rfl
    _ = (l.map Prod.snd).sum := ((hperm.map Prod.snd).sum_eq).symm
    _ ≤ (allocated.map Prod.snd).sum := (hsub.map Prod.snd).sum_le_sum (fun _ _ => Nat.zero_le _)

/-- **Bounties are credited once**, in every run where no credit overflows: each recipient
    of a task at most once, with exactly what the task allocates it, within the bounty in
    all; it counts as completed at most once, and never for a share of a split contest. A
    task is paid when it pays someone and all of them were credited. Nothing but these
    credits, and the bonds forfeited to a key, adds to what it earned and completed. -/
theorem bounties_credited_once (hr : (taskRuns b₀).ReachableBy TaskOp.Fits s) :
    (s.credits.map fun c => (c.taskId, c.recipient)).Nodup ∧
    (∀ c ∈ s.credits, ∃ t, s.board.tasks.lookup c.taskId = some t ∧
      (∀ amount, (c.recipient, amount) ∈ t.allocatedPayouts ↔ amount = c.earned) ∧
      c.completed ≤ 1 ∧ (t.IsSplit → c.completed = 0)) ∧
    (∀ x t, s.board.tasks.lookup x = some t →
      ((s.credits.filter fun c => c.taskId = x).map Credit.earned).sum ≤ t.bounty ∧
      (t.status = .paid ↔ t.allocatedPayouts ≠ [] ∧
        ∀ p ∈ t.allocatedPayouts, ∃ c ∈ s.credits, c.taskId = x ∧ c.recipient = p.1)) ∧
    ∀ pk, (s.board.reputationOf pk).totalEarned =
        (b₀.reputationOf pk).totalEarned + s.earnedBy pk ∧
      (s.board.reputationOf pk).completed = (b₀.reputationOf pk).completed + s.completedBy pk := by
  have htidy := tidy_of_reachable hr
  have h := credited_of_reachable hr
  refine ⟨h.nodup, fun c hc => ?_, fun x t ht => ⟨?_, ?_⟩, fun pk => ⟨h.totalEarned pk, h.completed pk⟩⟩
  · obtain ⟨t, ht, -, hmem, -, hle, hsplit⟩ := h.sound c hc
    refine ⟨t, ht, fun amount => ⟨fun hamount => ?_, fun he => he ▸ hmem⟩, hle, hsplit⟩
    -- The recipients of a task are distinct.
    have hnodup := (htidy.sound _ t ht).allotted.distinct.nodup
    exact (Prod.mk.inj (List.inj_on_of_nodup_map hnodup hamount hmem rfl)).2
  · by_cases hsettled : t.Settled
    · refine (sum_earned_le h.nodup fun c hc hx => ?_).trans
        ((htidy.sound x t ht).allotted.within hsettled)
      obtain ⟨t₁, ht₁, -, hmem, -⟩ := h.sound c hc
      rw [hx] at ht₁
      obtain rfl := Option.some.inj (ht.symm.trans ht₁)
      exact hmem
    · rw [List.filter_eq_nil_iff.2 fun c hc hx => hsettled ?_]
      · exact Nat.zero_le _
      · obtain ⟨t₁, ht₁, hsettled₁, -⟩ := h.sound c hc
        rw [of_decide_eq_true hx] at ht₁
        obtain rfl := Option.some.inj (ht.symm.trans ht₁)
        exact hsettled₁
  · rw [(htidy.sound x t ht).paidUp.paid_iff]
    refine and_congr_right fun _ => forall₂_congr fun p hp => ⟨h.complete x t p.1 ht, ?_⟩
    rintro ⟨c, hc, rfl, hcpk⟩
    obtain ⟨t₁, ht₁, -, -, hpaid, -⟩ := h.sound c hc
    obtain rfl := Option.some.inj (ht.symm.trans ht₁)
    exact hcpk ▸ hpaid

/-- The sample task is paid, and its worker credited. -/
theorem bounties_credited_once_sample :
    ((sampleTaskRun (sampleWork 1000 1 ++ samplePay 1000 1)).board.reputationOf 7).totalEarned =
      (TaskBoard.new.reputationOf 7).totalEarned +
        (sampleTaskRun (sampleWork 1000 1 ++ samplePay 1000 1)).earnedBy 7 := by
  have hwork : (taskRuns TaskBoard.new).ReachableBy TaskOp.Fits
      (sampleTaskRun (sampleWork 1000 1)) := by
    refine reachable_work 1000 1 (.init ⟨started_new, rfl⟩) (fun _ _ _ => id) (fun s op hop => ?_)
      Finmap.notMem_empty
    rcases List.mem_cons.1 hop with rfl | hop
    · trivial
    · rcases List.mem_cons.1 hop with rfl | hop
      · trivial
      · rw [List.mem_singleton.1 hop]
        trivial
  have hsent := reachable_after (.recordPayoutAttempt (sampleAttempt 1000 1)) hwork
    (fun _ _ => id) trivial ⟨_, sampleTaskRun_verified, List.mem_cons_self, List.mem_cons_self⟩
  have hfits : TaskOp.Fits (TaskOp.after (sampleTaskRun (sampleWork 1000 1))
      (.recordPayoutAttempt (sampleAttempt 1000 1)))
      (.recordConfirmedPayout 200 true 1 7 1000 TaskBoard.new) := by
    rintro ⟨_, _, _, _, -, -, -, ⟨-, h⟩ | h⟩
    · exact absurd h (by decide)
    · exact absurd h (by decide)
  have hr := reachable_after (.recordConfirmedPayout 200 true 1 7 1000 TaskBoard.new) hsent
    (fun _ _ => id) hfits ⟨sampleAttempt 1000 1, List.mem_cons_self, rfl, rfl, rfl⟩
  exact ((bounties_credited_once hr).2.2.2 7).1

/-! ## A long history -/

theorem onTask_of_ok {α : Type} {b : TaskBoard} {id : Uuid} {t t' : Task} {a : α}
    {f : TaskBoard → Task → Outcome BoardError (α × Task)} (ht : b.tasks.lookup id = some t)
    (hf : f b t = .ok (a, t')) :
    onTask id f b = ({ b with tasks := b.tasks.insert id t' }, .ok a) := by
  simp only [onTask, bind, Call.bind, Call.get, Call.lift, ht, Outcome.okOr, hf, Call.modify]
  rfl

section

variable {s : TaskRun} {b : TaskBoard} {x : Uuid} {bounty n : ℕ} {t : Task}

/-- Working at a task verifies it, whatever was worked at before. -/
theorem sampleWork_board (s : TaskRun) (x : Uuid) (bounty : ℕ) :
    ∃ tasks, ((sampleWork bounty x).foldl TaskOp.after s).board = { s.board with tasks } ∧
      tasks.lookup x = some (sampleVerified bounty x) ∧ ∀ y ≠ x, y ∉ s.board.tasks → y ∉ tasks := by
  let new := newTask x 0 6 "" bounty (.hashMatch 42)
  let claimed := { new with status := .claimed, claimant := some 7, claimDeadline := some 100 }
  refine ⟨((s.board.tasks.insert x new).insert x claimed).insert x (sampleVerified bounty x), ?_,
    Finmap.lookup_insert _, fun y hy hmem => ?_⟩
  · have hclaim : ∀ b : TaskBoard, b.tasks.lookup x = some new →
        (claimTask x 7 100 b).1 = { b with tasks := b.tasks.insert x claimed } := by
      intro b hb
      rw [claimTask, onTask_of_ok hb]
      rfl
    have hsubmit : ∀ b : TaskBoard, b.tasks.lookup x = some claimed →
        (submit x 7 42 b).1 = { b with tasks := b.tasks.insert x (sampleVerified bounty x) } := by
      intro b hb
      rw [submit]
      simp only [bind, Call.bind]
      rw [onTask_of_ok hb rfl]
      rfl
    change (submit x 7 42 (claimTask x 7 100 (s.board.restoreTask new)).1).1 = _
    rw [hclaim _ (Finmap.lookup_insert _), hsubmit _ (Finmap.lookup_insert _)]
    rfl
  · simp only [Finmap.mem_insert, hy, hmem, or_self, not_false_eq_true]

/-- The task is written first, then its recipient credited. -/
theorem markRecipientPaid_of_lookup (amount : ℕ) (now : DateTime) (ht : b.tasks.lookup x = some t)
    (hstatus : t.status = .verified ∨ t.status = .submitted) (hkind : t.kind = .hashMatch 42)
    (hclaimant : t.claimant = some 7) :
    markRecipientPaid x 7 amount now b =
      (do addCompleted 7; addEarned 7 amount; pure true : BoardCall Bool)
        { b with tasks := b.tasks.insert x (paidTask t now (.hashMatch 42) true) } := by
  have hpay : t.payRecipient 7 = .ok (some (.hashMatch 42, true, true)) := by
    rw [Task.payRecipient, hkind]
    dsimp only
    rw [hclaimant]
    rfl
  have hf : (do
      Outcome.ensure (t.status = .verified ∨ t.status = .submitted) .notVerified
      let paid ← t.payRecipient 7
      pure (paid.map Prod.snd, paid.elim t fun p => paidTask t now p.1 p.2.1) :
        Outcome BoardError (Option (Bool × Bool) × Task)) =
      .ok (some (true, true), paidTask t now (.hashMatch 42) true) := by
    rw [Outcome.ensure, if_pos hstatus, hpay]
    rfl
  rw [markRecipientPaid]
  simp only [bind, Call.bind]
  rw [onTask_of_ok ht hf]
  rfl

theorem addCompleted_addEarned_eq (amount : ℕ)
    (hcompleted : (b.reputationOf 7).completed + 1 < u64Bound) :
    (do addCompleted 7; addEarned 7 amount; pure true : BoardCall Bool) b =
      if (b.reputationOf 7).totalEarned + amount < u64Bound then
        (b.restoreReputation 7 ((b.reputationOf 7).credit true amount), .ok true)
      else (b.restoreReputation 7 ((b.reputationOf 7).credit true 0), .panic) := by
  have hcompleted' : checkedAdd (b.reputationOf 7).completed 1 =
      some ((b.reputationOf 7).completed + 1) := checkedAdd_eq_some.2 ⟨rfl, hcompleted⟩
  simp only [bind, Call.bind, addCompleted, addEarned, Call.get, Call.lift, hcompleted',
    Outcome.expect, Call.modify, reputationOf_restoreReputation, if_true]
  split_ifs with hfits
  · have hearned : checkedAdd (b.reputationOf 7).totalEarned amount =
        some ((b.reputationOf 7).totalEarned + amount) := checkedAdd_eq_some.2 ⟨rfl, hfits⟩
    simp only [hearned, restoreReputation, Finmap.insert_insert]
    rfl
  · have hearned : checkedAdd (b.reputationOf 7).totalEarned amount = none :=
      checked_eq_none.2 (not_lt.1 hfits)
    simp only [hearned]
    rfl

theorem sampleSent_board (ht : b.tasks.lookup x = some (sampleVerified bounty x)) :
    ∃ status : TaskStatus, (status = .verified ∨ status = .submitted) ∧
      (b.recordPayoutAttempt (sampleAttempt bounty x)).tasks.lookup x =
        some { sampleVerified bounty x with status } ∧
      (b.recordPayoutAttempt (sampleAttempt bounty x)).reputationOf 7 = b.reputationOf 7 ∧
      ∀ y ≠ x, y ∉ b.tasks → y ∉ (b.recordPayoutAttempt (sampleAttempt bounty x)).tasks := by
  rcases b.recordPayoutAttempt_cases (sampleAttempt bounty x) with h | ⟨t, ht', -, -, h⟩
  · rw [h]
    exact ⟨.verified, .inl rfl, ht, rfl, fun y _ hy => hy⟩
  · obtain rfl := Option.some.inj (ht.symm.trans ht')
    rw [h]
    refine ⟨.submitted, .inr rfl, Finmap.lookup_insert _, rfl, fun y hne hy hmem => ?_⟩
    exact (Finmap.mem_insert.1 hmem).elim hne hy

/-- A task that was worked at is paid, and its recipient credited if the credit fits. -/
theorem samplePay_board (ht : s.board.tasks.lookup x = some (sampleVerified bounty x))
    (hcompleted : (s.board.reputationOf 7).completed + 1 < u64Bound) :
    let b := ((samplePay bounty x).foldl TaskOp.after s).board
    (∃ t, b.tasks.lookup x = some t ∧ t.status = .paid ∧ t.allocatedPayouts = [(7, bounty)]) ∧
      (∀ y ≠ x, y ∉ s.board.tasks → y ∉ b.tasks) ∧
      b.reputationOf 7 = (s.board.reputationOf 7).credit true
        (if (s.board.reputationOf 7).totalEarned + bounty < u64Bound then bounty else 0) := by
  obtain ⟨status, hstatus, ht', hrep, hfresh⟩ := sampleSent_board ht
  let sent := s.board.recordPayoutAttempt (sampleAttempt bounty x)
  let paid : TaskBoard := { sent with
    tasks := sent.tasks.insert x
      (paidTask { sampleVerified bounty x with status } 200 (.hashMatch 42) true) }
  have hpaid : paid.reputationOf 7 = s.board.reputationOf 7 := hrep
  have hmark := markRecipientPaid_of_lookup bounty 200 ht' hstatus rfl rfl
  have hpaid' : (paid.reputationOf 7).completed + 1 < u64Bound := by
    rw [hpaid]
    exact hcompleted
  rw [addCompleted_addEarned_eq bounty hpaid', hpaid] at hmark
  have hboard : ∃ attempts, ((samplePay bounty x).foldl TaskOp.after s).board =
      { paid.restoreReputation 7 ((s.board.reputationOf 7).credit true
        (if (s.board.reputationOf 7).totalEarned + bounty < u64Bound then bounty else 0)) with
        payoutAttempts := attempts } := by
    change ∃ attempts, (recordConfirmedPayout 200 true x 7 bounty ⟨sent, TaskBoard.new⟩).1.board = _
    rw [recordConfirmedPayout]
    dsimp only
    by_cases hfits : (s.board.reputationOf 7).totalEarned + bounty < u64Bound
    · have hlookup : ∀ r, ((paid.restoreReputation 7 r).clearPayoutAttempt x 7).tasks.lookup x =
          some (paidTask { sampleVerified bounty x with status } 200 (.hashMatch 42) true) := fun r =>
        Finmap.lookup_insert _
      rw [if_pos hfits] at hmark
      rw [hmark, if_pos hfits]
      dsimp only
      rw [hlookup]
      exact ⟨_, rfl⟩
    · rw [if_neg hfits] at hmark
      rw [hmark, if_neg hfits]
      exact ⟨_, rfl⟩
  obtain ⟨attempts, hb⟩ := hboard
  dsimp only
  rw [hb]
  refine ⟨⟨_, Finmap.lookup_insert _, rfl, rfl⟩, fun y hne hy hmem => ?_, ?_⟩
  · exact (Finmap.mem_insert.1 hmem).elim hne (hfresh y hne hy)
  · exact (reputationOf_restoreReputation ..).trans (if_pos rfl)

/-! Rounds of the same: a task of bounty `2 ^ 40`, worked at and paid. After `2 ^ 24 - 1` of
them the next credit overflows, and the task it is for is `Paid` all the same. -/

def sampleBounty : ℕ := 2 ^ 40

def sampleRound (x : Uuid) : List TaskOp := sampleWork sampleBounty x ++ samplePay sampleBounty x

/-- What the worker has to show for its rounds. -/
structure TaskRun.SampleRounds (n : ℕ) (s : TaskRun) : Prop where
  reachable : (taskRuns TaskBoard.new).ReachableBy TaskOp.Fits s
  fresh : ∀ x ≥ n, x ∉ s.board.tasks
  totalEarned : (s.board.reputationOf 7).totalEarned = n * sampleBounty
  completed : (s.board.reputationOf 7).completed = n
  recorded : ∀ a ∈ s.recorded, a.amount = sampleBounty

/-- A round, up to where its payout is sent. -/
def TaskRun.sampleSent (s : TaskRun) (n : ℕ) : TaskRun :=
  TaskOp.after ((sampleWork sampleBounty n).foldl TaskOp.after s)
    (.recordPayoutAttempt (sampleAttempt sampleBounty n))

theorem TaskRun.SampleRounds.sent (h : s.SampleRounds n) :
    (taskRuns TaskBoard.new).ReachableBy TaskOp.Fits (s.sampleSent n) := by
  obtain ⟨tasks, hwork, ht, -⟩ := sampleWork_board s n sampleBounty
  have hworked : (taskRuns TaskBoard.new).ReachableBy TaskOp.Fits
      ((sampleWork sampleBounty n).foldl TaskOp.after s) := by
    refine reachable_work sampleBounty n h.reachable (fun _ _ _ => id) (fun s op hop => ?_)
      (h.fresh n le_rfl)
    simp only [sampleWork, List.mem_cons, List.not_mem_nil, or_false] at hop
    rcases hop with rfl | rfl | rfl <;> trivial
  refine reachable_after (.recordPayoutAttempt (sampleAttempt sampleBounty n)) hworked
    (fun _ _ => id) trivial ⟨sampleVerified sampleBounty n, ?_, List.mem_cons_self, List.mem_cons_self⟩
  rw [hwork]
  exact ht

theorem sent_reputationOf : (s.sampleSent n).board.reputationOf 7 = s.board.reputationOf 7 := by
  obtain ⟨tasks, hwork, ht, -⟩ := sampleWork_board s n sampleBounty
  have hrep : ((sampleWork sampleBounty n).foldl TaskOp.after s).board.reputationOf 7 =
      s.board.reputationOf 7 := by
    rw [hwork]
    rfl
  rw [← hrep]
  refine (sampleSent_board ?_).choose_spec.2.2.1
  rw [hwork]
  exact ht

/-- What a round comes to: the task is paid, and credited if the credit fits. -/
theorem TaskRun.SampleRounds.board (h : s.SampleRounds n) (hcompleted : n + 1 < u64Bound) :
    let b := ((sampleRound n).foldl TaskOp.after s).board
    (∃ t, b.tasks.lookup n = some t ∧ t.status = .paid ∧ t.allocatedPayouts = [(7, sampleBounty)]) ∧
      (∀ x ≥ n + 1, x ∉ b.tasks) ∧
      b.reputationOf 7 = (s.board.reputationOf 7).credit true
        (if (n + 1) * sampleBounty < u64Bound then sampleBounty else 0) := by
  obtain ⟨tasks, hwork, ht, hfresh⟩ := sampleWork_board s n sampleBounty
  have hrep : ((sampleWork sampleBounty n).foldl TaskOp.after s).board.reputationOf 7 =
      s.board.reputationOf 7 := by
    rw [hwork]
    rfl
  have hverified : ((sampleWork sampleBounty n).foldl TaskOp.after s).board.tasks.lookup n =
      some (sampleVerified sampleBounty n) := by
    rw [hwork]
    exact ht
  have hpay := samplePay_board hverified (by rw [hrep, h.completed]; exact hcompleted)
  rw [hrep, h.totalEarned, ← Nat.succ_mul] at hpay
  dsimp only
  rw [sampleRound, List.foldl_append]
  refine ⟨hpay.1, fun x hx => hpay.2.1 x (Nat.ne_of_gt hx) ?_, hpay.2.2⟩
  rw [hwork]
  exact hfresh x (Nat.ne_of_gt hx) (h.fresh x (Nat.le_of_lt hx))

/-- A round whose credit fits. -/
theorem TaskRun.SampleRounds.next (h : s.SampleRounds n) (hfits : (n + 1) * sampleBounty < u64Bound) :
    TaskRun.SampleRounds (n + 1) ((sampleRound n).foldl TaskOp.after s) := by
  have hcompleted : n + 1 < u64Bound := by
    rw [sampleBounty] at hfits
    omega
  obtain ⟨-, hfresh, hrep⟩ := h.board hcompleted
  rw [if_pos hfits] at hrep
  refine ⟨?_, hfresh, ?_, ?_, ?_⟩
  · rw [sampleRound, List.foldl_append]
    refine reachable_after (.recordConfirmedPayout 200 true n 7 sampleBounty TaskBoard.new) h.sent
      (fun _ _ => id) ?_ ⟨sampleAttempt sampleBounty n, List.mem_cons_self, rfl, rfl, rfl⟩
    rintro ⟨_, _, _, _, -, -, -, hoverflow⟩
    change (_ = true ∧ u64Bound ≤ ((s.sampleSent n).board.reputationOf 7).completed + 1) ∨
      u64Bound ≤ ((s.sampleSent n).board.reputationOf 7).totalEarned + sampleBounty at hoverflow
    rw [sent_reputationOf, h.completed, h.totalEarned, ← Nat.succ_mul] at hoverflow
    exact hoverflow.elim (fun h => absurd h.2 (not_le.2 hcompleted)) (not_le.2 hfits)
  · rw [hrep, Reputation.credit, h.totalEarned, Nat.succ_mul]
  · rw [hrep, Reputation.credit, h.completed]
    rfl
  · rintro a (_ | ⟨_, ha⟩)
    · rfl
    · exact h.recorded a ha

theorem sampleRounds_exist (hfits : n * sampleBounty < u64Bound) : ∃ s, TaskRun.SampleRounds n s := by
  induction n with
  | zero =>
    refine ⟨⟨TaskBoard.new, [], [], []⟩, .init ⟨started_new, rfl⟩, fun _ _ => Finmap.notMem_empty,
      ?_, rfl, fun a ha => ?_⟩
    · rw [Nat.zero_mul]
      rfl
    · cases ha
  | succ n ih =>
    obtain ⟨s, hs⟩ := ih (by rw [Nat.succ_mul] at hfits; omega)
    exact ⟨_, hs.next hfits⟩

/-- A worker who earned nearly all a counter holds is paid a task, and not credited. -/
theorem credit_overflow :
    ¬ ∀ s, (taskRuns TaskBoard.new).Reachable s → (∀ a ∈ s.recorded, a.amount ≤ 2 ^ 40) →
      ∀ x t, s.board.tasks.lookup x = some t → t.status = .paid → ∀ p ∈ t.allocatedPayouts,
        ∃ c ∈ s.credits, c.taskId = x ∧ c.recipient = p.1 ∧ c.earned = p.2 := by
  intro h
  obtain ⟨n, hn⟩ : ∃ n, n + 1 = 2 ^ 24 := ⟨2 ^ 24 - 1, rfl⟩
  obtain ⟨s, hs⟩ := sampleRounds_exist (n := n) (by rw [sampleBounty, u64Bound]; omega)
  obtain ⟨⟨t, ht, hpaid, hallocated⟩, -, hrep⟩ := hs.board (by rw [u64Bound]; omega)
  rw [if_neg (by rw [hn, sampleBounty]; decide)] at hrep
  have hreachable : (taskRuns TaskBoard.new).Reachable ((sampleRound n).foldl TaskOp.after s) := by
    rw [sampleRound, List.foldl_append]
    exact reachable_after (.recordConfirmedPayout 200 true n 7 sampleBounty TaskBoard.new)
      hs.sent.reachable (fun _ _ => id) trivial
      ⟨sampleAttempt sampleBounty n, List.mem_cons_self, rfl, rfl, rfl⟩
  have hrecorded : ∀ a ∈ ((sampleRound n).foldl TaskOp.after s).recorded, a.amount ≤ 2 ^ 40 := by
    rintro a (_ | ⟨_, ha⟩)
    · exact le_rfl
    · exact (hs.recorded a ha).le
  obtain ⟨c, hc, htaskId, -, hearned⟩ := h _ hreachable hrecorded n t ht hpaid (7, sampleBounty)
    (hallocated ▸ List.mem_cons_self)
  rcases List.mem_append.1 hc with hc | hc
  · -- The credit of the round is empty.
    change c ∈ (creditOf (s.sampleSent n).board ((sampleRound n).foldl TaskOp.after s).board n 7).toList at hc
    rw [creditOf] at hc
    split_ifs at hc
    · cases hc
    · rw [Option.toList_some, List.mem_singleton] at hc
      rw [hc] at hearned
      dsimp only at hearned
      rw [hrep, sent_reputationOf, Reputation.credit, add_zero, Nat.sub_self] at hearned
      exact absurd hearned (by decide)
  · -- Nothing was credited before for a task that did not exist.
    obtain ⟨_, htask, -⟩ := (credited_of_reachable hs.reachable).sound c hc
    exact hs.fresh n le_rfl (Finmap.mem_iff.2 ⟨_, htaskId ▸ htask⟩)

end

end Itx
