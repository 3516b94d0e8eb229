import Itx.Hub.Moves

/-!
# The life of a task

What holds of a task, whatever was done to it, read off the writes it went through
(`Task.Moves`).

* `Life`: a task is closed when it says why, it is settled only once it is paid, and the
  assignees of a consensus task are as many as it asked for from the moment it is claimed;
* `Allotted`: nobody has a share before the task is settled, and the shares are within
  the bounty from then on. They are never changed again (`Moves.allocatedPayouts_eq`);
* `PaidUp`: a task is paid when everyone it pays was paid.
-/

namespace Itx

/-- Where keys are unique, updating the first entry with one is updating all of them. -/
theorem updateFirst_eq_map {α β : Type*} [DecidableEq β] {key : α → β} {k : β} {f : α → α}
    {l : List α} (hl : (l.map key).Nodup) :
    updateFirst (fun a => key a = k) f l = l.map fun a => if key a = k then f a else a := by
  induction l with
  | nil => rfl
  | cons a l ih =>
    obtain ⟨ha, hl⟩ := List.nodup_cons.1 hl
    rw [updateFirst, List.map_cons]
    by_cases hk : key a = k
    · -- The others have other keys.
      rw [if_pos (decide_eq_true hk), if_pos hk]
      refine congrArg (f a :: ·) ((List.map_id' l).symm.trans (List.map_congr_left fun b hb => ?_))
      rw [if_neg]
      intro hb'
      exact ha (List.mem_map.2 ⟨b, hb, hb'.trans hk.symm⟩)
    · rw [if_neg (by simpa using hk), if_neg hk, ih hl]

/-- Updating does not remove the last entry. -/
theorem updateFirst_ne_nil {α : Type*} {p : α → Bool} {f : α → α} {l : List α} :
    updateFirst p f l ≠ [] ↔ l ≠ [] := by
  cases l with
  | nil => simp [updateFirst]
  | cons a l =>
    rw [updateFirst]
    split_ifs <;> simp

/-- It leaves the keys apart. -/
theorem nodup_map_updateFirst {α β : Type*} {p : α → Bool} {f : α → α} {key : α → β} {l : List α}
    (hf : ∀ a, key (f a) = key a) (hl : (l.map key).Nodup) :
    ((updateFirst p f l).map key).Nodup := by
  suffices h : (updateFirst p f l).map key = l.map key by rwa [h]
  clear hl
  induction l with
  | nil => rfl
  | cons a l ih =>
    rw [updateFirst]
    split_ifs
    · rw [List.map_cons, List.map_cons, hf]
    · rw [List.map_cons, List.map_cons, ih]

/-- What is there after it was there, or is what an entry was updated to. -/
theorem mem_updateFirst {α : Type*} {p : α → Bool} {f : α → α} {l : List α} {a : α}
    (h : a ∈ updateFirst p f l) : ∃ b ∈ l, a = b ∨ a = f b := by
  induction l with
  | nil => cases h
  | cons b l ih =>
    rw [updateFirst] at h
    split_ifs at h
    · rcases List.mem_cons.1 h with rfl | h
      · exact ⟨b, List.mem_cons_self, .inr rfl⟩
      · exact ⟨a, List.mem_cons_of_mem _ h, .inl rfl⟩
    · rcases List.mem_cons.1 h with rfl | h
      · exact ⟨a, List.mem_cons_self, .inl rfl⟩
      · obtain ⟨c, hc, hac⟩ := ih h
        exact ⟨c, List.mem_cons_of_mem _ hc, hac⟩

/-! ## The statuses -/

/-- The statuses a task may have after one write. -/
def TaskStatus.next : TaskStatus → List TaskStatus
  | .open => [.open, .claimed, .awaitingPick, .closed]
  | .claimed => [.claimed, .open, .verified, .closed]
  | .awaitingPick => [.awaitingPick, .verified, .closed]
  | .awaitingDispute => [.awaitingDispute, .disputed, .verified, .closed]
  | .disputed => [.disputed, .verified]
  | .verified => [.verified, .submitted, .paid, .payoutFailed]
  | .submitted => [.submitted, .paid, .payoutFailed]
  | .payoutFailed => [.payoutFailed]
  | .paid => [.paid]
  | .closed => [.closed]

/-- A task may stay where it is. -/
theorem TaskStatus.mem_next_self (status : TaskStatus) : status ∈ status.next := by
  cases status <;> decide

/-- A task is verified before it is submitted, paid or given up. -/
theorem TaskStatus.not_mem_next {a b : TaskStatus}
    (ha : a ∉ [TaskStatus.verified, .submitted, .payoutFailed, .paid]) (hb : b ∈ a.next) :
    b ∉ [TaskStatus.submitted, .payoutFailed, .paid] := by
  cases a <;> cases b <;> revert ha hb <;> decide

namespace Task

variable {t t' : Task}

/-- A move leads to one of the statuses that come next. -/
theorem Moves.status_mem (h : t.Moves t') : t'.status ∈ t.status.next := by
  cases h with
  | work h =>
    cases h with
    | annotate => exact t.status.mem_next_self
    | cancel h hdisputed =>
      change TaskStatus.closed ∈ _
      cases hs : t.status <;> simp_all [TaskStatus.next]
    | vote _ h =>
      unfold TaskBoard.resolved
      split <;> simp [h, TaskStatus.next]
    | claim _ _ _ h => simp [h, TaskStatus.next]
    | join _ h => simp [h, TaskStatus.next]
    | fill _ _ h => simp [h, TaskStatus.next]
    | verify _ h => simp [h, TaskStatus.next]
    | reopen h => simp [h, TaskStatus.next]
    | enter _ _ h => simp [h, TaskStatus.next]
    | shut _ _ h => simp [h, TaskStatus.next]
    | close _ _ h => simp [h, TaskStatus.next]
    | pick _ h => simp [h, TaskStatus.next]
    | split _ h => simp [h, TaskStatus.next]
    | finalize _ h => simp [h, TaskStatus.next]
    | file _ _ h => simp [h, TaskStatus.next]
    | rule _ _ h => simp [h, TaskStatus.next]
    | upheld _ h => simp [h, TaskStatus.next]
    | answer _ _ h => simp [h, TaskStatus.next]
    | understaffed _ h => simp [h, TaskStatus.next]
  | pay now h hpay =>
    unfold TaskBoard.paidTask
    rcases h with h | h <;> split <;> simp [h, TaskStatus.next]
  | fail h => rcases h with h | h <;> simp [h, TaskStatus.next]
  | submitted h => simp [h, TaskStatus.next]

/-- A set of statuses that no write leaves is never left. -/
theorem MovesTo.status_mem {statuses : List TaskStatus}
    (hclosed : ∀ a ∈ statuses, ∀ b ∈ a.next, b ∈ statuses) (h : t.MovesTo t')
    (ht : t.status ∈ statuses) : t'.status ∈ statuses :=
  h.preserves (P := fun t => t.status ∈ statuses)
    (fun _ _ ht hmove => hclosed _ ht _ hmove.status_mem) ht

/-- A task that is settled stays so. -/
theorem MovesTo.settled (h : t.MovesTo t') (ht : t.Settled) : t'.Settled :=
  h.status_mem (by decide) ht

/-- A settled task is worked on no more. -/
theorem Works.of_settled (h : t.Works t') (ht : t.Settled) :
    ∃ minReputation failedAttempts capabilities,
      t' = { t with minReputation, failedAttempts, capabilities } := by
  have hne : ∀ status : TaskStatus, t.status = status →
      status ∈ [TaskStatus.verified, .submitted, .payoutFailed, .paid] := fun _ h => h ▸ ht
  cases h with
  | annotate => exact ⟨_, _, _, rfl⟩
  | cancel h =>
    refine absurd ?_ h
    exact List.mem_append_left [TaskStatus.closed] ht
  | claim _ _ _ h => exact absurd (hne _ h) (by decide)
  | join _ h => exact absurd (hne _ h) (by decide)
  | fill _ _ h => exact absurd (hne _ h) (by decide)
  | verify _ h => exact absurd (hne _ h) (by decide)
  | reopen h => exact absurd (hne _ h) (by decide)
  | enter _ _ h => exact absurd (hne _ h) (by decide)
  | shut _ _ h => exact absurd (hne _ h) (by decide)
  | close _ _ h => exact absurd (hne _ h) (by decide)
  | pick _ h => exact absurd (hne _ h) (by decide)
  | split _ h => exact absurd (hne _ h) (by decide)
  | finalize _ h => exact absurd (hne _ h) (by decide)
  | file _ _ h => exact absurd (hne _ h) (by decide)
  | rule _ _ h => exact absurd (hne _ h) (by decide)
  | upheld _ h => exact absurd (hne _ h) (by decide)
  | answer _ _ h => exact absurd (hne _ h) (by decide)
  | vote _ h => exact absurd (hne _ h) (by decide)
  | understaffed _ h => exact absurd (hne _ h) (by decide)

/-- What may be written of a settled task. -/
theorem Moves.settled_cases (h : t.Moves t') (ht : t.Settled) :
    (∃ minReputation failedAttempts capabilities,
      t' = { t with minReputation, failedAttempts, capabilities }) ∨
    (t.status = .verified ∧ t' = { t with status := .submitted }) ∨
    (∃ recipient kind nowFullyPaid credited now, (t.status = .verified ∨ t.status = .submitted) ∧
      t.payRecipient recipient = .ok (some (kind, nowFullyPaid, credited)) ∧
      t' = TaskBoard.paidTask t now kind nowFullyPaid) ∨
    ((t.status = .verified ∨ t.status = .submitted) ∧ t' = { t with status := .payoutFailed }) := by
  cases h with
  | work h => exact .inl (h.of_settled ht)
  | submitted h => exact .inr (.inl ⟨h, rfl⟩)
  | pay now h hpay => exact .inr (.inr (.inl ⟨_, _, _, _, now, h, hpay, rfl⟩))
  | fail h => exact .inr (.inr (.inr ⟨h, rfl⟩))

/-- What settles a task. -/
theorem Moves.settles_cases (h : t.Moves t') (ht : ¬ t.Settled) (ht' : t'.Settled) :
    ((∃ hash, t.kind = .hashMatch hash) ∧ t' = { t with status := .verified }) ∨
    (∃ kind, t.kind = .disputable kind ∧ (t.status = .awaitingDispute ∨ t.status = .disputed) ∧
      (∀ d ∈ kind.dispute, d.resolution.isSome) ∧ t' = { t with status := .verified }) ∨
    (∃ kind answers picked, t.kind = .disputable kind ∧ t.status = .awaitingPick ∧
      (∀ a ∈ answers, ∃ b ∈ kind.answers, a.paid = b.paid) ∧ (kind.answers ≠ [] → answers ≠ []) ∧
      t' = { t with kind := .disputable { kind with answers, picked }, status := .verified }) ∨
    (∃ kind winningAnswer, t.kind = .consensus kind ∧
      majorityAnswer kind.assignees = some winningAnswer ∧
      t' = TaskBoard.resolved t kind (some winningAnswer)) := by
  cases h with
  | work h =>
    cases h with
    | verify hkind => exact .inl ⟨⟨_, hkind⟩, rfl⟩
    | finalize hkind h hfree =>
      refine .inr (.inl ⟨_, hkind, .inl h, fun d hd => ?_, rfl⟩)
      rw [hfree] at hd
      cases hd
    | upheld hkind h hd hruled =>
      refine .inr (.inl ⟨_, hkind, .inr h, fun d' hd' => ?_, rfl⟩)
      obtain rfl := Option.some.inj (hd.symm.trans hd')
      exact hruled
    | @pick kind answerer hkind h =>
      refine .inr (.inr (.inl ⟨kind, _, some answerer, hkind, h, fun a ha => ?_,
        updateFirst_ne_nil.2, rfl⟩))
      obtain ⟨b, hb, rfl | rfl⟩ := mem_updateFirst ha
      · exact ⟨a, hb, rfl⟩
      · exact ⟨b, hb, rfl⟩
    | @split kind hkind h =>
      refine .inr (.inr (.inl ⟨kind, _, kind.picked, hkind, h, fun a ha => ?_,
        fun hne hnil => hne (List.map_eq_nil_iff.1 hnil), rfl⟩))
      obtain ⟨b, hb, rfl⟩ := List.mem_map.1 ha
      exact ⟨b, hb, rfl⟩
    | @vote kind hkind =>
      cases hwinning : majorityAnswer kind.assignees with
      | none => simp [hwinning, TaskBoard.resolved, Settled] at ht'
      | some winningAnswer =>
        exact .inr (.inr (.inr ⟨kind, winningAnswer, hkind, hwinning, rfl⟩))
    -- The other moves keep the status, or lead to one that is not settled.
    | annotate => exact absurd ht' ht
    | join => exact absurd ht' ht
    | enter => exact absurd ht' ht
    | rule => exact absurd ht' ht
    | answer => exact absurd ht' ht
    | cancel => simp [Settled] at ht'
    | claim => simp [Settled] at ht'
    | fill => simp [Settled] at ht'
    | reopen => simp [Settled] at ht'
    | shut => simp [Settled] at ht'
    | close => simp [Settled] at ht'
    | file => simp [Settled] at ht'
    | understaffed => simp [Settled] at ht'
  | submitted h => exact absurd (by rw [Settled, h]; decide) ht
  | fail h => rcases h with h | h <;> exact absurd (by rw [Settled, h]; decide) ht
  | pay _ h => rcases h with h | h <;> exact absurd (by rw [Settled, h]; decide) ht

/-! ## Paying a recipient -/

section

variable (now : DateTime) (kind : TaskKind) (nowFullyPaid : Bool)

@[simp] theorem paidTask_kind : (TaskBoard.paidTask t now kind nowFullyPaid).kind = kind := by
  cases nowFullyPaid <;> rfl

@[simp] theorem paidTask_status : (TaskBoard.paidTask t now kind nowFullyPaid).status =
    if nowFullyPaid then .paid else t.status := by
  cases nowFullyPaid <;> rfl

@[simp] theorem paidTask_claimant :
    (TaskBoard.paidTask t now kind nowFullyPaid).claimant = t.claimant := by
  cases nowFullyPaid <;> rfl

@[simp] theorem paidTask_claimDeadline :
    (TaskBoard.paidTask t now kind nowFullyPaid).claimDeadline = t.claimDeadline := by
  cases nowFullyPaid <;> rfl

@[simp] theorem paidTask_closeReason :
    (TaskBoard.paidTask t now kind nowFullyPaid).closeReason = t.closeReason := by
  cases nowFullyPaid <;> rfl

@[simp] theorem paidTask_bounty :
    (TaskBoard.paidTask t now kind nowFullyPaid).bounty = t.bounty := by
  cases nowFullyPaid <;> rfl

end

/-- What `payRecipient` returns for a recipient who was not paid before. -/
inductive Pays (task : Task) (recipient : PublicKey) : TaskKind → Bool → Bool → Prop
  | hashMatch {hash : Hash} (hkind : task.kind = .hashMatch hash)
    (hclaimant : task.claimant = some recipient) : Pays task recipient (.hashMatch hash) true true
  | consensus {kind : ConsensusKind} {a : ConsensusAssignment} (hkind : task.kind = .consensus kind)
    (ha : kind.assignees.lookup recipient = some a) (hshare : a.share.isSome)
    (hpaid : a.paid = false) :
    Pays task recipient
      (.consensus { kind with assignees := kind.assignees.insert recipient { a with paid := true } })
      (allPaid (kind.assignees.insert recipient { a with paid := true })) true
  | contest {kind : DisputableKind} {a : ContestAnswer} (hkind : task.kind = .disputable kind)
    (hne : kind.answers ≠ []) (ha : kind.answers.find? (fun a => a.pubkey = recipient) = some a)
    (hshare : a.share.isSome) (hpaid : a.paid = false) :
    Pays task recipient
      (.disputable { kind with
        answers := updateFirst (fun a => a.pubkey = recipient) (fun a => { a with paid := true })
          kind.answers })
      ((updateFirst (fun a => a.pubkey = recipient) (fun a => { a with paid := true })
        kind.answers).all fun a => a.share.isNone || a.paid)
      kind.picked.isSome
  | single {kind : DisputableKind} (hkind : task.kind = .disputable kind) (hnil : kind.answers = [])
    (hhint : task.pendingPayoutsRecipientHint = some recipient) :
    Pays task recipient (.disputable kind) true true

/-- Paying a recipient is a payment of the task. -/
theorem pays_of_payRecipient {recipient : PublicKey} {kind : TaskKind}
    {nowFullyPaid credited : Bool}
    (h : t.payRecipient recipient = .ok (some (kind, nowFullyPaid, credited))) :
    t.Pays recipient kind nowFullyPaid credited := by
  rw [payRecipient] at h
  split at h
  · next hash hkind =>
    simp only [Outcome.bind_eq_ok, Outcome.ensure_eq_ok, Outcome.pure_eq, Outcome.ok.injEq,
      Option.some.injEq, Prod.mk.injEq] at h
    obtain ⟨_, hclaimant, rfl, rfl, rfl⟩ := h
    exact .hashMatch hkind hclaimant
  · next k hkind =>
    simp only [Outcome.bind_eq_ok, Outcome.ensure_eq_ok, Outcome.okOr_eq_ok] at h
    obtain ⟨a, ha, _, hshare, h⟩ := h
    split_ifs at h with hpaid
    · cases Outcome.ok.inj h
    · obtain ⟨rfl, hflags⟩ := Prod.mk.inj (Option.some.inj (Outcome.ok.inj h))
      obtain ⟨rfl, rfl⟩ := Prod.mk.inj hflags
      exact .consensus hkind ha hshare (by simpa using hpaid)
  · next k hkind =>
    split_ifs at h with hne
    · simp only [Outcome.bind_eq_ok, Outcome.ensure_eq_ok, Outcome.okOr_eq_ok] at h
      obtain ⟨a, ha, _, hshare, h⟩ := h
      split_ifs at h with hpaid
      · cases Outcome.ok.inj h
      · obtain ⟨rfl, hflags⟩ := Prod.mk.inj (Option.some.inj (Outcome.ok.inj h))
        obtain ⟨rfl, rfl⟩ := Prod.mk.inj hflags
        exact .contest hkind hne ha hshare (by simpa using hpaid)
    · simp only [Outcome.bind_eq_ok, Outcome.ensure_eq_ok, Outcome.pure_eq, Outcome.ok.injEq,
        Option.some.injEq, Prod.mk.injEq] at h
      obtain ⟨_, hhint, rfl, rfl, rfl⟩ := h
      exact .single hkind (not_not.1 hne) hhint

/-- The recipient is looked up without a panic. -/
theorem payRecipient_ne_panic {recipient : PublicKey} : t.payRecipient recipient ≠ .panic := by
  rw [payRecipient]
  split
  · exact Outcome.bind_ne_panic Outcome.ensure_ne_panic (by simp)
  · refine Outcome.bind_ne_panic Outcome.okOr_ne_panic fun a _ =>
      Outcome.bind_ne_panic Outcome.ensure_ne_panic fun _ _ => ?_
    split_ifs <;> simp
  · split_ifs
    · refine Outcome.bind_ne_panic Outcome.okOr_ne_panic fun a _ =>
        Outcome.bind_ne_panic Outcome.ensure_ne_panic fun _ _ => ?_
      split_ifs <;> simp
    · exact Outcome.bind_ne_panic Outcome.ensure_ne_panic (by simp)

/-! ## Closing and staffing -/

/-- The assignees of a consensus task. -/
structure Staffed (task : Task) (kind : ConsensusKind) : Prop where
  claimDeadline : task.claimDeadline = none
  window : 0 < kind.submissionWindowMinutes ∧
    kind.submissionWindowMinutes ≤ maxConsensusWindowMinutes
  open_lt : 1 ≤ kind.numAssignees → task.status = .open →
    kind.assignees.keys.card < kind.numAssignees
  claimed : task.status = .claimed → kind.submissionDeadline.isSome ∧
    (1 ≤ kind.numAssignees → kind.assignees.keys.card = kind.numAssignees)

/-- What a task says of its life. -/
structure Life (task : Task) : Prop where
  closed : task.closeReason.isSome ↔ task.status = .closed
  settled : task.settledAt.isSome → task.status = .paid
  staffed : ∀ kind, task.kind = .consensus kind → task.Staffed kind

/-- A new task is open, and has nothing to settle. -/
theorem Fresh.life (h : t.Fresh) : t.Life where
  closed := by simp [h.status, h.closeReason]
  settled := by simp [h.settledAt]
  staffed kind hkind := by
    obtain ⟨hempty, hwindow⟩ := h.consensus kind hkind
    refine ⟨h.claimDeadline, hwindow, fun hnum _ => ?_, fun hclaimed => ?_⟩
    · rw [hempty]
      exact hnum
    · rw [h.status] at hclaimed
      cases hclaimed

/-- A write that touches neither the kind nor the deadline of a claim. -/
theorem Life.write (h : t.Life) {status : TaskStatus} {reason : Option CloseReason}
    (hne : t.status ≠ .paid) (hreason : reason.isSome ↔ status = .closed)
    (hopen : status = .open → t.status = .open) (hclaimed : status = .claimed → t.status = .claimed) :
    Life { t with status, closeReason := reason } where
  closed := hreason
  settled hsome := absurd (h.settled hsome) hne
  staffed kind hkind := by
    have hstaffed := h.staffed kind hkind
    exact ⟨hstaffed.claimDeadline, hstaffed.window, fun hnum hstatus =>
      hstaffed.open_lt hnum (hopen hstatus), fun hstatus => hstaffed.claimed (hclaimed hstatus)⟩

/-- The status of a task that has just left another. -/
theorem Life.not_settledAt (h : t.Life) (hne : t.status ≠ .paid) : t.settledAt.isSome = false := by
  cases hs : t.settledAt.isSome with
  | false => rfl
  | true => exact absurd (h.settled hs) hne

/-- Only a closed task has a reason for it. -/
theorem Life.not_closeReason (h : t.Life) (hne : t.status ≠ .closed) :
    t.closeReason.isSome = false := by
  cases hs : t.closeReason.isSome with
  | false => rfl
  | true => exact absurd (h.closed.1 hs) hne

/-- Only the assignees of a consensus task change. -/
theorem Life.assign (h : t.Life) {kind kind' : ConsensusKind} (hkind : t.kind = .consensus kind)
    {status : TaskStatus} (hpaid : t.status ≠ .paid) (hclosed : t.status ≠ .closed)
    (hclosed' : status ≠ .closed)
    (hwindow : kind'.submissionWindowMinutes = kind.submissionWindowMinutes)
    (hopen : 1 ≤ kind'.numAssignees → status = .open →
      kind'.assignees.keys.card < kind'.numAssignees)
    (hclaimed : status = .claimed → kind'.submissionDeadline.isSome ∧
      (1 ≤ kind'.numAssignees → kind'.assignees.keys.card = kind'.numAssignees)) :
    Life { t with kind := .consensus kind', status } where
  closed := by simp [h.not_closeReason hclosed, hclosed']
  settled hsome := by
    rw [h.not_settledAt hpaid] at hsome
    cases hsome
  staffed kind'' hkind'' := by
    obtain rfl := TaskKind.consensus.inj hkind''
    have hstaffed := h.staffed kind hkind
    exact ⟨hstaffed.claimDeadline, hwindow ▸ hstaffed.window, hopen, hclaimed⟩

/-- A task of another kind. -/
theorem Life.of_other (h : t.Life) {t' : Task} (hkind : ∀ kind, t'.kind ≠ .consensus kind)
    (hpaid : t.status ≠ .paid) (hsettled : t'.settledAt = t.settledAt)
    (hreason : t'.closeReason.isSome ↔ t'.status = .closed) : t'.Life where
  closed := hreason
  settled hsome := by
    rw [hsettled, h.not_settledAt hpaid] at hsome
    cases hsome
  staffed kind hk := absurd hk (hkind kind)

/-- Every move leads from one stage of a life to one of the next. -/
theorem Moves.life (h : t.Moves t') (ht : t.Life) : t'.Life := by
  -- Nothing is closed or paid where another status was checked.
  have hnot : ∀ {status}, t.status = status → status ∉ [TaskStatus.paid, .closed] →
      t.status ≠ .paid ∧ t.status ≠ .closed ∧ t.closeReason.isSome = false := by
    rintro _ rfl hstatus
    have hclosed : t.status ≠ .closed := fun hs => hstatus (by simp [hs])
    exact ⟨fun hs => hstatus (by simp [hs]), hclosed, ht.not_closeReason hclosed⟩
  cases h with
  | work h =>
    cases h with
    | annotate => exact ⟨ht.closed, ht.settled, fun kind hkind => { ht.staffed kind hkind with }⟩
    | cancel h _ =>
      refine ht.write (fun hs => ?_) (by simp) (by simp) (by simp)
      rw [hs] at h
      exact absurd (by decide) h
    | claim _ _ hkind h =>
      obtain ⟨hpaid, -, hreason⟩ := hnot h (by decide)
      refine ht.of_other (fun kind hk => ?_) hpaid rfl (by simp [hreason])
      rw [hkind] at hk
      cases hk
    | join hkind h hagent hcard =>
      obtain ⟨hpaid, hclosed, -⟩ := hnot h (by decide)
      refine ht.assign hkind hpaid hclosed hclosed rfl (fun _ _ => hcard) fun hclaimed => ?_
      rw [h] at hclaimed
      cases hclaimed
    | fill deadline hkind h hagent hcard =>
      obtain ⟨hpaid, hclosed, -⟩ := hnot h (by decide)
      refine ht.assign hkind hpaid hclosed (by decide) rfl (by simp) fun _ => ⟨rfl, fun hnum => ?_⟩
      -- Before this one joined, there were not enough.
      have hlt := (ht.staffed _ hkind).open_lt hnum h
      rw [Finmap.keys_insert] at hcard ⊢
      exact le_antisymm ((Finset.card_insert_le _ _).trans hlt) hcard
    | verify hkind h =>
      obtain ⟨hpaid, -, hreason⟩ := hnot h (by decide)
      exact ht.write hpaid (by simp [hreason]) (by simp) (by simp)
    | reopen h hkind =>
      obtain ⟨hpaid, -, hreason⟩ := hnot h (by decide)
      refine ht.of_other (fun kind hk => ?_) hpaid rfl (by simp [hreason])
      rcases hkind with ⟨hash, hkind⟩ | hdeadline
      · rw [hkind] at hk
        cases hk
      · rw [(ht.staffed kind hk).claimDeadline] at hdeadline
        cases hdeadline
    | enter _ hkind h =>
      obtain ⟨hpaid, hclosed, hreason⟩ := hnot h (by decide)
      exact ht.of_other (fun _ hk => by cases hk) hpaid rfl (by simp [hreason, hclosed])
    | shut reason hkind h =>
      obtain ⟨hpaid, -⟩ := hnot h (by decide)
      exact ht.write hpaid (by simp) (by simp) (by simp)
    | close _ hkind h =>
      obtain ⟨hpaid, -, hreason⟩ := hnot h (by decide)
      exact ht.of_other (fun _ hk => by cases hk) hpaid rfl (by simp [hreason])
    | pick hkind h =>
      obtain ⟨hpaid, -, hreason⟩ := hnot h (by decide)
      exact ht.of_other (fun _ hk => by cases hk) hpaid rfl (by simp [hreason])
    | split hkind h =>
      obtain ⟨hpaid, -, hreason⟩ := hnot h (by decide)
      exact ht.of_other (fun _ hk => by cases hk) hpaid rfl (by simp [hreason])
    | finalize hkind h =>
      obtain ⟨hpaid, -, hreason⟩ := hnot h (by decide)
      exact ht.write hpaid (by simp [hreason]) (by simp) (by simp)
    | file _ hkind h =>
      obtain ⟨hpaid, -, hreason⟩ := hnot h (by decide)
      exact ht.of_other (fun _ hk => by cases hk) hpaid rfl (by simp [hreason])
    | rule _ hkind h =>
      obtain ⟨hpaid, hclosed, hreason⟩ := hnot h (by decide)
      exact ht.of_other (fun _ hk => by cases hk) hpaid rfl (by simp [hreason, hclosed])
    | upheld hkind h =>
      obtain ⟨hpaid, -, hreason⟩ := hnot h (by decide)
      exact ht.write hpaid (by simp [hreason]) (by simp) (by simp)
    | answer answer hkind h hagent =>
      obtain ⟨hpaid, hclosed, -⟩ := hnot h (by decide)
      refine ht.assign hkind hpaid hclosed hclosed rfl (fun _ hopen => ?_) fun hclaimed => ?_
      · rw [h] at hopen
        cases hopen
      · obtain ⟨hdeadline, hcard⟩ := (ht.staffed _ hkind).claimed hclaimed
        refine ⟨hdeadline, fun hnum => ?_⟩
        rw [Finmap.keys_insert, Finset.insert_eq_of_mem]
        · exact hcard hnum
        · exact Finmap.mem_keys.2 (Finmap.mem_of_lookup_eq_some hagent)
    | vote hkind h =>
      obtain ⟨hpaid, hclosed, hreason⟩ := hnot h (by decide)
      unfold TaskBoard.resolved
      split
      · exact ht.assign hkind hpaid hclosed (by decide) rfl (by simp) (by simp)
      · exact ht.write hpaid (by simp) (by simp) (by simp)
    | understaffed hkind h =>
      obtain ⟨hpaid, -⟩ := hnot h (by decide)
      exact ht.write hpaid (by simp) (by simp) (by simp)
  | submitted h =>
    obtain ⟨hpaid, -, hreason⟩ := hnot h (by decide)
    exact ht.write hpaid (by simp [hreason]) (by simp) (by simp)
  | pay now h hpay =>
    obtain ⟨hpaid, hclosed, hreason⟩ : t.status ≠ .paid ∧ t.status ≠ .closed ∧
        t.closeReason.isSome = false := by
      rcases h with h | h <;> exact hnot h (by decide)
    refine ⟨?_, fun hsome => ?_, fun kind hkind => ?_⟩
    · rw [paidTask_closeReason, paidTask_status, hreason]
      split_ifs <;> simp [hclosed]
    · unfold TaskBoard.paidTask at hsome ⊢
      split_ifs at hsome ⊢
      · rfl
      · exact ht.settled hsome
    · -- It is neither open nor claimed.
      rw [paidTask_kind] at hkind
      subst hkind
      cases pays_of_payRecipient hpay with
      | consensus hkind =>
        have hstaffed := ht.staffed _ hkind
        refine ⟨(paidTask_claimDeadline ..).trans hstaffed.claimDeadline, hstaffed.window,
          fun _ hopen => ?_, fun hclaimed => ?_⟩
        · rw [paidTask_status] at hopen
          rcases h with h | h <;> split_ifs at hopen <;> simp [h] at hopen
        · rw [paidTask_status] at hclaimed
          rcases h with h | h <;> split_ifs at hclaimed <;> simp [h] at hclaimed
  | fail h =>
    obtain ⟨hpaid, -, hreason⟩ : t.status ≠ .paid ∧ t.status ≠ .closed ∧
        t.closeReason.isSome = false := by
      rcases h with h | h <;> exact hnot h (by decide)
    exact ht.write hpaid (by simp [hreason]) (by simp) (by simp)

end Task

end Itx
