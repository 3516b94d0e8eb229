import Itx.Hub.Payouts

/-!
# What an operation does to a task

Some twenty methods of the board write a task. What one write may do is said once, by
the relations `Task.Works`, for those that pay nobody, and `Task.Moves`, for all of them:
each of their constructors is a write of the source, with what was checked before it. A
run of the board takes a task along such moves (`MovedBy`), or creates it.

`Progress`: what an operation that pays nobody does to a board, whatever its outcome.
There is one lemma for each operation, and nothing below unfolds one again.
-/

namespace Itx

namespace Task

/-- The statuses of a task whose recipients are known. -/
def Settled (task : Task) : Prop :=
  task.status ∈ [.verified, .submitted, .payoutFailed, .paid]

instance (task : Task) : Decidable task.Settled := inferInstanceAs (Decidable (_ ∈ _))

/-- A task as it is created, its windows checked by the handlers. -/
structure Fresh (task : Task) : Prop where
  status : task.status = .open
  claimant : task.claimant = none
  claimDeadline : task.claimDeadline = none
  closeReason : task.closeReason = none
  settledAt : task.settledAt = none
  consensus : ∀ kind, task.kind = .consensus kind → kind.assignees = ∅ ∧
    0 < kind.submissionWindowMinutes ∧ kind.submissionWindowMinutes ≤ maxConsensusWindowMinutes
  disputable : ∀ kind, task.kind = .disputable kind → kind.answers = [] ∧ kind.dispute = none

/-- One write of a task that pays nobody. -/
inductive Works : Task → Task → Prop
  /-- What no rule depends on. -/
  | annotate {t : Task} (minReputation failedAttempts : ℕ) (capabilities : Finset String) :
    Works t { t with minReputation, failedAttempts, capabilities }
  | cancel {t : Task} (h : t.status ∉ [.verified, .submitted, .payoutFailed, .paid, .closed])
    (hdisputed : t.status ≠ .disputed) :
    Works t { t with status := .closed, closeReason := some .cancelledByOperator }
  | claim {t : Task} {hash : Hash} (claimant : PublicKey) (deadline : DateTime)
    (hkind : t.kind = .hashMatch hash) (h : t.status = .open) :
    Works t { t with
      status := .claimed, claimant := some claimant, claimDeadline := some deadline }
  | join {t : Task} {kind : ConsensusKind} {agent : PublicKey}
    (hkind : t.kind = .consensus kind) (h : t.status = .open) (hagent : agent ∉ kind.assignees)
    (hcard : (kind.assignees.insert agent {}).keys.card < kind.numAssignees) :
    Works t { t with kind := .consensus { kind with assignees := kind.assignees.insert agent {} } }
  | fill {t : Task} {kind : ConsensusKind} {agent : PublicKey} (deadline : DateTime)
    (hkind : t.kind = .consensus kind) (h : t.status = .open) (hagent : agent ∉ kind.assignees)
    (hcard : kind.numAssignees ≤ (kind.assignees.insert agent {}).keys.card) :
    Works t { t with
      kind := .consensus { kind with
        assignees := kind.assignees.insert agent {}, submissionDeadline := some deadline }
      status := .claimed }
  | verify {t : Task} {hash : Hash} {claimant : PublicKey} (hkind : t.kind = .hashMatch hash)
    (h : t.status = .claimed) (hclaimant : t.claimant = some claimant) :
    Works t { t with status := .verified }
  | reopen {t : Task} (h : t.status = .claimed)
    (hkind : (∃ hash, t.kind = .hashMatch hash) ∨ t.claimDeadline.isSome) :
    Works t { t with status := .open, claimant := none, claimDeadline := none }
  | enter {t : Task} {kind : DisputableKind} (answer : ContestAnswer)
    (hkind : t.kind = .disputable kind) (h : t.status = .open)
    (hnew : ∀ a ∈ kind.answers, a.pubkey ≠ answer.pubkey) (hshare : answer.share = none)
    (hpaid : answer.paid = false) :
    Works t { t with kind := .disputable { kind with answers := kind.answers ++ [answer] } }
  | shut {t : Task} {kind : DisputableKind} (reason : CloseReason)
    (hkind : t.kind = .disputable kind) (h : t.status = .open) :
    Works t { t with status := .closed, closeReason := some reason }
  | close {t : Task} {kind : DisputableKind} (deadline : DateTime)
    (hkind : t.kind = .disputable kind) (h : t.status = .open) (hne : kind.answers ≠ []) :
    Works t { t with
      kind := .disputable { kind with pickDeadline := some deadline }, status := .awaitingPick }
  | pick {t : Task} {kind : DisputableKind} {answerer : PublicKey}
    (hkind : t.kind = .disputable kind) (h : t.status = .awaitingPick)
    (hanswer : ∃ a ∈ kind.answers, a.pubkey = answerer) :
    Works t { t with
      kind := .disputable { kind with
        answers := updateFirst (fun a => a.pubkey = answerer)
          (fun a => { a with share := some t.bounty }) kind.answers
        picked := some answerer }
      status := .verified }
  | split {t : Task} {kind : DisputableKind} (hkind : t.kind = .disputable kind)
    (h : t.status = .awaitingPick) :
    Works t { t with
      kind := .disputable { kind with
        answers := kind.answers.map fun a =>
          { a with share := some (t.bounty / max 1 kind.answers.length) } }
      status := .verified }
  | finalize {t : Task} {kind : DisputableKind} (hkind : t.kind = .disputable kind)
    (h : t.status = .awaitingDispute) (hfree : kind.dispute = none) :
    Works t { t with status := .verified }
  | file {t : Task} {kind : DisputableKind} (d : Dispute) (hkind : t.kind = .disputable kind)
    (h : t.status = .awaitingDispute) :
    Works t { t with
      kind := .disputable { kind with dispute := some d }, status := .disputed }
  | rule {t : Task} {kind : DisputableKind} (d : Dispute) (hkind : t.kind = .disputable kind)
    (h : t.status = .disputed) :
    Works t { t with kind := .disputable { kind with dispute := some d } }
  | upheld {t : Task} {kind : DisputableKind} {d : Dispute} (hkind : t.kind = .disputable kind)
    (h : t.status = .disputed) (hd : kind.dispute = some d) (hruled : d.resolution.isSome) :
    Works t { t with status := .verified }
  | answer {t : Task} {kind : ConsensusKind} {agent : PublicKey} {assignment : ConsensusAssignment}
    (answer : String) (hkind : t.kind = .consensus kind) (h : t.status = .claimed)
    (hagent : kind.assignees.lookup agent = some assignment) :
    Works t { t with kind := .consensus { kind with
      assignees := kind.assignees.insert agent { assignment with answer := some answer } } }
  | vote {t : Task} {kind : ConsensusKind} (hkind : t.kind = .consensus kind)
    (h : t.status = .claimed) : Works t (TaskBoard.resolved t kind (majorityAnswer kind.assignees))
  | understaffed {t : Task} {kind : ConsensusKind} (hkind : t.kind = .consensus kind)
    (h : t.status = .open) :
    Works t { t with status := .closed, closeReason := some .understaffed }

/-- One write of a task. -/
inductive Moves : Task → Task → Prop
  | work {t t' : Task} (h : t.Works t') : Moves t t'
  | submitted {t : Task} (h : t.status = .verified) : Moves t { t with status := .submitted }
  | pay {t : Task} {recipient : PublicKey} {kind : TaskKind} {nowFullyPaid credited : Bool}
    (now : DateTime) (h : t.status = .verified ∨ t.status = .submitted)
    (hpay : t.payRecipient recipient = .ok (some (kind, nowFullyPaid, credited))) :
    Moves t (TaskBoard.paidTask t now kind nowFullyPaid)
  | fail {t : Task} (h : t.status = .verified ∨ t.status = .submitted) :
    Moves t { t with status := .payoutFailed }

/-- A run of writes that pay nobody. -/
abbrev WorksTo : Task → Task → Prop := Relation.ReflTransGen Works

/-- A run of writes. -/
abbrev MovesTo : Task → Task → Prop := Relation.ReflTransGen Moves

/-- No move changes the id of a task. -/
theorem Moves.id_eq {t t' : Task} (h : t.Moves t') : t'.id = t.id := by
  cases h with
  | work h =>
    cases h with
    | vote => unfold TaskBoard.resolved; split <;> rfl
    | _ => rfl
  | pay => unfold TaskBoard.paidTask; split <;> rfl
  | _ => rfl

/-- Nor does one change the deposit it is paid from. -/
theorem Moves.escrowId_eq {t t' : Task} (h : t.Moves t') : t'.escrowId = t.escrowId := by
  cases h with
  | work h =>
    cases h with
    | vote => unfold TaskBoard.resolved; split <;> rfl
    | _ => rfl
  | pay => unfold TaskBoard.paidTask; split <;> rfl
  | _ => rfl

/-- What the moves preserve, a run of them does. -/
theorem MovesTo.preserves {P : Task → Prop} {t t' : Task} (hP : ∀ t t', P t → t.Moves t' → P t')
    (h : t.MovesTo t') (ht : P t) : P t' := by
  -- By induction on the moves.
  induction h with
  | refl => exact ht
  | tail _ hmove ih => exact hP _ _ ih hmove

end Task

namespace TaskBoard

open Call

variable {s s' s₀ : TaskBoard} {taskId : Uuid} {task : Task}

/-! ## The tasks of a board -/

/-- The tasks of a board are written, each time as `R` allows, and new ones are created. -/
structure MovedBy (R : Task → Task → Prop) (s s' : TaskBoard) : Prop where
  moved : ∀ id t, s.tasks.lookup id = some t →
    ∃ t', s'.tasks.lookup id = some t' ∧ Relation.ReflTransGen R t t'
  created : ∀ id t', s'.tasks.lookup id = some t' → s.tasks.lookup id = none →
    ∃ t : Task, t.Fresh ∧ t.id = id ∧ Relation.ReflTransGen R t t'

namespace MovedBy

variable {R R' : Task → Task → Prop}

/-- The tasks are as they were. -/
theorem of_eq (h : s'.tasks = s.tasks) : MovedBy R s s' where
  moved id t ht := ⟨t, by rw [h, ht], .refl⟩
  created id t' ht' hnone := by
    rw [h, hnone] at ht'
    cases ht'

/-- Nothing has moved. -/
theorem refl (s : TaskBoard) : MovedBy R s s := of_eq rfl

/-- One move after the other. -/
theorem trans {s'' : TaskBoard} (h : MovedBy R s s') (h' : MovedBy R s' s'') :
    MovedBy R s s'' where
  moved id t ht := by
    obtain ⟨t', ht', hmoves⟩ := h.moved id t ht
    obtain ⟨t'', ht'', hmoves'⟩ := h'.moved id t' ht'
    exact ⟨t'', ht'', hmoves.trans hmoves'⟩
  created id t'' ht'' hnone := by
    cases hs' : s'.tasks.lookup id with
    | none => exact h'.created id t'' ht'' hs'
    | some t' =>
      -- It was there in between, and is created in the first half.
      obtain ⟨t, hfresh, hid, hmoves⟩ := h.created id t' hs' hnone
      obtain ⟨t₂, ht₂, hmoves'⟩ := h'.moved id t' hs'
      obtain rfl := Option.some.inj (ht''.symm.trans ht₂)
      exact ⟨t, hfresh, hid, hmoves.trans hmoves'⟩

/-- A finer account of the moves is one of them. -/
theorem mono (h : MovedBy R s s') (hR : ∀ t t', R t t' → R' t t') : MovedBy R' s s' where
  moved id t ht := by
    obtain ⟨t', ht', hmoves⟩ := h.moved id t ht
    exact ⟨t', ht', Relation.ReflTransGen.mono hR _ _ hmoves⟩
  created id t' ht' hnone := by
    obtain ⟨t, hfresh, hid, hmoves⟩ := h.created id t' ht' hnone
    exact ⟨t, hfresh, hid, Relation.ReflTransGen.mono hR _ _ hmoves⟩

/-- Writing a task it may move to. -/
theorem write {t' : Task} (ht : s.tasks.lookup taskId = some task)
    (h : Relation.ReflTransGen R task t') (htasks : s'.tasks = s.tasks.insert taskId t') :
    MovedBy R s s' where
  moved x t hx := by
    rw [htasks, Finmap.lookup_insert_eq]
    split_ifs with hid
    · subst hid
      -- It is the task that was there before.
      obtain rfl := Option.some.inj (hx.symm.trans ht)
      exact ⟨t', rfl, h⟩
    · exact ⟨t, hx, .refl⟩
  created x t hx hnone := by
    rw [htasks, Finmap.lookup_insert_eq] at hx
    split_ifs at hx with hid
    · -- The id that is written was there already, so nothing is created.
      rw [hid, ht] at hnone
      cases hnone
    · rw [hnone] at hx
      cases hx

/-- Creating a task under a fresh id. -/
theorem create (hnew : s.tasks.lookup taskId = none) (hfresh : task.Fresh)
    (hid : task.id = taskId) (htasks : s'.tasks = s.tasks.insert taskId task) :
    MovedBy R s s' where
  moved x t hx := by
    refine ⟨t, ?_, .refl⟩
    rw [htasks, Finmap.lookup_insert_of_ne _ fun he => ?_]
    · exact hx
    · rw [he, hnew] at hx
      cases hx
  created x t hx hnone := by
    rw [htasks, Finmap.lookup_insert_eq] at hx
    split_ifs at hx with hx'
    · obtain rfl := Option.some.inj hx
      exact ⟨task, hfresh, hid.trans hx'.symm, .refl⟩
    · rw [hnone] at hx
      cases hx

end MovedBy

/-- What an operation does that moves tasks, and neither creates one nor pays anybody. -/
structure Progress (s s' : TaskBoard) : Prop extends MovedBy Task.Works s s' where
  keys : s'.tasks.keys = s.tasks.keys
  attempts : s'.payoutAttempts = s.payoutAttempts
  deposits : s'.pendingDeposits = s.pendingDeposits
  completed : ∀ pk, (s'.reputationOf pk).completed = (s.reputationOf pk).completed
  totalEarned : ∀ pk, (s'.reputationOf pk).totalEarned = (s.reputationOf pk).totalEarned

namespace Progress

theorem refl (s : TaskBoard) : Progress s s where
  toMovedBy := .refl s
  keys := rfl
  attempts := rfl
  deposits := rfl
  completed _ := rfl
  totalEarned _ := rfl

theorem trans {s'' : TaskBoard} (h : Progress s s') (h' : Progress s' s'') : Progress s s'' where
  toMovedBy := h.toMovedBy.trans h'.toMovedBy
  keys := h'.keys.trans h.keys
  attempts := h'.attempts.trans h.attempts
  deposits := h'.deposits.trans h.deposits
  completed pk := (h'.completed pk).trans (h.completed pk)
  totalEarned pk := (h'.totalEarned pk).trans (h.totalEarned pk)

/-- Writing a task it may move to. -/
theorem write {t' : Task} (ht : s.tasks.lookup taskId = some task) (h : task.WorksTo t') :
    Progress s { s with tasks := s.tasks.insert taskId t' } where
  toMovedBy := .write ht h rfl
  keys := Finmap.keys_insert_of_lookup ht
  attempts := rfl
  deposits := rfl
  completed _ := rfl
  totalEarned _ := rfl

end Progress

/-- One reputation is put back, the others stay. -/
theorem reputationOf_restoreReputation (pk x : PublicKey) (r : Reputation) :
    (s.restoreReputation pk r).reputationOf x = if x = pk then r else s.reputationOf x := by
  rw [reputationOf, restoreReputation, Finmap.lookup_insert_eq]
  split_ifs <;> rfl

/-! ## The constructs of an operation -/

/-- What `onTask` does: it writes the task the check returns, or nothing. -/
theorem triple_onTask {α : Type} {f : TaskBoard → Task → Outcome BoardError (α × Task)} :
    Triple (· = s) (onTask taskId f)
      (fun a s' => ∃ t t', s.tasks.lookup taskId = some t ∧ f s t = .ok (a, t') ∧
        s' = { s with tasks := s.tasks.insert taskId t' })
      (fun e s' => s' = s ∧ ∀ t, s.tasks.lookup taskId = some t → f s t = .err e)
      (fun s' => s' = s ∧ ∃ t, s.tasks.lookup taskId = some t ∧ f s t = .panic) := by
  refine .get_bind fun s₁ hs₁ => ?_
  subst hs₁
  -- Neither an unknown id nor a body that fails writes anything.
  refine .lift_known (fun t ht => ?_) (fun e he => ⟨rfl, fun t ht => ?_⟩)
    fun h => absurd h Outcome.okOr_ne_panic
  · have ht := Outcome.okOr_eq_ok.1 ht
    refine .lift_known (fun r hr => ?_) (fun e he => ⟨rfl, fun t' ht' => ?_⟩)
      fun h => ⟨rfl, t, ht, h⟩
    · refine .modify_bind (.pure fun s₂ hs₂ => ?_)
      exact ⟨t, r.2, ht, hr, hs₂⟩
    · rw [← Option.some.inj (ht.symm.trans ht'), he]
  · rw [ht] at he
    cases he

/-- The outcomes of an operation that pays nobody. -/
abbrev Progresses {α : Type} (s : TaskBoard) (x : BoardCall α) : Prop :=
  Triple (· = s) x (fun _ => Progress s) (fun _ => Progress s) (Progress s)

/-- A call on a task moves it as its body does. -/
theorem progresses_onTask {α : Type} {f : TaskBoard → Task → Outcome BoardError (α × Task)}
    (h : ∀ t a t', s.tasks.lookup taskId = some t → f s t = .ok (a, t') → t.WorksTo t') :
    Progresses s (onTask taskId f) := by
  refine triple_onTask.conseq (fun _ => id) (fun a s' hs' => ?_) (fun _ s' hs' => ?_) fun s' hs' => ?_
  · obtain ⟨t, t', ht, hf, rfl⟩ := hs'
    exact .write ht (h t a t' ht hf)
  · rw [hs'.1]
    exact .refl s
  · rw [hs'.1]
    exact .refl s

/-- One operation after the other. -/
theorem Progresses.bind {α β : Type} {x : BoardCall α} {f : α → BoardCall β}
    (hx : Progresses s x) (hf : ∀ a s', Progresses s' (f a)) : Progresses s (x >>= f) := by
  refine Triple.bind hx fun a => .of_state fun s₁ hs₁ => ?_
  exact (hf a s₁).conseq (fun _ => id) (fun _ _ h => hs₁.trans h) (fun _ _ h => hs₁.trans h)
    fun _ h => hs₁.trans h

/-- Returning moves nothing. -/
theorem progresses_pure {α : Type} (a : α) : Progresses s (pure a : BoardCall α) :=
  .pure fun _ hs => hs ▸ .refl s

/-- A failure is counted against its agent, and against no task. -/
theorem progresses_addFailed (pk : PublicKey) :
    Triple (· = s) (addFailed pk) (fun _ s' => Progress s s' ∧ s'.tasks = s.tasks)
      (fun _ s' => Progress s s' ∧ s'.tasks = s.tasks)
      fun s' => Progress s s' ∧ s'.tasks = s.tasks := by
  refine .get_bind fun s₁ hs₁ => ?_
  subst hs₁
  refine .lift_known (fun n _ => ?_) (fun _ _ => ⟨.refl _, rfl⟩) fun _ => ⟨.refl _, rfl⟩
  -- The count of failures is put back with all else that the key had.
  refine .modify fun s₂ hs₂ => ?_
  subst hs₂
  refine ⟨⟨.of_eq rfl, rfl, rfl, rfl, fun x => ?_, fun x => ?_⟩, rfl⟩
  · rw [reputationOf_restoreReputation]
    split_ifs with hx
    · rw [hx]
    · rfl
  · rw [reputationOf_restoreReputation]
    split_ifs with hx
    · rw [hx]
    · rfl

/-- The losers of a vote are charged one after the other. -/
theorem progresses_losers (pks : List PublicKey) :
    Triple (fun s' => Progress s s' ∧ s'.tasks = s.tasks) (forEach pks addFailed)
      (fun _ s' => Progress s s' ∧ s'.tasks = s.tasks)
      (fun _ s' => Progress s s' ∧ s'.tasks = s.tasks)
      fun s' => Progress s s' ∧ s'.tasks = s.tasks := by
  refine Triple.forEach fun pk _ => .of_state fun s₁ hs₁ => ?_
  obtain ⟨hprogress, htasks⟩ := hs₁
  refine (progresses_addFailed pk).conseq (fun _ => id) ?_ ?_ ?_
  · exact fun _ s₂ h => ⟨hprogress.trans h.1, h.2.trans htasks⟩
  · exact fun _ s₂ h => ⟨hprogress.trans h.1, h.2.trans htasks⟩
  · exact fun s₂ h => ⟨hprogress.trans h.1, h.2.trans htasks⟩

/-- A call that is left out moves nothing. -/
theorem progresses_when {p : Prop} [Decidable p] {x : BoardCall Unit} (hx : p → Progresses s x) :
    Progresses s (Call.when p x) := by
  rw [Call.when]
  split_ifs with h
  · exact hx h
  · exact progresses_pure _

/-! ## The kinds of a task -/

/-- Only a hash-match task is claimed. -/
theorem checkClaimable_eq_ok {u : Unit} :
    checkClaimable task = .ok u ↔ ∃ hash, task.kind = .hashMatch hash := by
  rw [checkClaimable]
  cases task.kind <;> simp

/-- Only a hash-match task has a hash to match. -/
theorem hashMatchOf_eq_ok {hash : Hash} :
    hashMatchOf task = .ok hash ↔ task.kind = .hashMatch hash := by
  rw [hashMatchOf]
  cases task.kind <;> simp

/-- Only a consensus task is voted on. -/
theorem consensusOf_eq_ok {kind : ConsensusKind} :
    consensusOf task = .ok kind ↔ task.kind = .consensus kind := by
  rw [consensusOf]
  cases task.kind <;> simp

/-! ## Operations on one task -/

/-- What is annotated is a task, wherever it has come to. -/
theorem progresses_updateTask {f : Task → Task} (h : ∀ t, Task.Works t (f t)) :
    Progresses s (updateTask taskId f) := by
  refine .get_bind fun s₁ hs₁ => ?_
  subst hs₁
  refine .lift_known (fun t ht => ?_) (fun _ _ => .refl _) fun h => absurd h Outcome.okOr_ne_panic
  refine .modify fun s₂ hs₂ => ?_
  subst hs₂
  exact .write (Outcome.okOr_eq_ok.1 ht) (.single (h t))

/-- The reputation that is asked for is an annotation. -/
theorem progresses_setMinReputation (minReputation : ℕ) :
    Progresses s (setMinReputation taskId minReputation) :=
  progresses_updateTask fun t => .annotate minReputation t.failedAttempts t.capabilities

/-- So are the capabilities. -/
theorem progresses_setCapabilities (capabilities : Finset String) :
    Progresses s (setCapabilities taskId capabilities) :=
  progresses_updateTask fun t => .annotate t.minReputation t.failedAttempts capabilities

/-- A task is cancelled before its winners are known. -/
theorem progresses_cancelTask : Progresses s (cancelTask taskId) := by
  refine progresses_onTask fun t a t' _ h => ?_
  simp only [Outcome.bind_eq_ok, Outcome.ensure_eq_ok, Outcome.pure_eq, Outcome.ok.injEq,
    Prod.mk.injEq] at h
  -- Of the checks the move needs the two on the status.
  obtain ⟨_, hstatus, _, hdisputed, -, rfl⟩ := h
  exact .single (.cancel hstatus hdisputed)

/-- A hash-match task is claimed by its first claimant. -/
theorem progresses_claimTask (claimant : PublicKey) (deadline : DateTime) :
    Progresses s (claimTask taskId claimant deadline) := by
  refine progresses_onTask fun t a t' _ h => ?_
  simp only [Outcome.bind_eq_ok, Outcome.ensure_eq_ok, Outcome.pure_eq, Outcome.ok.injEq,
    Prod.mk.injEq, checkClaimable_eq_ok] at h
  obtain ⟨_, ⟨hash, hkind⟩, _, hopen, _, -, _, -, -, rfl⟩ := h
  exact .single (.claim claimant deadline hkind hopen)

/-- A join that fills the task sets its deadline, which the clock must not put out of
    range. -/
theorem progresses_joinConsensusTask {agent : PublicKey} {now filledAt : DateTime}
    (hclock : ∀ t kind, s.tasks.lookup taskId = some t → t.kind = .consensus kind →
      addMinutes filledAt kind.submissionWindowMinutes ≠ none) :
    Progresses s (joinConsensusTask taskId agent now filledAt) := by
  refine Triple.bind (triple_onTask.conseq (fun _ => id) (fun _ _ => id)
    (fun _ _ h => h.1 ▸ .refl s) fun _ h => h.1 ▸ .refl s) fun kind' => .of_state fun s₁ hs₁ => ?_
  obtain ⟨t, t', ht, hf, rfl⟩ := hs₁
  simp only [Outcome.bind_eq_ok, Outcome.ensure_eq_ok, Outcome.pure_eq, Outcome.ok.injEq,
    Prod.mk.injEq, consensusOf_eq_ok] at hf
  obtain ⟨kind, hkind, _, hopen, _, -, _, -, _, -, _, hagent, rfl, rfl⟩ := hf
  rw [Call.when]
  split_ifs with hfull
  · -- The second write is over the first.
    obtain ⟨deadline, hdeadline⟩ := Option.ne_none_iff_exists'.1 (hclock t kind ht hkind)
    refine triple_onTask.conseq (fun _ => id) (fun _ s₂ hs₂ => ?_) (fun _ s₂ hs₂ => ?_)
      fun s₂ hs₂ => ?_
    · obtain ⟨t₁, t₂, ht₁, hf, rfl⟩ := hs₂
      rw [Finmap.lookup_insert] at ht₁
      obtain rfl := Option.some.inj ht₁
      obtain ⟨deadline, -, hf⟩ := Outcome.bind_eq_ok.1 hf
      obtain ⟨-, rfl⟩ := Prod.mk.inj (Outcome.ok.inj hf)
      rw [Finmap.insert_insert]
      exact .write ht (.single (.fill deadline hkind hopen hagent hfull))
    · have hf := hs₂.2 _ (Finmap.lookup_insert _)
      simp [hdeadline, Outcome.expect] at hf
    · obtain ⟨-, t₁, -, hf⟩ := hs₂
      simp [hdeadline, Outcome.expect] at hf
  · refine .pure fun s₂ hs₂ => ?_
    subst hs₂
    exact .write ht (.single (.join hkind hopen hagent (not_le.1 hfull)))

/-- Its output is verified, or it is open again with one failed attempt more. -/
theorem progresses_submit (submitter : PublicKey) (outputHash : Hash) :
    Progresses s (submit taskId submitter outputHash) := by
  refine Progresses.bind (progresses_onTask fun t a t' _ h => ?_) fun verified s₁ => ?_
  · simp only [Outcome.bind_eq_ok, Outcome.ensure_eq_ok, hashMatchOf_eq_ok] at h
    obtain ⟨hash, hkind, _, hclaimed, _, hclaimant, h⟩ := h
    split_ifs at h
    · obtain ⟨-, rfl⟩ := Prod.mk.inj (Outcome.ok.inj h)
      exact .single (.verify hkind hclaimed hclaimant)
    · obtain ⟨-, rfl⟩ := Prod.mk.inj (Outcome.ok.inj h)
      exact .single (.reopen hclaimed (.inl ⟨hash, hkind⟩))
  · refine Progresses.bind (progresses_when fun _ => ?_) fun _ _ => progresses_pure _
    refine Progresses.bind (progresses_onTask fun t a t' _ h => ?_) fun _ s₂ => ?_
    · obtain ⟨n, -, h⟩ := Outcome.bind_eq_ok.1 h
      obtain ⟨-, rfl⟩ := Prod.mk.inj (Outcome.ok.inj h)
      exact .single (.annotate t.minReputation n t.capabilities)
    · exact (progresses_addFailed submitter).conseq (fun _ => id) (fun _ _ h => h.1)
        (fun _ _ h => h.1) fun _ h => h.1

/-- An entry of a contest is added to the others. -/
theorem progresses_submitContestAnswer (submitter : PublicKey) (answer : String) (now : DateTime) :
    Progresses s (submitContestAnswer taskId submitter answer now) := by
  refine progresses_onTask fun t a t' _ h => ?_
  simp only [Outcome.bind_eq_ok, Outcome.ensure_eq_ok, Outcome.pure_eq, Outcome.ok.injEq,
    Prod.mk.injEq, disputableOf_eq_ok] at h
  obtain ⟨kind, hkind, _, hopen, _, -, _, -, _, -, _, -, _, hnew, _, -, -, rfl⟩ := h
  exact .single (.enter _ hkind hopen hnew rfl rfl)

/-- Its entries come to an end. -/
theorem progresses_closeContest (caller : PublicKey) (now : DateTime) :
    Progresses s (closeContest taskId caller now) := by
  refine progresses_onTask fun t a t' _ h => ?_
  simp only [Outcome.bind_eq_ok, Outcome.ensure_eq_ok, disputableOf_eq_ok] at h
  obtain ⟨_, -, kind, hkind, _, -, _, hopen, _, -, h⟩ := h
  split_ifs at h with hempty
  · obtain ⟨-, rfl⟩ := Prod.mk.inj (Outcome.ok.inj h)
    exact .single (.shut .noAnswers hkind hopen)
  · obtain ⟨deadline, -, h⟩ := Outcome.bind_eq_ok.1 h
    obtain ⟨-, rfl⟩ := Prod.mk.inj (Outcome.ok.inj h)
    exact .single (.close deadline hkind hopen hempty)

/-- One of them is picked. -/
theorem progresses_pickAnswer (caller answerer : PublicKey) (now : DateTime) :
    Progresses s (pickAnswer taskId caller answerer now) := by
  refine progresses_onTask fun t a t' _ h => ?_
  simp only [Outcome.bind_eq_ok, Outcome.ensure_eq_ok, Outcome.pure_eq, Outcome.ok.injEq,
    Prod.mk.injEq, disputableOf_eq_ok] at h
  obtain ⟨kind, hkind, _, -, _, hstatus, _, -, _, hanswer, -, rfl⟩ := h
  exact .single (.pick hkind hstatus hanswer)

/-! ## Disputes and votes -/

/-- A dispute ends in favour of the claimant or of the challenger. -/
theorem progresses_resolveDispute (outcome : DisputeResolution) :
    Progresses s (resolveDispute taskId outcome) := by
  -- After the ruling is written, the task is still disputed.
  refine Triple.bind (R := fun _ s₁ => Progress s s₁ ∧ ∃ t kind d,
    s₁.tasks.lookup taskId = some t ∧ t.kind = .disputable kind ∧ t.status = .disputed ∧
      kind.dispute = some d ∧ d.resolution.isSome)
    (triple_onTask.conseq (fun _ => id) (fun parties s₁ hs₁ => ?_) (fun _ _ h => h.1 ▸ .refl s)
      fun _ h => h.1 ▸ .refl s) fun parties => .of_state fun s₁ hs₁ => ?_
  · obtain ⟨t, t', ht, hf, rfl⟩ := hs₁
    simp only [Outcome.bind_eq_ok, Outcome.ensure_eq_ok, Outcome.pure_eq, Outcome.ok.injEq,
      Prod.mk.injEq, disputableOf_eq_ok] at hf
    obtain ⟨_, hstatus, claimant, -, kind, hkind, d, -, -, rfl⟩ := hf
    exact ⟨.write ht (.single (.rule _ hkind hstatus)), _, _, _, Finmap.lookup_insert _, rfl,
      hstatus, rfl, rfl⟩
  · -- The loser is charged, which leaves the task as the ruling left it.
    obtain ⟨hprogress, t, kind, d, ht, hkind, hstatus, hd, hruled⟩ := hs₁
    refine Triple.bind ((progresses_addFailed parties.2).conseq (fun _ => id) (fun _ _ => id)
      (fun _ _ h => hprogress.trans h.1) fun _ h => hprogress.trans h.1)
      fun _ => .of_state fun s₂ hs₂ => ?_
    have hprogress₂ := hprogress.trans hs₂.1
    refine ((progresses_onTask fun t₁ a t' ht₁ h => ?_).bind fun _ _ => progresses_pure _).conseq
      (fun _ => id) (fun _ _ => hprogress₂.trans) (fun _ _ => hprogress₂.trans)
      fun _ => hprogress₂.trans
    rw [hs₂.2, ht] at ht₁
    obtain rfl := Option.some.inj ht₁
    obtain ⟨-, rfl⟩ := Prod.mk.inj (Outcome.ok.inj h)
    exact .single (.upheld hkind hstatus hd hruled)

/-- An operation that pays nobody, on a single task. -/
def ProgressAt (taskId : Uuid) (s s' : TaskBoard) : Prop :=
  Progress s s' ∧ ∀ x ≠ taskId, s'.tasks.lookup x = s.tasks.lookup x

/-- The vote is counted on a task whose answers are in. -/
theorem progresses_resolveConsensus
    (hclaimed : ∀ t kind, s.tasks.lookup taskId = some t → t.kind = .consensus kind →
      t.status = .claimed) :
    Triple (· = s) (resolveConsensus taskId) (fun _ => ProgressAt taskId s)
      (fun _ => ProgressAt taskId s) (ProgressAt taskId s) := by
  refine .get_bind fun s₁ hs₁ => ?_
  subst hs₁
  -- Without a task, or on one that is no vote, nothing is done.
  have hrefl : ∀ {s' : TaskBoard}, s' = s₁ → ProgressAt taskId s₁ s' := by
    rintro _ rfl
    exact ⟨.refl _, fun _ _ => rfl⟩
  split
  · exact .pure fun _ => hrefl
  · next t ht =>
    split
    · next kind hkind =>
      have hkeep : ∀ {s₂ : TaskBoard}, Progress s₁ s₂ ∧ s₂.tasks = s₁.tasks →
          ProgressAt taskId s₁ s₂ := fun h => ⟨h.1, fun x _ => by rw [h.2]⟩
      refine Triple.bind ((progresses_losers _).conseq (fun s₂ hs₂ => ?_) (fun _ _ => id)
        (fun _ _ => hkeep) fun _ => hkeep) fun _ => .modify fun s₂ hs₂ => ?_
      · rw [hs₂]
        exact ⟨.refl _, rfl⟩
      · -- Charging the losers has left the task, so it is its vote that is written.
        obtain ⟨hprogress, htasks⟩ := hs₂
        refine ⟨hprogress.trans (.write (htasks ▸ ht) (.single
          (.vote hkind (hclaimed t kind ht hkind)))), fun x hx => ?_⟩
        rw [← htasks]
        exact Finmap.lookup_insert_of_ne _ hx
    · exact .pure fun _ => hrefl

/-- An answer is recorded, and the last one is followed by the vote. -/
theorem progresses_submitConsensusAnswer (agent : PublicKey) (answer : String) (now : DateTime) :
    Progresses s (submitConsensusAnswer taskId agent answer now) := by
  -- After the answer is written, the task is still claimed.
  refine Triple.bind (R := fun _ s₁ => Progress s s₁ ∧ ∀ t kind,
    s₁.tasks.lookup taskId = some t → t.kind = .consensus kind → t.status = .claimed)
    (triple_onTask.conseq (fun _ => id) (fun _ s₁ hs₁ => ?_) (fun _ _ h => h.1 ▸ .refl s)
      fun _ h => h.1 ▸ .refl s) fun kind => .of_state fun s₁ hs₁ => ?_
  · obtain ⟨t, t', ht, hf, rfl⟩ := hs₁
    simp only [Outcome.bind_eq_ok, Outcome.ensure_eq_ok, Outcome.pure_eq, Outcome.ok.injEq,
      Prod.mk.injEq, consensusOf_eq_ok, Outcome.okOr_eq_ok] at hf
    obtain ⟨kind, hkind, _, hstatus, _, -, _, -, assignment, hagent, _, -, -, rfl⟩ := hf
    refine ⟨.write ht (.single (.answer answer hkind hstatus hagent)), fun t₁ kind₁ ht₁ _ => ?_⟩
    rw [Finmap.lookup_insert] at ht₁
    obtain rfl := Option.some.inj ht₁
    exact hstatus
  · -- Only the last answer brings the vote with it.
    obtain ⟨hprogress, hclaimed⟩ := hs₁
    refine ((progresses_when fun _ => ?_).bind fun _ _ => progresses_pure _).conseq
      (fun _ => id) (fun _ _ => hprogress.trans) (fun _ _ => hprogress.trans)
      fun _ => hprogress.trans
    exact (progresses_resolveConsensus hclaimed).conseq (fun _ => id) (fun _ _ h => h.1)
      (fun _ _ h => h.1) fun _ h => h.1

/-- Votes counted one after the other: each is on a task of its own. -/
theorem progresses_resolveAll {ids : List Uuid} (hids : ids.Nodup)
    (hclaimed : ∀ x ∈ ids, ∀ t kind, s.tasks.lookup x = some t → t.kind = .consensus kind →
      t.status = .claimed) : Progresses s (forEach ids resolveConsensus) := by
  induction ids generalizing s with
  | nil => exact progresses_pure _
  | cons x ids ih =>
    obtain ⟨hx, hids⟩ := List.nodup_cons.1 hids
    refine Triple.bind ((progresses_resolveConsensus (hclaimed x List.mem_cons_self)).conseq
      (fun _ => id) (fun _ _ => id) (fun _ _ h => h.1) fun _ h => h.1)
      fun _ => .of_state fun s₁ hs₁ => ?_
    obtain ⟨hprogress, hother⟩ := hs₁
    refine (ih hids fun y hy t kind ht => ?_).conseq (fun _ => id) (fun _ _ => hprogress.trans)
      (fun _ _ => hprogress.trans) fun _ => hprogress.trans
    -- The votes counted before it were on other tasks.
    rw [hother y fun he => hx (he ▸ hy)] at ht
    exact hclaimed y (List.mem_cons_of_mem _ hy) t kind ht

/-- The tasks of a board stand under their ids. -/
def TasksKeyed (s : TaskBoard) : Prop := ∀ x t, s.tasks.lookup x = some t → t.id = x

/-- A task is written under its own id. -/
theorem TasksKeyed.insert (h : s.TasksKeyed) (hid : task.id = taskId) :
    TasksKeyed { s with tasks := s.tasks.insert taskId task } := by
  intro x t hx
  rw [Finmap.lookup_insert_eq] at hx
  split_ifs at hx with hxid
  · rw [← Option.some.inj hx, hid, hxid]
  · exact h x t hx

/-- The same tasks stand under the same ids. -/
theorem TasksKeyed.congr (h : s.TasksKeyed) (htasks : s'.tasks = s.tasks) : s'.TasksKeyed := by
  rw [TasksKeyed, htasks]
  exact h

/-- So no two tasks have an id in common. -/
theorem TasksKeyed.values_nodup (h : s.TasksKeyed) : (s.tasks.values.map Task.id).Nodup := by
  rw [Finmap.values, List.map_filterMap]
  have hids : s.tasks.keys.ascending.filterMap (fun x => (s.tasks.lookup x).map Task.id) =
      s.tasks.keys.ascending := by
    refine (List.filterMap_congr fun x hx => ?_).trans List.filterMap_some
    obtain ⟨t, ht⟩ := Finmap.mem_iff.1 (Finmap.mem_keys.1 (Finset.mem_ascending.1 hx))
    rw [ht, Option.map_some, h x t ht]
  rw [hids]
  exact Finset.nodup_ascending _

/-- A pass counts the votes that have expired, one after the other. -/
theorem progresses_resolveExpiredConsensusTasks (h : s.TasksKeyed) (now : DateTime) :
    Progresses s (resolveExpiredConsensusTasks now) := by
  refine .get_bind fun s₁ hs₁ => ?_
  subst hs₁
  refine (progresses_resolveAll ?_ fun x hx t kind ht hkind => ?_).bind fun _ _ => progresses_pure _
  · -- The ids are distinct since they are those of a selection of the tasks.
    exact h.values_nodup.sublist (List.filter_sublist.map _)
  · obtain ⟨t', ht', rfl⟩ := List.mem_map.1 hx
    obtain ⟨ht', hdue⟩ := List.mem_filter.1 ht'
    obtain ⟨y, hy⟩ := Finmap.mem_values.1 ht'
    rw [h y t' hy, hy] at ht
    obtain rfl := Option.some.inj ht
    -- A task is due only while it is claimed.
    rw [isDue, hkind] at hdue
    exact (of_decide_eq_true hdue).1

/-! ## The passes of the sweep -/

/-- A pass moves each task it goes over, or leaves it. -/
theorem progresses_sweepOver {f : Task → Outcome BoardError (Option Task)}
    (hf : ∀ t t', f t = .ok (some t') → t.Works t') (ids : List Uuid) :
    Progresses s (sweepOver f ids) := by
  induction ids generalizing s with
  | nil => exact progresses_pure _
  | cons x ids ih =>
    refine .get_bind fun s₁ hs₁ => ?_
    subst hs₁
    refine .lift_known (fun moved hmoved => ?_) (fun _ _ => .refl _) fun _ => .refl _
    -- A task the pass leaves is not written.
    refine Progresses.bind (progresses_when fun hsome => .modify fun s₂ hs₂ => ?_)
      fun _ s₂ => ih.bind fun _ _ => progresses_pure _
    subst hs₂
    obtain ⟨t', rfl⟩ := Option.isSome_iff_exists.1 hsome
    cases ht : s₂.tasks.lookup x with
    | none =>
      rw [ht] at hmoved
      cases hmoved
    | some t =>
      rw [ht] at hmoved
      exact .write ht (.single (hf t t' hmoved))

/-- It goes over all of them. -/
theorem progresses_sweep {f : Task → Outcome BoardError (Option Task)}
    (hf : ∀ t t', f t = .ok (some t') → t.Works t') : Progresses s (sweep f) := by
  refine .get_bind fun s₁ hs₁ => ?_
  subst hs₁
  exact progresses_sweepOver hf _

/-- A contest that was not closed in time ends without a winner. -/
theorem progresses_closeUnclosedContests (now : DateTime) :
    Progresses s (closeUnclosedContests now) := by
  refine progresses_sweep fun t t' h => ?_
  rw [closeUnclosed] at h
  split_ifs at h with hopen
  · obtain ⟨deadline, hdeadline, h⟩ := Outcome.bind_eq_ok.1 h
    have h := Outcome.ok.inj h
    split_ifs at h with hpast
    obtain rfl := Option.some.inj h
    -- Only a contest has a deadline for answers.
    cases hkind : t.kind with
    | disputable kind =>
      rw [← hkind]
      exact .shut .neverClosed hkind hopen
    | _ =>
      rw [Task.submissionDeadline, hkind] at hdeadline
      obtain rfl := Outcome.ok.inj hdeadline
      obtain ⟨d, hd, -⟩ := hpast
      cases hd
  · cases Outcome.ok.inj h

/-- One without a pick is split among its answers. -/
theorem progresses_splitUnpickedContests (now : DateTime) :
    Progresses s (splitUnpickedContests now) := by
  refine progresses_sweep fun t t' h => ?_
  rw [splitUnpicked] at h
  split at h
  · next kind hkind =>
    split_ifs at h with hdue
    · obtain rfl := Option.some.inj (Outcome.ok.inj h)
      exact .split hkind hdue.1
    · cases Outcome.ok.inj h
  · cases Outcome.ok.inj h

/-- A claim that nobody has challenged stands. -/
theorem progresses_finalizeUnchallengedDisputableTasks (now : DateTime) :
    Progresses s (finalizeUnchallengedDisputableTasks now) := by
  refine progresses_sweep fun t t' h => ?_
  rw [finalizeUnchallenged] at h
  split at h
  · next kind hkind =>
    split_ifs at h with hdue
    · obtain rfl := Option.some.inj (Outcome.ok.inj h)
      exact .finalize hkind hdue.1 hdue.2.1
    · cases Outcome.ok.inj h
  · cases Outcome.ok.inj h

/-- A consensus task that was not joined by enough agents is given up. -/
theorem progresses_cancelUnderstaffedConsensusTasks (now : DateTime) :
    Progresses s (cancelUnderstaffedConsensusTasks now) := by
  refine progresses_sweep fun t t' h => ?_
  rw [cancelUnderstaffed] at h
  split at h
  · next kind hkind =>
    split_ifs at h with hdue
    · obtain rfl := Option.some.inj (Outcome.ok.inj h)
      exact .understaffed hkind hdue.1
    · cases Outcome.ok.inj h
  · cases Outcome.ok.inj h

/-- A claim that has run out goes back to be claimed. -/
theorem progresses_expireClaims (now : DateTime) : Progresses s (expireClaims now) := by
  refine progresses_sweep fun t t' h => ?_
  rw [expireClaim] at h
  split_ifs at h with hdue
  · obtain rfl := Option.some.inj (Outcome.ok.inj h)
    obtain ⟨hclaimed, d, hd, -⟩ := hdue
    exact .reopen hclaimed (.inr (Option.isSome_iff_exists.2 ⟨d, hd⟩))
  · cases Outcome.ok.inj h

end TaskBoard

end Itx
