import Itx.Hub.TaskRuns

/-!
# Who takes part in a task

A task has a claimant, assignees or answers, according to its kind. An agent comes to take
part in it in one of three ways (`claim_task`, `join_consensus_task` and
`submit_contest_answer`, `hub/src/board.rs`), each with its own checks.

* What every other operation leaves alone: who takes part in a task, who posted it, and what
  it requires (`Task.Retains`), but for a claimant, who may lose the claim.
* What each of the three ways checks (`Task.Admits`).
* A run, with what was on the board each time an agent was admitted (`Admission`): nobody
  takes part in a task who was not admitted with what it requires, and its poster never does.
-/

namespace Itx

open TaskBoard Call

/-- Updating an entry does not change its key. -/
theorem map_updateFirst {α β : Type*} {p : α → Bool} {f : α → α} {key : α → β}
    (hf : ∀ a, key (f a) = key a) (l : List α) : (updateFirst p f l).map key = l.map key := by
  induction l with
  | nil => rfl
  | cons a l ih =>
    rw [updateFirst]
    split_ifs
    · rw [List.map_cons, List.map_cons, hf]
    · rw [List.map_cons, List.map_cons, ih]

namespace Task

/-- Those who answered a contest. -/
def answerers (task : Task) : List PublicKey :=
  match task.kind with
  | .disputable kind => kind.answers.map ContestAnswer.pubkey
  | _ => []

/-- Those who joined a consensus task. -/
def assigned (task : Task) : Finset PublicKey :=
  match task.kind with
  | .consensus kind => kind.assignees.keys
  | _ => ∅

/-- How many may join a consensus task. -/
def seats (task : Task) : ℕ :=
  match task.kind with
  | .consensus kind => kind.numAssignees
  | _ => 0

/-- The agent claimed, joined or answered the task. -/
def TakesPart (task : Task) (pk : PublicKey) : Prop :=
  task.claimant = some pk ∨ pk ∈ task.assigned ∨ pk ∈ task.answerers

/-- A write that admits nobody. -/
structure Retains (t t' : Task) : Prop where
  poster : t'.poster = t.poster
  minReputation : t'.minReputation = t.minReputation
  claimant : t'.claimant = t.claimant ∨ t'.claimant = none
  answerers : t'.answerers = t.answerers
  assigned : t'.assigned = t.assigned
  seats : t'.seats = t.seats

variable {t t' t'' : Task}

namespace Retains

/-- A task retains what it has. -/
theorem refl (t : Task) : Retains t t := ⟨rfl, rfl, .inl rfl, rfl, rfl, rfl⟩

/-- What is retained twice is retained. -/
theorem trans (h : Retains t t') (h' : Retains t' t'') : Retains t t'' where
  poster := h'.poster.trans h.poster
  minReputation := h'.minReputation.trans h.minReputation
  claimant := by
    rcases h'.claimant with h' | h'
    · rw [h']
      exact h.claimant
    · exact .inr h'
  answerers := h'.answerers.trans h.answerers
  assigned := h'.assigned.trans h.assigned
  seats := h'.seats.trans h.seats

/-- So it is over any number of moves. -/
theorem of_run (h : Relation.ReflTransGen Retains t t') : Retains t t' := by
  induction h with
  | refl => exact .refl t
  | tail _ hlast ih => exact ih.trans hlast

/-- Nobody comes in by a move that retains. -/
theorem takesPart (h : Retains t t') {pk : PublicKey} (hpk : t'.TakesPart pk) : t.TakesPart pk := by
  rcases hpk with hpk | hpk | hpk
  · rcases h.claimant with hc | hc
    · exact .inl (hc ▸ hpk)
    · rw [hc] at hpk
      cases hpk
  · exact .inr (.inl (h.assigned ▸ hpk))
  · exact .inr (.inr (h.answerers ▸ hpk))

/-- The contest is written, with the answers of the same agents. -/
theorem disputable {kind kind' : DisputableKind} {status : TaskStatus} {settledAt : Option DateTime}
    (hkind : t.kind = .disputable kind)
    (h : kind'.answers.map ContestAnswer.pubkey = kind.answers.map ContestAnswer.pubkey) :
    Retains t { t with kind := .disputable kind', status, settledAt } where
  poster := rfl
  minReputation := rfl
  claimant := .inl rfl
  answerers := by
    rw [Task.answerers, Task.answerers, hkind]
    exact h
  assigned := by
    rw [Task.assigned, Task.assigned, hkind]
  seats := by
    rw [Task.seats, Task.seats, hkind]

/-- The consensus task is written, with the same assignees. -/
theorem consensus {kind : ConsensusKind} {status : TaskStatus} {settledAt : Option DateTime}
    {assignees : Finmap fun _ : PublicKey => ConsensusAssignment} (hkind : t.kind = .consensus kind)
    (h : assignees.keys = kind.assignees.keys) :
    Retains t { t with kind := .consensus { kind with assignees }, status, settledAt } where
  poster := rfl
  minReputation := rfl
  claimant := .inl rfl
  answerers := by
    rw [Task.answerers, Task.answerers, hkind]
  assigned := by
    rw [Task.assigned, Task.assigned, hkind]
    exact h
  seats := by
    rw [Task.seats, Task.seats, hkind]

end Retains

/-- The vote is counted among the assignees there are. -/
theorem retains_resolved {kind : ConsensusKind} {winningAnswer : Option String}
    (hkind : t.kind = .consensus kind) : Retains t (resolved t kind winningAnswer) := by
  cases winningAnswer with
  | none => exact ⟨rfl, rfl, .inl rfl, rfl, rfl, rfl⟩
  | some answer => exact .consensus hkind (Finmap.keys_filterMap (fun _ _ => rfl) _)

/-- Paying a recipient lets nobody in. -/
theorem retains_paidTask {recipient : PublicKey} {kind : TaskKind} {nowFullyPaid credited : Bool}
    {now : DateTime} (h : t.payRecipient recipient = .ok (some (kind, nowFullyPaid, credited))) :
    Retains t (paidTask t now kind nowFullyPaid) := by
  -- Only the flag of a recipient is written, and how the task stands.
  have hretains : ∀ status settledAt, Retains t { t with kind, status, settledAt } := by
    intro status settledAt
    cases pays_of_payRecipient h with
    | hashMatch hkind =>
      rw [← hkind]
      exact ⟨rfl, rfl, .inl rfl, rfl, rfl, rfl⟩
    | consensus hkind ha => exact .consensus hkind (Finmap.keys_insert_of_lookup ha)
    | contest hkind =>
      refine .disputable hkind (map_updateFirst ?_ _)
      exact fun _ => rfl
    | single hkind => exact .disputable hkind rfl
  rw [paidTask]
  split_ifs
  · exact hretains _ _
  · exact hretains t.status t.settledAt

/-- A task nobody takes part in yet. -/
theorem Fresh.not_takesPart (h : t.Fresh) (pk : PublicKey) : ¬ t.TakesPart pk := by
  rintro (hpk | hpk | hpk)
  · rw [h.claimant] at hpk
    cases hpk
  · rw [assigned] at hpk
    split at hpk
    · next kind hkind =>
      rw [(h.consensus kind hkind).1] at hpk
      cases hpk
    · cases hpk
  · rw [answerers] at hpk
    split at hpk
    · next kind hkind =>
      rw [(h.disputable kind hkind).1] at hpk
      cases hpk
    · cases hpk

end Task

namespace TaskBoard

variable {s s' : TaskBoard} {taskId : Uuid} {task : Task}

/-! ## What admits nobody -/

/-- The operation admits nobody, whatever its outcome. -/
abbrev Keeping {α : Type} (s : TaskBoard) (x : BoardCall α) : Prop :=
  Triple (· = s) x (fun _ => MovedBy Task.Retains s) (fun _ => MovedBy Task.Retains s)
    (MovedBy Task.Retains s)

/-- What a call keeps is kept by the board it leaves. -/
theorem Keeping.moved {α : Type} {x : BoardCall α} (h : Keeping s x) :
    MovedBy Task.Retains s (x s).1 := by
  have h := h s rfl
  generalize x s = r at h
  obtain ⟨s', a | e | _⟩ := r
  exacts [h, h, h]

/-- Returning lets nobody in. -/
theorem keeping_pure {α : Type} (a : α) : Keeping s (pure a : BoardCall α) := by
  refine .pure ?_
  rintro _ rfl
  exact .refl _

/-- Calls that let nobody in, one after the other, let nobody in. -/
theorem Keeping.bind {α β : Type} {x : BoardCall α} {f : α → BoardCall β}
    (hx : Keeping s x) (hf : ∀ a s', Keeping s' (f a)) : Keeping s (x >>= f) := by
  refine Triple.bind hx fun a => .of_state fun s₁ hs₁ => ?_
  exact (hf a s₁).conseq (fun _ => id) (fun _ _ h => hs₁.trans h) (fun _ _ h => hs₁.trans h)
    fun _ h => hs₁.trans h

/-- Nor does a call that is left out. -/
theorem keeping_when {p : Prop} [Decidable p] {x : BoardCall Unit} (hx : Keeping s x) :
    Keeping s (Call.when p x) := by
  rw [Call.when]
  split_ifs
  · exact hx
  · exact keeping_pure _

/-- A call on a task lets nobody in if its body does not. -/
theorem keeping_onTask {α : Type} {f : TaskBoard → Task → Outcome BoardError (α × Task)}
    (h : ∀ t a t', f s t = .ok (a, t') → t.Retains t') : Keeping s (onTask taskId f) := by
  refine triple_onTask.conseq (fun _ => id) (fun a s' hs' => ?_) (fun _ s' hs' => ?_) fun s' hs' => ?_
  · obtain ⟨t, t', ht, hf, rfl⟩ := hs'
    exact .write ht (.single (h t a t' hf)) rfl
  · rw [hs'.1]
    exact .refl s
  · rw [hs'.1]
    exact .refl s

/-- A failure is counted beside the tasks. -/
theorem keeping_addFailed (pk : PublicKey) : Keeping s (addFailed pk) := by
  refine (progresses_addFailed pk).conseq (fun _ => id) ?_ ?_ ?_
  · exact fun _ _ h => .of_eq h.2
  · exact fun _ _ h => .of_eq h.2
  · exact fun _ h => .of_eq h.2

/-- The same call is made for one after the other. -/
theorem keeping_forEach {ι : Type} {f : ι → BoardCall Unit} (hf : ∀ i s, Keeping s (f i))
    (l : List ι) : Keeping s (forEach l f) := by
  induction l generalizing s with
  | nil => exact keeping_pure _
  | cons i l ih => exact (hf i s).bind fun _ _ => ih

/-- A pass retains each of the tasks it goes over. -/
theorem keeping_sweepOver {f : Task → Outcome BoardError (Option Task)}
    (hf : ∀ t t', f t = .ok (some t') → t.Retains t') (ids : List Uuid) :
    Keeping s (sweepOver f ids) := by
  induction ids generalizing s with
  | nil => exact keeping_pure _
  | cons x ids ih =>
    refine .get_bind fun s₁ hs₁ => ?_
    subst hs₁
    refine .lift_known (fun moved hmoved => ?_) (fun _ _ => .refl _) fun _ => .refl _
    refine Keeping.bind ?_ fun _ s₂ => ih.bind fun _ _ => keeping_pure _
    rw [Call.when]
    split_ifs with hsome
    · refine .modify fun s₂ hs₂ => ?_
      subst hs₂
      obtain ⟨t', rfl⟩ := Option.isSome_iff_exists.1 hsome
      cases ht : s₂.tasks.lookup x with
      | none =>
        rw [ht] at hmoved
        cases hmoved
      | some t =>
        rw [ht] at hmoved
        exact .write ht (.single (hf t t' hmoved)) rfl
    · exact keeping_pure _

/-- It goes over all of them. -/
theorem keeping_sweep {f : Task → Outcome BoardError (Option Task)}
    (hf : ∀ t t', f t = .ok (some t') → t.Retains t') : Keeping s (sweep f) := by
  refine .get_bind fun s₁ hs₁ => ?_
  subst hs₁
  exact keeping_sweepOver hf _

/-- The capabilities that are asked for may change, who has been let in stays. -/
theorem keeping_setCapabilities (capabilities : Finset String) :
    Keeping s (setCapabilities taskId capabilities) := by
  refine .get_bind fun s₁ hs₁ => ?_
  subst hs₁
  refine .lift_known (fun t ht => ?_) (fun _ _ => .refl _) fun h => absurd h Outcome.okOr_ne_panic
  refine .modify fun s₂ hs₂ => ?_
  subst hs₂
  have hretains : t.Retains { t with capabilities } := ⟨rfl, rfl, .inl rfl, rfl, rfl, rfl⟩
  exact .write (Outcome.okOr_eq_ok.1 ht) (.single hretains) rfl

/-- A cancelled task keeps whom it has let in. -/
theorem keeping_cancelTask : Keeping s (cancelTask taskId) := by
  refine keeping_onTask fun t a t' h => ?_
  simp only [Outcome.bind_eq_ok, Outcome.pure_eq, Outcome.ok.injEq, Prod.mk.injEq] at h
  obtain ⟨_, -, _, -, -, rfl⟩ := h
  exact ⟨rfl, rfl, .inl rfl, rfl, rfl, rfl⟩

/-- An output is its claimant's. If it is wrong, the claimant goes out. -/
theorem keeping_submit (submitter : PublicKey) (outputHash : Hash) :
    Keeping s (submit taskId submitter outputHash) := by
  refine Keeping.bind (keeping_onTask fun t a t' h => ?_) fun verified s₁ => ?_
  · simp only [Outcome.bind_eq_ok] at h
    obtain ⟨hash, -, _, -, _, -, h⟩ := h
    split_ifs at h
    · obtain ⟨-, rfl⟩ := Prod.mk.inj (Outcome.ok.inj h)
      exact ⟨rfl, rfl, .inl rfl, rfl, rfl, rfl⟩
    · obtain ⟨-, rfl⟩ := Prod.mk.inj (Outcome.ok.inj h)
      exact ⟨rfl, rfl, .inr rfl, rfl, rfl, rfl⟩
  · refine Keeping.bind (keeping_when ?_) fun _ _ => keeping_pure _
    refine Keeping.bind (keeping_onTask fun t a t' h => ?_) fun _ _ => keeping_addFailed submitter
    obtain ⟨n, -, h⟩ := Outcome.bind_eq_ok.1 h
    obtain ⟨-, rfl⟩ := Prod.mk.inj (Outcome.ok.inj h)
    exact ⟨rfl, rfl, .inl rfl, rfl, rfl, rfl⟩

/-- The entries are closed, and are those that have been let in. -/
theorem keeping_closeContest (caller : PublicKey) (now : DateTime) :
    Keeping s (closeContest taskId caller now) := by
  refine keeping_onTask fun t a t' h => ?_
  simp only [Outcome.bind_eq_ok, disputableOf_eq_ok] at h
  obtain ⟨_, -, kind, hkind, _, -, _, -, _, -, h⟩ := h
  split_ifs at h
  · obtain ⟨-, rfl⟩ := Prod.mk.inj (Outcome.ok.inj h)
    exact ⟨rfl, rfl, .inl rfl, rfl, rfl, rfl⟩
  · obtain ⟨deadline, -, h⟩ := Outcome.bind_eq_ok.1 h
    obtain ⟨-, rfl⟩ := Prod.mk.inj (Outcome.ok.inj h)
    exact .disputable hkind rfl

/-- The one that is picked is among them. -/
theorem keeping_pickAnswer (caller answerer : PublicKey) (now : DateTime) :
    Keeping s (pickAnswer taskId caller answerer now) := by
  refine keeping_onTask fun t a t' h => ?_
  simp only [Outcome.bind_eq_ok, Outcome.pure_eq, Outcome.ok.injEq, Prod.mk.injEq,
    disputableOf_eq_ok] at h
  obtain ⟨kind, hkind, _, -, _, -, _, -, _, -, -, rfl⟩ := h
  refine .disputable hkind (map_updateFirst ?_ _)
  exact fun _ => rfl

/-- A dispute is between two that are known. -/
theorem keeping_resolveDispute (outcome : DisputeResolution) :
    Keeping s (resolveDispute taskId outcome) := by
  refine Keeping.bind (keeping_onTask fun t a t' h => ?_) fun parties s₁ => ?_
  · simp only [Outcome.bind_eq_ok, Outcome.pure_eq, Outcome.ok.injEq, Prod.mk.injEq,
      disputableOf_eq_ok] at h
    obtain ⟨_, -, claimant, -, kind, hkind, d, -, -, rfl⟩ := h
    exact .disputable hkind rfl
  · refine (keeping_addFailed _).bind fun _ s₂ => Keeping.bind (keeping_onTask fun t a t' h => ?_)
      fun _ _ => keeping_pure _
    obtain ⟨-, rfl⟩ := Prod.mk.inj (Outcome.ok.inj h)
    exact ⟨rfl, rfl, .inl rfl, rfl, rfl, rfl⟩

/-- A vote is of the assignees. -/
theorem keeping_resolveConsensus : Keeping s (resolveConsensus taskId) := by
  refine .get_bind fun s₁ hs₁ => ?_
  subst hs₁
  split
  · exact keeping_pure _
  · next t ht =>
    split
    · next kind hkind =>
      -- The losers are charged first: the task is still there when it is written.
      refine Triple.bind ((progresses_losers _).conseq (fun s₂ hs₂ => ?_) (fun _ _ => id)
        (fun _ _ h => .of_eq h.2) fun _ h => .of_eq h.2) fun _ => .modify fun s₂ hs₂ => ?_
      · rw [hs₂]
        exact ⟨.refl _, rfl⟩
      · exact .write ht (.single (Task.retains_resolved hkind)) (by rw [← hs₂.2])
    · exact keeping_pure _

/-- An answer is of an assignee. -/
theorem keeping_submitConsensusAnswer (agent : PublicKey) (answer : String) (now : DateTime) :
    Keeping s (submitConsensusAnswer taskId agent answer now) := by
  refine Keeping.bind (keeping_onTask fun t a t' h => ?_) fun kind s₁ =>
    (keeping_when keeping_resolveConsensus).bind fun _ _ => keeping_pure _
  simp only [Outcome.bind_eq_ok, Outcome.pure_eq, Outcome.ok.injEq, Prod.mk.injEq,
    consensusOf_eq_ok, Outcome.okOr_eq_ok] at h
  obtain ⟨kind, hkind, _, -, _, -, _, -, assignment, hagent, _, -, -, rfl⟩ := h
  exact .consensus hkind (Finmap.keys_insert_of_lookup hagent)

/-- The votes that have expired are counted alike. -/
theorem keeping_resolveExpiredConsensusTasks (now : DateTime) :
    Keeping s (resolveExpiredConsensusTasks now) := by
  refine .get_bind fun s₁ hs₁ => ?_
  subst hs₁
  exact (keeping_forEach (fun _ _ => keeping_resolveConsensus) _).bind fun _ _ => keeping_pure _

/-- A contest that is closed by the sweep keeps its entries. -/
theorem keeping_closeUnclosedContests (now : DateTime) : Keeping s (closeUnclosedContests now) := by
  refine keeping_sweep fun t t' h => ?_
  rw [closeUnclosed] at h
  split_ifs at h
  · obtain ⟨deadline, -, h⟩ := Outcome.bind_eq_ok.1 h
    have h := Outcome.ok.inj h
    split_ifs at h
    obtain rfl := Option.some.inj h
    exact ⟨rfl, rfl, .inl rfl, rfl, rfl, rfl⟩
  · cases Outcome.ok.inj h

/-- So does one that is split. -/
theorem keeping_splitUnpickedContests (now : DateTime) : Keeping s (splitUnpickedContests now) := by
  refine keeping_sweep fun t t' h => ?_
  rw [splitUnpicked] at h
  split at h
  · next kind hkind =>
    split_ifs at h
    · obtain rfl := Option.some.inj (Outcome.ok.inj h)
      refine .disputable hkind ?_
      rw [List.map_map]
      rfl
    · cases Outcome.ok.inj h
  · cases Outcome.ok.inj h

/-- A claim that stands is its claimant's. -/
theorem keeping_finalizeUnchallengedDisputableTasks (now : DateTime) :
    Keeping s (finalizeUnchallengedDisputableTasks now) := by
  refine keeping_sweep fun t t' h => ?_
  rw [finalizeUnchallenged] at h
  split at h
  · split_ifs at h
    · obtain rfl := Option.some.inj (Outcome.ok.inj h)
      exact ⟨rfl, rfl, .inl rfl, rfl, rfl, rfl⟩
    · cases Outcome.ok.inj h
  · cases Outcome.ok.inj h

/-- A task that is given up keeps its assignees. -/
theorem keeping_cancelUnderstaffedConsensusTasks (now : DateTime) :
    Keeping s (cancelUnderstaffedConsensusTasks now) := by
  refine keeping_sweep fun t t' h => ?_
  rw [cancelUnderstaffed] at h
  split at h
  · split_ifs at h
    · obtain rfl := Option.some.inj (Outcome.ok.inj h)
      exact ⟨rfl, rfl, .inl rfl, rfl, rfl, rfl⟩
    · cases Outcome.ok.inj h
  · cases Outcome.ok.inj h

/-- So does a claimant whose claim runs out. -/
theorem keeping_expireClaims (now : DateTime) : Keeping s (expireClaims now) := by
  refine keeping_sweep fun t t' h => ?_
  rw [expireClaim] at h
  split_ifs at h
  · obtain rfl := Option.some.inj (Outcome.ok.inj h)
    exact ⟨rfl, rfl, .inr rfl, rfl, rfl, rfl⟩
  · cases Outcome.ok.inj h

/-- A bond opens the dispute, its challenger taking no part in the task. -/
theorem keeping_confirmDisputeBond {depositId : Uuid} {observedAmount : ℕ} {now : DateTime} :
    Keeping s (confirmDisputeBond depositId observedAmount now) := by
  refine triple_confirmDisputeBond.conseq (fun _ => id) ?_ ?_ ?_
  · rintro task s' ⟨d, x, t, kind, dispute, -, -, ht, hkind, -, -, -, rfl, rfl⟩
    refine .write ht (.single ?_) rfl
    exact .disputable hkind rfl
  · rintro _ _ rfl
    exact .refl _
  · rintro _ rfl
    exact .refl _

/-- A new task has nobody yet, the others stay as they are. -/
theorem kept_confirmEscrow {depositId : Uuid} {observedAmount : ℕ} {now createdAt : DateTime}
    (hnew : taskId ∉ s.tasks) (hs : s.DepositsValidated) :
    MovedBy Task.Retains s (confirmEscrow depositId observedAmount now taskId createdAt s).1 := by
  have hend : Ends _ _ _ (confirmEscrow depositId observedAmount now taskId createdAt s) :=
    triple_confirmEscrow _ rfl
  generalize confirmEscrow depositId observedAmount now taskId createdAt s = r at hend
  obtain ⟨s', task | error | _⟩ := r
  · obtain ⟨d, created, hd, -, hcreated, rfl, rfl⟩ := hend
    exact .create (Finmap.lookup_eq_none.2 hnew) (hcreated.fresh (hs depositId d hd) (some depositId))
      hcreated.id_eq rfl
  · obtain rfl : s' = s := hend
    exact .refl _
  · obtain ⟨d, intent, -, -, -, -, rfl⟩ := hend
    exact .of_eq rfl

/-- An attempt at a payout is of a task whose winners are fixed. -/
theorem kept_recordPayoutAttempt (attempt : PayoutAttempt) :
    MovedBy Task.Retains s (s.recordPayoutAttempt attempt) := by
  rcases s.recordPayoutAttempt_cases attempt with h | ⟨t, ht, -, -, h⟩
  · rw [h]
    exact .of_eq rfl
  · rw [h]
    have hretains : t.Retains { t with status := .submitted } := ⟨rfl, rfl, .inl rfl, rfl, rfl, rfl⟩
    exact .write ht (.single hretains) rfl

/-- A payout that is recorded as paid lets nobody in. -/
theorem Recorded.kept {recipient : PublicKey} {amount : ℕ} {now : DateTime}
    (h : Recorded taskId recipient amount now s s') : MovedBy Task.Retains s s' := by
  cases h with
  | again ht => exact .write ht .refl rfl
  | paid ht _ hpay => exact .write ht (.single (Task.retains_paidTask hpay)) rfl

/-- Nor does one that is marked as paid. -/
theorem Marked.kept {recipient : PublicKey} {now : DateTime}
    (h : Marked taskId recipient now s s') : MovedBy Task.Retains s s' := by
  obtain ⟨t, kind, nowFullyPaid, credited, ht, -, hpay, htasks, -⟩ := h
  exact .write ht (.single (Task.retains_paidTask hpay)) htasks

/-- Nor does one that is given up. -/
theorem GivenUp.kept (h : GivenUp taskId s s') : MovedBy Task.Retains s s' := by
  obtain ⟨t, ht, -, htasks⟩ := h.task
  have hretains : t.Retains { t with status := .payoutFailed } := ⟨rfl, rfl, .inl rfl, rfl, rfl, rfl⟩
  exact .write ht (.single hretains) htasks

/-! ## What admits an agent -/

end TaskBoard

/-- A write that admits an agent, and what was checked before it. -/
structure Task.Admits (s : TaskBoard) (agent : PublicKey) (t t' : Task) : Prop where
  poster : t'.poster = t.poster
  minReputation : t'.minReputation = t.minReputation
  notPoster : t.poster ≠ agent
  eligible : t.minReputation ≤ (s.reputationOf agent).completed
  takesPart : ∀ pk, t'.TakesPart pk → t.TakesPart pk ∨ pk = agent
  answerers : t'.answerers = t.answerers ∨ agent ∉ t.answerers ∧
    t.answerers.length < maxContestAnswers ∧ t'.answerers = t.answerers ++ [agent]
  assigned : t'.assigned = t.assigned ∨ t.status = .open ∧ t'.assigned = insert agent t.assigned
  seats : t'.seats = t.seats

namespace TaskBoard

variable {s s' : TaskBoard} {taskId : Uuid} {task : Task} {agent : PublicKey}

/-- An agent is let in with as many completed tasks as the task asks for. -/
theorem checkMinReputation_eq_ok {u : Unit} :
    checkMinReputation s task agent = .ok u ↔
      task.minReputation ≤ (s.reputationOf agent).completed := by
  rw [checkMinReputation, Outcome.ensure_eq_ok]

/-- The agent is admitted to a task, or nothing is done. -/
abbrev Admitting (s : TaskBoard) (taskId : Uuid) (agent : PublicKey) (x : BoardCall Unit) : Prop :=
  Triple (· = s) x (fun _ s' => ∃ t t', s.tasks.lookup taskId = some t ∧ t.Admits s agent t' ∧
    s'.tasks = s.tasks.insert taskId t') (fun _ s' => s' = s) (fun s' => s' = s)

/-- A claim lets one agent in, who passes the check. -/
theorem admitting_claimTask (deadline : DateTime) :
    Admitting s taskId agent (claimTask taskId agent deadline) := by
  refine triple_onTask.conseq (fun _ => id) (fun _ s' h => ?_) (fun _ _ h => h.1) fun _ h => h.1
  obtain ⟨t, t', ht, h, rfl⟩ := h
  simp only [Outcome.bind_eq_ok, Outcome.ensure_eq_ok, Outcome.pure_eq, Outcome.ok.injEq,
    Prod.mk.injEq, checkMinReputation_eq_ok] at h
  obtain ⟨_, -, _, -, _, hposter, _, hreputation, -, rfl⟩ := h
  refine ⟨t, _, ht, ?_, rfl⟩
  refine ⟨rfl, rfl, hposter, hreputation, ?_, .inl rfl, .inl rfl, rfl⟩
  rintro pk (hpk | hpk)
  · exact .inr (Option.some.inj hpk).symm
  · exact .inl (.inr hpk)

/-- An entry of a contest lets one agent in, as long as the contest has room. -/
theorem admitting_submitContestAnswer (answer : String) (now : DateTime) :
    Admitting s taskId agent (submitContestAnswer taskId agent answer now) := by
  refine triple_onTask.conseq (fun _ => id) (fun _ s' h => ?_) (fun _ _ h => h.1) fun _ h => h.1
  obtain ⟨t, t', ht, h, rfl⟩ := h
  -- The checks of an entry are the conditions of an admission.
  simp only [Outcome.bind_eq_ok, Outcome.ensure_eq_ok, Outcome.pure_eq, Outcome.ok.injEq,
    Prod.mk.injEq, disputableOf_eq_ok, checkMinReputation_eq_ok] at h
  obtain ⟨kind, hkind, _, -, _, -, _, -, _, hposter, _, hreputation, _, hnew, _, hroom, -, rfl⟩ := h
  have hanswerers : t.answerers = kind.answers.map ContestAnswer.pubkey := by
    rw [Task.answerers, hkind]
  have hassigned : t.assigned = ∅ := by
    rw [Task.assigned, hkind]
  have hseats : t.seats = 0 := by
    rw [Task.seats, hkind]
  have hconcat : Task.answerers { t with kind := .disputable { kind with
      answers := kind.answers ++ [{ pubkey := agent, answer, submittedAt := now }] } } =
      t.answerers ++ [agent] := by
    rw [hanswerers]
    exact List.map_append
  refine ⟨t, _, ht, ?_, rfl⟩
  refine ⟨rfl, rfl, hposter, hreputation, ?_, .inr ⟨?_, ?_, hconcat⟩, .inl hassigned.symm,
    hseats.symm⟩
  · rintro pk (hpk | hpk | hpk)
    · exact .inl (.inl hpk)
    · cases hpk
    · rw [hconcat, List.mem_append, List.mem_singleton] at hpk
      exact hpk.imp_left fun h => .inr (.inr h)
  · -- An agent who has answered is refused a second time.
    intro hmem
    rw [hanswerers] at hmem
    obtain ⟨a, ha, hkey⟩ := List.mem_map.1 hmem
    exact hnew a ha hkey
  · rw [hanswerers, List.length_map]
    exact hroom

/-- An agent that joins, and whether it fills the task. -/
theorem admits_join {kind kind' : ConsensusKind} {status : TaskStatus}
    (hkind : task.kind = .consensus kind) (hopen : task.status = .open)
    (hposter : task.poster ≠ agent)
    (hreputation : task.minReputation ≤ (s.reputationOf agent).completed)
    (hassignees : kind'.assignees = kind.assignees.insert agent {})
    (hseats : kind'.numAssignees = kind.numAssignees) :
    Task.Admits s agent task { task with kind := .consensus kind', status } := by
  have hanswerers : task.answerers = [] := by
    rw [Task.answerers, hkind]
  have hassigned : Task.assigned { task with kind := .consensus kind', status } =
      insert agent task.assigned := by
    rw [Task.assigned, Task.assigned, hkind]
    dsimp only
    rw [hassignees, Finmap.keys_insert]
  refine ⟨rfl, rfl, hposter, hreputation, ?_, .inl hanswerers.symm, .inr ⟨hopen, hassigned⟩, ?_⟩
  · rintro pk (hpk | hpk | hpk)
    · exact .inl (.inl hpk)
    · rw [hassigned, Finset.mem_insert] at hpk
      exact hpk.symm.imp_left fun h => .inr (.inl h)
    · cases hpk
  · rw [Task.seats, Task.seats, hkind]
    exact hseats

/-- Joining a vote lets one agent in, as long as the clock can show when the vote ends. -/
theorem admitting_joinConsensusTask {now filledAt : DateTime}
    (hclock : ∀ t kind, s.tasks.lookup taskId = some t → t.kind = .consensus kind →
      addMinutes filledAt kind.submissionWindowMinutes ≠ none) :
    Admitting s taskId agent (joinConsensusTask taskId agent now filledAt) := by
  refine Triple.bind (triple_onTask.conseq (fun _ => id) (fun _ _ => id)
    (fun _ _ h => h.1) fun _ h => h.1) fun kind' => .of_state fun s₁ hs₁ => ?_
  obtain ⟨t, t', ht, hf, rfl⟩ := hs₁
  simp only [Outcome.bind_eq_ok, Outcome.ensure_eq_ok, Outcome.pure_eq, Outcome.ok.injEq,
    Prod.mk.injEq, consensusOf_eq_ok, checkMinReputation_eq_ok] at hf
  obtain ⟨kind, hkind, _, hopen, _, -, _, hposter, _, hreputation, _, -, rfl, rfl⟩ := hf
  rw [Call.when]
  split_ifs
  · -- The second write is over the first, and the clock lets it through.
    obtain ⟨deadline, hdeadline⟩ := Option.ne_none_iff_exists'.1 (hclock t kind ht hkind)
    refine triple_onTask.conseq (fun _ => id) (fun _ s₂ hs₂ => ?_) (fun _ s₂ hs₂ => ?_)
      fun s₂ hs₂ => ?_
    · obtain ⟨t₁, t₂, ht₁, hf, rfl⟩ := hs₂
      rw [Finmap.lookup_insert] at ht₁
      obtain rfl := Option.some.inj ht₁
      obtain ⟨deadline, -, hf⟩ := Outcome.bind_eq_ok.1 hf
      obtain ⟨-, rfl⟩ := Prod.mk.inj (Outcome.ok.inj hf)
      refine ⟨t, _, ht, ?_, Finmap.insert_insert ..⟩
      exact admits_join hkind hopen hposter hreputation rfl rfl
    · have hf := hs₂.2 _ (Finmap.lookup_insert _)
      simp [hdeadline, Outcome.expect] at hf
    · obtain ⟨-, t₁, -, hf⟩ := hs₂
      simp [hdeadline, Outcome.expect] at hf
  · refine .pure fun s₂ hs₂ => ?_
    subst hs₂
    refine ⟨t, _, ht, ?_, rfl⟩
    exact admits_join hkind hopen hposter hreputation rfl rfl

end TaskBoard

/-! ## Runs -/

/-- What the board said when an agent was admitted to a task. -/
structure Admission where
  taskId : Uuid
  agent : PublicKey
  minReputation : ℕ
  completed : ℕ
  deriving DecidableEq, Repr

/-- A run of the tasks of a board, with the admissions made in it. -/
structure AdmissionRun where
  run : TaskRun
  admissions : List Admission

namespace TaskOp

/-- The admission an operation makes, if it succeeds. -/
def admissionBy (b : TaskBoard) (taskId : Uuid) (agent : PublicKey) (x : BoardCall Unit) :
    List Admission :=
  match (x b).2, b.tasks.lookup taskId with
  | .ok _, some t => [⟨taskId, agent, t.minReputation, (b.reputationOf agent).completed⟩]
  | _, _ => []

/-- The admissions an operation makes. -/
def admissions (b : TaskBoard) : TaskOp → List Admission
  | claimTask taskId claimant deadline =>
    admissionBy b taskId claimant (TaskBoard.claimTask taskId claimant deadline)
  | joinConsensusTask taskId agent now filledAt =>
    admissionBy b taskId agent (TaskBoard.joinConsensusTask taskId agent now filledAt)
  | submitContestAnswer taskId submitter answer now =>
    admissionBy b taskId submitter (TaskBoard.submitContestAnswer taskId submitter answer now)
  | _ => []

/-- The operations that neither admit an agent nor say what a task requires. -/
def Quiet : TaskOp → Prop
  | claimTask .. => False
  | joinConsensusTask .. => False
  | submitContestAnswer .. => False
  | setMinReputation .. => False
  | _ => True

end TaskOp

/-- A run after an operation. -/
def AdmissionRun.after (r : AdmissionRun) (op : TaskOp) : AdmissionRun :=
  ⟨op.after r.run, op.admissions r.run.board ++ r.admissions⟩

/-- The runs of a board that starts without tasks, and the admissions made in them. -/
def admissionRuns : System AdmissionRun TaskOp where
  init := {r | r.run ∈ (taskRuns r.run.board).init ∧ r.run.board.tasks = ∅ ∧ r.admissions = []}
  step r op r' := op.Enabled r.run ∧ r' = r.after op

/-- What a task requires is set before anybody is admitted to it. -/
def AdmissionRun.Gated (r : AdmissionRun) (op : TaskOp) : Prop :=
  ∀ taskId minReputation, op = .setMinReputation taskId minReputation →
    ∀ a ∈ r.admissions, a.taskId ≠ taskId

/-- Those who take part in a task were admitted to it, and there is room for them. -/
structure Task.Vetted (l : List Admission) (x : Uuid) (t : Task) : Prop where
  poster : ¬ t.TakesPart t.poster
  admitted : ∀ pk, t.TakesPart pk → ∃ a ∈ l, a.taskId = x ∧ a.agent = pk
  nodup : t.answerers.Nodup
  answers : t.answerers.length ≤ maxContestAnswers
  seats : 1 ≤ t.seats → t.assigned.card ≤ t.seats

namespace Task.Vetted

variable {l l' : List Admission} {x : Uuid} {t t' : Task} {b : TaskBoard} {agent : PublicKey}

/-- More admissions vouch for no fewer agents. -/
theorem mono (h : t.Vetted l x) (hsub : l ⊆ l') : t.Vetted l' x where
  poster := h.poster
  admitted pk hpk := by
    obtain ⟨a, ha, hid⟩ := h.admitted pk hpk
    exact ⟨a, hsub ha, hid⟩
  nodup := h.nodup
  answers := h.answers
  seats := h.seats

/-- A task that retains is vouched for by the same admissions. -/
theorem retains (h : t.Vetted l x) (hretains : t.Retains t') : t'.Vetted l x where
  poster hposter := by
    rw [hretains.poster] at hposter
    exact h.poster (hretains.takesPart hposter)
  admitted pk hpk := h.admitted pk (hretains.takesPart hpk)
  nodup := hretains.answerers ▸ h.nodup
  answers := hretains.answerers ▸ h.answers
  seats := by
    rw [hretains.seats, hretains.assigned]
    exact h.seats

/-- An agent is admitted: if it joins, there was a seat left. -/
theorem admits (h : t.Vetted l x) (hadmits : t.Admits b agent t')
    (hopen : t.status = .open → 1 ≤ t.seats → t.assigned.card < t.seats) (hsub : l ⊆ l')
    (hmem : ∃ a ∈ l', a.taskId = x ∧ a.agent = agent) : t'.Vetted l' x where
  poster hposter := by
    rw [hadmits.poster] at hposter
    -- Its poster takes no part, before the admission or by it.
    rcases hadmits.takesPart _ hposter with hposter | hposter
    · exact h.poster hposter
    · exact hadmits.notPoster hposter
  admitted pk hpk := by
    rcases hadmits.takesPart pk hpk with hpk | rfl
    · exact (h.mono hsub).admitted pk hpk
    · exact hmem
  nodup := by
    rcases hadmits.answerers with he | ⟨hnew, -, he⟩
    · exact he ▸ h.nodup
    · -- The agent has not answered before.
      rw [he, List.nodup_append]
      refine ⟨h.nodup, List.nodup_singleton agent, fun pk hpk pk' hpk' heq => hnew ?_⟩
      rwa [← List.mem_singleton.1 hpk', ← heq]
  answers := by
    rcases hadmits.answerers with he | ⟨-, hroom, he⟩
    · exact he ▸ h.answers
    · rw [he, List.length_append]
      exact hroom
  seats hpos := by
    rw [hadmits.seats] at hpos ⊢
    rcases hadmits.assigned with he | ⟨hstatus, he⟩
    · exact he ▸ h.seats hpos
    · rw [he]
      -- A vote is joined only while a seat is left.
      exact (Finset.card_insert_le _ _).trans (hopen hstatus hpos)

end Task.Vetted

/-- A new task has nobody to vouch for. -/
theorem Task.Fresh.vetted {t : Task} (h : t.Fresh) (l : List Admission) (x : Uuid) :
    t.Vetted l x := by
  have hnobody := h.not_takesPart
  have hanswerers : t.answerers = [] :=
    List.eq_nil_iff_forall_not_mem.2 fun pk hpk => hnobody pk (.inr (.inr hpk))
  have hassigned : t.assigned = ∅ :=
    Finset.eq_empty_iff_forall_notMem.2 fun pk hpk => hnobody pk (.inr (.inl hpk))
  refine ⟨hnobody _, fun pk hpk => absurd hpk (hnobody pk), ?_, ?_, fun _ => ?_⟩
  · rw [hanswerers]
    exact List.nodup_nil
  · rw [hanswerers]
    exact Nat.zero_le _
  · rw [hassigned]
    exact Nat.zero_le _

/-- What is neither an admission nor a requirement admits nobody. -/
theorem TaskOp.kept {s : TaskRun} {op : TaskOp} (hs : s.board.Tidy) (hop : op.Enabled s)
    (hquiet : op.Quiet) : MovedBy Task.Retains s.board (op.apply s.board) := by
  cases op with
  | createTask taskId createdAt poster description bounty hash =>
    have hfresh : (newTask taskId createdAt poster description bounty (.hashMatch hash)).Fresh :=
      ⟨rfl, rfl, rfl, rfl, rfl, nofun, nofun⟩
    exact .create (Finmap.lookup_eq_none.2 hop) hfresh rfl rfl
  | createConsensusTask taskId createdAt poster description bounty numAssignees joinDeadline window =>
    obtain ⟨hnew, hwindow⟩ := hop
    have hfresh : (newTask taskId createdAt poster description bounty
        (.consensus ⟨numAssignees, joinDeadline, window, none, ∅⟩)).Fresh := by
      refine ⟨rfl, rfl, rfl, rfl, rfl, fun _ hk => ?_, nofun⟩
      obtain rfl := TaskKind.consensus.inj hk
      exact ⟨rfl, hwindow⟩
    exact .create (Finmap.lookup_eq_none.2 hnew) hfresh rfl rfl
  | createDisputableTask taskId createdAt poster description bounty window =>
    have hfresh : (newTask taskId createdAt poster description bounty
        (.disputable ⟨none, window, none, none, [], none, none⟩)).Fresh := by
      refine ⟨rfl, rfl, rfl, rfl, rfl, nofun, fun _ hk => ?_⟩
      obtain rfl := TaskKind.disputable.inj hk
      exact ⟨rfl, rfl⟩
    exact .create (Finmap.lookup_eq_none.2 hop) hfresh rfl rfl
  -- The other calls admit nobody.
  | setCapabilities taskId capabilities => exact (keeping_setCapabilities capabilities).moved
  | restorePendingDeposit => exact .of_eq rfl
  | confirmEscrow => exact kept_confirmEscrow hop hs.deposits
  | confirmDisputeBond => exact keeping_confirmDisputeBond.moved
  | cancelTask => exact keeping_cancelTask.moved
  | submit _ submitter outputHash => exact (keeping_submit submitter outputHash).moved
  | closeContest _ caller now => exact (keeping_closeContest caller now).moved
  | pickAnswer _ caller answerer now => exact (keeping_pickAnswer caller answerer now).moved
  | resolveDispute _ outcome => exact (keeping_resolveDispute outcome).moved
  | creditForfeitedBond recipient bondAmount =>
    rcases TaskOp.creditForfeitedBond_cases with h | h <;> rw [h]
    · exact .refl _
    · exact .of_eq rfl
  | submitConsensusAnswer _ agent answer now =>
    exact (keeping_submitConsensusAnswer agent answer now).moved
  | resolveExpiredConsensusTasks now => exact (keeping_resolveExpiredConsensusTasks now).moved
  | closeUnclosedContests now => exact (keeping_closeUnclosedContests now).moved
  | splitUnpickedContests now => exact (keeping_splitUnpickedContests now).moved
  | finalizeUnchallengedDisputableTasks now =>
    exact (keeping_finalizeUnchallengedDisputableTasks now).moved
  | cancelUnderstaffedConsensusTasks now =>
    exact (keeping_cancelUnderstaffedConsensusTasks now).moved
  | expireClaims now => exact (keeping_expireClaims now).moved
  | recordPayoutAttempt attempt => exact kept_recordPayoutAttempt attempt
  | recordConfirmedPayout now commits taskId recipient amount store =>
    rcases @recordConfirmedPayout_cases ⟨s.board, store⟩ taskId recipient amount now commits
      hs.keyed hs.attemptsKeyed with h | ⟨b, hb, h⟩ | ⟨-, h⟩
    · exact .of_eq h.tasks
    · rw [TaskOp.apply, h]
      exact hb.kept.trans (.of_eq rfl)
    · exact h.kept
  | abandonPayout commits attempt store =>
    rcases abandonPayout_cases (s := ⟨s.board, store⟩) hs.keyed hs.attemptsKeyed with h | h
    · exact .of_eq h.tasks
    · exact h.kept
  | _ => exact hquiet.elim

/-- What is known of the admissions of a run, and of the tasks they were made to. -/
structure AdmissionRun.Sound (r : AdmissionRun) : Prop where
  tidy : r.run.board.Tidy
  eligible : ∀ a ∈ r.admissions, a.minReputation ≤ a.completed
  known : ∀ a ∈ r.admissions, a.taskId ∈ r.run.board.tasks
  vetted : ∀ x t, r.run.board.tasks.lookup x = some t → t.Vetted r.admissions x

/-- The admissions were made with what the tasks require now. -/
def AdmissionRun.Required (r : AdmissionRun) : Prop :=
  ∀ a ∈ r.admissions, ∀ t, r.run.board.tasks.lookup a.taskId = some t →
    t.minReputation = a.minReputation

section

variable {r : AdmissionRun} {b' : TaskBoard} {op : TaskOp} {taskId : Uuid} {agent : PublicKey}

/-- No task is dropped. -/
theorem TaskBoard.MovedBy.mem {R : Task → Task → Prop} {s s' : TaskBoard} (h : MovedBy R s s')
    {x : Uuid} (hx : x ∈ s.tasks) : x ∈ s'.tasks := by
  obtain ⟨t, ht⟩ := Finmap.mem_iff.1 hx
  obtain ⟨t', ht', -⟩ := h.moved x t ht
  exact Finmap.mem_iff.2 ⟨t', ht'⟩

/-- The tasks of a board are vetted, if nobody is admitted to them. -/
theorem vetted_of_kept {s s' : TaskBoard} {l : List Admission} (h : MovedBy Task.Retains s s')
    (hs : ∀ x t, s.tasks.lookup x = some t → t.Vetted l x) (x : Uuid) (t' : Task)
    (ht' : s'.tasks.lookup x = some t') : t'.Vetted l x := by
  cases ht : s.tasks.lookup x with
  | none =>
    obtain ⟨t, hfresh, -, hretains⟩ := h.created x t' ht' ht
    exact (hfresh.vetted l x).retains (.of_run hretains)
  | some t =>
    obtain ⟨t₁, ht₁, hretains⟩ := h.moved x t ht
    obtain rfl := Option.some.inj (ht'.symm.trans ht₁)
    exact (hs x t ht).retains (.of_run hretains)

/-- What lets nobody in asks for no admission. -/
theorem required_of_kept {run : TaskRun} (h : MovedBy Task.Retains r.run.board run.board)
    (hr : r.Sound) (hrequired : r.Required) : AdmissionRun.Required ⟨run, r.admissions⟩ := by
  intro a ha t' ht'
  obtain ⟨t, ht⟩ := Finmap.mem_iff.1 (hr.known a ha)
  obtain ⟨t₁, ht₁, hretains⟩ := h.moved _ t ht
  obtain rfl := Option.some.inj (ht'.symm.trans ht₁)
  rw [(Task.Retains.of_run hretains).minReputation]
  exact hrequired a ha t ht

/-- An open task has a seat left. -/
theorem TaskBoard.Tidy.seat {s : TaskBoard} (hs : s.Tidy) {x : Uuid} {t : Task}
    (ht : s.tasks.lookup x = some t) (hopen : t.status = .open) (hpos : 1 ≤ t.seats) :
    t.assigned.card < t.seats := by
  rw [Task.seats, Task.assigned] at *
  split at hpos
  · next kind hkind =>
    exact ((hs.sound x t ht).life.staffed kind hkind).open_lt hpos hopen
  · exact absurd hpos (by decide)

/-- What an operation that admits an agent does to the tasks and the admissions. -/
theorem admission_cases {x : BoardCall Unit} {b : TaskBoard} (h : Admitting b taskId agent x) :
    (x b).1 = b ∧ TaskOp.admissionBy b taskId agent x = [] ∨
    ∃ t t', b.tasks.lookup taskId = some t ∧ t.Admits b agent t' ∧
      (x b).1.tasks = b.tasks.insert taskId t' ∧
      TaskOp.admissionBy b taskId agent x =
        [⟨taskId, agent, t.minReputation, (b.reputationOf agent).completed⟩] := by
  have hend := h b rfl
  rw [TaskOp.admissionBy]
  generalize x b = r at hend
  obtain ⟨b', _ | e | _⟩ := r
  · obtain ⟨t, t', ht, hadmits, htasks⟩ := hend
    rw [ht]
    exact .inr ⟨t, t', rfl, hadmits, htasks, rfl⟩
  · exact .inl ⟨hend, rfl⟩
  · exact .inl ⟨hend, rfl⟩

/-- An operation that admits an agent keeps what is known of a run. -/
theorem AdmissionRun.Sound.enrol {run : TaskRun} {x : BoardCall Unit} (h : r.Sound)
    (htidy : run.board.Tidy) (hx : Admitting r.run.board taskId agent x)
    (hrun : run.board = (x r.run.board).1) :
    AdmissionRun.Sound ⟨run, TaskOp.admissionBy r.run.board taskId agent x ++ r.admissions⟩ ∧
      (r.Required →
        AdmissionRun.Required ⟨run, TaskOp.admissionBy r.run.board taskId agent x ++ r.admissions⟩) := by
  rcases admission_cases hx with ⟨hsame, hnone⟩ | ⟨t, t', ht, hadmits, htasks, hone⟩
  · -- Refused: the board and the admissions are as they were.
    rw [hnone]
    rw [hsame] at hrun
    refine ⟨⟨htidy, h.eligible, ?_, ?_⟩, fun hrequired => ?_⟩
    · rw [hrun]
      exact h.known
    · rw [hrun]
      exact h.vetted
    · rw [Required, hrun]
      exact hrequired
  · rw [hone]
    rw [← hrun] at htasks
    -- Admitted: the task is written, the others are as they were.
    have hlookup : ∀ y t₁, run.board.tasks.lookup y = some t₁ →
        y = taskId ∧ t₁ = t' ∨ y ≠ taskId ∧ r.run.board.tasks.lookup y = some t₁ := by
      intro y t₁ ht₁
      rw [htasks, Finmap.lookup_insert_eq] at ht₁
      split_ifs at ht₁ with hy
      · exact .inl ⟨hy, (Option.some.inj ht₁).symm⟩
      · exact .inr ⟨hy, ht₁⟩
    refine ⟨⟨htidy, ?_, ?_, ?_⟩, ?_⟩
    · intro a ha
      rcases List.mem_cons.1 ha with rfl | ha
      · exact hadmits.eligible
      · exact h.eligible a ha
    · intro a ha
      rw [htasks, Finmap.mem_insert]
      rcases List.mem_cons.1 ha with rfl | ha
      · exact .inl rfl
      · exact .inr (h.known a ha)
    · intro y t₁ ht₁
      rcases hlookup y t₁ ht₁ with ⟨rfl, rfl⟩ | ⟨-, ht₁⟩
      · exact (h.vetted y t ht).admits hadmits (h.tidy.seat ht) (List.subset_cons_self _ _)
          ⟨_, List.mem_cons_self, rfl, rfl⟩
      · exact (h.vetted y t₁ ht₁).mono (List.subset_cons_self _ _)
    · intro hrequired a ha t₁ ht₁
      rcases List.mem_cons.1 ha with rfl | ha
      · rcases hlookup _ t₁ ht₁ with ⟨-, rfl⟩ | ⟨hne, -⟩
        · exact hadmits.minReputation
        · exact absurd rfl hne
      · rcases hlookup _ t₁ ht₁ with ⟨hy, rfl⟩ | ⟨-, ht₁⟩
        · rw [hadmits.minReputation]
          exact hrequired a ha t (hy ▸ ht)
        · exact hrequired a ha t₁ ht₁

/-- A requirement is set, or the task is not there. -/
theorem triple_setMinReputation {b : TaskBoard} {minReputation : ℕ} :
    Triple (· = b) (setMinReputation taskId minReputation)
      (fun _ b' => ∃ t, b.tasks.lookup taskId = some t ∧
        b' = { b with tasks := b.tasks.insert taskId { t with minReputation } })
      (fun _ b' => b' = b) (fun b' => b' = b) := by
  refine .get_bind fun b₁ hb₁ => ?_
  subst hb₁
  refine .lift_known (fun t ht => ?_) (fun _ _ => rfl) fun _ => rfl
  exact .modify fun _ hb => ⟨t, Outcome.okOr_eq_ok.1 ht, hb ▸ rfl⟩

/-- Setting what a task requires keeps what is known of a run. -/
theorem AdmissionRun.Sound.require {run : TaskRun} {minReputation : ℕ} (h : r.Sound)
    (htidy : run.board.Tidy)
    (hrun : run.board = (setMinReputation taskId minReputation r.run.board).1) :
    AdmissionRun.Sound ⟨run, r.admissions⟩ ∧ ((∀ a ∈ r.admissions, a.taskId ≠ taskId) →
      r.Required → AdmissionRun.Required ⟨run, r.admissions⟩) := by
  have hend : Ends _ _ _ (setMinReputation taskId minReputation r.run.board) :=
    triple_setMinReputation _ rfl
  have hcases : run.board = r.run.board ∨ ∃ t, r.run.board.tasks.lookup taskId = some t ∧
      run.board.tasks = r.run.board.tasks.insert taskId { t with minReputation } := by
    rw [hrun]
    generalize setMinReputation taskId minReputation r.run.board = o at hend
    obtain ⟨b', _ | e | _⟩ := o
    · obtain ⟨t, ht, rfl⟩ := hend
      exact .inr ⟨t, ht, rfl⟩
    · exact .inl hend
    · exact .inl hend
  rcases hcases with hsame | ⟨t, ht, htasks⟩
  · refine ⟨⟨htidy, h.eligible, ?_, ?_⟩, fun _ hrequired => ?_⟩
    · rw [hsame]
      exact h.known
    · rw [hsame]
      exact h.vetted
    · rw [Required, hsame]
      exact hrequired
  · refine ⟨⟨htidy, h.eligible, ?_, ?_⟩, ?_⟩
    · intro a ha
      rw [htasks, Finmap.mem_insert]
      exact .inr (h.known a ha)
    · intro y t₁ ht₁
      rw [htasks, Finmap.lookup_insert_eq] at ht₁
      split_ifs at ht₁ with hy
      · obtain rfl := Option.some.inj ht₁
        subst hy
        -- Who takes part in a task does not depend on what it requires.
        have hv := h.vetted y t ht
        exact ⟨hv.poster, hv.admitted, hv.nodup, hv.answers, hv.seats⟩
      · exact h.vetted y t₁ ht₁
    · intro hbefore hrequired a ha t₁ ht₁
      rw [htasks, Finmap.lookup_insert_of_ne _ (hbefore a ha)] at ht₁
      exact hrequired a ha t₁ ht₁

/-- A step keeps what is known of a run. -/
theorem AdmissionRun.Sound.step (h : r.Sound) (hop : op.Enabled r.run) :
    (r.after op).Sound ∧ (r.Gated op → r.Required → (r.after op).Required) := by
  rw [AdmissionRun.after]
  have htidy : (op.after r.run).board.Tidy := by
    rw [TaskOp.after_board]
    exact TaskOp.tidy h.tidy hop
  -- What admits nobody keeps all that is known.
  by_cases hquiet : op.Quiet
  · have hkept := TaskOp.kept h.tidy hop hquiet
    rw [← TaskOp.after_board] at hkept
    have hnone : op.admissions r.run.board = [] := by
      cases op with
      | claimTask | joinConsensusTask | submitContestAnswer | setMinReputation => exact hquiet.elim
      | _ => rfl
    rw [hnone]
    exact ⟨⟨htidy, h.eligible, fun a ha => hkept.mem (h.known a ha), vetted_of_kept hkept h.vetted⟩,
      fun _ hrequired => required_of_kept hkept h hrequired⟩
  · cases op with
    | claimTask taskId claimant deadline =>
      have henrol := h.enrol htidy (admitting_claimTask deadline) rfl
      exact ⟨henrol.1, fun _ => henrol.2⟩
    | joinConsensusTask taskId agent now filledAt =>
      have hadmitting : Admitting r.run.board taskId agent
          (joinConsensusTask taskId agent now filledAt) := by
        refine admitting_joinConsensusTask fun t kind ht hkind => ?_
        obtain ⟨hpos, hle⟩ := ((h.tidy.sound _ t ht).life.staffed kind hkind).window
        exact OnClock.addMinutes_ne_none hop hpos hle
      have henrol := h.enrol htidy hadmitting rfl
      exact ⟨henrol.1, fun _ => henrol.2⟩
    | submitContestAnswer taskId submitter answer now =>
      have henrol := h.enrol htidy (admitting_submitContestAnswer answer now) rfl
      exact ⟨henrol.1, fun _ => henrol.2⟩
    | setMinReputation taskId minReputation =>
      have hrequire := h.require htidy rfl
      exact ⟨hrequire.1, fun hgated => hrequire.2 (hgated taskId minReputation rfl)⟩
    | _ => exact absurd trivial hquiet

end

/-- The tasks of a run with admissions are those of a run. -/
theorem AdmissionRun.sound_of_reachable {C : AdmissionRun → TaskOp → Prop} {r : AdmissionRun}
    (h : admissionRuns.ReachableBy C r) : r.Sound := by
  refine h.invariant ?_ ?_
  · rintro r ⟨⟨hstarted, -⟩, hempty, hnone⟩
    refine ⟨hstarted.tidy, ?_, ?_, ?_⟩
    · simp [hnone]
    · simp [hnone]
    · intro x t ht
      rw [hempty, Finmap.lookup_empty] at ht
      cases ht
  · rintro r op _ hr - ⟨hop, rfl⟩
    exact (hr.step hop).1

/-- By induction on the steps, each agent was let in by one of them. -/
theorem AdmissionRun.required_of_reachable {r : AdmissionRun}
    (h : admissionRuns.ReachableBy AdmissionRun.Gated r) : r.Required := by
  refine h.invariant_of (fun r hr => sound_of_reachable hr) ?_ ?_
  · rintro r ⟨-, -, hnone⟩
    simp [Required, hnone]
  · rintro r op _ hr hrequired hgated ⟨hop, rfl⟩
    exact (hr.step hop).2 hgated hrequired

/-- **Eligibility**, over every run: those who take part in a task were admitted to it, with
    what it required then, and its poster is not among them. A contest has one answer of each
    who answered, and no more than there may be; a consensus task no more assignees than it
    has seats. If what a task requires is set before anybody is admitted, it is what it
    requires now. -/
theorem eligibility_kept :
    (∀ r, admissionRuns.Reachable r → ∀ x t, r.run.board.tasks.lookup x = some t →
      (t.claimant ≠ some t.poster ∧ t.poster ∉ t.assigned ∧ t.poster ∉ t.answerers) ∧
      (∀ pk, t.claimant = some pk ∨ pk ∈ t.assigned ∨ pk ∈ t.answerers →
        ∃ a ∈ r.admissions, a.taskId = x ∧ a.agent = pk) ∧
      (∀ a ∈ r.admissions, a.minReputation ≤ a.completed) ∧
      t.answerers.Nodup ∧ t.answerers.length ≤ maxContestAnswers ∧
      (1 ≤ t.seats → t.assigned.card ≤ t.seats)) ∧
    (∀ r, admissionRuns.ReachableBy AdmissionRun.Gated r → ∀ a ∈ r.admissions, ∀ t,
      r.run.board.tasks.lookup a.taskId = some t → t.minReputation ≤ a.completed) := by
  refine ⟨fun r hr x t ht => ?_, fun r hr a ha t ht => ?_⟩
  · have hsound := AdmissionRun.sound_of_reachable hr
    have hvetted := hsound.vetted x t ht
    have hposter := hvetted.poster
    rw [Task.TakesPart, not_or, not_or] at hposter
    exact ⟨hposter, hvetted.admitted, hsound.eligible, hvetted.nodup, hvetted.answers, hvetted.seats⟩
  · rw [AdmissionRun.required_of_reachable hr a ha t ht]
    exact (AdmissionRun.sound_of_reachable hr).eligible a ha

/-! A contest that requires nothing is answered by two agents, and not by its poster. -/

/-- What is done. -/
def sampleEntries : List TaskOp :=
  [.createDisputableTask 1 0 6 "" 1000 60, .setMinReputation 1 0, .submitContestAnswer 1 7 "a" 1,
    .submitContestAnswer 1 6 "b" 2, .submitContestAnswer 1 8 "c" 3]

/-- A run goes on by a step that is gated. -/
theorem AdmissionRun.reachable_after {r : AdmissionRun} (op : TaskOp)
    (hr : admissionRuns.ReachableBy AdmissionRun.Gated r) (hgated : r.Gated op)
    (hop : op.Enabled r.run) : admissionRuns.ReachableBy AdmissionRun.Gated (r.after op) :=
  hr.step hgated ⟨hop, rfl⟩

/-- Two agents enter a contest, one after the other. -/
theorem sampleEntries_reachable :
    admissionRuns.ReachableBy AdmissionRun.Gated
      (sampleEntries.foldl AdmissionRun.after ⟨⟨TaskBoard.new, [], [], []⟩, []⟩) := by
  have h₀ : admissionRuns.ReachableBy AdmissionRun.Gated ⟨⟨TaskBoard.new, [], [], []⟩, []⟩ :=
    .init ⟨⟨started_new, rfl⟩, rfl, rfl⟩
  have h₁ := AdmissionRun.reachable_after (.createDisputableTask 1 0 6 "" 1000 60) h₀ nofun
    Finmap.notMem_empty
  have h₂ := AdmissionRun.reachable_after (.setMinReputation 1 0) h₁
    (fun _ _ _ _ ha => absurd ha List.not_mem_nil) trivial
  have h₃ := AdmissionRun.reachable_after (.submitContestAnswer 1 7 "a" 1) h₂ nofun trivial
  have h₄ := AdmissionRun.reachable_after (.submitContestAnswer 1 6 "b" 2) h₃ nofun trivial
  exact AdmissionRun.reachable_after (.submitContestAnswer 1 8 "c" 3) h₄ nofun trivial

/-- Both have been let in with the reputation it asked for. -/
theorem eligibility_kept_entries :
    ∃ r, admissionRuns.Reachable r ∧ ∃ t, r.run.board.tasks.lookup 1 = some t ∧
      t.answerers = [7, 8] ∧ t.poster = 6 ∧ t.poster ∉ t.answerers ∧
      t.answerers.length ≤ maxContestAnswers ∧ r.admissions.length = 2 ∧
      ∀ a ∈ r.admissions, a.taskId = 1 → t.minReputation ≤ a.completed := by
  have hr := sampleEntries_reachable
  have hend : ∃ t, (sampleEntries.foldl AdmissionRun.after
      ⟨⟨TaskBoard.new, [], [], []⟩, []⟩).run.board.tasks.lookup 1 = some t ∧
      t.answerers = [7, 8] ∧ t.poster = 6 := ⟨_, rfl, by decide +kernel, by decide +kernel⟩
  have hcount : (sampleEntries.foldl AdmissionRun.after
      ⟨⟨TaskBoard.new, [], [], []⟩, []⟩).admissions.length = 2 := by decide +kernel
  -- The board is of no further interest: it need not be computed again.
  generalize sampleEntries.foldl AdmissionRun.after ⟨⟨TaskBoard.new, [], [], []⟩, []⟩ = r
    at hr hend hcount
  obtain ⟨t, ht, hanswerers, hposter⟩ := hend
  obtain ⟨hkept, hrequired⟩ := eligibility_kept
  obtain ⟨⟨-, -, hnot⟩, -, -, -, hlength, -⟩ := hkept r hr.reachable 1 t ht
  exact ⟨r, hr.reachable, t, ht, hanswerers, hposter, hnot, hlength, hcount,
    fun a ha hid => hrequired r hr a ha t (hid ▸ ht)⟩

end Itx
