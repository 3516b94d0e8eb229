import Itx.Lib.Deadlines
import Itx.Hub.Disk
import Itx.Hub.TaskRuns
import Itx.Hub.Voting

/-!
# What the sweep makes up for

Once a minute the hub runs six passes over its tasks (`run_sweep_once`, `hub/src/main.rs`),
each of which moves the tasks whose deadline it watches has passed (`hub/src/board.rs`). Each
pass is given the time; a hub that was down, or whose clock stood still, has missed some.

What a pass does to a task it does without looking at the others: it moves the task, and
for a vote that is counted it charges those who lost it. A pass panics when the failures of
a key overflow, or when the deadline of an open contest is out of range. So a pass over the
board is a treatment of each task, with a bill that adds up over the tasks (`treats_run`).

* a sweep that returns leaves the board it would have left after any other passes, in any
  order and at earlier times, and none of these panics (`late_sweep`);
* after it no pass moves a task, until the clock has gone on.
-/

namespace Itx

open TaskBoard Call

/-! ## The sweep -/

/-- The passes of `run_sweep_once`, in its order. -/
def Pass.all : List Pass :=
  [.expireClaims, .cancelUnderstaffedConsensusTasks, .resolveExpiredConsensusTasks,
    .finalizeUnchallengedDisputableTasks, .closeUnclosedContests, .splitUnpickedContests]

/-- Passes one after the other, each at its time. -/
def TaskBoard.runPasses (schedule : List (Pass × DateTime)) : BoardCall Unit :=
  forEach schedule fun e => do
    let _ ← e.1.run e.2

/-- `run_sweep_once`, as far as it moves tasks: what it saves and refunds between the passes
    touches none. -/
def TaskBoard.runSweepOnce (now : DateTime) : BoardCall Unit := runPasses (Pass.all.map (·, now))

/-! ## What a pass does to a task -/

/-- Failures to charge to keys, and a number of panics. -/
abbrev Bill := (PublicKey → ℕ) × ℕ

namespace Pass

/-- The pass has the task to move. A contest that is open and whose deadline is out of range
    is one the pass panics at. -/
def due (now : DateTime) (task : Task) : Pass → Bool
  | expireClaims => task.status = .claimed ∧ ∃ d ∈ task.claimDeadline, now > d
  | cancelUnderstaffedConsensusTasks => match task.kind with
    | .consensus kind => task.status = .open ∧ now > kind.joinDeadline
    | _ => false
  | resolveExpiredConsensusTasks => isDue now task
  | finalizeUnchallengedDisputableTasks => match task.kind with
    | .disputable kind => task.status = .awaitingDispute ∧ kind.dispute = none ∧
        ∃ d ∈ kind.disputeDeadline, now > d
    | _ => false
  | closeUnclosedContests => match task.submissionDeadline with
    | .ok deadline => task.status = .open ∧ ∃ d ∈ deadline, now > d
    | _ => task.status = .open
  | splitUnpickedContests => match task.kind with
    | .disputable kind => task.status = .awaitingPick ∧ ∃ d ∈ kind.pickDeadline, now > d
    | _ => false

abbrev Due (p : Pass) (now : DateTime) (task : Task) : Prop := p.due now task = true

/-- What the pass makes of a task that is due. -/
def moved (task : Task) : Pass → Task
  | expireClaims => { task with status := .open, claimant := none, claimDeadline := none }
  | cancelUnderstaffedConsensusTasks => { task with status := .closed, closeReason := some .understaffed }
  | resolveExpiredConsensusTasks => match task.kind with
    | .consensus kind => resolved task kind (majorityAnswer kind.assignees)
    | _ => task
  | finalizeUnchallengedDisputableTasks => { task with status := .verified }
  | closeUnclosedContests => { task with status := .closed, closeReason := some .neverClosed }
  | splitUnpickedContests => match task.kind with
    | .disputable kind =>
      let share := task.bounty / max 1 kind.answers.length
      let answers := kind.answers.map fun a => { a with share := some share }
      { task with kind := .disputable { kind with answers }, status := .verified }
    | _ => task

/-- What moving a task costs. -/
def cost (task : Task) : Pass → Bill
  | resolveExpiredConsensusTasks => match task.kind with
    | .consensus kind =>
      (fun pk => if pk ∈ losers kind (majorityAnswer kind.assignees) then 1 else 0, 0)
    | _ => 0
  | closeUnclosedContests => match task.submissionDeadline with
    | .ok _ => 0
    | _ => (0, 1)
  | _ => 0

/-- The position of the pass in the sweep. -/
def rank : Pass → ℕ
  | expireClaims => 0
  | cancelUnderstaffedConsensusTasks => 1
  | resolveExpiredConsensusTasks => 2
  | finalizeUnchallengedDisputableTasks => 3
  | closeUnclosedContests => 4
  | splitUnpickedContests => 5

/-- The status of the tasks that a pass moves. -/
def watched : Pass → TaskStatus
  | expireClaims => .claimed
  | cancelUnderstaffedConsensusTasks => .open
  | resolveExpiredConsensusTasks => .claimed
  | finalizeUnchallengedDisputableTasks => .awaitingDispute
  | closeUnclosedContests => .open
  | splitUnpickedContests => .awaitingPick

variable {p q : Pass} {now now' : DateTime} {task : Task}

/-- A task that is due has the status its pass looks for. -/
theorem Due.status (h : p.Due now task) : task.status = p.watched := by
  cases p with
  | expireClaims => exact (of_decide_eq_true h).1
  | cancelUnderstaffedConsensusTasks =>
    rw [Due, due] at h
    split at h
    · exact (of_decide_eq_true h).1
    · cases h
  | resolveExpiredConsensusTasks =>
    rw [Due, due, isDue] at h
    split at h
    · exact (of_decide_eq_true h).1
    · cases h
  | finalizeUnchallengedDisputableTasks =>
    rw [Due, due] at h
    split at h
    · exact (of_decide_eq_true h).1
    · cases h
  | closeUnclosedContests =>
    rw [Due, due] at h
    split at h
    · exact (of_decide_eq_true h).1
    · exact of_decide_eq_true h
  | splitUnpickedContests =>
    rw [Due, due] at h
    split at h
    · exact (of_decide_eq_true h).1
    · cases h

/-- The passes over consensus tasks. -/
theorem Due.consensus (h : p.Due now task)
    (hp : p = .cancelUnderstaffedConsensusTasks ∨ p = .resolveExpiredConsensusTasks) :
    ∃ kind, task.kind = .consensus kind := by
  rcases hp with rfl | rfl
  · rw [Due, due] at h
    split at h
    · exact ⟨_, ‹_›⟩
    · cases h
  · rw [Due, due, isDue] at h
    split at h
    · exact ⟨_, ‹_›⟩
    · cases h

/-- The passes over contests. -/
theorem Due.not_consensus (h : closeUnclosedContests.Due now task) (kind : ConsensusKind) :
    task.kind ≠ .consensus kind := by
  intro hkind
  have hnone : task.submissionDeadline = .ok none := by
    rw [Task.submissionDeadline]
    simp only [hkind]
    rfl
  simp [Due, due, hnone] at h

/-- And it is due from then on. -/
theorem Due.mono (hle : now ≤ now') (h : p.Due now task) : p.Due now' task := by
  -- A deadline that is past stays so.
  have hlate : ∀ {deadline : Option DateTime}, (∃ d ∈ deadline, now > d) → ∃ d ∈ deadline, now' > d :=
    fun ⟨d, hd, hlt⟩ => ⟨d, hd, lt_of_lt_of_le hlt hle⟩
  cases p with
  | expireClaims =>
    have h := of_decide_eq_true h
    exact decide_eq_true ⟨h.1, hlate h.2⟩
  | cancelUnderstaffedConsensusTasks =>
    rw [Due, due] at h ⊢
    split at h
    · have h := of_decide_eq_true h
      exact decide_eq_true ⟨h.1, lt_of_lt_of_le h.2 hle⟩
    · cases h
  | resolveExpiredConsensusTasks =>
    rw [Due, due, isDue] at h ⊢
    split at h
    · have h := of_decide_eq_true h
      exact decide_eq_true ⟨h.1, hlate h.2⟩
    · cases h
  | finalizeUnchallengedDisputableTasks =>
    rw [Due, due] at h ⊢
    split at h
    · have h := of_decide_eq_true h
      exact decide_eq_true ⟨h.1, h.2.1, hlate h.2.2⟩
    · cases h
  | closeUnclosedContests =>
    rw [Due, due] at h ⊢
    split at h
    · have h := of_decide_eq_true h
      exact decide_eq_true ⟨h.1, hlate h.2⟩
    · exact h
  | splitUnpickedContests =>
    rw [Due, due] at h ⊢
    split at h
    · have h := of_decide_eq_true h
      exact decide_eq_true ⟨h.1, hlate h.2⟩
    · cases h

/-- What becomes of a task that is moved: it is open again, or done with. -/
theorem Due.status_moved (h : p.Due now task) :
    (p = .expireClaims ∧ (p.moved task).status = .open) ∨ (p.moved task).status = .verified ∨
      (p.moved task).status = .closed := by
  cases p with
  | expireClaims => exact .inl ⟨rfl, rfl⟩
  | cancelUnderstaffedConsensusTasks => exact .inr (.inr rfl)
  | resolveExpiredConsensusTasks =>
    -- The vote decides between the two.
    obtain ⟨kind, hkind⟩ := h.consensus (.inr rfl)
    unfold moved
    simp only [hkind]
    cases majorityAnswer kind.assignees with
    | none => exact .inr (.inr rfl)
    | some answer => exact .inr (.inl rfl)
  | finalizeUnchallengedDisputableTasks => exact .inr (.inl rfl)
  | closeUnclosedContests => exact .inr (.inr rfl)
  | splitUnpickedContests =>
    rw [Due, due] at h
    rw [moved]
    split at h
    · exact .inr (.inl rfl)
    · cases h

/-- A pass keeps the id of a task. -/
theorem moved_id (task : Task) (p : Pass) : (p.moved task).id = task.id := by
  cases p with
  | resolveExpiredConsensusTasks =>
    rw [moved]
    split
    · rename_i kind _
      cases majorityAnswer kind.assignees <;> rfl
    · rfl
  | splitUnpickedContests =>
    rw [moved]
    split <;> rfl
  | _ => rfl

/-- A consensus task is claimed without a deadline for its claim. -/
def Clean (task : Task) : Prop := ∀ kind, task.kind = .consensus kind → task.claimDeadline = none

/-- What it leaves has no deadline of an earlier stage. -/
theorem clean_moved (h : Clean task) (p : Pass) : Clean (p.moved task) := by
  cases p with
  | expireClaims => exact fun _ _ => rfl
  | cancelUnderstaffedConsensusTasks => exact h
  | resolveExpiredConsensusTasks =>
    rw [moved]
    split
    · rename_i kind hkind
      -- Closed or verified, the kind and its deadlines are as they were.
      cases majorityAnswer kind.assignees with
      | none => exact h
      | some answer => exact fun _ _ => h kind hkind
    · exact h
  | finalizeUnchallengedDisputableTasks => exact h
  | closeUnclosedContests => exact h
  | splitUnpickedContests =>
    rw [moved]
    split
    · rintro kind ⟨⟩
    · exact h

/-- No claim of a consensus task expires. -/
theorem Clean.not_expire (h : Clean task) {kind : ConsensusKind} (hkind : task.kind = .consensus kind) :
    ¬ expireClaims.Due now task := by
  intro hdue
  obtain ⟨-, d, hd, -⟩ := of_decide_eq_true hdue
  rw [h kind hkind] at hd
  cases hd

/-- At most one pass has the task to move. -/
theorem Due.unique (h : Clean task) (hp : p.Due now task) (hq : q.Due now' task) : p = q := by
  have hwatched : p.watched = q.watched := hp.status.symm.trans hq.status
  have hexpire : ∀ {now now' : DateTime}, expireClaims.Due now task →
      ¬ resolveExpiredConsensusTasks.Due now' task := fun he hr =>
    have ⟨_, hkind⟩ := hr.consensus (.inr rfl)
    h.not_expire hkind he
  have hclose : ∀ {now now' : DateTime}, closeUnclosedContests.Due now task →
      ¬ cancelUnderstaffedConsensusTasks.Due now' task := fun hc hu =>
    have ⟨kind, hkind⟩ := hu.consensus (.inl rfl)
    hc.not_consensus kind hkind
  cases p <;> cases q <;> first
    | rfl
    | exact (hexpire hp hq).elim
    | exact (hexpire hq hp).elim
    | exact (hclose hp hq).elim
    | exact (hclose hq hp).elim
    | cases hwatched

/-- A task that was moved is due again only for a later pass of the sweep. -/
theorem Due.forward (h : Clean task) (hp : p.Due now task) (hq : q.Due now' (p.moved task)) :
    p.rank < q.rank := by
  rcases hp.status_moved with ⟨rfl, hopen⟩ | hdone | hdone
  · have hwatched : q.watched = .open := hq.status.symm.trans hopen
    cases q with
    | cancelUnderstaffedConsensusTasks =>
      obtain ⟨kind, hkind⟩ := hq.consensus (.inl rfl)
      exact (h.not_expire hkind hp).elim
    | closeUnclosedContests => decide
    | _ => cases hwatched
  · have hwatched : q.watched = .verified := hq.status.symm.trans hdone
    cases q <;> cases hwatched
  · have hwatched : q.watched = .closed := hq.status.symm.trans hdone
    cases q <;> cases hwatched

end Pass

/-- The passes of the sweep over the tasks. -/
def sweepDeadlines : Deadlines Pass DateTime Task where
  due p now task := p.Due now task
  moved p task := p.moved task
  good := Pass.Clean
  rank := Pass.rank
  good_moved h _ := Pass.clean_moved h _
  mono := Pass.Due.mono
  alone := Pass.Due.unique
  forward := Pass.Due.forward

instance (p : Pass) (now : DateTime) (task : Task) : Decidable (sweepDeadlines.due p now task) :=
  inferInstanceAs (Decidable (p.Due now task))

/-- The six passes are all there are. -/
theorem complete_all : sweepDeadlines.Complete Pass.all where
  mem p := by cases p <;> decide
  sorted := by
    change Pass.all.Pairwise (Pass.rank · < Pass.rank ·)
    decide

/-! ## Treatments -/

/-- What is done to each task of a board, and what it costs. -/
abbrev Treatment := Uuid → Task → Task × Bill

namespace Treatment

/-- Nothing is done. -/
def none : Treatment := fun _ task => (task, 0)

/-- One treatment after the other. -/
def andThen (F G : Treatment) : Treatment := fun id task =>
  ((G id (F id task).1).1, (F id task).2 + (G id (F id task).1).2)

/-- A treatment of some of the tasks. -/
def only (ids : List Uuid) (F : Treatment) : Treatment := fun id task =>
  if id ∈ ids then F id task else (task, 0)

/-- Treating one task, then others, is treating all of them. -/
theorem only_cons (F : Treatment) {id : Uuid} {ids : List Uuid} (hid : id ∉ ids) :
    (only [id] F).andThen (only ids F) = only (id :: ids) F := by
  funext x task
  rw [andThen, only, only, only]
  by_cases hx : x = id
  · subst hx
    rw [if_pos (List.mem_singleton_self x), if_pos List.mem_cons_self, if_neg hid, add_zero]
  · simp [hx]

end Treatment

namespace TaskBoard

variable {F G : Treatment} {s s' s₁ s₂ : TaskBoard} {id : Uuid} {ids : List Uuid} {b b' : Bill}

/-- What a treatment of all the tasks costs. -/
def bill (s : TaskBoard) (F : Treatment) : Bill :=
  ∑ id ∈ s.tasks.keys, (s.tasks.lookup id).elim 0 fun task => (F id task).2

/-- The board can be charged a bill. -/
structure Affords (s : TaskBoard) (bill : Bill) : Prop where
  failed : ∀ pk, bill.1 pk ≠ 0 → (s.reputationOf pk).failed + bill.1 pk < u64Bound
  panics : bill.2 = 0

/-- A board after a treatment of its tasks. -/
structure Treated (F : Treatment) (s s' : TaskBoard) : Prop where
  tasks : ∀ id, s'.tasks.lookup id = (s.tasks.lookup id).map fun task => (F id task).1
  reputation : ∀ pk, s'.reputation.lookup pk = if (s.bill F).1 pk = 0 then s.reputation.lookup pk
    else some { s.reputationOf pk with failed := (s.reputationOf pk).failed + (s.bill F).1 pk }
  rest : { s' with tasks := s.tasks, reputation := s.reputation } = s

/-- The call treats the tasks and returns `a`, or panics if the board cannot be charged. -/
def Treats {α : Type} (F : Treatment) (x : BoardCall α) (a : α) (s : TaskBoard) : Prop :=
  (s.Affords (s.bill F) ∧ ∃ s', x s = (s', .ok a) ∧ Treated F s s') ∨
    ¬ s.Affords (s.bill F) ∧ (x s).2 = .panic

/-- A treatment leaves only one board. -/
theorem Treated.unique (h₁ : Treated F s s₁) (h₂ : Treated F s s₂) : s₁ = s₂ := by
  have htasks : s₁.tasks = s₂.tasks := Finmap.ext_lookup fun id => (h₁.tasks id).trans (h₂.tasks id).symm
  have hreputation : s₁.reputation = s₂.reputation :=
    Finmap.ext_lookup fun pk => (h₁.reputation pk).trans (h₂.reputation pk).symm
  have hrest := h₁.rest.trans h₂.rest.symm
  obtain ⟨⟩ := s₁
  obtain ⟨⟩ := s₂
  simp only [TaskBoard.mk.injEq] at htasks hreputation hrest ⊢
  grind

/-- Whoever can be charged more can be charged less. -/
theorem Affords.of_le (h : s.Affords b') (hle : b ≤ b') : s.Affords b where
  failed pk hpk := by
    have hle' : b.1 pk ≤ b'.1 pk := hle.1 pk
    exact lt_of_le_of_lt (Nat.add_le_add_left hle' _) (h.failed pk fun h => hpk (by omega))
  panics := Nat.le_zero.1 (h.panics ▸ hle.2)

/-- A bill depends on the tasks there are. -/
theorem bill_congr (h : ∀ id task, s.tasks.lookup id = some task → F id task = G id task) :
    s.bill F = s.bill G := by
  refine Finset.sum_congr rfl fun id _ => ?_
  cases ht : s.tasks.lookup id with
  | none => rfl
  | some task => rw [Option.elim_some, Option.elim_some, h id task ht]

/-- So does what is treated. -/
theorem Treated.congr (h : Treated F s s')
    (hsame : ∀ id task, s.tasks.lookup id = some task → F id task = G id task) : Treated G s s' where
  tasks id := by
    rw [h.tasks]
    cases hid : s.tasks.lookup id with
    | none => rfl
    | some task => rw [Option.map_some, Option.map_some, hsame id task hid]
  reputation := by
    rw [← bill_congr hsame]
    exact h.reputation
  rest := h.rest

/-- And so does what a call treats. -/
theorem Treats.congr {α : Type} {x : BoardCall α} {a : α} (h : Treats F x a s)
    (hsame : ∀ id task, s.tasks.lookup id = some task → F id task = G id task) : Treats G x a s := by
  rw [Treats, bill_congr hsame] at h
  exact h.imp_left fun ⟨hcan, s', hx, ht⟩ => ⟨hcan, s', hx, ht.congr hsame⟩

/-- No treatment costs nothing. -/
theorem bill_none : s.bill .none = 0 :=
  Finset.sum_eq_zero fun id _ => by cases s.tasks.lookup id <;> rfl

/-- Only the task itself is billed. -/
theorem bill_only (F : Treatment) (id : Uuid) :
    s.bill (.only [id] F) = (s.tasks.lookup id).elim 0 fun task => (F id task).2 := by
  rw [bill, Finset.sum_eq_single id]
  · cases s.tasks.lookup id with
    | none => rfl
    | some task => rw [Option.elim_some, Treatment.only, if_pos (List.mem_singleton_self id)]; rfl
  · intro x _ hne
    cases s.tasks.lookup x with
    | none => rfl
    | some task => rw [Option.elim_some, Treatment.only, if_neg (List.mem_singleton.not.2 hne)]
  · intro hid
    rw [Finmap.lookup_eq_none.2 (Finmap.mem_keys.not.1 hid), Option.elim_none]

/-- A treatment adds no tasks, and removes none. -/
theorem Treated.keys (h : Treated F s s') : s'.tasks.keys = s.tasks.keys := by
  ext id
  rw [Finmap.mem_keys, Finmap.mem_keys, ← Finmap.lookup_isSome, ← Finmap.lookup_isSome, h.tasks,
    Option.isSome_map]

/-- The bill of two treatments is that of both, the second on what the first has left. -/
theorem Treated.bill_andThen (h : Treated F s s') : s.bill (F.andThen G) = s.bill F + s'.bill G := by
  rw [bill, bill, bill, h.keys, ← Finset.sum_add_distrib]
  refine Finset.sum_congr rfl fun id _ => ?_
  rw [h.tasks]
  cases s.tasks.lookup id with
  | none => exact (add_zero _).symm
  | some task => rfl

/-- The first of two treatments costs no more than both. -/
theorem bill_le_andThen : s.bill F ≤ s.bill (F.andThen G) := by
  refine Finset.sum_le_sum fun id _ => ?_
  cases s.tasks.lookup id with
  | none => exact le_rfl
  | some task => exact le_self_add

/-- A failure is counted for each time an agent is charged. -/
theorem Treated.failed (h : Treated F s s') (pk : PublicKey) :
    s'.reputationOf pk = { s.reputationOf pk with failed := (s.reputationOf pk).failed + (s.bill F).1 pk } := by
  rw [reputationOf, h.reputation]
  split_ifs with hzero
  · rw [hzero]
    rfl
  · rfl

/-- One treatment after another is a treatment. -/
theorem Treated.andThen (h : Treated F s s₁) (h' : Treated G s₁ s₂) : Treated (F.andThen G) s s₂ where
  tasks id := by
    rw [h'.tasks, h.tasks, Option.map_map]
    rfl
  reputation pk := by
    have hsum : (s.bill (F.andThen G)).1 pk = (s.bill F).1 pk + (s₁.bill G).1 pk := by
      rw [h.bill_andThen]
      rfl
    rw [h'.reputation, h.failed, hsum, h.reputation]
    grind
  rest := by
    have hrest := congrArg (fun t : TaskBoard => { t with tasks := s.tasks, reputation := s.reputation })
      h'.rest
    exact hrest.trans h.rest

/-- Both can be charged if the first can be and then the second. -/
theorem Treated.affords_andThen (h : Treated F s s') :
    s.Affords (s.bill (F.andThen G)) ↔ s.Affords (s.bill F) ∧ s'.Affords (s'.bill G) := by
  -- The bill of both is the bill of the first and then that of the second.
  have hsum : ∀ pk, (s.bill (F.andThen G)).1 pk = (s.bill F).1 pk + (s'.bill G).1 pk := fun pk => by
    rw [h.bill_andThen]
    rfl
  have hpanics : (s.bill (F.andThen G)).2 = (s.bill F).2 + (s'.bill G).2 := by
    rw [h.bill_andThen]
    rfl
  have hfailed : ∀ pk, (s'.reputationOf pk).failed = (s.reputationOf pk).failed + (s.bill F).1 pk :=
    fun pk => by rw [h.failed]
  constructor
  · intro hall
    -- The counts of failures only add up, so what suffices for all suffices for a part.
    refine ⟨hall.of_le bill_le_andThen, fun pk hpk => ?_, ?_⟩
    · have := hall.failed pk
      rw [hsum] at this
      rw [hfailed]
      omega
    · have := hall.panics
      omega
  · rintro ⟨hfirst, hthen⟩
    refine ⟨fun pk hpk => ?_, ?_⟩
    · have h₁ := hfirst.failed pk
      have h₂ := hthen.failed pk
      rw [hfailed] at h₂
      rw [hsum] at hpk ⊢
      omega
    · rw [hpanics, hfirst.panics, hthen.panics]

/-- Treatments compose as their calls do. -/
theorem Treats.bind {α β : Type} {x : BoardCall α} {f : α → BoardCall β} {a : α} {b : β}
    (hx : Treats F x a s) (hf : ∀ s', Treated F s s' → Treats G (f a) b s') :
    Treats (F.andThen G) (x >>= f) b s := by
  rcases hx with ⟨hcan, s', hx, ht⟩ | ⟨hcannot, hpanic⟩
  · rw [Treats, bind_of_ok hx, ht.affords_andThen]
    refine (hf s' ht).imp ?_ fun ⟨hcannot, hpanic⟩ => ⟨fun h => hcannot h.2, hpanic⟩
    rintro ⟨hcan', s'', hx', ht'⟩
    exact ⟨⟨hcan, hcan'⟩, s'', hx', ht.andThen ht'⟩
  · refine .inr ⟨fun h => hcannot (h.of_le bill_le_andThen), ?_⟩
    change (Call.bind x f s).2 = _
    rw [Call.bind]
    generalize x s = r at hpanic
    obtain ⟨s', o⟩ := r
    obtain rfl : o = .panic := hpanic
    rfl

/-- Nothing can always be charged. -/
theorem affords_none : s.Affords (s.bill .none) := by
  rw [bill_none]
  exact ⟨fun _ h => absurd rfl h, rfl⟩

/-- A board that is left alone has been treated by nothing. -/
theorem treated_none : Treated .none s s where
  tasks _ := Option.map_id'.symm
  reputation pk := by
    rw [bill_none]
    rfl
  rest := rfl

/-- Returning treats nothing. -/
theorem treats_pure {α : Type} (a : α) : Treats .none (pure a) a s :=
  .inl ⟨affords_none, s, rfl, treated_none⟩

/-- A call that has returned could charge its bill, and has left the board so treated. -/
theorem Treats.treated {α : Type} {x : BoardCall α} {a a' : α} (h : Treats F x a s)
    (hx : x s = (s', .ok a')) : s.Affords (s.bill F) ∧ Treated F s s' ∧ a' = a := by
  rw [Treats, hx] at h
  rcases h with ⟨hcan, s₁, heq, ht⟩ | ⟨-, hpanic⟩
  · obtain ⟨hs, ha⟩ := Prod.mk.inj heq
    exact ⟨hcan, hs ▸ ht, Outcome.ok.inj ha⟩
  · cases hpanic

/-- And it returns whenever its bill can be charged. -/
theorem Treats.returns {α : Type} {x : BoardCall α} {a : α} (h : Treats F x a s)
    (hcan : s.Affords (s.bill F)) : ∃ s', x s = (s', .ok a) ∧ Treated F s s' :=
  h.elim And.right fun h => absurd hcan h.1

/-- A loop that treats the tasks one after the other. -/
theorem treats_forEach {f : Uuid → BoardCall Unit} (hids : ids.Nodup)
    (hf : ∀ id ∈ ids, ∀ s, Treats (.only [id] F) (f id) () s) :
    Treats (.only ids F) (forEach ids f) () s := by
  induction ids generalizing s with
  | nil => exact (treats_pure ()).congr fun _ _ _ => rfl
  | cons id ids ih =>
    obtain ⟨hid, hids⟩ := List.nodup_cons.1 hids
    have hrest : ∀ s', Treated (.only [id] F) s s' → Treats (.only ids F) (forEach ids f) () s' :=
      fun s' _ => ih hids fun x hx => hf x (List.mem_cons_of_mem _ hx)
    rw [← Treatment.only_cons F hid]
    exact (hf id List.mem_cons_self s).bind hrest

/-- What is made of the answer is another matter. -/
theorem Treats.map {α β : Type} {x : BoardCall α} {a : α} (h : Treats F x a s) (f : α → β) :
    Treats F (x >>= fun a => pure (f a)) (f a) s :=
  (h.bind fun _ _ => treats_pure (f a)).congr fun _ _ _ => Prod.ext rfl (add_zero _)

/-! ## The passes as treatments -/

end TaskBoard

/-- What a pass does to the tasks. -/
def Pass.treatment (p : Pass) (now : DateTime) : Treatment := fun _ task =>
  if p.Due now task then (p.moved task, p.cost task) else (task, 0)

/-- What `f` does to a task is what the pass does, which charges nobody. -/
structure Pass.Does (p : Pass) (now : DateTime) (f : Task → Outcome BoardError (Option Task)) : Prop where
  of_due : ∀ {task}, p.Due now task → (p.cost task).2 = 0 → f task = .ok (some (p.moved task))
  panics : ∀ {task}, p.Due now task → (p.cost task).2 ≠ 0 → f task = .panic
  of_not_due : ∀ {task}, ¬ p.Due now task → f task = .ok none
  free : ∀ task, (p.cost task).1 = 0

namespace TaskBoard

variable {F : Treatment} {s s' : TaskBoard} {id : Uuid} {ids : List Uuid} {p : Pass} {now : DateTime}
  {f : Task → Outcome BoardError (Option Task)}

/-- One step of `sweepOver`. -/
def visit (f : Task → Outcome BoardError (Option Task)) (id : Uuid) : BoardCall (Option Task) := do
  let s ← Call.get
  let moved ← Call.lift ((s.tasks.lookup id).elim (.ok none) f)
  Call.when moved.isSome (Call.modify fun s =>
    { s with tasks := moved.elim s.tasks (s.tasks.insert id) })
  pure moved

/-- A pass visits its first task and goes over the others. -/
theorem sweepOver_cons (f : Task → Outcome BoardError (Option Task)) (id : Uuid) (ids : List Uuid)
    (s : TaskBoard) : sweepOver f (id :: ids) s = (visit f id >>= fun moved =>
      sweepOver f ids >>= fun rest => pure (moved.toList.map Task.id ++ rest)) s := by
  rw [sweepOver, visit]
  simp only [bind, Call.bind, Call.get, Call.lift]
  generalize (s.tasks.lookup id).elim (.ok none) f = r
  obtain ⟨_ | task⟩ | e | _ := r
  · rfl
  · rfl
  · rfl
  · rfl

/-- Calls that do the same treat alike. -/
theorem Treats.of_eq {α : Type} {x y : BoardCall α} {a : α} (h : Treats F y a s) (hxy : x s = y s) :
    Treats F x a s := by
  rwa [Treats, hxy]

/-- A board of which one task was treated. -/
theorem treated_only (F : Treatment) {task : Task} (reputation : Finmap fun _ : PublicKey => Reputation)
    (ht : s.tasks.lookup id = some task)
    (hr : ∀ pk, reputation.lookup pk = if (F id task).2.1 pk = 0 then s.reputation.lookup pk
      else some { s.reputationOf pk with failed := (s.reputationOf pk).failed + (F id task).2.1 pk }) :
    Treated (.only [id] F) s { s with tasks := s.tasks.insert id (F id task).1, reputation } where
  tasks x := by
    rw [Finmap.lookup_insert_eq]
    split_ifs with hx
    · rw [hx, ht, Option.map_some, Treatment.only, if_pos (List.mem_singleton_self id)]
    · simp [Treatment.only, hx]
  reputation pk := by
    rw [bill_only, ht, Option.elim_some]
    exact hr pk
  rest := rfl

/-- A task to which nothing is done. -/
theorem treats_none {α : Type} (a : α) (h : ∀ task, s.tasks.lookup id = some task → F id task = (task, 0)) :
    Treats (.only [id] F) (pure a) a s := by
  refine (treats_pure a).congr fun x task hx => ?_
  rw [Treatment.only]
  split_ifs with hid
  · rw [List.mem_singleton.1 hid] at hx ⊢
    exact (h task hx).symm
  · rfl

/-- A task is moved when it is visited, if it is due. -/
theorem treats_visit (hf : p.Does now f) (id : Uuid) :
    Treats (.only [id] (p.treatment now)) (visit f id)
      ((s.tasks.lookup id).bind fun task => if p.Due now task then some (p.moved task) else none) s := by
  cases ht : s.tasks.lookup id with
  | none =>
    -- Without the task there is nothing to visit.
    refine (treats_none _ fun task h => absurd (ht.symm.trans h) (by simp)).of_eq ?_
    simp only [visit, bind, Call.bind, Call.get, Call.lift, ht]
    rfl
  | some task =>
    rw [Option.bind_some]
    have hbill : s.bill (.only [id] (p.treatment now)) = (p.treatment now id task).2 := by
      rw [bill_only, ht, Option.elim_some]
    by_cases hdue : p.Due now task
    · have htreat : p.treatment now id task = (p.moved task, p.cost task) := if_pos hdue
      rw [if_pos hdue]
      rw [htreat] at hbill
      -- A move has a cost only where a deadline is out of range, and then the visit panics.
      by_cases hcost : (p.cost task).2 = 0
      · have hcan : s.Affords (p.cost task) := ⟨fun pk h => absurd (congrFun (hf.free task) pk) h, hcost⟩
        refine .inl ⟨hbill ▸ hcan, { s with tasks := s.tasks.insert id (p.moved task) }, ?_, ?_⟩
        · simp only [visit, bind, Call.bind, Call.get, Call.lift, ht, Option.elim_some, hf.of_due hdue hcost]
          rfl
        · have h := treated_only (p.treatment now) s.reputation ht fun pk => by
            rw [htreat, hf.free task]
            rfl
          rwa [htreat] at h
      · refine .inr ⟨fun h => hcost ?_, ?_⟩
        · rw [hbill] at h
          exact h.panics
        · simp only [visit, bind, Call.bind, Call.get, Call.lift, ht, Option.elim_some, hf.panics hdue hcost]
    · -- A task that is not due is left as it is.
      rw [if_neg hdue]
      refine (treats_none _ fun task' h => if_neg (Option.some.inj (ht.symm.trans h) ▸ hdue)).of_eq ?_
      simp only [visit, bind, Call.bind, Call.get, Call.lift, ht, Option.elim_some, hf.of_not_due hdue]
      rfl

/-- What a pass returns of the task under an id. -/
def reported (p : Pass) (now : DateTime) (s : TaskBoard) (id : Uuid) : Option Uuid :=
  (s.tasks.lookup id).bind fun task => if p.Due now task then some task.id else none

/-- By induction on the tasks that are gone over, each is visited once, and is then as it was at
    first. -/
theorem treats_sweepOver (hf : p.Does now f) (hids : ids.Nodup) :
    Treats (.only ids (p.treatment now)) (sweepOver f ids) (ids.filterMap (s.reported p now)) s := by
  induction ids generalizing s with
  | nil => exact (treats_pure []).congr fun _ _ _ => rfl
  | cons id ids ih =>
    obtain ⟨hid, hids⟩ := List.nodup_cons.1 hids
    -- The ids are distinct, so the visit to the first reports nothing of the others.
    have hrest : ∀ s', Treated (.only [id] (p.treatment now)) s s' →
        ids.filterMap (s'.reported p now) = ids.filterMap (s.reported p now) := fun s' h => by
      refine List.filterMap_congr fun x hx => ?_
      have hne : x ≠ id := fun he => hid (he ▸ hx)
      rw [reported, reported, h.tasks]
      cases s.tasks.lookup x with
      | none => rfl
      | some task => simp [Treatment.only, hne]
    have hanswer : (id :: ids).filterMap (s.reported p now) =
        ((s.tasks.lookup id).bind fun task => if p.Due now task then some (p.moved task) else none).toList.map
          Task.id ++ ids.filterMap (s.reported p now) := by
      rw [List.filterMap_cons, reported]
      cases s.tasks.lookup id with
      | none => rfl
      | some task =>
        rw [Option.bind_some, Option.bind_some]
        split_ifs with hdue
        · rw [Option.toList_some, List.map_singleton, p.moved_id task]
          rfl
        · rfl
    rw [hanswer, ← Treatment.only_cons _ hid]
    refine Treats.of_eq ((treats_visit hf id).bind fun s' h => ?_) (sweepOver_cons f id ids s)
    rw [← hrest s' h]
    exact (ih hids).map _

/-- What is reported are the ids of the tasks that are due. -/
theorem filterMap_reported (s : TaskBoard) (p : Pass) (now : DateTime) :
    s.tasks.keys.ascending.filterMap (s.reported p now) = (s.tasks.values.filter (p.due now)).map Task.id := by
  rw [Finmap.values, List.filter_filterMap, List.map_filterMap]
  refine List.filterMap_congr fun id _ => ?_
  rw [reported]
  cases s.tasks.lookup id with
  | none => rfl
  | some task =>
    rw [Option.bind_some, Option.filter_some]
    split_ifs <;> rfl

/-- So a pass moves all that are due, and reports them. -/
theorem treats_sweep (hf : p.Does now f) :
    Treats (p.treatment now) (sweep f) ((s.tasks.values.filter (p.due now)).map Task.id) s := by
  have h := treats_sweepOver (s := s) hf (Finset.nodup_ascending s.tasks.keys)
  rw [filterMap_reported] at h
  refine (h.of_eq rfl).congr fun id task ht => ?_
  rw [Treatment.only, if_pos]
  rw [Finset.mem_ascending, Finmap.mem_keys]
  exact Finmap.mem_iff.2 ⟨task, ht⟩

/-- Nobody loses the same vote twice. -/
theorem nodup_losers (kind : ConsensusKind) (winning : Option String) : (losers kind winning).Nodup := by
  cases winning with
  | none => exact List.nodup_nil
  | some answer =>
    rw [losers_eq]
    exact Finset.nodup_ascending _

/-- A vote moves its task, and charges each of the losers once. -/
theorem treats_countVote {task : Task} {kind : ConsensusKind} {winning : Option String}
    (ht : s.tasks.lookup id = some task) (hF : F id task = (resolved task kind winning,
      (fun pk => if pk ∈ losers kind winning then 1 else 0, 0))) :
    Treats (.only [id] F) (countVote id task kind winning) () s := by
  have hbill : s.bill (.only [id] F) = (fun pk => if pk ∈ losers kind winning then 1 else 0, 0) := by
    rw [bill_only, ht, Option.elim_some, hF]
  rw [Treats, hbill, countVote]
  -- The losers are charged one by one, which panics if one of them cannot be.
  rcases forEach_addFailed (s := s) (nodup_losers kind winning) with ⟨hroom, hloop⟩ | ⟨hroom, hloop⟩
  · refine .inl ⟨⟨fun pk hpk => ?_, rfl⟩, _, bind_of_ok hloop, ?_⟩
    · dsimp only at hpk ⊢
      split_ifs at hpk ⊢ with hmem
      · exact hroom pk hmem
      · exact absurd rfl hpk
    · have htreated := treated_only F ((losers kind winning).foldl charge s).reputation
        ht fun pk => by
          rw [lookup_foldl_charge (nodup_losers kind winning), hF]
          by_cases hmem : pk ∈ losers kind winning
          · simp [hmem]
          · simp [hmem]
      rw [hF] at htreated
      rw [foldl_charge_tasks]
      exact htreated
  · -- The task is not reached then.
    refine .inr ⟨fun h => hroom fun pk hmem => ?_, ?_⟩
    · have := h.failed pk
      dsimp only at this
      rw [if_pos hmem] at this
      exact this one_ne_zero
    · change (Call.bind (forEach (losers kind winning) addFailed) _ s).2 = _
      rw [Call.bind]
      generalize forEach (losers kind winning) addFailed s = r at hloop
      obtain ⟨s', o⟩ := r
      obtain rfl : o = .panic := hloop
      rfl

/-- Counting a vote, for what it is to the board. -/
theorem treats_resolveConsensus (id : Uuid) :
    Treats (.only [id] fun _ task => (Pass.resolveExpiredConsensusTasks.moved task,
      Pass.resolveExpiredConsensusTasks.cost task)) (resolveConsensus id) () s := by
  cases ht : s.tasks.lookup id with
  | none =>
    refine (treats_none () fun task h => absurd (ht.symm.trans h) (by simp)).of_eq ?_
    rw [resolveConsensus, bind_of_ok (x := Call.get) (a := s) rfl, ht]
  | some task =>
    cases hkind : task.kind with
    | consensus kind =>
      refine Treats.of_eq (treats_countVote ht ?_) (resolveConsensus_eq ht hkind)
      simp only [Pass.cost, Pass.moved, hkind]
    | _ =>
      -- Any other task has no vote, and is left.
      refine (treats_none () fun task' h => ?_).of_eq ?_
      · obtain rfl := Option.some.inj (ht.symm.trans h)
        simp only [Pass.cost, Pass.moved, hkind]
      · rw [resolveConsensus, bind_of_ok (x := Call.get) (a := s) rfl]
        simp only [ht, hkind]

/-- The votes that have expired are counted one after the other, each on its own task. -/
theorem treats_resolveExpiredConsensusTasks (hs : s.TasksKeyed) (now : DateTime) :
    Treats (Pass.resolveExpiredConsensusTasks.treatment now) (resolveExpiredConsensusTasks now)
      (s.due now) s := by
  have hloop := (treats_forEach (s := s) (nodup_due hs now) fun id _ s =>
    treats_resolveConsensus (s := s) id).map fun _ => s.due now
  refine (hloop.of_eq (resolveExpiredConsensusTasks_eq now s)).congr fun id task ht => ?_
  have hmem : id ∈ s.due now ↔ isDue now task = true := by
    refine ⟨fun h => ?_, mem_due hs ht⟩
    obtain ⟨task', hmem, rfl⟩ := List.mem_map.1 h
    obtain ⟨hvalue, hdue⟩ := List.mem_filter.1 hmem
    obtain ⟨x, hx⟩ := Finmap.mem_values.1 hvalue
    obtain rfl := hs x task' hx
    rw [Option.some.inj (ht.symm.trans hx)]
    exact hdue
  rw [Treatment.only, Pass.treatment]
  exact if_congr hmem rfl rfl

/-- A claim that has run out is due. -/
theorem does_expireClaims (now : DateTime) : Pass.expireClaims.Does now (expireClaim now) where
  of_due h _ := by
    rw [expireClaim, if_pos (of_decide_eq_true h)]
    rfl
  panics _ h := absurd rfl h
  of_not_due h := by
    rw [expireClaim, if_neg fun hdue => h (decide_eq_true hdue)]
    rfl
  free _ := rfl

/-- So is a vote too few have joined. -/
theorem does_cancelUnderstaffedConsensusTasks (now : DateTime) :
    Pass.cancelUnderstaffedConsensusTasks.Does now (cancelUnderstaffed now) where
  of_due {task} h _ := by
    cases hkind : task.kind with
    | consensus kind =>
      simp only [Pass.Due, Pass.due, hkind] at h
      simp only [cancelUnderstaffed, Pass.moved, hkind, if_pos (of_decide_eq_true h)]
      rfl
    | _ => simp [Pass.Due, Pass.due, hkind] at h
  panics _ h := absurd rfl h
  of_not_due {task} h := by
    cases hkind : task.kind with
    | consensus kind =>
      simp only [Pass.Due, Pass.due, hkind] at h
      simp only [cancelUnderstaffed, hkind, if_neg fun hdue => h (decide_eq_true hdue)]
      rfl
    | _ =>
      simp only [cancelUnderstaffed, hkind]
      rfl
  free _ := rfl

/-- So is a claim nobody has challenged. -/
theorem does_finalizeUnchallengedDisputableTasks (now : DateTime) :
    Pass.finalizeUnchallengedDisputableTasks.Does now (finalizeUnchallenged now) where
  of_due {task} h _ := by
    cases hkind : task.kind with
    | disputable kind =>
      simp only [Pass.Due, Pass.due, hkind] at h
      simp only [finalizeUnchallenged, Pass.moved, hkind, if_pos (of_decide_eq_true h)]
      rfl
    | _ => simp [Pass.Due, Pass.due, hkind] at h
  panics _ h := absurd rfl h
  of_not_due {task} h := by
    cases hkind : task.kind with
    | disputable kind =>
      simp only [Pass.Due, Pass.due, hkind] at h
      simp only [finalizeUnchallenged, hkind, if_neg fun hdue => h (decide_eq_true hdue)]
      rfl
    | _ =>
      simp only [finalizeUnchallenged, hkind]
      rfl
  free _ := rfl

/-- So is a contest without a pick. -/
theorem does_splitUnpickedContests (now : DateTime) :
    Pass.splitUnpickedContests.Does now (splitUnpicked now) where
  of_due {task} h _ := by
    cases hkind : task.kind with
    | disputable kind =>
      simp only [Pass.Due, Pass.due, hkind] at h
      simp only [splitUnpicked, Pass.moved, hkind, if_pos (of_decide_eq_true h)]
      rfl
    | _ => simp [Pass.Due, Pass.due, hkind] at h
  panics _ h := absurd rfl h
  of_not_due {task} h := by
    cases hkind : task.kind with
    | disputable kind =>
      simp only [Pass.Due, Pass.due, hkind] at h
      simp only [splitUnpicked, hkind, if_neg fun hdue => h (decide_eq_true hdue)]
      rfl
    | _ =>
      simp only [splitUnpicked, hkind]
      rfl
  free _ := rfl

/-- A deadline is there or is computed. -/
theorem submissionDeadline_ne_err (task : Task) (e : BoardError) : task.submissionDeadline ≠ .err e := by
  rw [Task.submissionDeadline]
  split
  · refine Outcome.expect_bind_ne_err fun _ => ?_
    rintro ⟨⟩
  · rintro ⟨⟩

/-- The deadline of an open contest may be out of range. -/
theorem does_closeUnclosedContests (now : DateTime) :
    Pass.closeUnclosedContests.Does now (closeUnclosed now) where
  of_due {task} h hcost := by
    cases hdeadline : task.submissionDeadline with
    | ok deadline =>
      simp only [Pass.Due, Pass.due, hdeadline] at h
      have h := of_decide_eq_true h
      rw [closeUnclosed, if_pos h.1, hdeadline, Outcome.ok_bind, if_pos h.2]
      rfl
    | _ => simp [Pass.cost, hdeadline] at hcost
  panics {task} h hcost := by
    cases hdeadline : task.submissionDeadline with
    | ok deadline => simp [Pass.cost, hdeadline] at hcost
    | err e => exact absurd hdeadline (submissionDeadline_ne_err task e)
    | panic =>
      simp only [Pass.Due, Pass.due, hdeadline] at h
      rw [closeUnclosed, if_pos (of_decide_eq_true h), hdeadline]
      rfl
  of_not_due {task} h := by
    rw [closeUnclosed]
    split_ifs with hopen
    · -- An open contest that is not due has a deadline in range that is not past.
      cases hdeadline : task.submissionDeadline with
      | ok deadline =>
        simp only [Pass.Due, Pass.due, hdeadline] at h
        rw [Outcome.ok_bind, if_neg fun hlate => h (decide_eq_true ⟨hopen, hlate⟩)]
        rfl
      | _ => simp [Pass.Due, Pass.due, hdeadline, hopen] at h
    · rfl
  free task := by
    rw [Pass.cost]
    split <;> rfl

/-- A pass over a board: it moves the tasks that are due, and returns their ids. -/
theorem treats_run (hs : s.TasksKeyed) (p : Pass) (now : DateTime) :
    Treats (p.treatment now) (p.run now) ((s.tasks.values.filter (p.due now)).map Task.id) s := by
  cases p with
  | expireClaims => exact treats_sweep (does_expireClaims now)
  | cancelUnderstaffedConsensusTasks => exact treats_sweep (does_cancelUnderstaffedConsensusTasks now)
  | resolveExpiredConsensusTasks => exact treats_resolveExpiredConsensusTasks hs now
  | finalizeUnchallengedDisputableTasks => exact treats_sweep (does_finalizeUnchallengedDisputableTasks now)
  | closeUnclosedContests => exact treats_sweep (does_closeUnclosedContests now)
  | splitUnpickedContests => exact treats_sweep (does_splitUnpickedContests now)

/-! ## Schedules -/

/-- The passes, with what they cost. -/
noncomputable abbrev chargedDeadlines : Deadlines Pass DateTime (Task × Bill) :=
  sweepDeadlines.charged fun p task => p.cost task

/-- What passes one after the other do to the tasks. -/
noncomputable def treatmentOf (schedule : List (Pass × DateTime)) : Treatment := fun _ task =>
  chargedDeadlines.run schedule (task, 0)

/-- What a schedule makes of a task is the run of its passes. -/
theorem treatmentOf_fst (schedule : List (Pass × DateTime)) (id : Uuid) (task : Task) :
    (treatmentOf schedule id task).1 = sweepDeadlines.run schedule task := by
  rw [treatmentOf, Deadlines.charged_run]

/-- It keeps the id. -/
theorem treatmentOf_id (schedule : List (Pass × DateTime)) (id : Uuid) (task : Task) :
    (treatmentOf schedule id task).1.id = task.id := by
  rw [treatmentOf_fst]
  exact Deadlines.run_const (fun p task => p.moved_id task) schedule task

/-- Passes over a task that has cost something. -/
theorem run_charged (schedule : List (Pass × DateTime)) (id : Uuid) (y : Task × Bill) :
    chargedDeadlines.run schedule y =
      ((treatmentOf schedule id y.1).1, y.2 + (treatmentOf schedule id y.1).2) := by
  rw [treatmentOf_fst]
  exact Deadlines.charged_run _ schedule y.1 y.2

/-- The first pass of a schedule comes before the others. -/
theorem treatmentOf_cons (e : Pass × DateTime) (schedule : List (Pass × DateTime)) :
    treatmentOf (e :: schedule) = (e.1.treatment e.2).andThen (treatmentOf schedule) := by
  funext id task
  have hstep : chargedDeadlines.step e.1 e.2 (task, 0) = e.1.treatment e.2 id task :=
    if_congr Iff.rfl (Prod.ext rfl (zero_add _)) rfl
  rw [treatmentOf, Deadlines.run_cons, hstep]
  exact run_charged schedule id _

/-- A treatment that keeps ids keeps the tasks under them. -/
theorem Treated.keyed (h : Treated F s s') (hF : ∀ id task, (F id task).1.id = task.id)
    (hs : s.TasksKeyed) : s'.TasksKeyed := by
  intro id task' ht'
  rw [h.tasks] at ht'
  obtain ⟨task, ht, rfl⟩ := Option.map_eq_some_iff.1 ht'
  rw [hF]
  exact hs id task ht

/-- By induction on the schedule, its passes treat the board as they should. -/
theorem treats_runPasses (hs : s.TasksKeyed) (schedule : List (Pass × DateTime)) :
    Treats (treatmentOf schedule) (runPasses schedule) () s := by
  induction schedule generalizing s with
  | nil => exact treats_pure ()
  | cons e schedule ih =>
    rw [treatmentOf_cons]
    have hid : ∀ id task, (e.1.treatment e.2 id task).1.id = task.id := fun id task => by
      rw [Pass.treatment]
      split_ifs
      · exact e.1.moved_id task
      · rfl
    exact ((treats_run hs e.1 e.2).map fun _ => ()).bind fun s' h => ih (h.keyed hid hs)

/-! ## The sweep makes up for what was missed -/

variable {schedule : List (Pass × DateTime)}

/-- What a sweep does to the tasks. -/
noncomputable abbrev sweepTreatment (now : DateTime) : Treatment := treatmentOf (Pass.all.map (·, now))

/-- Passes that a sweep follows leave nothing of their own. -/
theorem treatmentOf_andThen_sweep (hle : ∀ e ∈ schedule, e.2 ≤ now) (id : Uuid) {task : Task}
    (h : Pass.Clean task) :
    (treatmentOf schedule).andThen (sweepTreatment now) id task = sweepTreatment now id task := by
  have hgood : chargedDeadlines.good (task, 0) := h
  exact (run_charged _ id _).symm.trans (Deadlines.sweep_run (complete_all.charged _) hgood hle)

/-- A sweep makes up for any passes before it. -/
theorem runSweepOnce_runPasses (hkeyed : s.TasksKeyed)
    (hclean : ∀ id task, s.tasks.lookup id = some task → Pass.Clean task)
    (hsweep : runSweepOnce now s = (s', .ok ())) (hle : ∀ e ∈ schedule, e.2 ≤ now) :
    ∃ s₁, runPasses schedule s = (s₁, .ok ()) ∧ runSweepOnce now s₁ = (s', .ok ()) := by
  obtain ⟨hcan, ht, -⟩ := (treats_runPasses hkeyed (Pass.all.map (·, now))).treated hsweep
  have hsame : ∀ id task, s.tasks.lookup id = some task →
      (treatmentOf schedule).andThen (sweepTreatment now) id task = sweepTreatment now id task :=
    fun id task h => treatmentOf_andThen_sweep hle id (hclean id task h)
  rw [← bill_congr hsame] at hcan
  obtain ⟨s₁, hpasses, ht₁⟩ := (treats_runPasses hkeyed schedule).returns (hcan.of_le bill_le_andThen)
  have hkeyed₁ : s₁.TasksKeyed := ht₁.keyed (treatmentOf_id schedule) hkeyed
  obtain ⟨s₂, hsweep₂, ht₂⟩ := (treats_runPasses hkeyed₁ (Pass.all.map (·, now))).returns
    (ht₁.affords_andThen.1 hcan).2
  refine ⟨s₁, hpasses, ?_⟩
  rw [← ((ht₁.andThen ht₂).congr hsame).unique ht]
  exact hsweep₂

/-- After a sweep no pass moves anything. -/
theorem run_runSweepOnce (hkeyed : s.TasksKeyed)
    (hclean : ∀ id task, s.tasks.lookup id = some task → Pass.Clean task)
    (hsweep : runSweepOnce now s = (s', .ok ())) (p : Pass) {t : DateTime} (hle : t ≤ now) :
    p.run t s' = (s', .ok []) := by
  obtain ⟨-, ht, -⟩ := (treats_runPasses hkeyed (Pass.all.map (·, now))).treated hsweep
  have hkeyed' : s'.TasksKeyed := ht.keyed (treatmentOf_id _) hkeyed
  -- No pass finds a task due any more, since each has gone over all of them.
  have hdue : ∀ id task, s'.tasks.lookup id = some task → ¬ p.Due t task := by
    intro id task' ht'
    rw [ht.tasks] at ht'
    obtain ⟨task, hlookup, rfl⟩ := Option.map_eq_some_iff.1 ht'
    rw [treatmentOf_fst]
    exact Deadlines.not_due_sweep complete_all (hclean id task hlookup) hle p
  have hnone : s'.tasks.values.filter (p.due t) = [] := by
    refine List.filter_eq_nil_iff.2 fun task hmem => ?_
    obtain ⟨id, hlookup⟩ := Finmap.mem_values.1 hmem
    exact hdue id task hlookup
  have hrun := treats_run hkeyed' p t
  rw [hnone] at hrun
  -- So the next one treats none.
  have hrun : Treats .none (p.run t) [] s' := hrun.congr fun id task h => if_neg (hdue id task h)
  obtain ⟨s'', hrun, ht''⟩ := hrun.returns affords_none
  rw [hrun, ht''.unique treated_none]

end TaskBoard

section

variable {b₀ : TaskBoard} {s : TaskRun}

/-- A late sweep makes up for those that were missed. When a sweep of a board returns, then
    whatever passes are run before it, in any order and at earlier times, these return too,
    and the sweep then leaves the same board; and after it each pass, at its time or before,
    leaves the board as it is and returns no task. -/
theorem late_sweep (hr : (taskRuns b₀).Reachable s) {now : DateTime} {s' : TaskBoard}
    (hsweep : runSweepOnce now s.board = (s', .ok ())) :
    (∀ schedule : List (Pass × DateTime), (∀ e ∈ schedule, e.2 ≤ now) →
      ∃ s₁, runPasses schedule s.board = (s₁, .ok ()) ∧ runSweepOnce now s₁ = (s', .ok ())) ∧
    ∀ (p : Pass) (t : DateTime), t ≤ now → p.run t s' = (s', .ok []) := by
  have htidy := tidy_of_reachable hr
  have hclean : ∀ id task, s.board.tasks.lookup id = some task → Pass.Clean task :=
    fun id task h kind hkind => ((htidy.sound id task h).life.staffed kind hkind).claimDeadline
  exact ⟨fun schedule hle => runSweepOnce_runPasses htidy.keyed hclean hsweep hle,
    fun p t hle => run_runSweepOnce htidy.keyed hclean hsweep p hle⟩

/-- The vote of the sample is due: two passes at earlier times, one of them too early, and
    then a sweep, count it as the sweep alone does. -/
theorem late_sweep_sample : ∃ s' s₁,
    runPasses [(.resolveExpiredConsensusTasks, 0), (.resolveExpiredConsensusTasks, 4000000000000)]
      (sampleTaskRun sampleBallot).board = (s₁, .ok ()) ∧
    runSweepOnce 5000000000000 s₁ = (s', .ok ()) ∧ (s'.reputationOf 9).failed = 1 ∧
    Pass.expireClaims.run 5000000000000 s' = (s', .ok []) := by
  have hok : (runSweepOnce 5000000000000 (sampleTaskRun sampleBallot).board).2 = .ok () := by decide +kernel
  have hfailed :
      ((runSweepOnce 5000000000000 (sampleTaskRun sampleBallot).board).1.reputationOf 9).failed = 1 := by
    decide +kernel
  generalize hsweep : runSweepOnce 5000000000000 (sampleTaskRun sampleBallot).board = r at hok hfailed
  obtain ⟨s', o⟩ := r
  obtain rfl : o = .ok () := hok
  obtain ⟨hbefore, hafter⟩ := late_sweep reachable_sampleBallot hsweep
  obtain ⟨s₁, hpasses, hagain⟩ := hbefore
    [(.resolveExpiredConsensusTasks, 0), (.resolveExpiredConsensusTasks, 4000000000000)] (by simp)
  exact ⟨s', s₁, hpasses, hagain, hfailed, hafter .expireClaims 5000000000000 le_rfl⟩

end

end Itx
