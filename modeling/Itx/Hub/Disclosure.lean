import Itx.Hub.Challenges
import Itx.Hub.TaskRuns

/-!
# What the API shows of a task

The answers to a task are not to be read before it is decided (`TaskDto`,
`hub/src/handlers.rs`): those of a contest not before its poster has closed it, and those of
a consensus task never, but for the one that won. `TaskDto::from` looks at no status: it shows
the answers of a contest that has a deadline to pick one, and the answer of an assignee who
has a share.

* A contest without that deadline has no share in any answer (`Task.Sealed`), however it came
  to its end.
* Before a consensus task is settled nobody has a share. Once it is, those who have one gave
  the answer of the majority (`Task.Announced`).

So what is shown is the same of any two tasks that differ in what is not to be read
(`answers_hidden`).
-/

namespace Itx

open TaskBoard Call Blockchain

/-! ## Views -/

/-- `ContestAnswerDto`. -/
structure ContestAnswerDto where
  pubkey : Text
  answer : String
  submittedAt : DateTime
  deriving DecidableEq

/-- `DisputeDto`. -/
structure DisputeDto where
  challenger : Text
  reason : String
  bondAmount : ℕ
  filedAt : DateTime
  resolution : Option DisputeResolution
  deriving DecidableEq

/-- The fields of `TaskKindDto::Consensus`. -/
structure ConsensusDto where
  numAssignees : ℕ
  assigneesJoined : ℕ
  joinDeadline : DateTime
  submissionDeadline : Option DateTime
  winningAnswer : Option String
  deriving DecidableEq

/-- The fields of `TaskKindDto::Disputable`. -/
structure DisputableDto where
  answer : Option String
  disputeDeadline : Option DateTime
  dispute : Option DisputeDto
  submissionDeadline : DateTime
  answerCount : ℕ
  answers : Option (List ContestAnswerDto)
  pickDeadline : Option DateTime
  picked : Option Text
  split : Bool
  deriving DecidableEq

/-- `TaskKindDto`. -/
inductive TaskKindDto
  | hashMatch
  | consensus (kind : ConsensusDto)
  | disputable (kind : DisputableDto)
  deriving DecidableEq

/-- `TaskDto`. -/
structure TaskDto where
  id : Uuid
  description : String
  bounty : ℕ
  status : TaskStatus
  poster : Text
  claimant : Option Text
  failedAttempts : ℕ
  minReputation : ℕ
  closeReason : Option CloseReason
  capabilities : Finset String
  createdAt : DateTime
  settledAt : Option DateTime
  bountyConfirmed : ℕ
  bountyPending : ℕ
  kind : TaskKindDto
  deriving DecidableEq

namespace Task

/-- `Task::confirmed_payout_total`, none when it does not fit. -/
def confirmedPayoutTotal (task : Task) : Option ℕ :=
  checkedSum ((task.allocatedPayouts.filter fun p => task.isRecipientPaid p.1).map Prod.snd)

/-- `Task::unconfirmed_payout_total`, none when it does not fit. -/
def unconfirmedPayoutTotal (task : Task) : Option ℕ := checkedSum (task.owedPayouts.map Prod.snd)

end Task

section

variable (c : Crypto)

/-- `DisputeDto::from`. -/
def DisputeDto.ofDispute (d : Dispute) : DisputeDto where
  challenger := keyText c d.challenger
  reason := d.reason
  bondAmount := d.bondAmount
  filedAt := d.filedAt
  resolution := d.resolution

/-- What is shown of an answer. -/
def ContestAnswerDto.ofAnswer (a : ContestAnswer) : ContestAnswerDto where
  pubkey := keyText c a.pubkey
  answer := a.answer
  submittedAt := a.submittedAt

/-- What is shown of a consensus task. The number of those who joined is a `u32`. -/
def ConsensusDto.ofKind (kind : ConsensusKind) : ConsensusDto where
  numAssignees := kind.numAssignees
  assigneesJoined := kind.assignees.keys.card % 2 ^ 32
  joinDeadline := kind.joinDeadline
  submissionDeadline := kind.submissionDeadline
  winningAnswer :=
    (kind.assignees.values.find? fun a => a.share.isSome).bind ConsensusAssignment.answer

/-- What is shown of a contest. -/
def DisputableDto.ofKind (submissionDeadline : DateTime) (kind : DisputableKind) : DisputableDto where
  answer := kind.answer
  disputeDeadline := kind.disputeDeadline
  dispute := kind.dispute.map (DisputeDto.ofDispute c)
  submissionDeadline
  answerCount := kind.answers.length
  answers := kind.pickDeadline.map fun _ => kind.answers.map (ContestAnswerDto.ofAnswer c)
  pickDeadline := kind.pickDeadline
  picked := kind.picked.map (keyText c)
  split := kind.picked.isNone && kind.answers.any fun a => a.share.isSome

/-- What is shown of a kind. -/
def TaskKindDto.ofTask (task : Task) : Outcome BoardError TaskKindDto :=
  match task.kind with
  | .hashMatch _ => .ok .hashMatch
  | .consensus kind => .ok (.consensus (ConsensusDto.ofKind kind))
  | .disputable kind => do
    let deadline ← task.submissionDeadline
    let submissionDeadline ← Outcome.expect deadline
    pure (.disputable (DisputableDto.ofKind c submissionDeadline kind))

/-- `TaskDto::from`. -/
def TaskDto.ofTask (task : Task) : Outcome BoardError TaskDto := do
  let kind ← TaskKindDto.ofTask c task
  let bountyConfirmed ← Outcome.expect task.confirmedPayoutTotal
  let bountyPending ← Outcome.expect task.unconfirmedPayoutTotal
  pure
    { id := task.id
      description := task.description
      bounty := task.bounty
      status := task.status
      poster := keyText c task.poster
      claimant := task.claimant.map (keyText c)
      failedAttempts := task.failedAttempts
      minReputation := task.minReputation
      closeReason := task.closeReason
      capabilities := task.capabilities
      createdAt := task.createdAt
      settledAt := task.settledAt
      bountyConfirmed
      bountyPending
      kind }

end

/-! ## What carries no answer -/

namespace Task

variable {t t' : Task}

/-- A contest that waits for a pick says until when. One that does not say was decided
    without answers, if it was decided. -/
def Sealed (task : Task) : Prop :=
  ∀ kind, task.kind = .disputable kind →
    (task.status = .awaitingPick → kind.pickDeadline.isSome) ∧
    (kind.pickDeadline = none →
      task.Settled ∨ task.status = .awaitingDispute ∨ task.status = .disputed → kind.answers = [])

/-- Those who have a share of a settled consensus task gave the answer of the majority. -/
def Announced (task : Task) : Prop :=
  ∀ kind, task.kind = .consensus kind → task.Settled →
    ∀ pk a, kind.assignees.lookup pk = some a → a.share.isSome →
      a.answer = majorityAnswer kind.assignees

theorem Fresh.sealed (h : t.Fresh) : t.Sealed := by
  intro kind hkind
  refine ⟨fun hstatus => ?_, fun _ _ => (h.disputable kind hkind).1⟩
  rw [h.status] at hstatus
  cases hstatus

theorem Legacy.sealed (h : t.Legacy) : t.Sealed := by
  intro kind hkind
  obtain ⟨kind', hkind', hnil⟩ := h.kind
  obtain rfl := TaskKind.disputable.inj (hkind'.symm.trans hkind)
  refine ⟨fun hstatus => ?_, fun _ _ => hnil⟩
  have hlegacy := h.status
  rw [hstatus] at hlegacy
  simp at hlegacy

theorem Fresh.announced (h : t.Fresh) : t.Announced := by
  intro kind hkind hsettled
  rw [Settled, h.status] at hsettled
  simp at hsettled

theorem Legacy.announced (h : t.Legacy) : t.Announced := by
  intro kind hkind
  obtain ⟨kind', hkind', -⟩ := h.kind
  rw [hkind'] at hkind
  cases hkind

/-- The status changes to one that says nothing of a contest. -/
theorem Sealed.of_status (hs : t'.status = .open ∨ t'.status = .closed) : t'.Sealed := by
  intro kind _
  refine ⟨fun h => ?_, fun _ h => ?_⟩
  · rcases hs with hs | hs <;> simp [hs] at h
  · rcases hs with hs | hs <;> simp [Settled, hs] at h

/-- The task is not a contest. -/
theorem Sealed.of_kind (h : ∀ kind, t'.kind ≠ .disputable kind) : t'.Sealed :=
  fun kind hkind => absurd hkind (h kind)

theorem Works.sealed (h : t.Works t') (ht : t.Sealed) : t'.Sealed := by
  have hother : ∀ {hash : Hash}, t.kind = .hashMatch hash → ∀ kind, t.kind ≠ .disputable kind :=
    fun h kind hk => by rw [h] at hk; cases hk
  cases h with
  | annotate => exact ht
  | cancel => exact .of_status (.inr rfl)
  | claim _ _ hkind => exact .of_kind (hother hkind)
  | join | fill | answer => exact .of_kind fun _ => nofun
  | verify hkind => exact .of_kind (hother hkind)
  | reopen => exact .of_status (.inl rfl)
  | enter _ _ h => exact .of_status (.inl h)
  | shut => exact .of_status (.inr rfl)
  | close deadline =>
    intro kind hkind
    obtain rfl := TaskKind.disputable.inj hkind
    exact ⟨fun _ => rfl, nofun⟩
  | pick hkind h =>
    -- The deadline that was waited for is still there.
    intro kind' hkind'
    obtain rfl := TaskKind.disputable.inj hkind'
    refine ⟨nofun, fun hnone _ => ?_⟩
    have hdeadline := (ht _ hkind).1 h
    rw [show _ = none from hnone] at hdeadline
    cases hdeadline
  | split hkind h =>
    intro kind' hkind'
    obtain rfl := TaskKind.disputable.inj hkind'
    refine ⟨nofun, fun hnone _ => ?_⟩
    have hdeadline := (ht _ hkind).1 h
    rw [show _ = none from hnone] at hdeadline
    cases hdeadline
  | finalize hkind h =>
    intro kind' hkind'
    exact ⟨nofun, fun hnone _ => (ht kind' hkind').2 hnone (.inr (.inl h))⟩
  | file d hkind h =>
    intro kind' hkind'
    obtain rfl := TaskKind.disputable.inj hkind'
    exact ⟨nofun, fun hnone _ => (ht _ hkind).2 hnone (.inr (.inl h))⟩
  | rule d hkind h =>
    intro kind' hkind'
    obtain rfl := TaskKind.disputable.inj hkind'
    refine ⟨fun hstatus => ?_, fun hnone _ => (ht _ hkind).2 hnone (.inr (.inr h))⟩
    rw [show t.status = _ from hstatus] at h
    cases h
  | upheld hkind h =>
    intro kind' hkind'
    exact ⟨nofun, fun hnone _ => (ht kind' hkind').2 hnone (.inr (.inr h))⟩
  | vote hkind =>
    refine .of_kind fun kind' hkind' => ?_
    unfold TaskBoard.resolved at hkind'
    split at hkind'
    · cases hkind'
    · rw [show t.kind = _ from hkind'] at hkind
      cases hkind
  | understaffed => exact .of_status (.inr rfl)

theorem Moves.sealed (h : t.Moves t') (ht : t.Sealed) : t'.Sealed := by
  cases h with
  | work h => exact h.sealed ht
  | submitted h =>
    intro kind hkind
    exact ⟨by simp, fun hnone _ => (ht kind hkind).2 hnone (.inl (by rw [Settled, h]; decide))⟩
  | pay now h hpay =>
    have hsettled : t.Settled := by
      rcases h with h | h <;> rw [Settled, h] <;> decide
    intro kind' hkind'
    rw [paidTask_kind] at hkind'
    refine ⟨fun hstatus => ?_, fun hnone _ => ?_⟩
    · rw [paidTask_status] at hstatus
      split_ifs at hstatus
      rcases h with h | h <;> rw [h] at hstatus <;> cases hstatus
    · cases pays_of_payRecipient hpay with
      | hashMatch => cases hkind'
      | consensus => cases hkind'
      | contest hkind hne =>
        obtain rfl := TaskKind.disputable.inj hkind'
        exact absurd ((ht _ hkind).2 hnone (.inl hsettled)) hne
      | single hkind =>
        obtain rfl := TaskKind.disputable.inj hkind'
        exact (ht _ hkind).2 hnone (.inl hsettled)
  | fail h =>
    intro kind hkind
    refine ⟨by simp, fun hnone _ => (ht kind hkind).2 hnone (.inl ?_)⟩
    rcases h with h | h <;> rw [Settled, h] <;> decide

end Task

/-- The majority, by what each assignee answered. -/
theorem majorityAnswer_congr {m m' : Finmap fun _ : PublicKey => ConsensusAssignment}
    (h : ∀ pk, (m'.lookup pk).map ConsensusAssignment.answer =
      (m.lookup pk).map ConsensusAssignment.answer) : majorityAnswer m' = majorityAnswer m := by
  have hgiven : m'.values.filterMap ConsensusAssignment.answer =
      m.values.filterMap ConsensusAssignment.answer := by
    have hanswers := congrArg (List.filterMap id) (Finmap.map_values_congr h)
    rwa [List.filterMap_map, List.filterMap_map] at hanswers
  rw [majorityAnswer, majorityAnswer, hgiven, Finmap.keys_congr h]

namespace Task

variable {t t' : Task}

theorem Moves.announced (h : t.Moves t') (hblank : t.Allotted) (ht : t.Announced) :
    t'.Announced := by
  intro kind' hkind' hsettled' pk a ha hshare
  by_cases hsettled : t.Settled
  · rcases h.settled_cases hsettled with ⟨_, _, _, rfl⟩ | ⟨-, rfl⟩ |
      ⟨recipient, kind, nowFullyPaid, credited, now, -, hpay, rfl⟩ | ⟨-, rfl⟩
    · exact ht kind' hkind' hsettled pk a ha hshare
    · exact ht kind' hkind' hsettled pk a ha hshare
    · rw [paidTask_kind] at hkind'
      subst hkind'
      cases pays_of_payRecipient hpay with
      | @consensus k b hkind hb =>
        -- The flag of a recipient is written: the answers stay.
        have hsame : ∀ x, ((k.assignees.insert recipient { b with paid := true }).lookup x).map
            ConsensusAssignment.answer = (k.assignees.lookup x).map ConsensusAssignment.answer := by
          intro x
          rw [Finmap.lookup_insert_eq]
          split_ifs with hx
          · rw [hx, hb]
            rfl
          · rfl
        rw [majorityAnswer_congr hsame]
        rw [Finmap.lookup_insert_eq] at ha
        split_ifs at ha with hx
        · obtain rfl := Option.some.inj ha
          exact ht k hkind hsettled recipient b hb hshare
        · exact ht k hkind hsettled pk a ha hshare
    · exact ht kind' hkind' hsettled pk a ha hshare
  · rcases h.settles_cases hsettled hsettled' with ⟨⟨hash, hkind⟩, rfl⟩ | ⟨kind, hkind, -, -, rfl⟩ |
      ⟨kind, answers, picked, -, -, -, -, rfl⟩ | ⟨kind, winningAnswer, hkind, hwinning, rfl⟩
    · rw [show t.kind = _ from hkind'] at hkind
      cases hkind
    · rw [show t.kind = _ from hkind'] at hkind
      cases hkind
    · cases hkind'
    · -- The vote is counted: nobody had a share before.
      obtain rfl := TaskKind.consensus.inj hkind'
      have hsame : ∀ x, ((kind.assignees.filterMap fun _ a => some (if a.answer = some winningAnswer
          then { a with share := some (shareOf t.bounty kind winningAnswer) } else a)).lookup x).map
          ConsensusAssignment.answer = (kind.assignees.lookup x).map ConsensusAssignment.answer := by
        intro x
        rw [Finmap.lookup_filterMap]
        cases kind.assignees.lookup x with
        | none => rfl
        | some b =>
          simp only [Option.bind_some, Option.map_some]
          split_ifs <;> rfl
      rw [majorityAnswer_congr hsame, hwinning]
      rw [Finmap.lookup_filterMap] at ha
      obtain ⟨b, hb, ha⟩ := Option.bind_eq_some_iff.1 ha
      split_ifs at ha with hwon
      · obtain rfl := Option.some.inj ha
        exact hwon
      · obtain rfl := Option.some.inj ha
        rw [((hblank.blank hsettled).consensus kind hkind pk b hb).1] at hshare
        cases hshare

end Task

/-! ## The tasks of a run -/

section

variable {b₀ b₀' : TaskBoard} {s s' : TaskRun} {C C' : TaskRun → TaskOp → Prop}

/-- What holds of new tasks, and is kept by each write, holds of all tasks of a run. -/
theorem tasks_of_reachable {P : Task → Prop} (hfresh : ∀ t : Task, t.Fresh → P t)
    (hlegacy : ∀ t : Task, t.Legacy → P t)
    (hmove : ∀ t t' : Task, t.Sound → P t → t.Moves t' → P t')
    (h : (taskRuns b₀).ReachableBy C s) {x : Uuid} {t : Task}
    (ht : s.board.tasks.lookup x = some t) : P t := by
  have hmoves : ∀ {t t' : Task}, t.Sound → P t → t.MovesTo t' → P t' := by
    intro t t' hsound hP hmoves
    refine (hmoves.preserves (P := fun t => t.Sound ∧ P t) ?_ ⟨hsound, hP⟩).2
    rintro t t' ⟨hsound, hP⟩ hstep
    exact ⟨Task.MovesTo.sound (.single hstep) hsound, hmove t t' hsound hP hstep⟩
  refine h.invariant_of (I := fun s => ∀ x t, s.board.tasks.lookup x = some t → P t)
    (fun s hs => tidy_of_reachable hs) ?_ ?_ x t ht
  · rintro _ ⟨hb, rfl⟩ x t ht
    exact hlegacy t (hb.tasks x t ht).2
  · rintro s op _ hs hP - ⟨hop, rfl⟩ x t' ht'
    rw [TaskOp.after_board] at ht'
    have hmoved := TaskOp.moved hs hop
    cases ht : s.board.tasks.lookup x with
    | none =>
      obtain ⟨t, hnew, -, hrun⟩ := hmoved.created x t' ht' ht
      exact hmoves hnew.sound (hfresh t hnew) hrun
    | some t =>
      obtain ⟨t₁, ht₁, hrun⟩ := hmoved.moved x t ht
      obtain rfl := Option.some.inj (ht'.symm.trans ht₁)
      exact hmoves (hs.sound x t ht) (hP x t ht) hrun

theorem sealed_of_reachable (h : (taskRuns b₀).ReachableBy C s) {x : Uuid} {t : Task}
    (ht : s.board.tasks.lookup x = some t) : t.Sealed :=
  tasks_of_reachable (fun _ => Task.Fresh.sealed) (fun _ => Task.Legacy.sealed)
    (fun _ _ _ hs hmove => hmove.sealed hs) h ht

theorem announced_of_reachable (h : (taskRuns b₀).ReachableBy C s) {x : Uuid} {t : Task}
    (ht : s.board.tasks.lookup x = some t) : t.Announced :=
  tasks_of_reachable (fun _ => Task.Fresh.announced) (fun _ => Task.Legacy.announced)
    (fun _ _ hsound ha hmove => hmove.announced hsound.allotted ha) h ht

/-! ## What is shown -/

/-- What is shown of a task, by what is shown of its kind and what it pays. -/
theorem TaskDto.ofTask_congr {c : Crypto} {t : Task} {kind : TaskKind}
    (hkind : TaskKindDto.ofTask c { t with kind } = TaskKindDto.ofTask c t)
    (hallocated : Task.allocatedPayouts { t with kind } = t.allocatedPayouts)
    (hpaid : ∀ p ∈ t.allocatedPayouts,
      Task.isRecipientPaid { t with kind } p.1 = t.isRecipientPaid p.1) :
    TaskDto.ofTask c { t with kind } = TaskDto.ofTask c t := by
  have hconfirmed : Task.confirmedPayoutTotal { t with kind } = t.confirmedPayoutTotal := by
    rw [Task.confirmedPayoutTotal, Task.confirmedPayoutTotal, hallocated,
      List.filter_congr hpaid]
  have hpending : Task.unconfirmedPayoutTotal { t with kind } = t.unconfirmedPayoutTotal := by
    have howed : Task.owedPayouts { t with kind } = t.owedPayouts := by
      rw [Task.owedPayouts, Task.owedPayouts, hallocated]
      refine List.filter_congr fun p hp => ?_
      rw [hpaid p hp]
    rw [Task.unconfirmedPayoutTotal, Task.unconfirmedPayoutTotal, howed]
  rw [TaskDto.ofTask, TaskDto.ofTask, hkind, hconfirmed, hpending]

/-- Nobody has a share of a consensus task that is not settled. -/
theorem Task.Blank.consensus_nil {t : Task} {kind : ConsensusKind} (h : t.Blank)
    (hkind : t.kind = .consensus kind) :
    t.allocatedPayouts = [] ∧ (kind.assignees.values.find? fun a => a.share.isSome) = none := by
  constructor
  · rw [allocatedPayouts_consensus hkind]
    refine shares_eq_nil fun pk _ => ?_
    cases ha : kind.assignees.lookup pk with
    | none => rfl
    | some a => exact (h.consensus kind hkind pk a ha).1
  · refine List.find?_eq_none.2 fun a ha => ?_
    obtain ⟨pk, hpk⟩ := Finmap.mem_values.1 ha
    rw [(h.consensus kind hkind pk a hpk).1]
    exact Bool.false_ne_true

/-- Nobody has a share of a contest that is not settled. -/
theorem Task.Blank.contest_nil {t : Task} {kind : DisputableKind} (h : t.Blank)
    (hkind : t.kind = .disputable kind) (hne : kind.answers ≠ []) :
    t.allocatedPayouts = [] ∧ (kind.answers.any fun a => a.share.isSome) = false := by
  constructor
  · rw [allocatedPayouts_contest hkind hne]
    exact shares_eq_nil fun a ha => (h.contest kind hkind a ha).1
  · refine List.any_eq_false.2 fun a ha => ?_
    rw [(h.contest kind hkind a ha).1]
    exact Bool.false_ne_true

theorem contest_hidden {c : Crypto} {t : Task} {kind : DisputableKind}
    {answers : List ContestAnswer} (hkind : t.kind = .disputable kind)
    (hnone : kind.pickDeadline = none) (hlength : answers.length = kind.answers.length)
    (hblank : ¬ t.Settled → t.Blank) (hsealed : t.Sealed)
    (hblank' : ¬ t.Settled → Task.Blank { t with kind := .disputable { kind with answers } }) :
    TaskDto.ofTask c { t with kind := .disputable { kind with answers } } = TaskDto.ofTask c t := by
  by_cases hnil : kind.answers = []
  · -- There is nothing to show.
    have hsame : answers = kind.answers := by
      rw [hnil] at hlength ⊢
      exact List.length_eq_zero_iff.1 hlength
    subst hsame
    rw [show TaskKind.disputable { kind with answers := kind.answers } = t.kind from hkind.symm]
  · have hsettled : ¬ t.Settled := fun hsettled =>
      hnil ((hsealed kind hkind).2 hnone (.inl hsettled))
    have hne : answers ≠ [] := fun he => hnil (List.length_eq_zero_iff.1 (by rw [← hlength, he]; rfl))
    obtain ⟨hallocated, hshares⟩ := (hblank hsettled).contest_nil hkind hnil
    obtain ⟨hallocated', hshares'⟩ := (hblank' hsettled).contest_nil rfl hne
    refine TaskDto.ofTask_congr ?_ (hallocated'.trans hallocated.symm) ?_
    · have hdeadline : Task.submissionDeadline { t with kind := .disputable { kind with answers } } =
          t.submissionDeadline := by
        rw [Task.submissionDeadline, Task.submissionDeadline, hkind]
      have hshown : ∀ d, DisputableDto.ofKind c d { kind with answers } =
          DisputableDto.ofKind c d kind := by
        intro d
        rw [DisputableDto.ofKind, DisputableDto.ofKind]
        simp only [hnone, hlength, hshares, hshares', Option.map_none]
      rw [TaskKindDto.ofTask, TaskKindDto.ofTask, hkind, hdeadline]
      simp only [hshown]
    · intro p hp
      rw [hallocated] at hp
      cases hp

theorem unresolved_hidden {c : Crypto} {t : Task} {kind : ConsensusKind}
    {assignees : Finmap fun _ : PublicKey => ConsensusAssignment} (hkind : t.kind = .consensus kind)
    (hjoined : assignees.keys.card = kind.assignees.keys.card) (hblank : t.Blank)
    (hblank' : Task.Blank { t with kind := .consensus { kind with assignees } }) :
    TaskDto.ofTask c { t with kind := .consensus { kind with assignees } } = TaskDto.ofTask c t := by
  obtain ⟨hallocated, hfind⟩ := hblank.consensus_nil hkind
  obtain ⟨hallocated', hfind'⟩ := hblank'.consensus_nil rfl
  refine TaskDto.ofTask_congr ?_ (hallocated'.trans hallocated.symm) ?_
  · have hshown : ConsensusDto.ofKind { kind with assignees } = ConsensusDto.ofKind kind := by
      rw [ConsensusDto.ofKind, ConsensusDto.ofKind]
      simp only [hjoined, hfind, hfind']
    rw [TaskKindDto.ofTask, TaskKindDto.ofTask, hkind]
    simp only [hshown]
  · intro p hp
    rw [hallocated] at hp
    cases hp

/-- The answer that is shown is that of the majority, if anybody has a share. -/
theorem winningAnswer_eq {m : Finmap fun _ : PublicKey => ConsensusAssignment} {w : Option String}
    (h : ∀ pk a, m.lookup pk = some a → a.share.isSome → a.answer = w) :
    (m.values.find? fun a => a.share.isSome).bind ConsensusAssignment.answer =
      if (m.values.map ConsensusAssignment.share).any Option.isSome then w else none := by
  rw [List.any_map]
  cases hfind : m.values.find? fun a => a.share.isSome with
  | none =>
    rw [if_neg]
    · rfl
    · intro hany
      obtain ⟨a, ha, hshare⟩ := List.any_eq_true.1 hany
      exact List.find?_eq_none.1 hfind a ha hshare
  | some a =>
    have hshare := List.find?_some hfind
    have hmem := List.mem_of_find?_eq_some hfind
    obtain ⟨pk, hpk⟩ := Finmap.mem_values.1 hmem
    rw [if_pos (List.any_eq_true.2 ⟨a, hmem, hshare⟩)]
    exact h pk a hpk hshare

/-- What an assignee is due, and whether it was paid. -/
def ConsensusAssignment.due (a : ConsensusAssignment) : Option ℕ × Bool := (a.share, a.paid)

theorem resolved_hidden {c : Crypto} {t : Task} {kind : ConsensusKind}
    {assignees : Finmap fun _ : PublicKey => ConsensusAssignment} (hkind : t.kind = .consensus kind)
    (hwinning : majorityAnswer assignees = majorityAnswer kind.assignees)
    (hdue : ∀ pk, (assignees.lookup pk).map ConsensusAssignment.due =
      (kind.assignees.lookup pk).map ConsensusAssignment.due) (hsettled : t.Settled)
    (hannounced : t.Announced)
    (hannounced' : Task.Announced { t with kind := .consensus { kind with assignees } }) :
    TaskDto.ofTask c { t with kind := .consensus { kind with assignees } } = TaskDto.ofTask c t := by
  have hkeys : assignees.keys = kind.assignees.keys := Finmap.keys_congr hdue
  have hshare : ∀ pk, (assignees.lookup pk).bind ConsensusAssignment.share =
      (kind.assignees.lookup pk).bind ConsensusAssignment.share := by
    intro pk
    have h := congrArg (fun o => o.bind Prod.fst) (hdue pk)
    simpa [Option.bind_map, Function.comp_def, ConsensusAssignment.due] using h
  have hpaid : ∀ pk, (assignees.lookup pk).any ConsensusAssignment.paid =
      (kind.assignees.lookup pk).any ConsensusAssignment.paid := by
    intro pk
    have h := congrArg (fun o => o.any Prod.snd) (hdue pk)
    simpa [Option.any_map, Function.comp_def, ConsensusAssignment.due] using h
  have hany : (assignees.values.map ConsensusAssignment.share) =
      kind.assignees.values.map ConsensusAssignment.share := by
    have h := congrArg (List.map Prod.fst) (Finmap.map_values_congr hdue)
    simpa [List.map_map, Function.comp_def, ConsensusAssignment.due] using h
  refine TaskDto.ofTask_congr ?_ ?_ fun p _ => ?_
  · have hshown : ConsensusDto.ofKind { kind with assignees } = ConsensusDto.ofKind kind := by
      rw [ConsensusDto.ofKind, ConsensusDto.ofKind, winningAnswer_eq (hannounced kind hkind hsettled),
        winningAnswer_eq (hannounced' _ rfl hsettled)]
      simp only [hkeys, hany, hwinning]
    rw [TaskKindDto.ofTask, TaskKindDto.ofTask, hkind]
    simp only [hshown]
  · rw [Task.allocatedPayouts_consensus rfl, Task.allocatedPayouts_consensus hkind]
    simp only [hkeys, hshare]
  · rw [Task.isRecipientPaid, Task.isRecipientPaid, hkind]
    exact hpaid p.1

/-- **What is not to be read is not shown**, of the tasks of any two runs. A contest without a
    deadline to pick an answer: its answers, but for their number. A consensus task that is
    not settled: its assignees, but for their number. One that is: the answers, but for that
    of the majority and what each assignee is due. -/
theorem answers_hidden {c : Crypto} (hr : (taskRuns b₀).Reachable s)
    (hr' : (taskRuns b₀').Reachable s') {x x' : Uuid} {t : Task}
    (ht : s.board.tasks.lookup x = some t) :
    (∀ kind answers, t.kind = .disputable kind → kind.pickDeadline = none →
      answers.length = kind.answers.length →
      s'.board.tasks.lookup x' = some { t with kind := .disputable { kind with answers } } →
      TaskDto.ofTask c { t with kind := .disputable { kind with answers } } = TaskDto.ofTask c t) ∧
    (∀ kind assignees, t.kind = .consensus kind → ¬ t.Settled →
      assignees.keys.card = kind.assignees.keys.card →
      s'.board.tasks.lookup x' = some { t with kind := .consensus { kind with assignees } } →
      TaskDto.ofTask c { t with kind := .consensus { kind with assignees } } = TaskDto.ofTask c t) ∧
    (∀ kind assignees, t.kind = .consensus kind → t.Settled →
      majorityAnswer assignees = majorityAnswer kind.assignees →
      (∀ pk, (assignees.lookup pk).map ConsensusAssignment.due =
        (kind.assignees.lookup pk).map ConsensusAssignment.due) →
      s'.board.tasks.lookup x' = some { t with kind := .consensus { kind with assignees } } →
      TaskDto.ofTask c { t with kind := .consensus { kind with assignees } } =
        TaskDto.ofTask c t) := by
  have hblank : ∀ {b : TaskBoard} {r : TaskRun}, (taskRuns b).Reachable r → ∀ {x : Uuid} {t : Task},
      r.board.tasks.lookup x = some t → ¬ t.Settled → t.Blank := fun hr x t ht =>
    ((tidy_of_reachable hr).sound x t ht).allotted.blank
  refine ⟨fun kind answers hkind hnone hlength ht' => ?_, fun kind assignees hkind hopen hjoined ht' => ?_,
    fun kind assignees hkind hsettled hwinning hdue ht' => ?_⟩
  · exact contest_hidden hkind hnone hlength (hblank hr ht) (sealed_of_reachable hr ht)
      (hblank hr' ht')
  · exact unresolved_hidden hkind hjoined (hblank hr ht hopen) (hblank hr' ht' hopen)
  · exact resolved_hidden hkind hwinning hdue hsettled (announced_of_reachable hr ht)
      (announced_of_reachable hr' ht')

end

/-! A contest that its poster never closed, in two runs: in one an agent answers, in the other
another one, and something else. -/

/-- The contest, with an answer. -/
def sampleEntry (submitter : PublicKey) (answer : String) : List TaskOp :=
  [.createDisputableTask 1 0 6 "" 1000 60, .submitContestAnswer 1 submitter answer 1,
    .closeUnclosedContests (Duration.seconds 7200)]

/-- The contest once it is closed. -/
def sampleUnread (submitter : PublicKey) (answer : String) : Task :=
  { newTask 1 0 6 "" 1000 (.disputable
      ⟨none, 60, none, none, [{ pubkey := submitter, answer, submittedAt := 1 }], none, none⟩) with
    status := .closed, closeReason := some .neverClosed }

theorem sampleEntry_reachable (submitter : PublicKey) (answer : String) :
    (taskRuns TaskBoard.new).Reachable (sampleTaskRun (sampleEntry submitter answer)) := by
  have h₀ : (taskRuns TaskBoard.new).Reachable ⟨TaskBoard.new, [], [], []⟩ :=
    .init ⟨started_new, rfl⟩
  have h₁ := reachable_after (.createDisputableTask 1 0 6 "" 1000 60) h₀ (fun _ _ => id) trivial
    Finmap.notMem_empty
  have h₂ := reachable_after (.submitContestAnswer 1 submitter answer 1) h₁ (fun _ _ => id) trivial
    trivial
  exact reachable_after (.closeUnclosedContests (Duration.seconds 7200)) h₂ (fun _ _ => id) trivial
    trivial

/-- What is shown of the two is the same, and it is shown. -/
theorem answers_hidden_unread :
    sampleUnread 8 "b" ≠ sampleUnread 7 "a" ∧
      TaskDto.ofTask sampleKeys (sampleUnread 8 "b") = TaskDto.ofTask sampleKeys (sampleUnread 7 "a") ∧
      ∃ dto, TaskDto.ofTask sampleKeys (sampleUnread 7 "a") = .ok dto := by
  have ht : (sampleTaskRun (sampleEntry 7 "a")).board.tasks.lookup 1 = some (sampleUnread 7 "a") := by
    decide +kernel
  have ht' : (sampleTaskRun (sampleEntry 8 "b")).board.tasks.lookup 1 = some (sampleUnread 8 "b") := by
    decide +kernel
  have hr := sampleEntry_reachable 7 "a"
  have hr' := sampleEntry_reachable 8 "b"
  -- The runs are of no further interest: they need not be computed again.
  generalize sampleTaskRun (sampleEntry 7 "a") = s at ht hr
  generalize sampleTaskRun (sampleEntry 8 "b") = s' at ht' hr'
  refine ⟨by decide +kernel, ?_, _, rfl⟩
  exact (answers_hidden hr hr' ht).1 _ [{ pubkey := 8, answer := "b", submittedAt := 1 }] rfl rfl rfl ht'

end Itx
