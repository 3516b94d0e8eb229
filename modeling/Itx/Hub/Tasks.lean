import Itx.Hub.Escrow

/-!
# Tasks

A task is claimed, joined or answered, judged, and then paid (`hub/src/board.rs`). How
it is judged depends on its kind: against a hash, by the majority of its assignees, or
by its poster, who picks one of the answers of a contest.

The methods of the board that touch one task check it and write it back (`onTask`); the
passes of the sweep go over all of them (`sweep`). A method that panics leaves what it
has written so far.
-/

namespace Itx

/-- `MAX_CONTEST_ANSWERS`. -/
def maxContestAnswers : ℕ := 10

/-- `MAX_CONSENSUS_WINDOW_MINUTES`, which bounds every window a task is created with. -/
def maxConsensusWindowMinutes : ℤ := 60 * 24 * 365

/-- The first item satisfying `p`, updated (`iter_mut().find(p)`). -/
def updateFirst {α : Type*} (p : α → Bool) (f : α → α) : List α → List α
  | [] => []
  | a :: l => if p a then f a :: l else a :: updateFirst p f l

namespace Task

/-! ## What a task pays -/

/-- Who a dispute leaves the bounty to, once it is resolved. -/
def disputeWinner (claimant : Option PublicKey) : Option Dispute → Option PublicKey
  | none => claimant
  | some d =>
    match d.resolution with
    | none => none
    | some .challengerWins => some d.challenger
    | some .assigneeWins => claimant

/-- `Task::allocated_payouts`. -/
def allocatedPayouts (task : Task) : List (PublicKey × ℕ) :=
  match task.kind with
  | .hashMatch _ => task.claimant.toList.map fun pk => (pk, task.bounty)
  | .consensus kind => kind.assignees.keys.ascending.filterMap fun pk =>
      (kind.assignees.lookup pk).bind fun a => a.share.map fun share => (pk, share)
  | .disputable kind =>
    if kind.answers ≠ [] then
      kind.answers.filterMap fun a => a.share.map fun share => (a.pubkey, share)
    else (disputeWinner task.claimant kind.dispute).toList.map fun pk => (pk, task.bounty)

/-- `Task::pending_payouts_recipient_hint`. -/
def pendingPayoutsRecipientHint (task : Task) : Option PublicKey :=
  match task.kind with
  | .disputable kind =>
    match kind.dispute with
    | none => task.claimant
    | some d =>
      match d.resolution with
      | some .challengerWins => some d.challenger
      | some .assigneeWins => task.claimant
      | none => task.claimant
  | _ => none

/-- `Task::is_recipient_paid`. -/
def isRecipientPaid (task : Task) (recipient : PublicKey) : Bool :=
  match task.kind with
  | .hashMatch _ => task.status = .paid ∧ task.claimant = some recipient
  | .consensus kind => (kind.assignees.lookup recipient).any ConsensusAssignment.paid
  | .disputable kind =>
    if kind.answers ≠ [] then kind.answers.any fun a => a.pubkey = recipient ∧ a.paid
    else task.status = .paid ∧ task.pendingPayoutsRecipientHint = some recipient

/-- `Task::owed_payouts`. -/
def owedPayouts (task : Task) : List (PublicKey × ℕ) :=
  task.allocatedPayouts.filter fun p => !task.isRecipientPaid p.1

/-- `Task::pending_payouts`. -/
def pendingPayouts (task : Task) : List (PublicKey × ℕ) :=
  if task.status = .verified ∨ task.status = .submitted then task.owedPayouts else []

/-- `Task::submission_deadline`, out of range when it panics. -/
def submissionDeadline (task : Task) : Outcome BoardError (Option DateTime) :=
  match task.kind with
  | .disputable kind => do
    let deadline ← Outcome.expect (addMinutes task.createdAt kind.disputeWindowMinutes)
    pure (some deadline)
  | _ => pure none

end Task

/-- `majority_answer`: the answer of more than half of the assignees, those who gave none
    counting against it. -/
def majorityAnswer (assignees : Finmap fun _ : PublicKey => ConsensusAssignment) :
    Option String :=
  let given := assignees.values.filterMap ConsensusAssignment.answer
  let counts := given.toFinset.ascending.map fun answer => (answer, given.count answer)
  match (counts.map Prod.snd).max? with
  | none => none
  | some maxCount =>
    match counts.filter fun p => p.2 = maxCount with
    | [(answer, _)] => if maxCount > assignees.keys.card / 2 then some answer else none
    | _ => none

namespace TaskBoard

/-! ## Acting on one task -/

/-- Checks a task and writes it back: an error or a panic of the check leaves it as it is. -/
def onTask {α : Type} (id : Uuid) (f : TaskBoard → Task → Outcome BoardError (α × Task)) :
    BoardCall α := do
  let s ← Call.get
  let task ← Call.lift (.okOr .notFound (s.tasks.lookup id))
  let (a, task) ← Call.lift (f s task)
  Call.modify fun s => { s with tasks := s.tasks.insert id task }
  pure a

/-- The fields of a hash-match task. -/
def hashMatchOf (task : Task) : Outcome BoardError Hash :=
  match task.kind with
  | .hashMatch hash => .ok hash
  | _ => .err .wrongTaskKind

/-- The fields of a consensus task. -/
def consensusOf (task : Task) : Outcome BoardError ConsensusKind :=
  match task.kind with
  | .consensus kind => .ok kind
  | _ => .err .wrongTaskKind

/-- `TaskBoard::check_min_reputation`. -/
def checkMinReputation (s : TaskBoard) (task : Task) (agent : PublicKey) :
    Outcome BoardError Unit :=
  Outcome.ensure (task.minReputation ≤ (s.reputationOf agent).completed)
    (.insufficientReputation task.minReputation (s.reputationOf agent).completed)

/-- `entry(pubkey).or_default().failed += 1`. -/
def addFailed (pubkey : PublicKey) : BoardCall Unit := do
  let s ← Call.get
  let reputation := s.reputationOf pubkey
  let failed ← Call.lift (.expect (checkedAdd reputation.failed 1))
  Call.modify (restoreReputation pubkey { reputation with failed })

/-- `entry(pubkey).or_default().completed += 1`. -/
def addCompleted (pubkey : PublicKey) : BoardCall Unit := do
  let s ← Call.get
  let reputation := s.reputationOf pubkey
  let completed ← Call.lift (.expect (checkedAdd reputation.completed 1))
  Call.modify (restoreReputation pubkey { reputation with completed })

/-- `entry(pubkey).or_default().total_earned += n`. -/
def addEarned (pubkey : PublicKey) (n : ℕ) : BoardCall Unit := do
  let s ← Call.get
  let reputation := s.reputationOf pubkey
  let totalEarned ← Call.lift (.expect (checkedAdd reputation.totalEarned n))
  Call.modify (restoreReputation pubkey { reputation with totalEarned })

/-- `TaskBoard::cancel_task`. -/
def cancelTask (id : Uuid) : BoardCall Unit :=
  onTask id fun _ task => do
    Outcome.ensure (task.status ∉ [.verified, .submitted, .payoutFailed, .paid, .closed])
      .alreadyTerminal
    Outcome.ensure (task.status ≠ .disputed) .cannotCancelWhileDisputed
    pure ((), { task with status := .closed, closeReason := some .cancelledByOperator })

/-- Only a hash-match task is claimed. -/
def checkClaimable (task : Task) : Outcome BoardError Unit :=
  match task.kind with
  | .hashMatch _ => .ok ()
  | .disputable _ => .err .contestTakesNoClaim
  | .consensus _ => .err .wrongTaskKind

/-- `TaskBoard::claim_task`. -/
def claimTask (id : Uuid) (claimant : PublicKey) (deadline : DateTime) : BoardCall Unit :=
  onTask id fun s task => do
    checkClaimable task
    Outcome.ensure (task.status = .open) .notOpen
    Outcome.ensure (task.poster ≠ claimant) .posterCannotClaimOwnTask
    checkMinReputation s task claimant
    pure ((), { task with
      status := .claimed, claimant := some claimant, claimDeadline := some deadline })

/-- `TaskBoard::join_consensus_task`: the clock is read when the join is checked, and
    again when it fills the task. The assignee is there already if the second panics. -/
def joinConsensusTask (id : Uuid) (agent : PublicKey) (now filledAt : DateTime) :
    BoardCall Unit := do
  let kind ← onTask id fun s task => do
    let kind ← consensusOf task
    Outcome.ensure (task.status = .open) .notOpen
    Outcome.ensure (now ≤ kind.joinDeadline) .joinWindowExpired
    Outcome.ensure (task.poster ≠ agent) .posterCannotClaimOwnTask
    checkMinReputation s task agent
    Outcome.ensure (agent ∉ kind.assignees) .alreadyJoined
    let kind := { kind with assignees := kind.assignees.insert agent {} }
    pure (kind, { task with kind := .consensus kind })
  Call.when (kind.numAssignees ≤ kind.assignees.keys.card) (onTask id fun _ task => do
    let deadline ← Outcome.expect (addMinutes filledAt kind.submissionWindowMinutes)
    pure ((), { task with
      kind := .consensus { kind with submissionDeadline := some deadline }, status := .claimed }))

/-! ## Hash-match tasks -/

/-- `TaskBoard::submit`. The attempts a task has seen are a `u32`. -/
def submit (id : Uuid) (submitter : PublicKey) (outputHash : Hash) : BoardCall Bool := do
  let verified ← onTask id fun _ task => do
    let expectedOutputHash ← hashMatchOf task
    Outcome.ensure (task.status = .claimed) .notClaimed
    Outcome.ensure (task.claimant = some submitter) .notClaimant
    if outputHash = expectedOutputHash then pure (true, { task with status := .verified })
    else pure (false, { task with status := .open, claimant := none, claimDeadline := none })
  Call.when (verified = false) do
    onTask id fun _ task => do
      let failedAttempts ← Outcome.expect (checked (2 ^ 32) (task.failedAttempts + 1))
      pure ((), { task with failedAttempts })
    addFailed submitter
  pure verified

/-! ## Contests -/

/-- `TaskBoard::submit_contest_answer`. -/
def submitContestAnswer (id : Uuid) (submitter : PublicKey) (answer : String) (now : DateTime) :
    BoardCall Unit :=
  onTask id fun s task => do
    let kind ← disputableOf task
    Outcome.ensure (task.status = .open) .submissionsClosed
    let deadline ← task.submissionDeadline
    Outcome.ensure (∀ d ∈ deadline, now ≤ d) .submissionWindowExpired
    Outcome.ensure (task.poster ≠ submitter) .posterCannotAnswerOwnTask
    checkMinReputation s task submitter
    Outcome.ensure (∀ a ∈ kind.answers, a.pubkey ≠ submitter) .alreadySubmitted
    Outcome.ensure (kind.answers.length < maxContestAnswers) .contestFull
    let answers := kind.answers ++ [{ pubkey := submitter, answer, submittedAt := now }]
    pure ((), { task with kind := .disputable { kind with answers } })

/-- `TaskBoard::close_contest`. -/
def closeContest (id : Uuid) (caller : PublicKey) (now : DateTime) : BoardCall Unit :=
  onTask id fun _ task => do
    let deadline ← task.submissionDeadline
    let kind ← disputableOf task
    Outcome.ensure (task.poster = caller) .notPoster
    Outcome.ensure (task.status = .open) .notOpen
    Outcome.ensure (∀ d ∈ deadline, now ≤ d) .submissionWindowExpired
    if kind.answers = [] then
      pure ((), { task with status := .closed, closeReason := some .noAnswers })
    else do
      let pickDeadline ← Outcome.expect (addMinutes now kind.disputeWindowMinutes)
      pure ((), { task with
        kind := .disputable { kind with pickDeadline := some pickDeadline }
        status := .awaitingPick })

/-- `TaskBoard::pick_answer`. -/
def pickAnswer (id : Uuid) (caller answerer : PublicKey) (now : DateTime) : BoardCall Unit :=
  onTask id fun _ task => do
    let kind ← disputableOf task
    Outcome.ensure (task.poster = caller) .notPoster
    Outcome.ensure (task.status = .awaitingPick) .notAwaitingPick
    Outcome.ensure (∀ d ∈ kind.pickDeadline, now ≤ d) .pickWindowClosed
    Outcome.ensure (∃ a ∈ kind.answers, a.pubkey = answerer) .notAnAnswer
    let answers := updateFirst (fun a => a.pubkey = answerer)
      (fun a => { a with share := some task.bounty }) kind.answers
    pure ((), { task with
      kind := .disputable { kind with answers, picked := some answerer }, status := .verified })

/-! ## Disputes -/

/-- `TaskBoard::resolve_dispute`: the winner and the loser. The resolution is there
    already if the loser's failures overflow. -/
def resolveDispute (id : Uuid) (outcome : DisputeResolution) :
    BoardCall (PublicKey × PublicKey) := do
  let (winner, loser) ← onTask id fun _ task => do
    Outcome.ensure (task.status = .disputed) .notDisputed
    let claimant ← Outcome.expect task.claimant
    let kind ← disputableOf task
    let d ← Outcome.expect kind.dispute
    let parties := match outcome with
      | .challengerWins => (d.challenger, claimant)
      | .assigneeWins => (claimant, d.challenger)
    pure (parties, { task with
      kind := .disputable { kind with dispute := some { d with resolution := some outcome } } })
  addFailed loser
  onTask id fun _ task => pure ((), { task with status := .verified })
  pure (winner, loser)

/-- `TaskBoard::credit_forfeited_bond`. -/
def creditForfeitedBond (recipient : PublicKey) (bondAmount : ℕ) : BoardCall Unit :=
  addEarned recipient bondAmount

/-! ## Consensus -/

/-- The share of each of those who gave the winning answer. -/
def shareOf (bounty : ℕ) (kind : ConsensusKind) (winningAnswer : String) : ℕ :=
  bounty / max 1 (kind.assignees.values.countP fun a => a.answer = some winningAnswer)

/-- A consensus task once the vote is counted. -/
def resolved (task : Task) (kind : ConsensusKind) : Option String → Task
  | some winningAnswer =>
    let share := shareOf task.bounty kind winningAnswer
    let assignees := kind.assignees.filterMap fun _ a =>
      some (if a.answer = some winningAnswer then { a with share := some share } else a)
    { task with kind := .consensus { kind with assignees }, status := .verified }
  | none => { task with status := .closed, closeReason := some .noMajority }

/-- Those who did not give the winning answer, if there is one. -/
def losers (kind : ConsensusKind) : Option String → List PublicKey
  | some winningAnswer => kind.assignees.keys.ascending.filter fun pk =>
      ((kind.assignees.lookup pk).bind ConsensusAssignment.answer) ≠ some winningAnswer
  | none => []

/-- `TaskBoard::resolve_consensus`. -/
def resolveConsensus (id : Uuid) : BoardCall Unit := do
  let s ← Call.get
  match s.tasks.lookup id with
  | none => pure ()
  | some task =>
    match task.kind with
    | .consensus kind => do
      let winningAnswer := majorityAnswer kind.assignees
      Call.forEach (losers kind winningAnswer) addFailed
      Call.modify fun s =>
        { s with tasks := s.tasks.insert id (resolved task kind winningAnswer) }
    | _ => pure ()

/-- `TaskBoard::submit_consensus_answer`. -/
def submitConsensusAnswer (id : Uuid) (agent : PublicKey) (answer : String) (now : DateTime) :
    BoardCall Bool := do
  let kind ← onTask id fun _ task => do
    let kind ← consensusOf task
    Outcome.ensure (task.status = .claimed) .notClaimed
    let deadline ← Outcome.expect kind.submissionDeadline
    Outcome.ensure (now ≤ deadline) .submissionWindowExpired
    let assignment ← Outcome.okOr .notClaimant (kind.assignees.lookup agent)
    Outcome.ensure (assignment.answer = none) .alreadySubmitted
    let assignees := kind.assignees.insert agent { assignment with answer := some answer }
    let kind := { kind with assignees }
    pure (kind, { task with kind := .consensus kind })
  let complete := kind.assignees.values.all fun a => a.answer.isSome
  Call.when complete (resolveConsensus id)
  pure complete

/-- Whether a consensus task is past its deadline for answers. -/
def isDue (now : DateTime) (task : Task) : Bool :=
  match task.kind with
  | .consensus kind => task.status = .claimed ∧ ∃ d ∈ kind.submissionDeadline, now > d
  | _ => false

/-- `TaskBoard::resolve_expired_consensus_tasks`. -/
def resolveExpiredConsensusTasks (now : DateTime) : BoardCall (List Uuid) := do
  let s ← Call.get
  let due := (s.tasks.values.filter (isDue now)).map Task.id
  Call.forEach due resolveConsensus
  pure due

/-! ## The passes of the sweep -/

/-- One pass over the tasks `ids`: those that `f` moves are written back and returned. -/
def sweepOver (f : Task → Outcome BoardError (Option Task)) : List Uuid → BoardCall (List Uuid)
  | [] => pure []
  | id :: ids => do
    let s ← Call.get
    let moved ← Call.lift ((s.tasks.lookup id).elim (.ok none) f)
    Call.when moved.isSome (Call.modify fun s =>
      { s with tasks := moved.elim s.tasks (s.tasks.insert id) })
    let rest ← sweepOver f ids
    pure (moved.toList.map Task.id ++ rest)

/-- A pass over all the tasks, by ascending ids. -/
def sweep (f : Task → Outcome BoardError (Option Task)) : BoardCall (List Uuid) := do
  let s ← Call.get
  sweepOver f s.tasks.keys.ascending

/-- What `close_unclosed_contests` does to a task. -/
def closeUnclosed (now : DateTime) (task : Task) : Outcome BoardError (Option Task) :=
  if task.status = .open then do
    let deadline ← task.submissionDeadline
    pure (if ∃ d ∈ deadline, now > d then
      some { task with status := .closed, closeReason := some .neverClosed } else none)
  else pure none

/-- `TaskBoard::close_unclosed_contests`. -/
def closeUnclosedContests (now : DateTime) : BoardCall (List Uuid) := sweep (closeUnclosed now)

/-- What `split_unpicked_contests` does to a task. -/
def splitUnpicked (now : DateTime) (task : Task) : Outcome BoardError (Option Task) :=
  match task.kind with
  | .disputable kind =>
    if task.status = .awaitingPick ∧ ∃ d ∈ kind.pickDeadline, now > d then
      let share := task.bounty / max 1 kind.answers.length
      let answers := kind.answers.map fun a => { a with share := some share }
      pure (some { task with kind := .disputable { kind with answers }, status := .verified })
    else pure none
  | _ => pure none

/-- `TaskBoard::split_unpicked_contests`. -/
def splitUnpickedContests (now : DateTime) : BoardCall (List Uuid) := sweep (splitUnpicked now)

/-- What `finalize_unchallenged_disputable_tasks` does to a task. -/
def finalizeUnchallenged (now : DateTime) (task : Task) : Outcome BoardError (Option Task) :=
  match task.kind with
  | .disputable kind =>
    if task.status = .awaitingDispute ∧ kind.dispute = none ∧
        ∃ d ∈ kind.disputeDeadline, now > d then
      pure (some { task with status := .verified })
    else pure none
  | _ => pure none

/-- `TaskBoard::finalize_unchallenged_disputable_tasks`. -/
def finalizeUnchallengedDisputableTasks (now : DateTime) : BoardCall (List Uuid) :=
  sweep (finalizeUnchallenged now)

/-- What `cancel_understaffed_consensus_tasks` does to a task. -/
def cancelUnderstaffed (now : DateTime) (task : Task) : Outcome BoardError (Option Task) :=
  match task.kind with
  | .consensus kind =>
    if task.status = .open ∧ now > kind.joinDeadline then
      pure (some { task with status := .closed, closeReason := some .understaffed })
    else pure none
  | _ => pure none

/-- `TaskBoard::cancel_understaffed_consensus_tasks`. -/
def cancelUnderstaffedConsensusTasks (now : DateTime) : BoardCall (List Uuid) :=
  sweep (cancelUnderstaffed now)

/-- What `expire_claims` does to a task. -/
def expireClaim (now : DateTime) (task : Task) : Outcome BoardError (Option Task) :=
  if task.status = .claimed ∧ ∃ d ∈ task.claimDeadline, now > d then
    pure (some { task with status := .open, claimant := none, claimDeadline := none })
  else pure none

/-- `TaskBoard::expire_claims`. -/
def expireClaims (now : DateTime) : BoardCall (List Uuid) := sweep (expireClaim now)

end TaskBoard

end Itx
