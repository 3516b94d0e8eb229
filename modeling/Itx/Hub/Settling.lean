import Itx.Hub.Payroll
import Itx.Hub.Reserving
import Itx.Hub.Standing

/-!
# A payout has one transaction at a time

Any number of calls settle a task at once (`try_settle_verified_task`), and the sweep hands over
again what was lost (`resend_lost_payout`). A call reads what is unsent before it takes its guard,
so it reads again under the guard. For a payout of the operator it leaves what has an attempt by
then (`settle_one_payout_inner`). For the payouts from a deposit it takes all that is owed, whether
it has an attempt or not (`settle_escrow_funded_task`), and so it makes another transaction for a
winner who has an attempt, if the other has none, as long as the node shows the deposit unspent.

* `SettleCall.Stake`: what a call relies on of the attempts at the payouts it has in hand. It stays
  so whatever the other calls record (`Settlements.Sound.stake_of_record`), as two calls with a
  payout in common hold the same guard, or find an attempt and none, or have the same transaction;
* `one_transaction_per_payout`: as long as no transaction is built from a deposit over an attempt
  that is out, what is handed to the node for a payout is the transaction of its attempt, and in
  place of no other but one that was kept without its transaction and never landed;
* `one_transaction_per_payout_fails`: after a crash that leaves the attempt of one of two winners, a
  call settles the task again for both.
-/

namespace Itx

open Call

/-! ## Calls -/

/-- What a call has to itself: a deposit (`EscrowSettlementGuard`), a payout (`PayoutGuard`), or the
    sweep. -/
inductive SettleGuard
  | escrow (depositId : Uuid)
  | payout (taskId : Uuid) (recipient : PublicKey)
  | sweep
  deriving DecidableEq

/-- How far a call has come. -/
inductive SettlePhase
  /-- The next of its payouts is due. -/
  | ready
  | entered (guard : SettleGuard) (payout : PublicKey × ℕ)
  /-- It has read again what is owed. -/
  | checked (guard : SettleGuard) (recipients : List (PublicKey × ℕ))
  /-- A transaction is built, and its attempts are made one after the other. -/
  | built (guard : SettleGuard) (transaction : Transaction) (submittedAt : DateTime)
    (attempts : List PayoutAttempt) (todo : List ((PublicKey × ℕ) × ℕ))
  /-- The attempts are on the board, in place of others, and the transaction is to be handed over. -/
  | recorded (guard : SettleGuard) (transaction : Transaction) (attempts replaced : List PayoutAttempt)
  /-- A transaction was lost, and is to be handed over again. -/
  | lost (transaction : Transaction)

/-- A call for a task: the deposit that it found the task to be paid from, whether the sweep makes it
    and waits for it, and the payouts it has yet to take up. -/
structure SettleCall where
  taskId : Uuid
  deposit : Option PendingDeposit
  swept : Bool
  rest : List (PublicKey × ℕ)
  phase : SettlePhase

/-- A board, the calls, and the attempts the sweep found to have never landed. -/
structure Settlements where
  board : TaskBoard
  calls : Finmap fun _ : ℕ => SettleCall
  neverLanded : List PayoutAttempt

/-- The keys payouts are made with. -/
structure SettleKeys where
  operatorPrivateKey : PrivateKey
  operatorPublicKey : PublicKey
  /-- `PendingDeposit::private_key`. -/
  depositKey : PendingDeposit → PrivateKey

namespace SettleKeys

variable (k : SettleKeys)

def signingKey (deposit : Option PendingDeposit) : PrivateKey := deposit.elim k.operatorPrivateKey k.depositKey

def source (deposit : Option PendingDeposit) : PublicKey :=
  deposit.elim k.operatorPublicKey PendingDeposit.depositPubkey

def change (deposit : Option PendingDeposit) : PublicKey :=
  deposit.elim k.operatorPublicKey PendingDeposit.depositor

end SettleKeys

namespace TaskBoard

variable (s : TaskBoard)

/-- The deposit a task is paid from, if it is not paid by the operator. -/
def depositOf (t : Task) : Option PendingDeposit := t.escrowId.bind s.pendingDeposits.lookup

/-- The id of the deposit that the task `x` is paid from, if there is such a task. -/
def fundedBy (x : Uuid) : Option (Option Uuid) :=
  (s.tasks.lookup x).map fun t => (s.depositOf t).map PendingDeposit.id

/-- What `try_settle_verified_task` takes up: nothing of a task that is not `Verified`, and one that
    is `Submitted` with payouts unsent is refused. -/
def toSettle (taskId : Uuid) : Option (Option PendingDeposit × List (PublicKey × ℕ)) :=
  (s.tasks.lookup taskId).bind fun t =>
    if t.status = .verified ∧ s.unsubmittedPayouts taskId ≠ [] then
      some (s.depositOf t, s.unsubmittedPayouts taskId)
    else none

/-- What `settle_escrow_funded_task` reads again. -/
def stillOwed (taskId : Uuid) : Option (List (PublicKey × ℕ)) :=
  (s.tasks.lookup taskId).bind fun t => if t.owedPayouts = [] then none else some t.owedPayouts

/-- What `settle_one_payout_inner` reads again. -/
def stillUnsent (taskId : Uuid) (payout : PublicKey × ℕ) : Option (List (PublicKey × ℕ)) :=
  (s.tasks.lookup taskId).bind fun t =>
    if t.isRecipientPaid payout.1 ∨ (s.payoutAttempt taskId payout.1).isSome then none else some [payout]

end TaskBoard

namespace SettleCall

variable (call : SettleCall)

def guard? : Option SettleGuard :=
  match call.phase with
  | .entered guard _ => some guard
  | .checked guard _ => some guard
  | .built guard _ _ _ _ => some guard
  | .recorded guard _ _ _ => some guard
  | _ => none

def Holds (guard : SettleGuard) : Prop := call.guard? = some guard ∨ call.swept ∧ guard = .sweep

instance (guard : SettleGuard) : Decidable (call.Holds guard) := inferInstanceAs (Decidable (_ ∨ _))

/-- The guard a payout of the task is made under. -/
def guardFor (payout : PublicKey × ℕ) : SettleGuard :=
  call.deposit.elim (.payout call.taskId payout.1) fun d => .escrow d.id

/-- What is left once a guard is asked for: a deposit pays all at once. -/
def restAfter (rest : List (PublicKey × ℕ)) : List (PublicKey × ℕ) := if call.deposit.isSome then [] else rest

/-- `build_payment_from`, as `submit_task_payout` calls it. -/
def build (c : Crypto) (g : Signing) (k : SettleKeys) (board : TaskBoard) (ids : ℕ → Uuid) (utxos : UtxoReply)
    (recipients : List (PublicKey × ℕ)) : Outcome BuildError Transaction :=
  buildPaymentFrom c g board ids utxos (k.signingKey call.deposit) (k.source call.deposit) recipients
    (k.change call.deposit) (recipients.map fun p => (call.taskId, p.1))

end SettleCall

namespace Settlements

/-- A guard is held by some call. -/
def Held (t : Settlements) (guard : SettleGuard) : Prop :=
  ∃ i ∈ t.calls.keys, ∃ call ∈ t.calls.lookup i, call.Holds guard

instance (t : Settlements) (guard : SettleGuard) : Decidable (t.Held guard) :=
  inferInstanceAs (Decidable (∃ i ∈ t.calls.keys, ∃ call ∈ t.calls.lookup i, call.Holds guard))

def put (t : Settlements) (i : ℕ) (call : SettleCall) : Settlements := { t with calls := t.calls.insert i call }

end Settlements

inductive SettleOp
  /-- `try_settle_verified_task` reads what is unsent. -/
  | read (i : ℕ) (taskId : Uuid)
  /-- A call takes the guard for its next payout, or ends if there is none. -/
  | enter (i : ℕ)
  /-- It reads again what is owed. -/
  | check (i : ℕ)
  /-- `submit_task_payout` has the answer of the node, and builds a transaction. -/
  | build (i : ℕ) (utxos : UtxoReply) (ids : ℕ → Uuid) (submittedAt : DateTime)
  /-- The next attempt is made. -/
  | makeAttempt (i : ℕ)
  /-- The attempts are saved, and put on the board. -/
  | record (i : ℕ)
  /-- An attempt is not saved, and the payout is left. -/
  | fail (i : ℕ)
  /-- The transaction is handed to the node (`submit_transaction`). -/
  | hand (i : ℕ)
  /-- A call is cancelled. -/
  | drop (i : ℕ)
  /-- The sweep finds that an attempt never landed (`resolve_payout_attempt`), and takes it up again. -/
  | resolve (i : ℕ) (attempt : PayoutAttempt) (recipientUtxos sourceUtxos : UtxoReply)
  /-- `resend_lost_payout` counts up the attempts at a transaction that was lost. -/
  | resend (i : ℕ) (submittedAt : DateTime)
  /-- The sweep has found a payout confirmed, and takes off the attempt that there is by now. -/
  | recordConfirmedPayout (now : DateTime) (commits : Bool) (attempt : PayoutAttempt) (store : TaskBoard)
  /-- The sweep gives a payout up. -/
  | abandonPayout (commits : Bool) (attempt : PayoutAttempt) (store : TaskBoard)
  /-- The rest of the hub goes on, which touches no attempt. -/
  | other (board : TaskBoard)

section

variable (c : Crypto) (g : Signing) (k : SettleKeys)

namespace SettleOp

/-- The state after a step. -/
def after (t : Settlements) : SettleOp → Settlements
  | read i taskId =>
    match t.board.toSettle taskId with
    | some (deposit, payouts) => t.put i ⟨taskId, deposit, false, payouts, .ready⟩
    | none => t
  | enter i =>
    match t.calls.lookup i with
    | some ⟨taskId, deposit, swept, payout :: rest, .ready⟩ =>
      let call : SettleCall := ⟨taskId, deposit, swept, rest, .ready⟩
      let phase := if t.Held (call.guardFor payout) then .ready else .entered (call.guardFor payout) payout
      t.put i { call with rest := call.restAfter rest, phase }
    | some ⟨_, _, _, [], .ready⟩ => { t with calls := t.calls.erase i }
    | _ => t
  | check i =>
    match t.calls.lookup i with
    | some ⟨taskId, deposit, swept, rest, .entered guard payout⟩ =>
      let due := if deposit.isSome then t.board.stillOwed taskId else t.board.stillUnsent taskId payout
      t.put i ⟨taskId, deposit, swept, rest, due.elim .ready (.checked guard)⟩
    | _ => t
  | build i utxos ids submittedAt =>
    match t.calls.lookup i with
    | some ⟨taskId, deposit, swept, rest, .checked guard recipients⟩ =>
      let call : SettleCall := ⟨taskId, deposit, swept, rest, .ready⟩
      match call.build c g k t.board ids utxos recipients with
      | .ok tx => t.put i { call with phase := .built guard tx submittedAt [] recipients.zipIdx }
      | .err _ => t.put i call
      | .panic => { t with calls := t.calls.erase i }
    | _ => t
  | makeAttempt i =>
    match t.calls.lookup i with
    | some ⟨taskId, deposit, swept, rest, .built guard tx submittedAt attempts (p :: todo)⟩ =>
      match t.board.attemptAt c taskId (k.source deposit) submittedAt tx p with
      | some a => t.put i ⟨taskId, deposit, swept, rest, .built guard tx submittedAt (attempts ++ [a]) todo⟩
      | none => t.put i ⟨taskId, deposit, swept, rest, .ready⟩
    | _ => t
  | record i =>
    match t.calls.lookup i with
    | some ⟨taskId, deposit, swept, rest, .built guard tx _ attempts []⟩ =>
      let replaced := attempts.filterMap fun a => t.board.payoutAttempts.lookup a.leg
      { t with board := t.board.recordPayoutAttempts attempts }.put i
        ⟨taskId, deposit, swept, rest, .recorded guard tx attempts replaced⟩
    | _ => t
  | fail i =>
    match t.calls.lookup i with
    | some ⟨taskId, deposit, swept, rest, .built _ _ _ _ []⟩ => t.put i ⟨taskId, deposit, swept, rest, .ready⟩
    | _ => t
  | hand i =>
    match t.calls.lookup i with
    | some ⟨taskId, deposit, swept, rest, .recorded _ _ _ _⟩ => t.put i ⟨taskId, deposit, swept, rest, .ready⟩
    | _ => t
  | drop i => { t with calls := t.calls.erase i }
  | resolve i attempt _ _ =>
    let resolved : Settlements := { t with neverLanded := attempt :: t.neverLanded }
    match t.board.tasks.lookup attempt.taskId with
    | some task =>
      let deposit := t.board.depositOf task
      let payout := (attempt.recipient, attempt.amount)
      match attempt.transaction, deposit with
      | some tx, _ => resolved.put i ⟨attempt.taskId, deposit, true, [], .lost tx⟩
      | none, some _ => resolved.put i ⟨attempt.taskId, deposit, true, [payout], .ready⟩
      | none, none => resolved.put i ⟨attempt.taskId, none, true, [], .checked .sweep [payout]⟩
    | none => resolved
  | resend i submittedAt =>
    match t.calls.lookup i with
    | some ⟨taskId, deposit, swept, rest, .lost tx⟩ =>
      let legs := t.board.resentLegs taskId tx submittedAt
      t.put i ⟨taskId, deposit, swept, rest, .built .sweep tx submittedAt legs []⟩
    | _ => t
  | recordConfirmedPayout now commits attempt store =>
    { t with board := (Itx.recordConfirmedPayout now commits attempt.taskId attempt.recipient attempt.amount
        ⟨t.board, store⟩).1.board }
  | abandonPayout commits attempt store =>
    { t with board := (Itx.abandonPayout commits attempt ⟨t.board, store⟩).1.board }
  | other board => { t with board }

/-- The sweep goes about one attempt at a time, and takes one up again as it is on the board. The
    tasks that there are keep their deposits. -/
def Enabled (t : Settlements) : SettleOp → Prop
  | read i _ => i ∉ t.calls
  | resolve i attempt recipientUtxos sourceUtxos => i ∉ t.calls ∧ ¬t.Held .sweep ∧
    t.board.payoutAttempt attempt.taskId attempt.recipient = some attempt ∧
    attempt.submissions < maxPayoutSubmissions ∧
    resolveAgainst c attempt.outputHash attempt.spentInputs recipientUtxos sourceUtxos = .neverLanded
  | recordConfirmedPayout _ _ _ _ => ¬t.Held .sweep
  | abandonPayout _ _ _ => ¬t.Held .sweep
  | other board => board.TasksKeyed ∧ board.payoutAttempts = t.board.payoutAttempts ∧
    ∀ x v, t.board.fundedBy x = some v → board.fundedBy x = some v
  | _ => True

end SettleOp

/-- The runs of a hub that has started, on which no call is under way. -/
def settlements : System Settlements SettleOp where
  init := { t | t.board.TasksKeyed ∧ t.board.AttemptsKeyed ∧ t.calls = ∅ ∧ t.neverLanded = [] }
  step t op t' := op.Enabled c t ∧ t' = op.after c g k t

namespace Settlements

/-- An attempt that was kept without its transaction, and never landed. -/
def Lost (t : Settlements) (a : PayoutAttempt) : Prop := a.transaction = none ∧ a ∈ t.neverLanded

/-- A call is about to hand over a transaction. -/
def Hands (t : Settlements) (tx : Transaction) (attempts replaced : List PayoutAttempt) : Prop :=
  ∃ i call guard, t.calls.lookup i = some call ∧ call.phase = .recorded guard tx attempts replaced

/-- Whenever a transaction can be built from a deposit, none of the payouts it is for has an attempt
    that is out, but for a lost one. -/
def BuildsAnew (t : Settlements) (op : SettleOp) : Prop :=
  ∀ i utxos ids submittedAt call depositId recipients tx, op = .build i utxos ids submittedAt →
    t.calls.lookup i = some call → call.phase = .checked (.escrow depositId) recipients →
    call.build c g k t.board ids utxos recipients = .ok tx →
    ∀ p ∈ recipients, ∀ a, t.board.payoutAttempt call.taskId p.1 = some a → t.Lost a

end Settlements

end

variable {c : Crypto} {g : Signing} {k : SettleKeys} {s s' : TaskBoard} {t : Settlements}
  {call call' : SettleCall}
  {i : ℕ} {guard : SettleGuard}

/-! ## What a call relies on -/

namespace SettleCall

/-- The payouts a call has in hand. -/
def legs (call : SettleCall) : List (Uuid × PublicKey) :=
  match call.phase with
  | .entered _ payout => [(call.taskId, payout.1)]
  | .checked _ recipients => recipients.map fun p => (call.taskId, p.1)
  | .built _ _ _ attempts todo => attempts.map PayoutAttempt.leg ++ todo.map fun p => (call.taskId, p.1.1)
  | .recorded _ _ attempts _ => attempts.map PayoutAttempt.leg
  | _ => []

/-- What a call relies on of the attempt at a payout it has in hand. Once it has recorded its own, it
    is one with its transaction. Until then there is none, but for one that it replaces or resends. -/
def Stake (Lost : PayoutAttempt → Prop) (o : Option PayoutAttempt) (call : SettleCall) : Prop :=
  match call.phase with
  | .checked (.payout _ _) _ => o = none
  | .checked .sweep _ => call.deposit = none ∧ ∃ a, o = some a ∧ Lost a
  | .built (.escrow _) _ _ _ _ => ∀ a, o = some a → Lost a
  | .built (.payout _ _) _ _ _ _ => o = none
  | .built .sweep tx _ _ _ => ∃ a, o = some a ∧ (a.transaction = some tx ∨ call.deposit = none ∧ Lost a)
  | .recorded .sweep tx _ _ => ∃ a, o = some a ∧ a.transaction = some tx
  | .recorded _ tx _ _ => ∀ a, o = some a → a.transaction = some tx
  | _ => True

/-- What a call goes about is for its guard. -/
def Guarded (call : SettleCall) : SettleGuard → Prop
  | .escrow depositId => call.deposit.map PendingDeposit.id = some depositId
  | .payout x pk => call.deposit = none ∧ ∀ leg ∈ call.legs, leg = (x, pk)
  | .sweep => call.swept

/-- What a call has made. -/
def Made (Lost : PayoutAttempt → Prop) (call : SettleCall) : Prop :=
  match call.phase with
  | .entered guard payout => guard = call.guardFor payout
  | .built _ tx _ attempts _ => ∀ a ∈ attempts, a.taskId = call.taskId ∧ a.transaction = some tx
  | .recorded _ tx attempts replaced => (∀ a ∈ attempts, a.taskId = call.taskId ∧ a.transaction = some tx) ∧
      ∀ a ∈ replaced, a.transaction = some tx ∨ Lost a
  | .lost _ => call.swept
  | _ => True

variable {Lost Lost' : PayoutAttempt → Prop} {o o' : Option PayoutAttempt}

theorem Made.task {leg : Uuid × PublicKey} (h : call.Made Lost) (hleg : leg ∈ call.legs) :
    leg.1 = call.taskId := by
  obtain ⟨x, deposit, swept, rest, phase⟩ := call
  have hmade : ∀ {attempts : List PayoutAttempt} {tx}, (∀ a ∈ attempts, a.taskId = x ∧ a.transaction = tx) →
      leg ∈ attempts.map PayoutAttempt.leg → leg.1 = x := by
    intro attempts tx h hleg
    obtain ⟨a, ha, rfl⟩ := List.mem_map.1 hleg
    exact (h a ha).1
  cases phase with
  | ready => cases hleg
  | entered guard payout => rw [List.mem_singleton.1 hleg]
  | checked guard recipients =>
    obtain ⟨p, -, rfl⟩ := List.mem_map.1 hleg
    rfl
  | built guard tx submittedAt attempts todo =>
    rcases List.mem_append.1 hleg with hleg | hleg
    · exact hmade h hleg
    · obtain ⟨p, -, rfl⟩ := List.mem_map.1 hleg
      rfl
  | recorded guard tx attempts replaced => exact hmade h.1 hleg
  | lost tx => cases hleg

/-- A call goes on about the same payouts. -/
theorem Guarded.congr (h : call.Guarded guard) (hdeposit : call'.deposit = call.deposit)
    (hswept : call'.swept = call.swept) (hlegs : call'.legs = call.legs) : call'.Guarded guard := by
  cases guard with
  | escrow => exact (congrArg (Option.map PendingDeposit.id) hdeposit).trans h
  | payout => exact ⟨hdeposit.trans h.1, fun leg hleg => h.2 leg (hlegs ▸ hleg)⟩
  | sweep => exact hswept.trans h

theorem Made.mono (h : call.Made Lost) (hle : ∀ a, Lost a → Lost' a) : call.Made Lost' := by
  obtain ⟨x, deposit, swept, rest, phase⟩ := call
  cases phase with
  | recorded guard tx attempts replaced => exact ⟨h.1, fun a ha => (h.2 a ha).imp_right (hle a)⟩
  | _ => exact h

theorem Stake.mono (h : call.Stake Lost o) (hle : ∀ a, Lost a → Lost' a) : call.Stake Lost' o := by
  obtain ⟨x, deposit, swept, rest, phase⟩ := call
  cases phase with
  | checked guard recipients =>
    cases guard with
    | sweep =>
      obtain ⟨hdeposit, a, ha, hlost⟩ := h
      exact ⟨hdeposit, a, ha, hle a hlost⟩
    | _ => exact h
  | built guard tx submittedAt attempts todo =>
    cases guard with
    | escrow => exact fun a ha => hle a (h a ha)
    | payout => exact h
    | sweep =>
      obtain ⟨a, ha, hor⟩ := h
      exact ⟨a, ha, hor.imp_right fun hlost => ⟨hlost.1, hle a hlost.2⟩⟩
  | recorded guard tx attempts replaced => cases guard <;> exact h
  | _ => exact h

/-- Only what the sweep takes up has to be there. -/
theorem Stake.shed (h : call.Stake Lost o) (hguard : call.guard? ≠ some .sweep)
    (ho : ∀ a, o' = some a → o = some a) : call.Stake Lost o' := by
  obtain ⟨x, deposit, swept, rest, phase⟩ := call
  have hnone : o = none → o' = none := by
    rintro rfl
    exact Option.eq_none_iff_forall_ne_some.2 fun a ha => nomatch ho a ha
  cases phase with
  | checked guard recipients =>
    cases guard with
    | escrow => trivial
    | payout => exact hnone h
    | sweep => exact absurd rfl hguard
  | built guard tx submittedAt attempts todo =>
    cases guard with
    | escrow => exact fun a ha => h a (ho a ha)
    | payout => exact hnone h
    | sweep => exact absurd rfl hguard
  | recorded guard tx attempts replaced =>
    cases guard with
    | sweep => exact absurd rfl hguard
    | _ => exact fun a ha => h a (ho a ha)
  | _ => trivial

/-- The sweep relies on an attempt: one that has a transaction, or is at a payout of the operator. -/
theorem Stake.swept (h : call.Stake Lost o) (hmade : call.Made Lost) (hguard : call.guard? = some .sweep) :
    ∃ a, o = some a ∧ (a.transaction.isSome ∨ call.deposit = none) := by
  obtain ⟨x, deposit, swept, rest, phase⟩ := call
  cases phase with
  | entered guard payout =>
    -- No payout is made under the guard of the sweep.
    obtain rfl := Option.some.inj hguard
    cases deposit <;> cases hmade
  | checked guard recipients =>
    obtain rfl := Option.some.inj hguard
    obtain ⟨hdeposit, a, ha, -⟩ := h
    exact ⟨a, ha, .inr hdeposit⟩
  | built guard tx submittedAt attempts todo =>
    obtain rfl := Option.some.inj hguard
    obtain ⟨a, ha, htx | ⟨hdeposit, -⟩⟩ := h
    · exact ⟨a, ha, .inl (by rw [htx]; rfl)⟩
    · exact ⟨a, ha, .inr hdeposit⟩
  | recorded guard tx attempts replaced =>
    obtain rfl := Option.some.inj hguard
    obtain ⟨a, ha, htx⟩ := h
    exact ⟨a, ha, .inl (by rw [htx]; rfl)⟩
  | _ => cases hguard

/-- A call that is not the sweep's stands by when the sweep resends what it finds. -/
theorem Stake.resent {tx : Transaction} {a a' : PayoutAttempt} (h : call.Stake Lost (some a))
    (hguard : call.guard? = some guard) (hguarded : call.Guarded guard) (hne : guard ≠ .sweep)
    (ha : a.transaction = some tx ∨ call.deposit = none ∧ Lost a) (hlost : ∀ a, Lost a → a.transaction = none)
    (ha' : a'.transaction = some tx) : call.Stake Lost (some a') := by
  obtain ⟨x, deposit, swept, rest, phase⟩ := call
  -- Whatever was recorded is what the sweep sends again.
  have hrecorded : ∀ {tx₀ : Transaction}, (∀ b, some a = some b → b.transaction = some tx₀) →
      ∀ b, some a' = some b → b.transaction = some tx₀ := by
    rintro tx₀ h b ⟨⟩
    rw [← h a rfl, ha']
    rcases ha with htx | ⟨-, hl⟩
    · exact htx.symm
    · cases (hlost a hl).symm.trans (h a rfl)
  cases phase with
  | checked guard' recipients =>
    obtain rfl := Option.some.inj hguard
    cases guard' with
    | escrow => trivial
    | payout => cases h
    | sweep => exact absurd rfl hne
  | built guard' tx₀ submittedAt attempts todo =>
    obtain rfl := Option.some.inj hguard
    cases guard' with
    | escrow =>
      -- It builds over none but lost ones.
      have hl := hlost a (h a rfl)
      rcases ha with htx | ⟨rfl, -⟩
      · cases hl.symm.trans htx
      · cases hguarded
    | payout => cases h
    | sweep => exact absurd rfl hne
  | recorded guard' tx₀ attempts replaced =>
    obtain rfl := Option.some.inj hguard
    cases guard' with
    | sweep => exact absurd rfl hne
    | _ => exact hrecorded h
  | _ => trivial

end SettleCall

namespace Settlements

/-- What holds of a call: its task is paid from the deposit it has found, and the attempts at the
    payouts it has in hand are as it relies on. -/
structure Backed (t : Settlements) (call : SettleCall) : Prop where
  funded : t.board.fundedBy call.taskId = some (call.deposit.map PendingDeposit.id)
  guarded : ∀ guard, call.guard? = some guard → call.Guarded guard
  made : call.Made t.Lost
  stake : ∀ leg ∈ call.legs, call.Stake t.Lost (t.board.payoutAttempts.lookup leg)

namespace Backed

theorem ready {x : Uuid} {deposit : Option PendingDeposit} {swept : Bool} (rest : List (PublicKey × ℕ))
    (h : t.board.fundedBy x = some (deposit.map PendingDeposit.id)) :
    t.Backed ⟨x, deposit, swept, rest, .ready⟩ where
  funded := h
  guarded _ hguard := by cases hguard
  made := trivial
  stake _ hleg := by cases hleg

/-- Two calls that hold different guards: what one is about to record, the other can rely on. -/
theorem stake_of_built {tx : Transaction} {submittedAt : DateTime} {attempts : List PayoutAttempt}
    {todo : List ((PublicKey × ℕ) × ℕ)} {leg : Uuid × PublicKey} {a : PayoutAttempt} (h : t.Backed call)
    (h' : t.Backed call') (hphase : call'.phase = .built guard tx submittedAt attempts todo)
    (hne : ∀ guard, call.guard? = some guard → call'.guard? ≠ some guard) (hleg : leg ∈ call.legs)
    (hleg' : leg ∈ call'.legs) (ha : a.transaction = some tx) : call.Stake t.Lost (some a) := by
  have hstake := h.stake leg hleg
  have hstake' := h'.stake leg hleg'
  have hguard' : call'.guard? = some guard := by rw [SettleCall.guard?, hphase]
  have hguarded' := h'.guarded guard hguard'
  -- Calls on a leg of one task are on the task of one deposit, if of any.
  have hdeposit : call.deposit.map PendingDeposit.id = call'.deposit.map PendingDeposit.id := by
    have htask : call.taskId = call'.taskId := (h.made.task hleg).symm.trans (h'.made.task hleg')
    exact Option.some.inj (h.funded.symm.trans ((congrArg t.board.fundedBy htask).trans h'.funded))
  cases hguard : call.guard? with
  | none =>
    -- Without a guard it has recorded nothing yet, or nothing any more.
    obtain ⟨x, deposit, swept, rest, phase⟩ := call
    cases phase with
    | ready => trivial
    | lost => trivial
    | _ => cases hguard
  | some guard₀ =>
    have hguarded := h.guarded guard₀ hguard
    have hdiffer := hne guard₀ hguard
    rw [SettleCall.Stake, hphase] at hstake'
    -- Of two guards of one kind the calls would hold the same; of two kinds a deposit tells them
    -- apart.
    cases guard₀ with
    | escrow depositId =>
      cases guard with
      | escrow depositId' =>
        obtain rfl := Option.some.inj (hguarded.symm.trans (hdeposit.trans hguarded'))
        exact absurd hguard' hdiffer
      | payout x pk =>
        rw [hguarded, hguarded'.1] at hdeposit
        cases hdeposit
      | sweep =>
        -- The sweep has an attempt to go by, and its transaction is that one or there is none.
        obtain ⟨b, hb, hor⟩ := hstake'
        rw [hb] at hstake
        refine hstake.resent hguard hguarded nofun (hor.imp_right fun hl => ⟨?_, hl.2⟩) (fun _ hl => hl.1) ha
        rw [hl.1, Option.map_none, Option.map_eq_none_iff] at hdeposit
        exact hdeposit
    | payout x pk =>
      cases guard with
      | escrow depositId' =>
        rw [hguarded.1, hguarded'] at hdeposit
        cases hdeposit
      | payout x' pk' =>
        obtain ⟨rfl, rfl⟩ := Prod.mk.inj ((hguarded.2 leg hleg).symm.trans (hguarded'.2 leg hleg'))
        exact absurd hguard' hdiffer
      | sweep =>
        obtain ⟨b, hb, hor⟩ := hstake'
        rw [hb] at hstake
        exact hstake.resent hguard hguarded nofun (hor.imp_right fun hl => ⟨hguarded.1, hl.2⟩)
          (fun _ hl => hl.1) ha
    | sweep =>
      -- There is an attempt, which the other call knows to be lost, or not to be there.
      obtain ⟨b, hb, hor⟩ := hstake.swept h.made hguard
      cases guard with
      | escrow depositId' =>
        have hl : t.Lost b := hstake' b hb
        rcases hor with htx | hnone
        · rw [hl.1] at htx
          cases htx
        · rw [hnone, hguarded'] at hdeposit
          cases hdeposit
      | payout x' pk' => cases hb.symm.trans hstake'
      | sweep => exact absurd hguard' hdiffer

end Backed

/-- What holds throughout a run: no two calls hold the same guard, and each is as it should be. -/
structure Sound (t : Settlements) : Prop where
  tasksKeyed : t.board.TasksKeyed
  attemptsKeyed : t.board.AttemptsKeyed
  backed : ∀ i call, t.calls.lookup i = some call → t.Backed call
  apart : ∀ i j call call' guard, t.calls.lookup i = some call → t.calls.lookup j = some call' →
    call.Holds guard → call'.Holds guard → i = j

end Settlements

namespace TaskBoard

/-- An operation that leaves the tasks their deposits. -/
theorem Untouched.fundedBy_eq (h : Untouched s s') : s'.fundedBy = s.fundedBy := by
  funext x
  have hnames : ∀ b : TaskBoard, b.fundedBy x = ((b.tasks.lookup x).map Task.names).map fun names =>
      (names.2.1.bind b.pendingDeposits.lookup).map PendingDeposit.id := by
    intro b
    rw [Option.map_map]
    rfl
  rw [hnames, hnames, h.tasks, h.deposits]

theorem untouched_recordPayoutAttempts (attempts : List PayoutAttempt) (s : TaskBoard) :
    Untouched s (s.recordPayoutAttempts attempts) := by
  induction attempts generalizing s with
  | nil => exact .refl s
  | cons a attempts ih => exact (untouched_recordPayoutAttempt a).trans (ih _)

theorem toSettle_eq_some {x : Uuid} {deposit : Option PendingDeposit} {payouts : List (PublicKey × ℕ)}
    (h : s.toSettle x = some (deposit, payouts)) : s.fundedBy x = some (deposit.map PendingDeposit.id) := by
  obtain ⟨task, htask, h⟩ := Option.bind_eq_some_iff.1 h
  split_ifs at h
  obtain ⟨rfl, -⟩ := Prod.mk.inj (Option.some.inj h)
  rw [fundedBy, htask, Option.map_some]

theorem stillUnsent_eq_some {x : Uuid} {payout : PublicKey × ℕ} {recipients : List (PublicKey × ℕ)}
    (h : s.stillUnsent x payout = some recipients) :
    recipients = [payout] ∧ s.payoutAttempts.lookup (x, payout.1) = none := by
  obtain ⟨task, -, h⟩ := Option.bind_eq_some_iff.1 h
  split_ifs at h with hor
  rw [not_or, Option.not_isSome_iff_eq_none] at hor
  exact ⟨(Option.some.inj h).symm, hor.2⟩

end TaskBoard

open TaskBoard

namespace Settlements

theorem held_of_holds (hd : t.calls.lookup i = some call) (h : call.Holds guard) : t.Held guard :=
  ⟨i, Finmap.mem_keys.2 (Finmap.mem_of_lookup_eq_some hd), call, hd, h⟩

namespace Sound

/-! ### Steps of a call -/

/-- A call goes on, under guards that it holds already or that are free, and may write the board. -/
theorem write {board : TaskBoard} (h : t.Sound) (htasks : board.TasksKeyed) (hattempts : board.AttemptsKeyed)
    (hothers : ∀ j call', j ≠ i → t.calls.lookup j = some call' → Backed { t with board } call')
    (hcall : Backed { t with board } call)
    (hholds : ∀ guard, call.Holds guard →
      ¬t.Held guard ∨ ∃ old, t.calls.lookup i = some old ∧ old.Holds guard) :
    ({ t with board }.put i call).Sound where
  tasksKeyed := htasks
  attemptsKeyed := hattempts
  backed j call' hd := by
    rw [Settlements.put, Finmap.lookup_insert_eq] at hd
    split_ifs at hd with hj
    · obtain rfl := Option.some.inj hd
      exact { hcall with }
    · exact { hothers j call' hj hd with }
  apart j j' call₁ call₂ guard hd hd' hg hg' := by
    -- A guard of the call that goes on was its own before, or is nobody else's.
    have hnew : ∀ {j call'}, t.calls.lookup j = some call' → call.Holds guard → call'.Holds guard → j = i := by
      intro j call' hd hg hg'
      rcases hholds guard hg with hfree | ⟨old, hold, hg⟩
      · exact absurd (held_of_holds hd hg') hfree
      · exact h.apart j i call' old guard hd hold hg' hg
    rw [Settlements.put, Finmap.lookup_insert_eq] at hd hd'
    split_ifs at hd hd' with hj hj' hj'
    · exact hj.trans hj'.symm
    · obtain rfl := Option.some.inj hd
      exact hj.trans (hnew hd' hg hg').symm
    · obtain rfl := Option.some.inj hd'
      exact (hnew hd hg' hg).trans hj'.symm
    · exact h.apart j j' call₁ call₂ guard hd hd' hg hg'

theorem put (h : t.Sound) (hcall : t.Backed call)
    (hholds : ∀ guard, call.Holds guard →
      ¬t.Held guard ∨ ∃ old, t.calls.lookup i = some old ∧ old.Holds guard) :
    (t.put i call).Sound :=
  h.write h.tasksKeyed h.attemptsKeyed (fun j call' _ hd => h.backed j call' hd) hcall hholds

/-- A call goes on under the guards it holds. -/
theorem change (h : t.Sound) (hd : t.calls.lookup i = some call) (hcall : t.Backed call')
    (hholds : ∀ guard, call'.Holds guard → call.Holds guard) : (t.put i call').Sound :=
  h.put hcall fun guard hg => .inr ⟨call, hd, hholds guard hg⟩

theorem erase (h : t.Sound) (i : ℕ) : Sound { t with calls := t.calls.erase i } where
  tasksKeyed := h.tasksKeyed
  attemptsKeyed := h.attemptsKeyed
  backed j call hd := by
    rw [Finmap.lookup_erase_eq] at hd
    split_ifs at hd
    exact { h.backed j call hd with }
  apart j j' call call' guard hd hd' := by
    rw [Finmap.lookup_erase_eq] at hd hd'
    split_ifs at hd hd'
    exact h.apart j j' call call' guard hd hd'

section

variable {x : Uuid} {deposit : Option PendingDeposit} {swept : Bool} {rest : List (PublicKey × ℕ)}
  {payout : PublicKey × ℕ} {recipients : List (PublicKey × ℕ)} {tx : Transaction} {submittedAt : DateTime}
  {attempts : List PayoutAttempt} {todo : List ((PublicKey × ℕ) × ℕ)}

/-- A call leaves a payout. -/
theorem leave (h : t.Sound) (hd : t.calls.lookup i = some call) :
    (t.put i ⟨call.taskId, call.deposit, call.swept, call.rest, .ready⟩).Sound :=
  h.change hd (.ready _ (h.backed i call hd).funded) fun _ hg => .inr (hg.resolve_left nofun)

theorem read (h : t.Sound) (i : ℕ) (hread : t.board.toSettle x = some (deposit, rest)) :
    (t.put i ⟨x, deposit, false, rest, .ready⟩).Sound :=
  h.put (.ready _ (toSettle_eq_some hread)) fun _ hg => by
    rcases hg with hg | ⟨hg, -⟩ <;> cases hg

theorem enter (h : t.Sound) (hd : t.calls.lookup i = some ⟨x, deposit, swept, payout :: rest, .ready⟩)
    (rest' : List (PublicKey × ℕ)) (hguard : guard = deposit.elim (.payout x payout.1) fun d => .escrow d.id)
    (hfree : ¬t.Held guard) : (t.put i ⟨x, deposit, swept, rest', .entered guard payout⟩).Sound := by
  refine h.put ⟨(h.backed i _ hd).funded, fun guard' hg => ?_, hguard, fun _ _ => trivial⟩ fun guard' hg => ?_
  · obtain rfl := Option.some.inj hg
    rw [hguard]
    cases deposit with
    | none => exact ⟨rfl, fun leg hleg => List.mem_singleton.1 hleg⟩
    | some d => exact rfl
  · rcases hg with hg | hg
    · obtain rfl := Option.some.inj hg
      exact .inl hfree
    · exact .inr ⟨_, hd, .inr hg⟩

/-- What is still owed is paid from the deposit at once. Of the operator it is the one payout, if
    there is no attempt at it. -/
theorem check (h : t.Sound) (hd : t.calls.lookup i = some ⟨x, deposit, swept, rest, .entered guard payout⟩)
    (hdue : (if deposit.isSome then t.board.stillOwed x else t.board.stillUnsent x payout) = some recipients) :
    (t.put i ⟨x, deposit, swept, rest, .checked guard recipients⟩).Sound := by
  have hbacked := h.backed i _ hd
  have hguard : guard = deposit.elim (.payout x payout.1) fun d => .escrow d.id := hbacked.made
  refine h.change hd ⟨hbacked.funded, fun guard' hg => ?_, trivial, fun leg hleg => ?_⟩ fun _ hg => hg
  · obtain rfl := Option.some.inj hg
    cases deposit with
    | none =>
      obtain ⟨rfl, -⟩ := stillUnsent_eq_some hdue
      rw [hguard]
      exact ⟨rfl, fun leg hleg => List.mem_singleton.1 hleg⟩
    | some d =>
      rw [hguard]
      exact rfl
  · rw [hguard]
    cases deposit with
    | none =>
      obtain ⟨rfl, hnone⟩ := stillUnsent_eq_some hdue
      obtain rfl := List.mem_singleton.1 hleg
      exact hnone
    | some d => trivial

theorem build (h : t.Sound) (hd : t.calls.lookup i = some ⟨x, deposit, swept, rest, .checked guard recipients⟩)
    (tx : Transaction) (submittedAt : DateTime)
    (hanew : ∀ depositId, guard = .escrow depositId → ∀ p ∈ recipients, ∀ a,
      t.board.payoutAttempt x p.1 = some a → t.Lost a) :
    (t.put i ⟨x, deposit, swept, rest, .built guard tx submittedAt [] recipients.zipIdx⟩).Sound := by
  have hbacked := h.backed i _ hd
  have hlegs : SettleCall.legs ⟨x, deposit, swept, rest, .built guard tx submittedAt [] recipients.zipIdx⟩ =
      SettleCall.legs ⟨x, deposit, swept, rest, .checked guard recipients⟩ := by
    have hfst : recipients.zipIdx.map Prod.fst = recipients := List.zipIdx_map_fst 0 recipients
    simp only [SettleCall.legs, List.map_nil, List.nil_append]
    conv_rhs => rw [← hfst]
    rw [List.map_map]
    rfl
  refine h.change hd ⟨hbacked.funded, fun guard' hg => (hbacked.guarded guard' hg).congr rfl rfl hlegs,
    fun a ha => absurd ha List.not_mem_nil, fun leg hleg => ?_⟩ fun _ hg => hg
  rw [hlegs] at hleg
  have hstake := hbacked.stake leg hleg
  cases guard with
  | escrow depositId =>
    obtain ⟨p, hp, rfl⟩ := List.mem_map.1 hleg
    exact fun a ha => hanew depositId rfl p hp a ha
  | payout => exact hstake
  | sweep =>
    obtain ⟨hdeposit, a, ha, hlost⟩ := hstake
    exact ⟨a, ha, .inr ⟨hdeposit, hlost⟩⟩

theorem makeAttempt {p : (PublicKey × ℕ) × ℕ} {source : PublicKey} {a : PayoutAttempt} (h : t.Sound)
    (hd : t.calls.lookup i = some ⟨x, deposit, swept, rest, .built guard tx submittedAt attempts (p :: todo)⟩)
    (ha : t.board.attemptAt c x source submittedAt tx p = some a) :
    (t.put i ⟨x, deposit, swept, rest, .built guard tx submittedAt (attempts ++ [a]) todo⟩).Sound := by
  have hbacked := h.backed i _ hd
  obtain ⟨hof, hrecipient, -⟩ := attemptAt_eq_some ha
  have hleg : a.leg = (x, p.1.1) := by rw [PayoutAttempt.leg, hof.taskId, hrecipient]
  have hlegs : SettleCall.legs ⟨x, deposit, swept, rest, .built guard tx submittedAt (attempts ++ [a]) todo⟩ =
      SettleCall.legs ⟨x, deposit, swept, rest, .built guard tx submittedAt attempts (p :: todo)⟩ := by
    simp [SettleCall.legs, hleg]
  refine h.change hd ⟨hbacked.funded, fun guard' hg => (hbacked.guarded guard' hg).congr rfl rfl hlegs,
    fun a' ha' => ?_, fun leg hleg => ?_⟩ fun _ hg => hg
  · rcases List.mem_append.1 ha' with ha' | ha'
    · exact hbacked.made a' ha'
    · rw [List.mem_singleton.1 ha']
      exact ⟨hof.taskId, hof.transaction⟩
  · rw [hlegs] at hleg
    have hstake := hbacked.stake leg hleg
    cases guard <;> exact hstake

/-- The attempts are put on the board in place of others, and no other call relies on what they
    replace. -/
theorem record (h : t.Sound)
    (hd : t.calls.lookup i = some ⟨x, deposit, swept, rest, .built guard tx submittedAt attempts []⟩) :
    ({ t with board := t.board.recordPayoutAttempts attempts }.put i
      ⟨x, deposit, swept, rest, .recorded guard tx
      attempts (attempts.filterMap fun a : PayoutAttempt => t.board.payoutAttempts.lookup a.leg)⟩).Sound := by
  have hbacked := h.backed i _ hd
  have hmade : ∀ a ∈ attempts, a.taskId = x ∧ a.transaction = some tx := hbacked.made
  have hlegs : SettleCall.legs ⟨x, deposit, swept, rest, .built guard tx submittedAt attempts []⟩ =
      attempts.map PayoutAttempt.leg := List.append_nil _
  have huntouched := untouched_recordPayoutAttempts attempts t.board
  have hfunded := huntouched.fundedBy_eq
  have hrecorded : ∀ leg ∈ attempts.map PayoutAttempt.leg, ∃ a,
      (t.board.recordPayoutAttempts attempts).payoutAttempts.lookup leg = some a ∧ a.transaction = some tx := by
    intro leg hleg
    obtain ⟨a, ha, -, hlookup⟩ := lookup_savePayoutAttempts_of_mem (s := t.board) hleg
    exact ⟨a, by rw [recordPayoutAttempts_attempts, hlookup], (hmade a ha).2⟩
  refine h.write (huntouched.keyed h.tasksKeyed) (attemptsKeyed_recordPayoutAttempts attempts h.attemptsKeyed)
    (fun j call hj hcall => ?_) ?_ fun guard hg => .inr ⟨_, hd, hg⟩
  · have hother := h.backed j call hcall
    refine ⟨by rw [hfunded]; exact hother.funded, hother.guarded, hother.made, fun leg hleg => ?_⟩
    have hstake := hother.stake leg hleg
    -- Of a leg that is recorded, the other call relies on what the guards keep apart.
    by_cases hmem : leg ∈ attempts.map PayoutAttempt.leg
    · obtain ⟨a, ha, htx⟩ := hrecorded leg hmem
      dsimp only
      rw [ha]
      refine hother.stake_of_built hbacked rfl (fun guard hg hg' => hj ?_) hleg (hlegs ▸ hmem) htx
      exact h.apart j i call _ guard hcall hd (.inl hg) (.inl hg')
    · dsimp only
      rw [recordPayoutAttempts_attempts, lookup_savePayoutAttempts_of_notMem hmem]
      exact hstake
  · refine ⟨by rw [hfunded]; exact hbacked.funded,
      fun guard' hg => (hbacked.guarded guard' hg).congr rfl rfl hlegs.symm, ⟨hmade, fun a ha => ?_⟩,
      fun leg hleg => ?_⟩
    · -- What is replaced was lost, or carries the transaction that is sent again.
      obtain ⟨a', ha', hlookup⟩ := List.mem_filterMap.1 ha
      have hstake := hbacked.stake a'.leg (hlegs ▸ List.mem_map_of_mem ha')
      cases guard with
      | escrow => exact .inr (hstake a hlookup)
      | payout => cases hlookup.symm.trans hstake
      | sweep =>
        obtain ⟨b, hb, hor⟩ := hstake
        obtain rfl := Option.some.inj (hlookup.symm.trans hb)
        exact hor.imp_right And.right
    · -- And all that is on the board now is of this call.
      obtain ⟨a, ha, htx⟩ := hrecorded leg hleg
      cases guard with
      | sweep => exact ⟨a, ha, htx⟩
      | _ =>
        intro a' ha'
        rw [← Option.some.inj (ha.symm.trans ha')]
        exact htx

/-- The sweep resends the attempts that carry the transaction. -/
theorem resend (h : t.Sound) (hd : t.calls.lookup i = some ⟨x, deposit, swept, rest, .lost tx⟩)
    (submittedAt : DateTime) : (t.put i ⟨x, deposit, swept, rest, .built .sweep tx submittedAt
      (t.board.resentLegs x tx submittedAt) []⟩).Sound := by
  have hbacked := h.backed i _ hd
  have hswept : swept := hbacked.made
  refine h.change hd ⟨hbacked.funded, fun guard' hg => ?_, fun a ha => ?_, fun leg hleg => ?_⟩
    fun guard' hg => ?_
  · obtain rfl := Option.some.inj hg
    exact hswept
  · obtain ⟨a', -, htx, hid, rfl⟩ := mem_resentLegs h.attemptsKeyed ha
    exact ⟨hid, htx⟩
  · rcases List.mem_append.1 hleg with hleg | hleg
    · obtain ⟨a, ha, rfl⟩ := List.mem_map.1 hleg
      obtain ⟨a', ha', htx, -⟩ := mem_resentLegs h.attemptsKeyed ha
      exact ⟨a', ha', .inl htx⟩
    · cases hleg
  · rcases hg with hg | hg
    · exact .inr ⟨hswept, (Option.some.inj hg).symm⟩
    · exact .inr hg

end

/-! ### Steps of the sweep and of the rest -/

/-- The sweep takes up an attempt that never landed. -/
theorem resolve {attempt : PayoutAttempt} (h : t.Sound) (i : ℕ) (hfree : ¬t.Held .sweep)
    (hlive : t.board.payoutAttempts.lookup attempt.leg = some attempt)
    (recipientUtxos sourceUtxos : UtxoReply) :
    ((SettleOp.resolve i attempt recipientUtxos sourceUtxos).after c g k t).Sound := by
  -- What was lost is so still.
  have hle : ∀ a, t.Lost a → Lost { t with neverLanded := attempt :: t.neverLanded } a := fun a hl =>
    ⟨hl.1, List.mem_cons_of_mem _ hl.2⟩
  have hresolved : Sound { t with neverLanded := attempt :: t.neverLanded } :=
    ⟨h.tasksKeyed, h.attemptsKeyed, fun j call hd =>
      have hbacked := h.backed j call hd
      ⟨hbacked.funded, hbacked.guarded, hbacked.made.mono hle, fun leg hleg =>
        (hbacked.stake leg hleg).mono hle⟩,
      h.apart⟩
  -- The guard of the sweep is free, and it holds no other.
  have hsweep : ∀ {call : SettleCall} {guard}, call.guard? = none ∨ call.guard? = some .sweep →
      call.Holds guard → ¬t.Held guard := by
    rintro call guard hcall (hg | ⟨-, rfl⟩)
    · rcases hcall with hnone | hsome
      · cases hnone.symm.trans hg
      · obtain rfl := Option.some.inj (hsome.symm.trans hg)
        exact hfree
    · exact hfree
  rw [SettleOp.after]
  split
  · next task htask =>
    have hfunded : t.board.fundedBy attempt.taskId = some ((t.board.depositOf task).map PendingDeposit.id) := by
      rw [fundedBy, htask, Option.map_some]
    dsimp only
    split
    · exact hresolved.put ⟨hfunded, nofun, rfl, nofun⟩ fun guard hg => .inl (hsweep (.inl rfl) hg)
    · exact hresolved.put (.ready _ hfunded) fun guard hg => .inl (hsweep (.inl rfl) hg)
    · -- The sweep goes on under its guard, from the attempt it has found.
      next htx hdeposit =>
      rw [hdeposit] at hfunded
      refine hresolved.put ⟨hfunded, fun guard hg => ?_, trivial, fun leg hleg => ?_⟩
        fun guard hg => .inl (hsweep (.inr rfl) hg)
      · obtain rfl := Option.some.inj hg
        exact rfl
      · obtain rfl := List.mem_singleton.1 hleg
        exact ⟨rfl, attempt, hlive, htx, List.mem_cons_self⟩
  · exact hresolved

/-- The board is written by none of the calls. -/
theorem onBoard {board : TaskBoard} (h : t.Sound) (htasks : board.TasksKeyed) (hattempts : board.AttemptsKeyed)
    (hfunded : ∀ x v, t.board.fundedBy x = some v → board.fundedBy x = some v)
    (hstake : ∀ i call leg, t.calls.lookup i = some call →
      call.Stake t.Lost (t.board.payoutAttempts.lookup leg) →
        call.Stake t.Lost (board.payoutAttempts.lookup leg)) :
    Sound { t with board } where
  tasksKeyed := htasks
  attemptsKeyed := hattempts
  backed i call hd :=
    have hbacked := h.backed i call hd
    ⟨hfunded _ _ hbacked.funded, hbacked.guarded, hbacked.made, fun leg hleg =>
      hstake i call leg hd (hbacked.stake leg hleg)⟩
  apart := h.apart

/-- The sweep takes attempts off the board. -/
theorem shed {board : TaskBoard} (h : t.Sound) (hfree : ¬t.Held .sweep) (huntouched : Untouched t.board board)
    (hsheds : Sheds t.board board) : Sound { t with board } := by
  refine h.onBoard (huntouched.keyed h.tasksKeyed) (hsheds.attemptsKeyed h.attemptsKeyed) (fun x v hv => ?_)
    fun i call leg hd hstake => ?_
  · rw [huntouched.fundedBy_eq]
    exact hv
  · exact hstake.shed (fun hg => hfree (held_of_holds hd (.inl hg))) (hsheds.attempts leg)

/-- Every step keeps it, if no transaction is built from a deposit over an attempt that is out. -/
theorem step {op : SettleOp} (h : t.Sound) (hop : op.Enabled c t) (hanew : t.BuildsAnew c g k op) :
    (op.after c g k t).Sound := by
  cases op with
  | read i taskId =>
    rw [SettleOp.after]
    split
    · next hread => exact h.read i hread
    · exact h
  | enter i =>
    rw [SettleOp.after]
    split
    · -- The guard is taken if it is free, and else the call waits for the next.
      next taskId deposit swept payout rest hd =>
      dsimp only
      split_ifs with hheld
      · exact h.change hd (.ready _ (h.backed i _ hd).funded) fun _ hg => .inr (hg.resolve_left nofun)
      · exact h.enter hd _ rfl hheld
    · exact h.erase i
    · exact h
  | check i =>
    rw [SettleOp.after]
    split
    · next taskId deposit swept rest guard payout hd =>
      dsimp only
      -- A task that is no longer due leaves the call without anything to do.
      generalize hdue :
        (if deposit.isSome then t.board.stillOwed taskId else t.board.stillUnsent taskId payout) = due
      cases due with
      | none => exact h.leave hd
      | some recipients => exact h.check hd hdue
    · exact h
  | build i utxos ids submittedAt =>
    rw [SettleOp.after]
    split
    · next taskId deposit swept rest guard recipients hd =>
      dsimp only
      split
      · next tx htx =>
        -- The condition is on what is built from a deposit.
        refine h.build hd tx submittedAt fun depositId hguard => ?_
        subst hguard
        exact hanew i utxos ids submittedAt _ depositId recipients tx rfl hd rfl htx
      · exact h.leave hd
      · exact h.erase i
    · exact h
  | makeAttempt i =>
    rw [SettleOp.after]
    split
    · next hd =>
      split
      · next ha => exact h.makeAttempt hd ha
      · exact h.leave hd
    · exact h
  | record i =>
    rw [SettleOp.after]
    split
    · next hd => exact h.record hd
    · exact h
  | fail i =>
    rw [SettleOp.after]
    split
    · next hd => exact h.leave hd
    · exact h
  | hand i =>
    rw [SettleOp.after]
    split
    · next hd => exact h.leave hd
    · exact h
  | drop i => exact h.erase i
  | resolve i attempt recipientUtxos sourceUtxos =>
    obtain ⟨-, hfree, hlive, -⟩ := hop
    exact h.resolve i hfree hlive recipientUtxos sourceUtxos
  | resend i submittedAt =>
    rw [SettleOp.after]
    split
    · next hd => exact h.resend hd submittedAt
    · exact h
  | recordConfirmedPayout now commits attempt store =>
    have hkeyed : (Hub.mk t.board store).board.AttemptsKeyed := h.attemptsKeyed
    exact h.shed hop (untouched_recordConfirmedPayout h.tasksKeyed now commits _ _ _)
      (sheds_recordConfirmedPayout hkeyed)
  | abandonPayout commits attempt store =>
    have hkeyed : (Hub.mk t.board store).board.AttemptsKeyed := h.attemptsKeyed
    exact h.shed hop (untouched_abandonPayout h.tasksKeyed commits attempt) (sheds_abandonPayout hkeyed)
  | other board =>
    obtain ⟨htasks, hattempts, hfunded⟩ := hop
    refine h.onBoard htasks ?_ hfunded fun i call leg _ hstake => ?_
    · rw [AttemptsKeyed, hattempts]
      exact h.attemptsKeyed
    · rw [hattempts]
      exact hstake

end Sound

theorem sound_of_settlements (hr : (settlements c g k).ReachableBy (BuildsAnew c g k) t) : t.Sound := by
  refine hr.invariant ?_ fun t op t' h hanew hst => ?_
  · rintro t ⟨htasks, hattempts, hcalls, -⟩
    have hnone : ∀ i call, t.calls.lookup i ≠ some call := by
      intro i call hd
      rw [hcalls, Finmap.lookup_empty] at hd
      cases hd
    exact ⟨htasks, hattempts, fun i call hd => absurd hd (hnone i call),
      fun i _ call _ _ hd => absurd hd (hnone i call)⟩
  · obtain ⟨hop, rfl⟩ := hst
    exact h.step hop hanew

end Settlements

/-- In the runs in which no transaction is built from a deposit while a payout it is for has an
    attempt that is out, a transaction is handed to the node for a payout in place of none other, but
    for one that was kept without its transaction and resolved as never landed; and the attempt at the
    payout, as long as there is one, is of the transaction that is handed over. -/
theorem one_transaction_per_payout (c : Crypto) (g : Signing) (k : SettleKeys) (t : Settlements)
    (hr : (settlements c g k).ReachableBy (Settlements.BuildsAnew c g k) t) :
    ∀ tx attempts replaced, t.Hands tx attempts replaced →
      (∀ a ∈ replaced, a.transaction = some tx ∨ t.Lost a) ∧
      ∀ leg ∈ attempts.map PayoutAttempt.leg, ∀ a, t.board.payoutAttempts.lookup leg = some a →
        a.transaction = some tx := by
  rintro tx attempts replaced ⟨i, call, guard, hd, hphase⟩
  obtain ⟨x, deposit, swept, rest, phase⟩ := call
  obtain rfl : phase = .recorded guard tx attempts replaced := hphase
  have hbacked := (Settlements.sound_of_settlements hr).backed i _ hd
  refine ⟨hbacked.made.2, fun leg hleg a ha => ?_⟩
  have hstake := hbacked.stake leg hleg
  cases guard with
  | sweep =>
    obtain ⟨a', ha', htx⟩ := hstake
    rw [Option.some.inj (ha.symm.trans ha')]
    exact htx
  | _ => exact hstake a ha

/-! A call settles a task with a deposit. -/

namespace SettleSample

open PayrollSample

def keys : SettleKeys := ⟨3, 4, fun _ => 7⟩

def start : Settlements := ⟨board, ∅, []⟩

abbrev run (t : Settlements) (ops : List SettleOp) : Settlements :=
  ops.foldl (fun t op => op.after pairingCrypto signing keys t) t

/-- The payout of both shares, with the ids from `n` on. -/
def paying (n : ℕ) : Transaction where
  inputs := [{ prevTransactionOutputHash := 9003049, signature := 7 }]
  outputs := [{ value := 1000, uniqueId := n, pubkey := 8 }, { value := 1000, uniqueId := n + 1, pubkey := 9 }]

/-- The call has taken the deposit, and read again. -/
def reread (t : Settlements) : Settlements := run t [.read 1 1, .enter 1, .check 1]

/-- It has a transaction with the ids from `n` on, and its attempts are recorded. -/
def recorded (t : Settlements) (n : ℕ) : Settlements :=
  run (reread t) [.build 1 utxos (fun k => k + n) 1, .makeAttempt 1, .makeAttempt 1, .record 1]

/-- The hub has crashed between the saves of two attempts, and starts from its store. -/
def reloaded : Settlements := ⟨(PayrollSample.step .crash inPart).hub.board, ∅, []⟩

/-- What a call is about to hand over, for which payouts, and the attempts in whose place, each by its
    payout and what it carried. -/
structure Handing where
  transaction : Transaction
  legs : List (Uuid × PublicKey)
  replaced : List ((Uuid × PublicKey) × Option Transaction)
  deriving DecidableEq

def handing (t : Settlements) (i : ℕ) : Option Handing :=
  (t.calls.lookup i).bind fun call =>
    match call.phase with
    | .recorded _ tx attempts replaced =>
      some ⟨tx, attempts.map PayoutAttempt.leg, replaced.map fun a => (a.leg, a.transaction)⟩
    | _ => none

theorem hands_of_handing {t : Settlements} {i : ℕ} {d : Handing} (h : handing t i = some d) :
    ∃ attempts replaced, t.Hands d.transaction attempts replaced ∧ attempts.map PayoutAttempt.leg = d.legs ∧
      (replaced.map fun a => (a.leg, a.transaction)) = d.replaced := by
  obtain ⟨call, hd, h⟩ := Option.bind_eq_some_iff.1 h
  split at h
  · next guard tx attempts replaced hphase =>
    obtain rfl := Option.some.inj h
    exact ⟨attempts, replaced, ⟨i, call, guard, hd, hphase⟩, rfl, rfl⟩
  · cases h

theorem reachable_run {C : Settlements → SettleOp → Prop} {t : Settlements} {ops : List SettleOp}
    (h : (settlements pairingCrypto signing keys).ReachableBy C t)
    (hops : ∀ op ∈ ops, ∀ t, C t op ∧ op.Enabled pairingCrypto t) :
    (settlements pairingCrypto signing keys).ReachableBy C (run t ops) :=
  h.foldl fun op hop t => ⟨(hops op hop t).1, (hops op hop t).2, rfl⟩

theorem buildsAnew_of_ne {op : SettleOp} (h : ∀ i utxos ids submittedAt, op ≠ .build i utxos ids submittedAt)
    (t : Settlements) : t.BuildsAnew pairingCrypto signing keys op :=
  fun i utxos ids submittedAt _ _ _ _ he => absurd he (h i utxos ids submittedAt)

theorem reachable_reread {C : Settlements → SettleOp → Prop} {b : TaskBoard}
    (hC : ∀ t op, (∀ i utxos ids submittedAt, op ≠ .build i utxos ids submittedAt) → C t op)
    (htasks : b.TasksKeyed) (hattempts : b.AttemptsKeyed) :
    (settlements pairingCrypto signing keys).ReachableBy C (reread ⟨b, ∅, []⟩) := by
  have hstart : (settlements pairingCrypto signing keys).ReachableBy C ⟨b, ∅, []⟩ :=
    .init ⟨htasks, hattempts, rfl, rfl⟩
  have hread : (settlements pairingCrypto signing keys).ReachableBy C (run ⟨b, ∅, []⟩ [.read 1 1]) :=
    .step (l := .read 1 1) hstart (hC _ _ nofun) ⟨Finmap.notMem_empty, rfl⟩
  have hrest : ∀ op ∈ ([.enter 1, .check 1] : List SettleOp), ∀ t, C t op ∧ op.Enabled pairingCrypto t := by
    simp only [List.forall_mem_cons, List.not_mem_nil]
    exact ⟨fun t => ⟨hC _ _ nofun, trivial⟩, fun t => ⟨hC _ _ nofun, trivial⟩, nofun⟩
  have hreread := reachable_run hread hrest
  exact hreread

/-- What the hub starts from is as it saved it. -/
theorem keyed_reloaded : reloaded.board.TasksKeyed ∧ reloaded.board.AttemptsKeyed := by
  refine ⟨regular_board.tasksKeyed, fun x pk a ha => ?_⟩
  have hkeyed : ∀ leg ∈ reloaded.board.payoutAttempts.keys,
      (reloaded.board.payoutAttempts.lookup leg).map PayoutAttempt.leg = some leg := by decide +kernel
  have hleg := hkeyed (x, pk) (Finmap.mem_keys.2 (Finmap.mem_of_lookup_eq_some ha))
  rw [ha, Option.map_some] at hleg
  exact Prod.mk.inj (Option.some.inj hleg)

end SettleSample

open SettleSample in
/-- After a crash between the saves of two attempts, one of the winners has an attempt and the other has
    none. A single call then builds a transaction for both, and puts it in the place of the one that
    the first has in hand, which was not found to have been lost. -/
theorem one_transaction_per_payout_fails :
    (payrolls pairingCrypto PayrollSample.signing).Reachable (PayrollSample.step .crash PayrollSample.inPart) ∧
    (settlements pairingCrypto PayrollSample.signing keys).Reachable (recorded reloaded 5) ∧
    (∃ a, reloaded.board.payoutAttempt 1 8 = some a ∧ a.transaction = some (paying 0)) ∧ paying 0 ≠ paying 5 ∧
    ∃ attempts replaced, (recorded reloaded 5).Hands (paying 5) attempts replaced ∧
      (1, 8) ∈ attempts.map PayoutAttempt.leg ∧ ∃ a ∈ replaced, a.leg = (1, 8) ∧
        a.transaction = some (paying 0) ∧ ¬(recorded reloaded 5).Lost a := by
  have hcrashed :=
    PayrollSample.reachable_step .crash (PayrollSample.reachable_inPart fun _ _ _ => trivial) trivial
    trivial
  have hreread :=
    reachable_reread (C := fun _ _ => True) (fun _ _ _ => trivial) keyed_reloaded.1 keyed_reloaded.2
  have hrecorded : (settlements pairingCrypto PayrollSample.signing keys).Reachable (recorded reloaded 5) :=
    reachable_run hreread (by simp [SettleOp.Enabled])
  have hout : (reloaded.board.payoutAttempt 1 8).map PayoutAttempt.transaction = some (some (paying 0)) := by
    decide +kernel
  have hhanding : handing (recorded reloaded 5) 1 =
      some ⟨paying 5, [(1, 8), (1, 9)], [((1, 8), some (paying 0))]⟩ := by decide +kernel
  obtain ⟨attempts, replaced, hands, hlegs, hcarried⟩ := hands_of_handing hhanding
  refine ⟨hcrashed, hrecorded, Option.map_eq_some_iff.1 hout, by decide, attempts, replaced, hands, ?_, ?_⟩
  · rw [hlegs]
    exact List.mem_cons_self
  · obtain ⟨a, ha, hcarries⟩ : ∃ a ∈ replaced, (a.leg, a.transaction) = ((1, 8), some (paying 0)) := by
      rw [← List.mem_map, hcarried]
      exact List.mem_cons_self
    obtain ⟨hleg, htx⟩ := Prod.mk.inj hcarries
    refine ⟨a, ha, hleg, htx, fun hlost => ?_⟩
    -- A lost attempt has no transaction, and this one has.
    cases hlost.1.symm.trans htx

open SettleSample in
/-- When no attempt is out, those on the board are of what is handed over. -/
theorem one_transaction_per_payout_sample : ∃ attempts, (recorded start 0).Hands (paying 0) attempts [] ∧
    ∀ leg ∈ attempts.map PayoutAttempt.leg, ∀ a, (recorded start 0).board.payoutAttempts.lookup leg = some a →
      a.transaction = some (paying 0) := by
  have hreread := reachable_reread (C := Settlements.BuildsAnew pairingCrypto PayrollSample.signing keys)
    (fun t op hop => buildsAnew_of_ne hop t) PayrollSample.regular_board.tasksKeyed
    PayrollSample.regular_board.attemptsKeyed
  have hnone : (reread start).board.payoutAttempts.keys = ∅ := by decide +kernel
  have hanew : (reread start).BuildsAnew pairingCrypto PayrollSample.signing keys
      (.build 1 PayrollSample.utxos (fun k => k + 0) 1) := by
    intro i utxos ids submittedAt call depositId recipients tx _ _ _ _ p _ a ha
    have hmem := Finmap.mem_keys.2 (Finmap.mem_of_lookup_eq_some ha)
    rw [hnone] at hmem
    exact absurd hmem (Finset.notMem_empty _)
  have hbuilt : (settlements pairingCrypto PayrollSample.signing keys).ReachableBy
      (Settlements.BuildsAnew pairingCrypto PayrollSample.signing keys)
      (run (reread start) [.build 1 PayrollSample.utxos (fun k => k + 0) 1]) :=
    .step (l := .build 1 PayrollSample.utxos (fun k => k + 0) 1) hreread hanew ⟨trivial, rfl⟩
  have hrest : ∀ op ∈ ([.makeAttempt 1, .makeAttempt 1, .record 1] : List SettleOp), ∀ t,
      t.BuildsAnew pairingCrypto PayrollSample.signing keys op ∧ op.Enabled pairingCrypto t := by
    simp only [List.forall_mem_cons, List.not_mem_nil]
    refine ⟨fun t => ⟨buildsAnew_of_ne ?_ t, trivial⟩, fun t => ⟨buildsAnew_of_ne ?_ t, trivial⟩,
      fun t => ⟨buildsAnew_of_ne ?_ t, trivial⟩, nofun⟩ <;> rintro i utxos ids submittedAt ⟨⟩
  have hrecorded : (settlements pairingCrypto PayrollSample.signing keys).ReachableBy
      (Settlements.BuildsAnew pairingCrypto PayrollSample.signing keys) (recorded start 0) := by
    have hrun := reachable_run hbuilt hrest
    exact hrun
  have hhanding : handing (recorded start 0) 1 = some ⟨paying 0, [(1, 8), (1, 9)], []⟩ := by decide +kernel
  obtain ⟨attempts, replaced, hands, -, hcarried⟩ := hands_of_handing hhanding
  rw [List.map_eq_nil_iff.1 hcarried] at hands
  exact ⟨attempts, hands,
    (one_transaction_per_payout pairingCrypto PayrollSample.signing keys (recorded start 0)
    hrecorded (paying 0) attempts [] hands).2⟩

end Itx
