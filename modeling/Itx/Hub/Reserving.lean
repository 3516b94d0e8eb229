import Itx.Hub.Building
import Itx.Hub.Journal
import Itx.Hub.Submitting

/-!
# What is reserved is spent once

The operator's wallet, the custody of the exchange and the deposits are paid from under a lock of
their own (`payout_lock`, `exchange_custody_payout_lock`, `EscrowSettlementGuard`). Whoever holds it
builds a transaction and records what it is for before the lock is released: a payment of the
journal, or the attempts at the payouts of a task. The calls of different sources, the sweep and
the rest of the hub go on in between, and the node may have forgotten what it was handed. A
transaction that was lost is handed to it again for the attempts that still carry it.

* `spends_of_buildPaymentFrom`, `Job.ready_of_draft`: what is built spends nothing that is reserved
  when the board is read;
* `Draft.Ready.other`: until it is recorded this stays so, as only the holder of the lock adds an
  obligation of the source;
* `obligations_apart`: no two obligations of a source spend an output in common, but for those
  that carry the same transaction.
-/

namespace Itx

open Call

/-- What the hub pays from. -/
inductive PaymentSource
  | operator
  | custody
  | escrow (depositId : Uuid)
  deriving DecidableEq

/-- The keys of what the hub pays from: each was drawn or derived on its own. -/
structure SourceKeys where
  privateKey : PaymentSource → PrivateKey
  publicKey : PaymentSource → PublicKey
  injective : Function.Injective publicKey

/-! ## Obligations -/

/-- What the hub has yet to see through, as far as what it spends goes. -/
structure Obligation where
  source : PublicKey
  transaction : Option Transaction
  spentInputs : List Hash

def Payment.obligation (p : Payment) : Obligation := ⟨p.source, p.transaction, p.spentInputs⟩

def PayoutAttempt.obligation (a : PayoutAttempt) : Obligation := ⟨a.source, a.transaction, a.spentInputs⟩

/-- What an obligation is kept under: the id of a payment, or the task and the recipient of a
    payout. -/
abbrev ObligationKey := Uuid ⊕ (Uuid × PublicKey)

namespace TaskBoard

/-- A payment that is not confirmed, or a payout attempt. -/
def Owes (b : TaskBoard) : ObligationKey → Obligation → Prop
  | .inl id, o => ∃ p, b.payments.lookup id = some p ∧ p.status ≠ .confirmed ∧ p.obligation = o
  | .inr leg, o => ∃ a, b.payoutAttempts.lookup leg = some a ∧ a.obligation = o

/-- Obligations from one source that carry different transactions spend nothing in common. -/
def Apart (b : TaskBoard) : Prop :=
  ∀ k k' o o', b.Owes k o → b.Owes k' o' → o.source = o'.source → o.transaction ≠ o'.transaction →
    o.spentInputs.Disjoint o'.spentInputs

/-- The payments stand under their ids. -/
def PaymentsKeyed (b : TaskBoard) : Prop := ∀ id p, b.payments.lookup id = some p → p.id = id

end TaskBoard

/-! ## Calls that pay -/

/-- What is to be paid. -/
inductive Job
  /-- `faucet_claim`, `withdraw` or `disburse_escrow`. -/
  | payment (purpose : Purpose) (recipient : PublicKey) (amount : ℕ)
  /-- `submit_task_payout`. -/
  | payout (taskId : Uuid) (recipients : List (PublicKey × ℕ))

/-- What is built for it, and is to be recorded. -/
inductive Draft
  | payment (payment : Payment) (new : payment.status = .pending ∧ payment.submissions = 1)
  | payout (attempts : List PayoutAttempt)

/-- How far the holder of a lock has come. -/
inductive Hold
  | acquired (job : Job)
  | built (draft : Draft)
  | recorded

/-- What is built for a job, from what the node answers: none if the building fails. Only an
    escrow that holds nothing is settled without a transaction. -/
def Job.draft (c : Crypto) (g : Signing) (keys : SourceKeys) (board : TaskBoard) (source : PaymentSource)
    (utxos : UtxoReply) (ids : ℕ → Uuid) (id : Uuid) (now : DateTime) (changePubkey : PublicKey) :
    Job → Option Draft
  | .payment purpose recipient amount =>
    let payment := Payment.new c id now purpose (keys.publicKey source) recipient amount
    if amount = 0 ∧ purpose.depositId?.isSome then some (.payment (payment none) ⟨rfl, rfl⟩)
    else
      match buildPaymentFrom c g board ids utxos (keys.privateKey source) (keys.publicKey source)
        [(recipient, amount)] changePubkey [] with
      | .ok tx => some (.payment (payment (some tx)) ⟨rfl, rfl⟩)
      | _ => none
  | .payout taskId recipients =>
    match buildPaymentFrom c g board ids utxos (keys.privateKey source) (keys.publicKey source)
      recipients changePubkey (recipients.map fun p => (taskId, p.1)) with
    | .ok tx => (board.attemptsOf c taskId (keys.publicKey source) now tx recipients).map .payout
    | _ => none

/-- The hub, the copies of payments held by its calls, and the locks that are held. -/
structure Treasury where
  hub : Hub
  copies : List Payment
  holds : Finmap fun _ : PaymentSource => Hold

/-- The steps of the calls that pay, and of those that see payments through. -/
inductive TreasuryOp
  /-- A call takes the lock of a source. -/
  | acquire (source : PaymentSource) (job : Job)
  /-- The holder has the answer of the node, reads what is reserved, and builds. -/
  | build (source : PaymentSource) (utxos : UtxoReply) (ids : ℕ → Uuid) (id : Uuid) (now : DateTime)
    (changePubkey : PublicKey)
  /-- The holder records its payment. -/
  | prepare (source : PaymentSource) (chainHeight : ℕ) (commits : Bool)
  /-- The holder saves its attempts, and records them if none of the saves failed. -/
  | submit (source : PaymentSource) (saved : ℕ)
  /-- The call has sent its transaction, or fails, or is dropped. -/
  | release (source : PaymentSource)
  /-- `send`, on a copy. -/
  | send (payment : Payment) (commits : Bool)
  /-- `resolve_all` copies the unconfirmed payments. -/
  | read
  /-- `resolve`, on a copy, with what the node answers. -/
  | resolve (payment : Payment) (now : DateTime) (replies : NodeReplies) (commits : Bool)
  /-- The attempts at a transaction are recorded again, counted up. They were read under a lock of
      their own and are still out: an attempt that is out is taken off or replaced by the sweep alone,
      which goes about them one after the other and is here busy with these. -/
  | resend (legs : List PayoutAttempt)
  | recordConfirmedPayout (now : DateTime) (commits : Bool) (taskId : Uuid) (recipient : PublicKey)
    (amount : ℕ)
  | abandonPayout (commits : Bool) (attempt : PayoutAttempt)
  /-- The rest of the hub goes on, which touches neither payments nor attempts. -/
  | other (hub : Hub)

variable (c : Crypto) (g : Signing) (keys : SourceKeys)

namespace TreasuryOp

/-- The state after a step. -/
def after (t : Treasury) : TreasuryOp → Treasury
  | acquire source job => { t with holds := t.holds.insert source (.acquired job) }
  | build source utxos ids id now changePubkey =>
    match t.holds.lookup source with
    | some (.acquired job) =>
      match job.draft c g keys t.hub.board source utxos ids id now changePubkey with
      | some draft => { t with holds := t.holds.insert source (.built draft) }
      | none => { t with holds := t.holds.erase source }
    | _ => t
  | prepare source chainHeight commits =>
    match t.holds.lookup source with
    | some (.built (.payment payment _)) =>
      match Itx.prepare chainHeight commits payment t.hub with
      | (hub, .ok payment) => ⟨hub, payment :: t.copies, t.holds.insert source .recorded⟩
      | (hub, _) => ⟨hub, t.copies, t.holds.erase source⟩
    | _ => t
  | submit source saved =>
    match t.holds.lookup source with
    | some (.built (.payout attempts)) =>
      let store := t.hub.store.savePayoutAttempts (attempts.take saved)
      if saved < attempts.length then
        { t with hub := { t.hub with store }, holds := t.holds.erase source }
      else
        { t with
          hub := ⟨t.hub.board.recordPayoutAttempts attempts, store⟩
          holds := t.holds.insert source .recorded }
    | _ => t
  | release source => { t with holds := t.holds.erase source }
  | send payment commits => { t with hub := (Itx.send commits payment t.hub).1 }
  | read =>
    { t with copies := t.copies ++ t.hub.board.payments.values.filter fun p => p.status ≠ .confirmed }
  | resolve payment now replies commits =>
    { t with hub := (Itx.resolve c now replies commits payment t.hub).1 }
  | resend legs =>
    { t with hub := ⟨t.hub.board.recordPayoutAttempts legs, t.hub.store.savePayoutAttempts legs⟩ }
  | recordConfirmedPayout now commits taskId recipient amount =>
    { t with hub := (Itx.recordConfirmedPayout now commits taskId recipient amount t.hub).1 }
  | abandonPayout commits attempt => { t with hub := (Itx.abandonPayout commits attempt t.hub).1 }
  | other hub => { t with hub }

/-- A lock is free when it is taken, a payment is recorded under a fresh id, a call is given a copy
    it holds, and what is resent is what the attempts on the board carry. -/
def Enabled (t : Treasury) : TreasuryOp → Prop
  | acquire source _ => source ∉ t.holds
  | prepare source _ _ => ∀ p hnew, t.holds.lookup source = some (.built (.payment p hnew)) →
    p.id ∉ t.hub.board.payments
  | send payment _ => payment ∈ t.copies
  | resolve payment .. => payment ∈ t.copies
  | resend legs => ∀ leg ∈ legs, t.hub.board.Owes (.inr leg.leg) leg.obligation
  | other hub => hub.board.payments = t.hub.board.payments ∧
    hub.board.payoutAttempts = t.hub.board.payoutAttempts
  | _ => True

end TreasuryOp

/-- The runs of a hub that nobody pays from yet, and whose obligations are apart. -/
def treasuries : System Treasury TreasuryOp where
  init := { t | t.hub.board.Apart ∧ t.hub.board.PaymentsKeyed ∧ t.hub.board.AttemptsKeyed ∧
    (∀ id p, t.hub.board.payments.lookup id = some p → p.submissions ≤ maxPayoutSubmissions) ∧
    t.copies = [] ∧ t.holds = ∅ }
  step t op t' := op.Enabled t ∧ t' = op.after c g keys t

variable {c g keys} {b b' : TaskBoard} {t t' : Treasury} {payment : Payment} {source : PaymentSource}
  {draft draft' : Draft}

/-! ## What a step does to the obligations -/

namespace TaskBoard

/-- One payment is written. -/
theorem owes_of_insert (payment : Payment) (hpayments : b'.payments = b.payments.insert payment.id payment)
    (hattempts : b'.payoutAttempts = b.payoutAttempts) {k : ObligationKey} {o : Obligation}
    (h : b'.Owes k o) :
    (k = .inl payment.id ∧ payment.status ≠ .confirmed ∧ o = payment.obligation) ∨
      (k ≠ .inl payment.id ∧ b.Owes k o) := by
  cases k with
  | inl id =>
    obtain ⟨p, hp, hstatus, rfl⟩ := h
    rw [hpayments, Finmap.lookup_insert_eq] at hp
    split_ifs at hp with hid
    · obtain rfl := Option.some.inj hp
      exact .inl ⟨congrArg _ hid, hstatus, rfl⟩
    · exact .inr ⟨fun he => hid (Sum.inl.inj he), p, hp, hstatus, rfl⟩
  | inr leg =>
    obtain ⟨a, ha, rfl⟩ := h
    rw [hattempts] at ha
    exact .inr ⟨Sum.inr_ne_inl, a, ha, rfl⟩

/-- Attempts are recorded. -/
theorem owes_of_recordPayoutAttempts {attempts : List PayoutAttempt} {k : ObligationKey} {o : Obligation}
    (h : (b.recordPayoutAttempts attempts).Owes k o) :
    (∃ a ∈ attempts, k = .inr a.leg ∧ o = a.obligation) ∨
      ((∀ a ∈ attempts, k ≠ .inr a.leg) ∧ b.Owes k o) := by
  cases k with
  | inl id =>
    obtain ⟨tasks, payoutAttempts, hframe⟩ := recordPayoutAttempts_frame attempts b
    rw [hframe] at h
    exact .inr ⟨fun _ _ => Sum.inl_ne_inr, h⟩
  | inr leg =>
    obtain ⟨a, ha, rfl⟩ := h
    rw [recordPayoutAttempts_attempts] at ha
    by_cases hleg : leg ∈ attempts.map PayoutAttempt.leg
    · obtain ⟨a', ha', rfl, hlookup⟩ := lookup_savePayoutAttempts_of_mem (s := b) hleg
      obtain rfl := Option.some.inj (ha.symm.trans hlookup)
      exact .inl ⟨a, ha', rfl, rfl⟩
    · rw [lookup_savePayoutAttempts_of_notMem hleg] at ha
      refine .inr ⟨fun a' ha' he => hleg ?_, a, ha, rfl⟩
      exact Sum.inr.inj he ▸ List.mem_map_of_mem ha'

theorem Apart.of_owes (h : b.Apart) (hle : ∀ k o, b'.Owes k o → b.Owes k o) : b'.Apart :=
  fun k k' o o' ho ho' => h k k' o o' (hle k o ho) (hle k' o' ho')

theorem attemptsKeyed_savePayoutAttempts (attempts : List PayoutAttempt) (h : b.AttemptsKeyed) :
    (b.savePayoutAttempts attempts).AttemptsKeyed := by
  induction attempts generalizing b with
  | nil => exact h
  | cons a attempts ih => exact ih (restorePayoutAttempt_keyed h)

theorem attemptsKeyed_recordPayoutAttempts (attempts : List PayoutAttempt) (h : b.AttemptsKeyed) :
    (b.recordPayoutAttempts attempts).AttemptsKeyed := by
  rw [AttemptsKeyed, recordPayoutAttempts_attempts]
  exact attemptsKeyed_savePayoutAttempts attempts h

/-- No payment is touched, and no attempt is added. -/
structure Sheds (b b' : TaskBoard) : Prop where
  payments : b'.payments = b.payments
  attempts : ∀ leg a, b'.payoutAttempts.lookup leg = some a → b.payoutAttempts.lookup leg = some a

theorem Sheds.attemptsKeyed (h : Sheds b b') (hkeyed : b.AttemptsKeyed) : b'.AttemptsKeyed :=
  fun x pk a ha => hkeyed x pk a (h.attempts _ a ha)

/-- A step that takes on no obligation. The payments and attempts stand where they stood, and the
    payments go on. -/
structure Sees (b b' : TaskBoard) : Prop where
  owes : ∀ k o, b'.Owes k o → b.Owes k o
  follows : Follows b b'
  paymentsKeyed : b.PaymentsKeyed → b'.PaymentsKeyed
  attemptsKeyed : b.AttemptsKeyed → b'.AttemptsKeyed
  submissions : (∀ id p, b.payments.lookup id = some p → p.submissions ≤ maxPayoutSubmissions) →
    ∀ id p, b'.payments.lookup id = some p → p.submissions ≤ maxPayoutSubmissions

namespace Sees

theorem refl (b : TaskBoard) : Sees b b := ⟨fun _ _ h => h, .refl b, id, id, id⟩

/-- A payment goes on. -/
theorem insert {current : Payment} (payment : Payment) (hcurrent : b.payments.lookup payment.id = some current)
    (hstatus : current.status ≠ .confirmed) (hsame : current.SameAs payment)
    (hsub : current.submissions ≤ maxPayoutSubmissions → payment.submissions ≤ maxPayoutSubmissions)
    (hpayments : b'.payments = b.payments.insert payment.id payment)
    (hattempts : b'.payoutAttempts = b.payoutAttempts) : Sees b b' where
  owes k o ho := by
    -- What it reserves is what it reserved before, whatever else of it has changed.
    rcases owes_of_insert payment hpayments hattempts ho with ⟨rfl, -, rfl⟩ | ⟨-, ho⟩
    · refine ⟨current, hcurrent, hstatus, ?_⟩
      obtain ⟨_, _, _, _, rfl⟩ := hsame
      rfl
    · exact ho
  follows := .write payment hpayments hcurrent hsame hstatus
  paymentsKeyed h id p hp := by
    rw [hpayments, Finmap.lookup_insert_eq] at hp
    split_ifs at hp with hid
    · rw [← Option.some.inj hp, hid]
    · exact h id p hp
  attemptsKeyed h := by rwa [AttemptsKeyed, hattempts]
  submissions h id p hp := by
    rw [hpayments, Finmap.lookup_insert_eq] at hp
    split_ifs at hp with hid
    · obtain rfl := Option.some.inj hp
      exact hsub (h _ _ hcurrent)
    · exact h id p hp

theorem of_sheds (h : Sheds b b') : Sees b b' where
  owes k o ho := by
    cases k with
    | inl id =>
      obtain ⟨p, hp, howed⟩ := ho
      exact ⟨p, h.payments ▸ hp, howed⟩
    | inr leg =>
      obtain ⟨a, ha, howed⟩ := ho
      exact ⟨a, h.attempts leg a ha, howed⟩
  follows id p hp := ⟨p, h.payments ▸ hp, .refl p, fun _ => rfl⟩
  paymentsKeyed hkeyed := by rwa [PaymentsKeyed, h.payments]
  attemptsKeyed := h.attemptsKeyed
  submissions hsub := by rwa [h.payments]

/-- What is resent is owed already. -/
theorem resend {legs : List PayoutAttempt} (hlegs : ∀ leg ∈ legs, b.Owes (.inr leg.leg) leg.obligation) :
    Sees b (b.recordPayoutAttempts legs) := by
  obtain ⟨tasks, payoutAttempts, hframe⟩ := recordPayoutAttempts_frame legs b
  have hpayments : (b.recordPayoutAttempts legs).payments = b.payments := by rw [hframe]
  refine ⟨fun k o ho => ?_, fun id p hp => ⟨p, hpayments ▸ hp, .refl p, fun _ => rfl⟩, fun h => ?_,
    attemptsKeyed_recordPayoutAttempts legs, fun h => ?_⟩
  · rcases owes_of_recordPayoutAttempts ho with ⟨a, ha, rfl, rfl⟩ | ⟨-, ho⟩
    · exact hlegs a ha
    · exact ho
  · rwa [PaymentsKeyed, hpayments]
  · rwa [hpayments]

end Sees

/-! ### Payouts that come to an end -/

/-- Neither the payments nor the attempts are touched. -/
def Keeps (b : TaskBoard) (s : TaskBoard) : Prop :=
  s.payments = b.payments ∧ s.payoutAttempts = b.payoutAttempts

theorem preserves_onTask {α : Type} {id : Uuid} {f : TaskBoard → Task → Outcome BoardError (α × Task)} :
    Preserves (Keeps b) (onTask id f) :=
  .bind .get fun _ => .bind (.lift _) fun _ => .bind (.lift _) fun _ =>
    .bind (.modify fun _ h => h) fun _ => .pure _

theorem preserves_addCompleted {pk : PublicKey} : Preserves (Keeps b) (addCompleted pk) :=
  .bind .get fun _ => .bind (.lift _) fun _ => .modify fun _ h => h

theorem preserves_addEarned {pk : PublicKey} {n : ℕ} : Preserves (Keeps b) (addEarned pk n) :=
  .bind .get fun _ => .bind (.lift _) fun _ => .modify fun _ h => h

theorem keeps_markRecipientPaid (b : TaskBoard) (taskId : Uuid) (recipient : PublicKey) (amount : ℕ)
    (now : DateTime) : Keeps b (markRecipientPaid taskId recipient amount now b).1 := by
  refine Preserves.apply (I := Keeps b) (.bind preserves_onTask fun paid => ?_) ⟨rfl, rfl⟩
  cases paid with
  | none => exact .pure _
  | some paid =>
    refine .bind ?_ fun _ => .bind preserves_addEarned fun _ => .pure _
    rw [Call.when]
    split_ifs
    · exact preserves_addCompleted
    · exact .pure _

/-- Attempts of the board put back where they were. -/
theorem lookup_restoreAll {l : List PayoutAttempt} (hkeyed : b.AttemptsKeyed)
    (hl : ∀ a ∈ l, ∃ leg, b.payoutAttempts.lookup leg = some a)
    (hb' : ∀ leg a, b'.payoutAttempts.lookup leg = some a → b.payoutAttempts.lookup leg = some a) :
    ∀ leg a, (b'.savePayoutAttempts l).payoutAttempts.lookup leg = some a →
      b.payoutAttempts.lookup leg = some a := by
  intro leg a ha
  by_cases hleg : leg ∈ l.map PayoutAttempt.leg
  · obtain ⟨a', ha', rfl, hlookup⟩ := lookup_savePayoutAttempts_of_mem (s := b') hleg
    obtain rfl := Option.some.inj (ha.symm.trans hlookup)
    obtain ⟨⟨x, pk⟩, hx⟩ := hl a ha'
    obtain ⟨rfl, rfl⟩ := hkeyed x pk a hx
    exact hx
  · rw [lookup_savePayoutAttempts_of_notMem hleg] at ha
    exact hb' leg a ha

end TaskBoard

open TaskBoard

/-- A payout is recorded as paid, or put back. -/
theorem sheds_recordConfirmedPayout {hub : Hub} {now : DateTime} {commits : Bool} {taskId : Uuid}
    {recipient : PublicKey} {amount : ℕ} (hkeyed : hub.board.AttemptsKeyed) :
    Sheds hub.board (recordConfirmedPayout now commits taskId recipient amount hub).1.board := by
  have hkeeps := keeps_markRecipientPaid hub.board taskId recipient amount now
  rw [recordConfirmedPayout]
  generalize markRecipientPaid taskId recipient amount now hub.board = r at hkeeps
  obtain ⟨board, paid | e | _⟩ := r
  · -- The attempt of this recipient is dropped, and the others are kept.
    have hclear : ∀ leg a, (board.clearPayoutAttempt taskId recipient).payoutAttempts.lookup leg = some a →
        hub.board.payoutAttempts.lookup leg = some a := by
      intro leg a ha
      rw [clearPayoutAttempt, Finmap.lookup_erase_eq] at ha
      split_ifs at ha
      rw [← hkeeps.2]
      exact ha
    have hpayments : (board.clearPayoutAttempt taskId recipient).payments = hub.board.payments := hkeeps.1
    dsimp only
    generalize board.clearPayoutAttempt taskId recipient = cleared at hclear hpayments
    split
    · exact ⟨hpayments, hclear⟩
    · split_ifs
      · exact ⟨hpayments, hclear⟩
      · -- The task, the reputation, the account and the attempt are put back.
        rw [rollbackPayout]
        cases hub.board.tasks.lookup taskId <;> cases ha : hub.board.payoutAttempt taskId recipient
        all_goals first
          | exact ⟨hpayments, hclear⟩
          | exact ⟨hpayments, lookup_restoreAll (l := [_]) hkeyed
              (List.forall_mem_singleton.2 ⟨_, ha⟩) hclear⟩
  · exact ⟨hkeeps.1, fun leg a ha => hkeeps.2 ▸ ha⟩
  · exact ⟨hkeeps.1, fun leg a ha => hkeeps.2 ▸ ha⟩

/-- A payout is given up, or put back. -/
theorem sheds_abandonPayout {hub : Hub} {commits : Bool} {attempt : PayoutAttempt}
    (hkeyed : hub.board.AttemptsKeyed) :
    Sheds hub.board (abandonPayout commits attempt hub).1.board := by
  have hend : Ends _ _ _ (markPayoutFailed attempt.taskId hub.board) := triple_markPayoutFailed _ rfl
  have hpayments : (markPayoutFailed attempt.taskId hub.board).1.payments = hub.board.payments := by
    -- Failing a payout changes tasks and attempts only.
    refine Preserves.apply (I := fun s : TaskBoard => s.payments = hub.board.payments) ?_ rfl
    refine .bind ?_ fun _ => .bind .get fun _ => .bind (.modify fun _ h => h) fun _ => .pure _
    exact .bind .get fun _ => .bind (.lift _) fun _ => .bind (.lift _) fun _ =>
      .bind (.modify fun _ h => h) fun _ => .pure _
  rw [abandonPayout]
  generalize markPayoutFailed attempt.taskId hub.board = r at hend hpayments
  obtain ⟨board, dropped | e | _⟩ := r
  · obtain ⟨hgiven, rfl⟩ : GivenUp attempt.taskId hub.board board ∧
      dropped = hub.board.payoutAttemptsForTask attempt.taskId := hend
    -- The attempts of the task are dropped.
    have hdrop : ∀ leg a, board.payoutAttempts.lookup leg = some a →
        hub.board.payoutAttempts.lookup leg = some a := by
      intro leg a ha
      rw [hgiven.attempts] at ha
      split_ifs at ha
      exact ha
    dsimp only
    split
    · exact ⟨hpayments, hdrop⟩
    · split_ifs
      · exact ⟨hpayments, hdrop⟩
      · -- The commit has failed: the task and its attempts are put back.
        obtain ⟨payoutAttempts, hframe⟩ := savePayoutAttempts_frame
          (hub.board.payoutAttemptsForTask attempt.taskId)
          ((hub.board.tasks.lookup attempt.taskId).elim board fun task => board.restoreTask task)
        refine ⟨?_, lookup_restoreAll hkeyed (fun a ha => ?_) fun leg a ha => hdrop leg a ?_⟩
        · change (savePayoutAttempts _ _).payments = _
          rw [hframe]
          cases hub.board.tasks.lookup attempt.taskId <;> exact hpayments
        · obtain ⟨pk, hpk⟩ := mem_payoutAttemptsForTask.1 ha
          exact ⟨_, hpk⟩
        · cases h : hub.board.tasks.lookup attempt.taskId <;> rw [h] at ha <;> exact ha
  · obtain rfl : board = hub.board := hend
    exact ⟨rfl, fun _ _ ha => ha⟩
  · exact hend.elim

theorem sees_confirms {hub hub' : Hub} (hkeyed : hub.board.PaymentsKeyed) (h : Confirms payment hub hub') :
    Sees hub.board hub'.board := by
  obtain ⟨current, hcurrent, hstatus, deposit, reputation, -, hw, -⟩ := h
  rw [← hkeyed _ current hcurrent] at hcurrent
  rw [hw]
  exact .insert { current with status := .confirmed } hcurrent hstatus ⟨_, _, _, _, rfl⟩ id rfl rfl

/-- A copy of a payment is resolved. -/
theorem sees_resolves {hub hub' : Hub} (hkeyed : hub.board.PaymentsKeyed)
    (hstatus : payment.status ≠ .confirmed)
    (hcopy : ∃ q, hub.board.payments.lookup payment.id = some q ∧ payment.SameAs q)
    (h : Resolves payment hub hub') : Sees hub.board hub'.board := by
  rcases h with rfl | h | ⟨next, hnext, current, hcurrent, -, hcs, -, hw, -⟩
  · exact .refl _
  · exact sees_confirms hkeyed h
  · obtain ⟨q, hq, hsame⟩ := hcopy
    rw [hw]
    exact .insert next hcurrent (hcs ▸ hstatus) (hnext.of_current hq hsame hcurrent)
      (fun _ => hnext.submissions) rfl rfl

/-! ## Drafts -/

namespace Draft

/-- The obligations a draft is recorded as. -/
def entries : Draft → List (ObligationKey × Obligation)
  | .payment p _ => [(.inl p.id, p.obligation)]
  | .payout attempts => attempts.map fun a => (.inr a.leg, a.obligation)

/-- A draft is of one transaction from a source, which spends nothing that is reserved but for what
    the draft replaces. -/
def Ready (draft : Draft) (source : PublicKey) (b : TaskBoard) : Prop :=
  ∃ o : Obligation, o.source = source ∧ (∀ e ∈ draft.entries, e.2 = o) ∧
    ∀ k o', b.Owes k o' → o'.source = source → k ∉ draft.entries.map Prod.fst →
      o'.spentInputs.Disjoint o.spentInputs

/-- A draft is recorded: what it does not replace was owed before. -/
def Records (draft : Draft) (b b' : TaskBoard) : Prop :=
  ∀ k o, b'.Owes k o → (k, o) ∈ draft.entries ∨ k ∉ draft.entries.map Prod.fst ∧ b.Owes k o

theorem Ready.of_owes {pk : PublicKey} (h : draft.Ready pk b) (hle : ∀ k o, b'.Owes k o → b.Owes k o) :
    draft.Ready pk b' := by
  obtain ⟨o, hsource, hentries, hfree⟩ := h
  exact ⟨o, hsource, hentries, fun k o' ho' => hfree k o' (hle k o' ho')⟩

/-- What the holder of a lock records is apart from what there was. -/
theorem Ready.apart {pk : PublicKey} (h : draft.Ready pk b) (hb : b.Apart) (hrec : draft.Records b b') :
    b'.Apart := by
  obtain ⟨o, hsource, hentries, hfree⟩ := h
  have hnew : ∀ {k o'}, (k, o') ∈ draft.entries → o' = o := fun h => hentries _ h
  intro k₁ k₂ o₁ o₂ h₁ h₂ hsame hne
  rcases hrec k₁ o₁ h₁ with h₁ | ⟨hk₁, h₁⟩ <;> rcases hrec k₂ o₂ h₂ with h₂ | ⟨hk₂, h₂⟩
  · exact absurd (by rw [hnew h₁, hnew h₂]) hne
  · rw [hnew h₁] at hsame ⊢
    exact (hfree k₂ o₂ h₂ (hsame.symm.trans hsource) hk₂).symm
  · rw [hnew h₂] at hsame ⊢
    exact hfree k₁ o₁ h₁ (hsame.trans hsource) hk₁
  · exact hb k₁ k₂ o₁ o₂ h₁ h₂ hsame hne

/-- What another source records is none of a draft's business. -/
theorem Ready.other {pk pk' : PublicKey} (h : draft.Ready pk b) (h' : draft'.Ready pk' b) (hne : pk' ≠ pk)
    (hrec : draft'.Records b b') : draft.Ready pk b' := by
  obtain ⟨o, hsource, hentries, hfree⟩ := h
  obtain ⟨o₁, hsource₁, hentries₁, -⟩ := h'
  refine ⟨o, hsource, hentries, fun k o' ho' hs hk => ?_⟩
  rcases hrec k o' ho' with hmem | ⟨-, ho'⟩
  · obtain rfl : o' = o₁ := hentries₁ _ hmem
    exact absurd (hsource₁.symm.trans hs) hne
  · exact hfree k o' ho' hs hk

end Draft

/-- What is built spends nothing that is reserved, but for what it replaces. -/
theorem Job.ready_of_draft {job : Job} {utxos : UtxoReply} {ids : ℕ → Uuid} {id : Uuid} {now : DateTime}
    {changePubkey : PublicKey} (hkeyed : b.AttemptsKeyed)
    (h : job.draft c g keys b source utxos ids id now changePubkey = some draft) :
    draft.Ready (keys.publicKey source) b := by
  -- Whatever is owed from the source and not rebuilt is reserved.
  have hfree : ∀ {recipients rebuilding tx}, buildPaymentFrom c g b ids utxos (keys.privateKey source)
      (keys.publicKey source) recipients changePubkey rebuilding = .ok tx → ∀ k o, b.Owes k o →
      o.source = keys.publicKey source → (∀ leg ∈ rebuilding, k ≠ .inr leg) →
        o.spentInputs.Disjoint tx.spends := by
    intro recipients rebuilding tx hbuild k o ho hsource hk x hx hspent
    refine (spends_of_buildPaymentFrom hbuild hspent).2 ?_
    -- A payment that is not confirmed reserves its inputs, and so does an attempt that is not
    -- rebuilt.
    cases k with
    | inl id =>
      obtain ⟨p, hp, hstatus, rfl⟩ := ho
      exact .inl ⟨p, Finmap.mem_values.2 ⟨id, hp⟩, hsource, hstatus, hx⟩
    | inr leg =>
      obtain ⟨a, ha, rfl⟩ := ho
      obtain ⟨hid, hrecipient⟩ := hkeyed leg.1 leg.2 a ha
      refine .inr ⟨leg, Finmap.mem_keys.2 (Finmap.mem_of_lookup_eq_some ha), a, ha, hsource, ?_, hx⟩
      rw [hid, hrecipient]
      exact fun hmem => hk leg hmem rfl
  cases job with
  | payment purpose recipient amount =>
    rw [Job.draft] at h
    split_ifs at h
    · obtain rfl := Option.some.inj h
      refine ⟨_, rfl, List.forall_mem_singleton.2 rfl, fun _ _ _ _ _ => ?_⟩
      exact List.disjoint_nil_right _
    · split at h
      · next tx hbuild =>
        obtain rfl := Option.some.inj h
        refine ⟨_, rfl, List.forall_mem_singleton.2 rfl, fun k o ho hsource _ => ?_⟩
        exact hfree hbuild k o ho hsource fun _ hmem => absurd hmem List.not_mem_nil
      · cases h
  | payout taskId recipients =>
    rw [Job.draft] at h
    split at h
    · next tx hbuild =>
      obtain ⟨attempts, hattempts, rfl⟩ := Option.map_eq_some_iff.1 h
      obtain ⟨hof, hlegs⟩ := attemptsOf_eq_some hattempts
      refine ⟨⟨keys.publicKey source, some tx, tx.spends⟩, rfl, fun e he => ?_, fun k o ho hsource hk => ?_⟩
      · obtain ⟨a, ha, rfl⟩ := List.mem_map.1 he
        have ha := hof a ha
        change (⟨a.source, a.transaction, a.spentInputs⟩ : Obligation) = _
        rw [ha.source, ha.transaction, ha.spentInputs]
      · -- What is replaced are the attempts the draft is of.
        refine hfree hbuild k o ho hsource fun leg hleg he => hk ?_
        rw [← hlegs] at hleg
        obtain ⟨a, ha, rfl⟩ := List.mem_map.1 hleg
        rw [he]
        exact List.mem_map_of_mem (List.mem_map_of_mem ha)
    · cases h

/-! ## Runs -/

/-- The obligations are apart, and whatever is built may be recorded. -/
structure Treasury.Sound (keys : SourceKeys) (t : Treasury) : Prop where
  apart : t.hub.board.Apart
  paymentsKeyed : t.hub.board.PaymentsKeyed
  attemptsKeyed : t.hub.board.AttemptsKeyed
  submissions : ∀ id p, t.hub.board.payments.lookup id = some p → p.submissions ≤ maxPayoutSubmissions
  copies : ∀ p ∈ t.copies, p.status ≠ .confirmed ∧ p.submissions ≤ maxPayoutSubmissions ∧
    ∃ q, t.hub.board.payments.lookup p.id = some q ∧ p.SameAs q
  ready : ∀ source draft, t.holds.lookup source = some (.built draft) →
    draft.Ready (keys.publicKey source) t.hub.board

namespace Treasury.Sound

/-- Copies of payments stay copies of them as the payments go on. -/
theorem copies_follow (h : t.Sound keys) (hfollows : Follows t.hub.board b') :
    ∀ p ∈ t.copies, p.status ≠ .confirmed ∧ p.submissions ≤ maxPayoutSubmissions ∧
      ∃ q, b'.payments.lookup p.id = some q ∧ p.SameAs q := by
  intro p hp
  obtain ⟨hstatus, hsub, hcopy⟩ := h.copies p hp
  exact ⟨hstatus, hsub, hfollows.copy hcopy⟩

/-- The hub goes on without taking on an obligation. -/
theorem sees {hub : Hub} (h : t.Sound keys) (hsees : Sees t.hub.board hub.board) :
    Sound keys { t with hub } where
  apart := h.apart.of_owes hsees.owes
  paymentsKeyed := hsees.paymentsKeyed h.paymentsKeyed
  attemptsKeyed := hsees.attemptsKeyed h.attemptsKeyed
  submissions := hsees.submissions h.submissions
  copies := h.copies_follow hsees.follows
  ready source draft hbuilt := (h.ready source draft hbuilt).of_owes hsees.owes

/-- The locks change hands, or more is built. -/
theorem holding {holds : Finmap fun _ : PaymentSource => Hold} (h : t.Sound keys)
    (hready : ∀ source draft, holds.lookup source = some (.built draft) →
      t.holds.lookup source = some (.built draft) ∨ draft.Ready (keys.publicKey source) t.hub.board) :
    Sound keys { t with holds } where
  __ := h
  ready source draft hbuilt := (hready source draft hbuilt).elim (h.ready source draft) id

theorem insert_hold {hold : Hold} (h : t.Sound keys)
    (hready : ∀ draft, hold = .built draft → draft.Ready (keys.publicKey source) t.hub.board) :
    Sound keys { t with holds := t.holds.insert source hold } := by
  refine h.holding fun source' draft hbuilt => ?_
  rw [Finmap.lookup_insert_eq] at hbuilt
  split_ifs at hbuilt with hsource
  · rw [hsource]
    exact .inr (hready draft (Option.some.inj hbuilt))
  · exact .inl hbuilt

theorem release (h : t.Sound keys) (source : PaymentSource) :
    Sound keys { t with holds := t.holds.erase source } := by
  refine h.holding fun source' draft hbuilt => ?_
  rw [Finmap.lookup_erase_eq] at hbuilt
  split_ifs at hbuilt
  exact .inl hbuilt

/-- What the holder of a lock has built is recorded. The drafts of the other sources stay ready. -/
theorem records {hub : Hub} {copies : List Payment} (h : t.Sound keys)
    (hbuilt : t.holds.lookup source = some (.built draft)) (hrec : draft.Records t.hub.board hub.board)
    (hpayments : hub.board.PaymentsKeyed) (hattempts : hub.board.AttemptsKeyed)
    (hsub : ∀ id p, hub.board.payments.lookup id = some p → p.submissions ≤ maxPayoutSubmissions)
    (hcopies : ∀ p ∈ copies, p.status ≠ .confirmed ∧ p.submissions ≤ maxPayoutSubmissions ∧
      ∃ q, hub.board.payments.lookup p.id = some q ∧ p.SameAs q) :
    Sound keys ⟨hub, copies, t.holds.insert source .recorded⟩ where
  apart := (h.ready source draft hbuilt).apart h.apart hrec
  paymentsKeyed := hpayments
  attemptsKeyed := hattempts
  submissions := hsub
  copies := hcopies
  ready source' draft' hbuilt' := by
    dsimp only at hbuilt'
    rw [Finmap.lookup_insert_eq] at hbuilt'
    split_ifs at hbuilt' with hsource
    · cases Option.some.inj hbuilt'
    · refine (h.ready source' draft' hbuilt').other (h.ready source draft hbuilt) ?_ hrec
      exact fun he => hsource (keys.injective he).symm

/-- A payment is recorded under its id. -/
theorem records_prepared {hub : Hub} {scannedThrough : ℕ}
    {hnew : payment.status = .pending ∧ payment.submissions = 1} (h : t.Sound keys)
    (hbuilt : t.holds.lookup source = some (.built (.payment payment hnew)))
    (hfresh : payment.id ∉ t.hub.board.payments)
    (hprepared : Prepared { payment with scannedThrough } t.hub hub) :
    Sound keys ⟨hub, { payment with scannedThrough } :: t.copies, t.holds.insert source .recorded⟩ := by
  obtain ⟨-, account, deposit, -, hw, -⟩ := hprepared
  have hstatus : payment.status ≠ .confirmed := by
    rw [hnew.1]
    decide
  have hsub : payment.submissions ≤ maxPayoutSubmissions := by
    rw [hnew.2]
    decide
  have hpayments : hub.board.payments =
      t.hub.board.payments.insert payment.id { payment with scannedThrough } := by
    rw [hw]
    rfl
  have hattempts : hub.board.payoutAttempts = t.hub.board.payoutAttempts := by
    rw [hw]
    rfl
  -- A new payment is added, and the others are as they were.
  have hmem : ∀ {P : Uuid → Payment → Prop}, P payment.id { payment with scannedThrough } →
      (∀ id p, t.hub.board.payments.lookup id = some p → P id p) →
      ∀ id p, hub.board.payments.lookup id = some p → P id p := by
    intro P hself hrest id p hp
    rw [hpayments, Finmap.lookup_insert_eq] at hp
    split_ifs at hp with hid
    · rw [hid, ← Option.some.inj hp]
      exact hself
    · exact hrest id p hp
  -- What is owed then is the new payment, or was owed before.
  refine h.records hbuilt (fun k o ho => ?_) (hmem rfl h.paymentsKeyed) ?_ (hmem hsub h.submissions) ?_
  · rcases owes_of_insert { payment with scannedThrough } hpayments hattempts ho with ⟨rfl, -, rfl⟩ | ⟨hk, ho⟩
    · exact .inl (List.mem_singleton_self _)
    · exact .inr ⟨fun he => hk (List.mem_singleton.1 he), ho⟩
  · rw [AttemptsKeyed, hattempts]
    exact h.attemptsKeyed
  · refine List.forall_mem_cons.2 ⟨⟨hstatus, hsub, _, ?_, .refl _⟩, h.copies_follow ?_⟩
    · rw [hpayments]
      exact Finmap.lookup_insert _
    · -- The id is fresh, so no payment is lost.
      exact .insert { payment with scannedThrough } hpayments fun p hp =>
        absurd (Finmap.mem_iff.2 ⟨p, hp⟩) hfresh

/-- The attempts at a payout are recorded. -/
theorem records_submitted {attempts : List PayoutAttempt} {store : TaskBoard} (h : t.Sound keys)
    (hbuilt : t.holds.lookup source = some (.built (.payout attempts))) :
    Sound keys ⟨⟨t.hub.board.recordPayoutAttempts attempts, store⟩, t.copies,
      t.holds.insert source .recorded⟩ := by
  obtain ⟨tasks, payoutAttempts, hframe⟩ := recordPayoutAttempts_frame attempts t.hub.board
  have hpayments : (t.hub.board.recordPayoutAttempts attempts).payments = t.hub.board.payments := by
    rw [hframe]
  refine h.records hbuilt (fun k o ho => ?_) ?_ (attemptsKeyed_recordPayoutAttempts attempts h.attemptsKeyed)
    ?_ (h.copies_follow fun id p hp => ⟨p, hpayments ▸ hp, .refl p, fun _ => rfl⟩)
  · rcases owes_of_recordPayoutAttempts ho with ⟨a, ha, rfl, rfl⟩ | ⟨hk, ho⟩
    · exact .inl (List.mem_map_of_mem ha)
    · refine .inr ⟨fun hmem => ?_, ho⟩
      obtain ⟨e, he, rfl⟩ := List.mem_map.1 hmem
      obtain ⟨a, ha, rfl⟩ := List.mem_map.1 he
      exact hk a ha rfl
  · rw [PaymentsKeyed]
    dsimp only
    rw [hpayments]
    exact h.paymentsKeyed
  · dsimp only
    rw [hpayments]
    exact h.submissions

/-- Every step keeps it. -/
theorem step {op : TreasuryOp} (h : t.Sound keys) (hop : op.Enabled t) : (op.after c g keys t).Sound keys := by
  cases op with
  | acquire source job => exact h.insert_hold fun _ he => by cases he
  | build source utxos ids id now changePubkey =>
    rw [TreasuryOp.after]
    split
    · split
      · next draft hdraft =>
        refine h.insert_hold fun _ he => ?_
        obtain rfl := Hold.built.inj he
        exact Job.ready_of_draft h.attemptsKeyed hdraft
      · exact h.release source
    · exact h
  | prepare source chainHeight commits =>
    rw [TreasuryOp.after]
    split
    · next payment hnew hbuilt =>
      have hend : Ends _ _ _ (prepare chainHeight commits payment t.hub) := triple_prepare chainHeight _ rfl
      generalize prepare chainHeight commits payment t.hub = r at hend
      obtain ⟨hub, p | e | _⟩ := r
      · -- The guard still holds the payment that was built, and it is now on the board.
        obtain ⟨rfl, hprepared⟩ := hend
        exact h.records_prepared hbuilt (hop payment hnew hbuilt) hprepared
      · obtain rfl : hub = t.hub := hend
        exact h.release source
      · exact hend.elim
    · exact h
  | submit source saved =>
    rw [TreasuryOp.after]
    split
    · next attempts hbuilt =>
      dsimp only
      split_ifs
      · -- Saved in part, the attempts never reach the board.
        have hsaved : Sound keys { t with
            hub := ⟨t.hub.board, t.hub.store.savePayoutAttempts (attempts.take saved)⟩ } :=
          h.sees (.refl _)
        exact hsaved.release source
      · exact h.records_submitted hbuilt
    · exact h
  | release source => exact h.release source
  | send payment commits =>
    have hend : Ends _ _ _ (send commits payment t.hub) := triple_send _ rfl
    rw [TreasuryOp.after]
    generalize send commits payment t.hub = r at hend
    obtain ⟨hub, _ | e | _⟩ := r
    · rcases hend with rfl | hend
      · exact h
      · -- A payment that is confirmed is no longer owed.
        exact h.sees (sees_confirms h.paymentsKeyed hend)
    · obtain rfl : hub = t.hub := hend
      exact h
    · exact hend.elim
  | read =>
    -- The copies are of the payments as they are on the board.
    refine { h with copies := fun p hp => ?_ }
    rcases List.mem_append.1 hp with hp | hp
    · exact h.copies p hp
    · rw [List.mem_filter, decide_eq_true_iff] at hp
      obtain ⟨id, hid⟩ := Finmap.mem_values.1 hp.1
      exact ⟨hp.2, h.submissions id p hid, p, by rw [h.paymentsKeyed id p hid]; exact hid, .refl p⟩
  | resolve payment now replies commits =>
    obtain ⟨hstatus, hsub, hcopy⟩ := h.copies payment hop
    have hend : Ends _ _ _ (resolve c now replies commits payment t.hub) := triple_resolve c hstatus hsub _ rfl
    rw [TreasuryOp.after]
    generalize resolve c now replies commits payment t.hub = r at hend
    obtain ⟨hub, _ | e | _⟩ := r
    · exact h.sees (sees_resolves h.paymentsKeyed hstatus hcopy hend)
    · obtain rfl : hub = t.hub := hend
      exact h
    · exact hend.elim
  | resend legs => exact h.sees (.resend hop)
  | recordConfirmedPayout now commits taskId recipient amount =>
    exact h.sees (.of_sheds (sheds_recordConfirmedPayout h.attemptsKeyed))
  | abandonPayout commits attempt => exact h.sees (.of_sheds (sheds_abandonPayout h.attemptsKeyed))
  | other hub => exact h.sees (.of_sheds ⟨hop.1, fun _ _ ha => hop.2 ▸ ha⟩)

end Treasury.Sound

theorem sound_of_treasuries (hr : (treasuries c g keys).Reachable t) : t.Sound keys := by
  refine hr.invariant (I := Treasury.Sound keys) ?_ ?_
  · rintro t ⟨hapart, hpayments, hattempts, hsub, hcopies, hholds⟩
    refine ⟨hapart, hpayments, hattempts, hsub, fun p hp => ?_, fun source draft hbuilt => ?_⟩
    · rw [hcopies] at hp
      cases hp
    · rw [hholds, Finmap.lookup_empty] at hbuilt
      cases hbuilt
  · rintro t op _ h - ⟨hop, rfl⟩
    exact h.step hop

/-- **What is reserved is spent once**, over every run, whatever the node answers: two obligations
    that are not seen through, from the same source and with different transactions, spend no
    output in common. -/
theorem obligations_apart (hr : (treasuries c g keys).Reachable t) :
    (∀ id p id' p', t.hub.board.payments.lookup id = some p → t.hub.board.payments.lookup id' = some p' →
      p.status ≠ .confirmed → p'.status ≠ .confirmed → p.source = p'.source →
      p.transaction ≠ p'.transaction → p.spentInputs.Disjoint p'.spentInputs) ∧
    (∀ id p leg a, t.hub.board.payments.lookup id = some p → t.hub.board.payoutAttempts.lookup leg = some a →
      p.status ≠ .confirmed → p.source = a.source → p.transaction ≠ a.transaction →
      p.spentInputs.Disjoint a.spentInputs) ∧
    ∀ leg a leg' a', t.hub.board.payoutAttempts.lookup leg = some a →
      t.hub.board.payoutAttempts.lookup leg' = some a' → a.source = a'.source →
      a.transaction ≠ a'.transaction → a.spentInputs.Disjoint a'.spentInputs := by
  have hapart := (sound_of_treasuries hr).apart
  refine ⟨fun id p id' p' hp hp' hstatus hstatus' => ?_, fun id p leg a hp ha hstatus => ?_,
    fun leg a leg' a' ha ha' => ?_⟩
  · exact hapart (.inl id) (.inl id') p.obligation p'.obligation ⟨p, hp, hstatus, rfl⟩ ⟨p', hp', hstatus', rfl⟩
  · exact hapart (.inl id) (.inr leg) p.obligation a.obligation ⟨p, hp, hstatus, rfl⟩ ⟨a, ha, rfl⟩
  · exact hapart (.inr leg) (.inr leg') a.obligation a'.obligation ⟨a, ha, rfl⟩ ⟨a', ha', rfl⟩

/-! A grant is recorded, and a payout is built from what the node says of the same wallet: it has
marked nothing. -/

namespace ReservingSample

/-- Keys that are numbers. -/
def numbered : SourceKeys where
  privateKey
    | .operator => 0
    | .custody => 1
    | .escrow depositId => depositId + 2
  publicKey
    | .operator => 0
    | .custody => 1
    | .escrow depositId => depositId + 2
  injective source source' h := by
    cases source <;> cases source' <;> simp_all

def signing : Signing where
  publicKey key := key
  signOutput _ key := key

def coin (value uniqueId : ℕ) : TransactionOutput := { value, uniqueId, pubkey := 0 }

def wallet : UtxoReply := [(false, coin 10000 0), (false, coin 20000 1)]

def board : TaskBoard := ⟨∅, ∅, ∅, ∅, ∅, ∅, ∅, ∅, ∅⟩

def start : Treasury := ⟨⟨board, board⟩, [], ∅⟩

def run (ops : List TreasuryOp) : Treasury → Treasury :=
  ops.foldl (TreasuryOp.after pairingCrypto signing numbered)

/-- A grant of `5000` is built. -/
def granting : Treasury :=
  run [.acquire .operator (.payment .faucet 8 5000), .build .operator wallet id 1 0 0] start

/-- It is recorded, and then a payout of `6000`. -/
def paid : Treasury :=
  run [.prepare .operator 0 true, .release .operator, .acquire .operator (.payout 3 [(9, 6000)]),
    .build .operator wallet id 2 0 0, .submit .operator 1] granting

theorem reachable_after (op : TreasuryOp) {t : Treasury}
    (h : (treasuries pairingCrypto signing numbered).Reachable t) (hop : op.Enabled t) :
    (treasuries pairingCrypto signing numbered).Reachable (op.after pairingCrypto signing numbered t) :=
  .step h trivial ⟨hop, rfl⟩

theorem reachable_start : (treasuries pairingCrypto signing numbered).Reachable start := by
  have hnone : ∀ k o, ¬board.Owes k o := by
    rintro (id | leg) o ⟨_, hlookup, -⟩ <;> cases hlookup
  refine .init ⟨fun k _ o _ ho => absurd ho (hnone k o), ?_, ?_, ?_, rfl, rfl⟩
  · rintro id p ⟨⟩
  · rintro x pk a ⟨⟩
  · rintro id p ⟨⟩

theorem reachable_paid : (treasuries pairingCrypto signing numbered).Reachable paid := by
  have hacquired := reachable_after (.acquire .operator (.payment .faucet 8 5000)) reachable_start
    (show PaymentSource.operator ∉ start.holds by decide)
  have hgranting : (treasuries pairingCrypto signing numbered).Reachable granting :=
    reachable_after (.build .operator wallet id 1 0 0) hacquired trivial
  have hempty : ∀ id, id ∉ granting.hub.board.payments := by
    have hkeys : granting.hub.board.payments.keys = ∅ := by decide +kernel
    intro id hid
    rw [← Finmap.mem_keys, hkeys] at hid
    exact Finset.notMem_empty id hid
  have hprepared := reachable_after (.prepare .operator 0 true) hgranting fun p _ _ => hempty p.id
  have hreleased := reachable_after (.release .operator) hprepared trivial
  have hagain := reachable_after (.acquire .operator (.payout 3 [(9, 6000)])) hreleased
    (show PaymentSource.operator ∉ Finmap.erase _ _ from Finmap.notMem_erase_self)
  exact reachable_after (.submit .operator 1)
    (reachable_after (.build .operator wallet id 2 0 0) hagain trivial)
    trivial

end ReservingSample

open ReservingSample in
/-- The grant spends the smaller output, and the payout the other. -/
theorem obligations_apart_sample : ∃ p a, paid.hub.board.payments.lookup 1 = some p ∧
    paid.hub.board.payoutAttempts.lookup (3, 9) = some a ∧ p.status = .pending ∧
    p.spentInputs = [pairingCrypto.hashOutput (coin 10000 0)] ∧
    a.spentInputs = [pairingCrypto.hashOutput (coin 20000 1)] ∧ p.spentInputs.Disjoint a.spentInputs := by
  obtain ⟨p, hp, hkept⟩ : ∃ p, paid.hub.board.payments.lookup 1 = some p ∧
      (p.status, p.source, p.transaction.map Transaction.spends, p.spentInputs) =
        (.pending, 0, some [pairingCrypto.hashOutput (coin 10000 0)],
          [pairingCrypto.hashOutput (coin 10000 0)]) :=
    Option.map_eq_some_iff.1 (by decide +kernel)
  obtain ⟨a, ha, hkept'⟩ : ∃ a, paid.hub.board.payoutAttempts.lookup (3, 9) = some a ∧
      (a.source, a.transaction.map Transaction.spends, a.spentInputs) =
        (0, some [pairingCrypto.hashOutput (coin 20000 1)], [pairingCrypto.hashOutput (coin 20000 1)]) :=
    Option.map_eq_some_iff.1 (by decide +kernel)
  simp only [Prod.mk.injEq] at hkept hkept'
  obtain ⟨hstatus, hsource, htx, hspent⟩ := hkept
  obtain ⟨hsource', htx', hspent'⟩ := hkept'
  refine ⟨p, a, hp, ha, hstatus, hspent, hspent', ?_⟩
  refine (obligations_apart reachable_paid).2.1 1 p (3, 9) a hp ha ?_
    (hsource.trans hsource'.symm) fun heq => ?_
  · rw [hstatus]
    decide
  · rw [heq, htx'] at htx
    exact absurd htx (by decide +kernel)

end Itx
