import Itx.Lib.Call
import Itx.Hub.Types

/-!
# The journal of payments

Faucet grants, withdrawals and escrow disbursements (`hub/src/payments.rs`). A
payment and what it reserves are committed to the store in one transaction
before anything is sent (`prepare`); its outcome is read off the node later
(`resolve`), and what follows from it is committed in one transaction again
(`confirm`), under the write lock of the board.

A commit either takes effect as a whole or fails and changes nothing; whether it
succeeds is a parameter of each call. The node is asked without the lock: what it
answers is a parameter, and the payment a call is given is a copy made earlier.
-/

namespace Itx

/-- `MAX_PAYOUT_SUBMISSIONS`. -/
def maxPayoutSubmissions : ℕ := 4

/-- `HUB_TRANSACTION_FEE`. -/
def hubTransactionFee : ℕ := 1000

def evidenceScanLookback : ℕ := 4
def payoutResolutionGraceSeconds : ℤ := 30

/-- The errors of `payments.rs`. -/
inductive PaymentError
  | outputMismatch
  | notAnEmptyEscrow
  | faucetReserved
  | insufficientBalance
  | escrowHasPayment
  | escrowMissing
  | escrowChanged
  | escrowDisbursed
  | earnedOverflow
  | store
  | node
  deriving DecidableEq, Repr

/-- The board in memory, and the tables of the store. -/
structure Hub where
  board : TaskBoard
  store : TaskBoard

/-- A call on the hub. -/
abbrev HubCall := Call Hub PaymentError

variable (c : Crypto)

/-! ## Resolution -/

/-- What the node answers when it is asked for the outputs of a key. -/
abbrev UtxoReply := List (Bool × TransactionOutput)

/-- `resolve_against`: the recipient holds the output, or else every input is
    still at the source, marked or not, or else one is gone. -/
def resolveAgainst (outputHash : Hash) (spentInputs : List Hash)
    (recipientUtxos sourceUtxos : UtxoReply) : PayoutOutcome :=
  let find wanted := sourceUtxos.find? fun p => c.hashOutput p.2 = wanted
  if recipientUtxos.any fun p => c.hashOutput p.2 = outputHash then .confirmed
  else if spentInputs = [] then .ambiguous
  else if spentInputs.any fun wanted => (find wanted).isNone then .ambiguous
  else if spentInputs.any fun wanted => (find wanted).any Prod.fst then .heldInMempool
  else .neverLanded

/-- `Payment::new`, with the id it draws. -/
def Payment.new (id : Uuid) (now : DateTime) (purpose : Purpose) (source recipient : PublicKey)
    (amount : ℕ) (transaction : Option Transaction) : Payment where
  id
  purpose
  source
  recipient
  amount
  fee := if transaction.isSome then hubTransactionFee else 0
  transaction
  outputHash := transaction.bind fun tx => tx.outputs.head?.map c.hashOutput
  spentInputs := (transaction.map Transaction.spends).getD []
  createdAt := now
  submittedAt := now
  submissions := 1
  status := .pending
  scannedThrough := 0

/-! ## Committing -/

/-- `HubStore::save_payment_effects`: the rows of one transaction. -/
def savePaymentEffects (payment : Payment) (account : Option (PublicKey × ExchangeAccount))
    (deposit : Option PendingDeposit) (reputation : Option (PublicKey × Reputation))
    (faucet : Bool) (store : TaskBoard) : TaskBoard where
  payments := store.payments.insert payment.id payment
  tasks := store.tasks
  reputation := reputation.elim store.reputation fun r => store.reputation.insert r.1 r.2
  faucetGrants :=
    if faucet then store.faucetGrants.insert payment.recipient (payment.createdAt / 10 ^ 9)
    else store.faucetGrants
  pendingDeposits := deposit.elim store.pendingDeposits fun d => store.pendingDeposits.insert d.id d
  exchangeAccounts := account.elim store.exchangeAccounts fun a =>
    store.exchangeAccounts.insert a.1 a.2
  orders := store.orders
  trades := store.trades
  payoutAttempts := store.payoutAttempts

/-- A transaction of the store, which commits or fails. -/
def commit (commits : Bool) (rows : TaskBoard → TaskBoard) : HubCall Unit :=
  if commits then Call.modify fun s => { s with store := rows s.store }
  else Call.lift (.err .store)

/-- Publishing on the board. -/
def publish (f : TaskBoard → TaskBoard) : HubCall Unit :=
  Call.modify fun s => { s with board := f s.board }

/-! ## Preparing -/

/-- The transaction of a payment pays its recipient first; only an empty escrow
    settles without one. -/
def checkTransaction (payment : Payment) : Outcome PaymentError Unit :=
  match payment.transaction with
  | some tx => Outcome.ensure
      (∃ o ∈ tx.outputs.head?, o.pubkey = payment.recipient ∧ o.value = payment.amount) .outputMismatch
  | none => Outcome.ensure (payment.amount = 0 ∧ payment.purpose.depositId?.isSome)
      .notAnEmptyEscrow

/-- What a payment reserves: the debited account of a withdrawal, the deposit an
    escrow disburses. -/
def reserve (payment : Payment) (board : TaskBoard) :
    Outcome PaymentError (Option ExchangeAccount × Option PendingDeposit) :=
  match payment.purpose with
  | .faucet => do
    Outcome.ensure (payment.recipient ∉ board.faucetGrants) .faucetReserved
    pure (none, none)
  | .withdrawal debited => do
    let account := board.exchangeAccount payment.recipient
    Outcome.ensure (debited ≤ account.baseBalance - account.lockedBase) .insufficientBalance
    let baseBalance ← .expect (checkedSub account.baseBalance debited)
    pure (some { account with baseBalance }, none)
  | .escrow depositId _ previousStatus => do
    Outcome.ensure (∀ p ∈ board.payments.values, p.purpose.depositId? ≠ some depositId)
      .escrowHasPayment
    let deposit ← .okOr .escrowMissing (board.pendingDeposits.lookup depositId)
    Outcome.ensure (deposit.status = previousStatus) .escrowChanged
    Outcome.ensure (deposit.status ≠ .refunded ∧ deposit.status ≠ .disbursing) .escrowDisbursed
    pure (none, some { deposit with status := .disbursing })

/-- `prepare`. -/
def prepare (chainHeight : ℕ) (commits : Bool) (payment : Payment) : HubCall Payment := do
  let payment := { payment with scannedThrough := chainHeight - evidenceScanLookback }
  Call.lift (checkTransaction payment)
  let s ← Call.get
  let (account, deposit) ← Call.lift (reserve payment s.board)
  let faucet : Bool := payment.purpose = .faucet
  commit commits (savePaymentEffects payment (account.map (payment.recipient, ·)) deposit none faucet)
  publish fun board => account.elim board fun a => board.restoreExchangeAccount payment.recipient a
  publish fun board => deposit.elim board fun d => board.restorePendingDeposit d
  if faucet then
    publish (TaskBoard.restoreFaucetGrant payment.recipient (payment.createdAt / 10 ^ 9))
  publish (TaskBoard.restorePayment payment)
  pure payment

/-! ## Confirming -/

/-- What confirming a payment changes: the deposit an escrow disbursed, and the
    earnings of the recipient of a forfeited bond. -/
def confirmEffects (payment : Payment) (board : TaskBoard) :
    Outcome PaymentError (Option PendingDeposit × Option Reputation) :=
  match payment.purpose with
  | .escrow depositId forfeitedBond _ => do
    let deposit ← .okOr .escrowMissing (board.pendingDeposits.lookup depositId)
    let refunded := { deposit with status := .refunded }
    if forfeitedBond then
      let reputation := board.reputationOf payment.recipient
      let totalEarned ← .okOr .earnedOverflow (checkedAdd reputation.totalEarned payment.amount)
      pure (some refunded, some { reputation with totalEarned })
    else pure (some refunded, none)
  | _ => pure (none, none)

/-- `confirm`. -/
def confirm (commits : Bool) (payment : Payment) : HubCall Unit := do
  let s ← Call.get
  match s.board.payments.lookup payment.id with
  | none => pure ()
  | some current =>
    if current.status = .confirmed then pure ()
    else
      let done := { current with status := .confirmed }
      let (deposit, reputation) ← Call.lift (confirmEffects done s.board)
      commit commits
        (savePaymentEffects done none deposit (reputation.map (done.recipient, ·)) false)
      publish fun board => deposit.elim board fun d => board.restorePendingDeposit d
      publish fun board => reputation.elim board fun r => board.restoreReputation done.recipient r
      publish (TaskBoard.restorePayment done)

/-- `send`: without a transaction there is nothing to wait for. -/
def send (commits : Bool) (payment : Payment) : HubCall Unit :=
  match payment.transaction with
  | some _ => pure ()
  | none => Call.ignore (confirm commits payment)

/-! ## Resolving -/

/-- What the node answers during a resolution: the outputs of a key, and the
    blocks from a height on, the two times they are asked for. -/
structure NodeReplies where
  utxos : PublicKey → Option UtxoReply
  blocks : ℕ → Option (List Block)
  blocks' : ℕ → Option (List Block)

inductive Evidence
  | mined
  | absentFromChain
  | inconclusive
  deriving DecidableEq, Repr

/-- One pass of `scan_for_evidence` over a reply: what is settled by it, if
    anything is. -/
def scanPass (wanted : Hash) (reply : ℕ → Option (List Block)) (payment : Payment) :
    Option Evidence × Payment :=
  match reply payment.scannedThrough with
  | none => (some .inconclusive, payment)
  | some blocks =>
    if blocks = [] then (some .absentFromChain, payment)
    else
      let found := blocks.any fun block => block.transactions.any fun tx =>
        tx.outputs.any fun o => c.hashOutput o = wanted
      let scanned := { payment with
        scannedThrough := min (payment.scannedThrough + blocks.length) (u64Bound - 1) }
      (if found then some .mined else none, scanned)

/-- `scan_for_evidence`. -/
def scanForEvidence (replies : NodeReplies) (payment : Payment) : Evidence × Payment :=
  match payment.outputHash with
  | none => (.inconclusive, payment)
  | some wanted =>
    match scanPass c wanted replies.blocks payment with
    | (some evidence, payment) => (evidence, payment)
    | (none, payment) =>
      match scanPass c wanted replies.blocks' payment with
      | (some evidence, payment) => (evidence, payment)
      | (none, payment) => (.inconclusive, payment)

/-- Committing `next` over the copy `previous`, unless the payment has moved since. -/
def saveOver (commits : Bool) (previous next : Payment) : HubCall Bool := do
  let s ← Call.get
  match s.board.payments.lookup next.id with
  | none => pure false
  | some current =>
    if current.submissions ≠ previous.submissions ∨ current.status ≠ previous.status ∨
        current.submittedAt ≠ previous.submittedAt then pure false
    else
      commit commits (savePaymentEffects next none none none false)
      publish (TaskBoard.restorePayment next)
      pure true

/-- `save_progress`. -/
def saveProgress (commits : Bool) (previous next : Payment) : HubCall Unit := do
  let _ ← saveOver commits previous next
  pure ()

/-- The payment to be submitted once more, or to be looked at when it has been
    submitted too often. -/
def resubmitted (now : DateTime) (payment : Payment) : Payment :=
  if payment.submissions ≥ maxPayoutSubmissions ∨ payment.transaction.isNone then
    { payment with status := .needsReview }
  else { payment with submissions := payment.submissions + 1, submittedAt := now }

/-- What the node shows of a payment, for the copy of it that is resolved. -/
def observe (replies : NodeReplies) (payment : Payment) : Outcome PaymentError PayoutOutcome :=
  match payment.outputHash with
  | none => .ok .confirmed
  | some hash => do
    let recipient ← .okOr .node (replies.utxos payment.recipient)
    let source ← .okOr .node (replies.utxos payment.source)
    pure (resolveAgainst c hash payment.spentInputs recipient source)

/-- `resolve`. -/
def resolve (now : DateTime) (replies : NodeReplies) (commits : Bool) (payment : Payment) :
    HubCall Unit := do
  if Duration.numSeconds (now - payment.submittedAt) < payoutResolutionGraceSeconds then pure ()
  else
    match ← Call.lift (observe c replies payment), payment.status with
    | .confirmed, _ => confirm commits payment
    | .neverLanded, .pending => do
      let next := resubmitted now payment
      if ← saveOver commits payment next then
        if next.status = .pending then send commits next
    | .heldInMempool, _ => pure ()
    | _, _ =>
      match scanForEvidence c replies payment with
      | (.mined, _) => confirm commits payment
      | (.absentFromChain, scanned) =>
        saveProgress commits payment { scanned with status := .needsReview }
      | (.inconclusive, scanned) => saveProgress commits payment scanned

/-- A hash of outputs without collisions: the fields are paired. The hub hashes
    nothing else. -/
def pairingCrypto : Crypto where
  hashOutput o := Nat.pair o.value (Nat.pair o.uniqueId o.pubkey)
  hashTransaction _ := 0
  hashHeader _ := 0
  hashBlock _ := 0
  hashPair := Nat.pair
  hashBytes _ := 0
  toSec1Bytes _ := []
  verify _ _ _ := true
  serializedSize _ := 0
  genesisPubkey := 0

end Itx
