import Itx.Chain.Types

/-!
# What the hub keeps

The records of the hub (`hub/src/board.rs`, `hub/src/payments.rs`): the orders and
trades of the exchange with the accounts behind them, the escrow deposits, the
tasks, the payout attempts, and the journal of payments.

Amounts are `u64`s, modelled by natural numbers: the operations on them are
checked where they are made.
-/

namespace Itx

/-! ## The exchange -/

/-- `Side`, of an order. -/
inductive Side
  | buy
  | sell
  deriving DecidableEq, Repr

/-- The other side. -/
def Side.opposite : Side → Side
  | .buy => .sell
  | .sell => .buy

inductive OrderStatus
  | open
  | filled
  | cancelled
  deriving DecidableEq, Repr

/-- A limit order. Its price is in base units for one unit of compute. -/
structure Order where
  id : Uuid
  owner : PublicKey
  side : Side
  price : ℕ
  quantity : ℕ
  filled : ℕ
  status : OrderStatus
  createdAt : DateTime
  deriving DecidableEq, Repr

/-- A fill, at the price of the resting order. The fee is in what the taker
    receives: compute if it buys, base if it sells. -/
structure Trade where
  id : Uuid
  buyOrderId : Uuid
  sellOrderId : Uuid
  buyer : PublicKey
  seller : PublicKey
  price : ℕ
  quantity : ℕ
  executedAt : DateTime
  takerSide : Side
  takerFee : ℕ
  deriving DecidableEq, Repr

structure ExchangeAccount where
  baseBalance : ℕ := 0
  lockedBase : ℕ := 0
  computeBalance : ℕ := 0
  lockedCompute : ℕ := 0
  deriving DecidableEq, Repr

instance : Inhabited ExchangeAccount := ⟨{}⟩

/-- The amounts of an account. -/
inductive ExchangeAccount.Field
  | baseBalance
  | lockedBase
  | computeBalance
  | lockedCompute
  deriving DecidableEq, Repr

namespace ExchangeAccount

/-- Reading an amount. -/
def get (account : ExchangeAccount) : Field → ℕ
  | .baseBalance => account.baseBalance
  | .lockedBase => account.lockedBase
  | .computeBalance => account.computeBalance
  | .lockedCompute => account.lockedCompute

/-- Writing an amount. -/
def set (account : ExchangeAccount) (n : ℕ) : Field → ExchangeAccount
  | .baseBalance => { account with baseBalance := n }
  | .lockedBase => { account with lockedBase := n }
  | .computeBalance => { account with computeBalance := n }
  | .lockedCompute => { account with lockedCompute := n }

theorem get_set (account : ExchangeAccount) (n : ℕ) (field field' : Field) :
    (account.set n field).get field' = if field' = field then n else account.get field' := by
  cases field <;> cases field' <;> rfl

@[simp] theorem get_default (field : Field) : (default : ExchangeAccount).get field = 0 := by
  cases field <;> rfl

end ExchangeAccount

/-! ## Escrow -/

inductive EscrowStatus
  | disbursing
  | reserved
  | consumed
  | refunded
  deriving DecidableEq, Repr

/-- `TaskIntent`. -/
structure TaskIntent where
  description : String
  bounty : ℕ
  expectedOutputHash : Hash
  minReputation : ℕ
  capabilities : Finset String
  deriving DecidableEq

/-- `ConsensusTaskIntent`. -/
structure ConsensusTaskIntent where
  description : String
  bounty : ℕ
  numAssignees : ℕ
  joinWindowMinutes : ℤ
  submissionWindowMinutes : ℤ
  minReputation : ℕ
  capabilities : Finset String
  deriving DecidableEq

/-- `DisputableTaskIntent`. -/
structure DisputableTaskIntent where
  description : String
  bounty : ℕ
  disputeWindowMinutes : ℤ
  minReputation : ℕ
  capabilities : Finset String
  deriving DecidableEq

/-- `EscrowPurpose`. -/
inductive EscrowPurpose
  | fundHashMatchTask (intent : TaskIntent)
  | fundConsensusTask (intent : ConsensusTaskIntent)
  | fundDisputableTask (intent : DisputableTaskIntent)
  | disputeBond (taskId : Uuid) (reason : String)
  | fundExchangeAccount
  deriving DecidableEq

structure PendingDeposit where
  id : Uuid
  depositor : PublicKey
  depositPubkey : PublicKey
  requiredAmount : ℕ
  purpose : EscrowPurpose
  status : EscrowStatus
  createdAt : DateTime
  expiresAt : DateTime
  deriving DecidableEq

/-! ## Tasks and their payouts -/

inductive TaskStatus
  | open
  | claimed
  | awaitingDispute
  | disputed
  | awaitingPick
  | verified
  | submitted
  | paid
  | payoutFailed
  | closed
  deriving DecidableEq, Repr

inductive CloseReason
  | noMajority
  | understaffed
  | cancelledByOperator
  | noAnswers
  | neverClosed
  deriving DecidableEq, Repr

/-- An assignee of a consensus task: its share is fixed when the task resolves. -/
structure ConsensusAssignment where
  answer : Option String := none
  paid : Bool := false
  share : Option ℕ := none
  deriving DecidableEq, Repr

/-- An answer to an open-ended task. -/
structure ContestAnswer where
  pubkey : PublicKey
  answer : String
  submittedAt : DateTime
  share : Option ℕ := none
  paid : Bool := false
  deriving DecidableEq, Repr

inductive DisputeResolution
  | challengerWins
  | assigneeWins
  deriving DecidableEq, Repr

structure Dispute where
  challenger : PublicKey
  reason : String
  bondEscrowId : Uuid
  bondAmount : ℕ
  filedAt : DateTime
  resolution : Option DisputeResolution
  deriving DecidableEq, Repr

/-- The fields of `TaskKind::Consensus`. -/
structure ConsensusKind where
  numAssignees : ℕ
  joinDeadline : DateTime
  submissionWindowMinutes : ℤ
  submissionDeadline : Option DateTime
  assignees : Finmap fun _ : PublicKey => ConsensusAssignment
  deriving DecidableEq

/-- The fields of `TaskKind::Disputable`. -/
structure DisputableKind where
  answer : Option String
  disputeWindowMinutes : ℤ
  disputeDeadline : Option DateTime
  dispute : Option Dispute
  answers : List ContestAnswer
  pickDeadline : Option DateTime
  picked : Option PublicKey
  deriving DecidableEq

/-- `TaskKind`. -/
inductive TaskKind
  | hashMatch (expectedOutputHash : Hash)
  | consensus (kind : ConsensusKind)
  | disputable (kind : DisputableKind)
  deriving DecidableEq

structure Task where
  id : Uuid
  description : String
  bounty : ℕ
  kind : TaskKind
  poster : PublicKey
  status : TaskStatus
  claimant : Option PublicKey
  claimDeadline : Option DateTime
  failedAttempts : ℕ
  createdAt : DateTime
  minReputation : ℕ
  closeReason : Option CloseReason
  escrowId : Option Uuid
  capabilities : Finset String
  settledAt : Option DateTime
  deriving DecidableEq

/-- A payout handed to the node and not yet resolved. -/
structure PayoutAttempt where
  taskId : Uuid
  recipient : PublicKey
  amount : ℕ
  outputHash : Hash
  spentInputs : List Hash
  source : PublicKey
  submittedAt : DateTime
  submissions : ℕ
  transaction : Option Transaction
  deriving DecidableEq, Repr

/-- What the node shows of a payout. -/
inductive PayoutOutcome
  | confirmed
  | neverLanded
  | heldInMempool
  | ambiguous
  deriving DecidableEq, Repr

structure Reputation where
  completed : ℕ := 0
  failed : ℕ := 0
  totalEarned : ℕ := 0
  deriving DecidableEq, Repr

instance : Inhabited Reputation := ⟨{}⟩

/-! ## Payments -/

/-- `payments::Status`. -/
inductive PaymentStatus
  | pending
  | confirmed
  | needsReview
  deriving DecidableEq, Repr

/-- `payments::Purpose`. -/
inductive Purpose
  | faucet
  | withdrawal (debited : ℕ)
  | escrow (depositId : Uuid) (forfeitedBond : Bool) (previousStatus : EscrowStatus)
  deriving DecidableEq, Repr

/-- The deposit a payment disburses. -/
def Purpose.depositId? : Purpose → Option Uuid
  | .escrow depositId _ _ => some depositId
  | _ => none

structure Payment where
  id : Uuid
  purpose : Purpose
  source : PublicKey
  recipient : PublicKey
  amount : ℕ
  fee : ℕ
  transaction : Option Transaction
  outputHash : Option Hash
  spentInputs : List Hash
  createdAt : DateTime
  submittedAt : DateTime
  submissions : ℕ
  status : PaymentStatus
  scannedThrough : ℕ
  deriving DecidableEq, Repr

/-! ## The board -/

/-- `BoardError`: the variants the modelled methods return. -/
inductive BoardError
  | notFound
  | notOpen
  | notClaimed
  | notClaimant
  | notVerified
  | alreadyJoined
  | joinWindowExpired
  | submissionWindowExpired
  | wrongTaskKind
  | alreadySubmitted
  | insufficientReputation (required have' : ℕ)
  | alreadyTerminal
  | escrowNotFound
  | escrowNotReserved
  | escrowExpired
  | escrowUnderfunded (required have' : ℕ)
  | posterCannotClaimOwnTask
  | wrongEscrowPurpose
  | disputeWindowClosed
  | assigneeCannotDisputeOwnSubmission
  | alreadyDisputed
  | notDisputed
  | cannotCancelWhileDisputed
  | orderNotFound
  | notOrderOwner
  | orderNotOpen
  | invalidOrder
  | orderNotionalOverflow
  | zeroWithdrawal
  | insufficientBalance (available required : ℕ)
  | notPoster
  | posterCannotAnswerOwnTask
  | contestTakesNoClaim
  | submissionsClosed
  | contestFull
  | notAwaitingPick
  | pickWindowClosed
  | notAnAnswer
  deriving DecidableEq, Repr

/-- `TaskBoard`, in memory; the tables of the store are the same maps. -/
structure TaskBoard where
  payments : Finmap fun _ : Uuid => Payment
  tasks : Finmap fun _ : Uuid => Task
  reputation : Finmap fun _ : PublicKey => Reputation
  faucetGrants : Finmap fun _ : PublicKey => ℤ
  pendingDeposits : Finmap fun _ : Uuid => PendingDeposit
  exchangeAccounts : Finmap fun _ : PublicKey => ExchangeAccount
  orders : Finmap fun _ : Uuid => Order
  trades : Finmap fun _ : Uuid => Trade
  /-- The payouts in flight, by the task and the recipient they pay. -/
  payoutAttempts : Finmap fun _ : Uuid × PublicKey => PayoutAttempt

namespace TaskBoard

/-- `TaskBoard::new`. -/
def new : TaskBoard where
  payments := ∅
  tasks := ∅
  reputation := ∅
  faucetGrants := ∅
  pendingDeposits := ∅
  exchangeAccounts := ∅
  orders := ∅
  trades := ∅
  payoutAttempts := ∅

/-! The `restore_*` methods, which put a record in its place. -/

def restorePayment (payment : Payment) (s : TaskBoard) : TaskBoard :=
  { s with payments := s.payments.insert payment.id payment }

def restoreTask (task : Task) (s : TaskBoard) : TaskBoard :=
  { s with tasks := s.tasks.insert task.id task }

def restoreReputation (pubkey : PublicKey) (reputation : Reputation) (s : TaskBoard) : TaskBoard :=
  { s with reputation := s.reputation.insert pubkey reputation }

def restoreFaucetGrant (pubkey : PublicKey) (grantedAt : ℤ) (s : TaskBoard) : TaskBoard :=
  { s with faucetGrants := s.faucetGrants.insert pubkey grantedAt }

def restorePendingDeposit (deposit : PendingDeposit) (s : TaskBoard) : TaskBoard :=
  { s with pendingDeposits := s.pendingDeposits.insert deposit.id deposit }

def restoreExchangeAccount (pubkey : PublicKey) (account : ExchangeAccount) (s : TaskBoard) :
    TaskBoard :=
  { s with exchangeAccounts := s.exchangeAccounts.insert pubkey account }

def restoreOrder (order : Order) (s : TaskBoard) : TaskBoard :=
  { s with orders := s.orders.insert order.id order }

def restoreTrade (trade : Trade) (s : TaskBoard) : TaskBoard :=
  { s with trades := s.trades.insert trade.id trade }

def restorePayoutAttempt (attempt : PayoutAttempt) (s : TaskBoard) : TaskBoard :=
  { s with payoutAttempts :=
      s.payoutAttempts.insert (attempt.taskId, attempt.recipient) attempt }

/-- `TaskBoard::exchange_account`: a key without an account has an empty one. -/
def exchangeAccount (s : TaskBoard) (pubkey : PublicKey) : ExchangeAccount :=
  (s.exchangeAccounts.lookup pubkey).getD default

/-- `TaskBoard::reputation`. -/
def reputationOf (s : TaskBoard) (pubkey : PublicKey) : Reputation :=
  (s.reputation.lookup pubkey).getD default

end TaskBoard

end Itx
