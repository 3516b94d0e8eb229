import Itx.Lib.Call
import Itx.Hub.Types

/-!
# The exchange

The ledger and the order book of the hub (`hub/src/board.rs`, and
`taker_fee_totals` of `hub/src/handlers.rs`). An order locks its full notional
when it is placed, is matched at once against the resting orders it crosses, and
rests for what is left of it.

Every `+=`, `-=` and `*` on amounts is checked: out of range, it panics.
-/

namespace Itx

/-- `TAKER_FEE_BPS`. -/
def takerFeeBps : ℕ := 10

/-- A call on the board. -/
abbrev BoardCall := Call TaskBoard BoardError

namespace TaskBoard

/-! ## Accounts -/

/-- `entry(pubkey).or_default()`: the key has an account from now on. -/
def touchAccount (pubkey : PublicKey) (s : TaskBoard) : TaskBoard :=
  s.restoreExchangeAccount pubkey (s.exchangeAccount pubkey)

/-- `entry(pubkey).or_default().field += n`. -/
def addTo (pubkey : PublicKey) (field : ExchangeAccount.Field) (n : ℕ) : BoardCall Unit := do
  let s ← Call.get
  let account := s.exchangeAccount pubkey
  let sum ← Call.lift (.expect (checkedAdd (account.get field) n))
  Call.modify (restoreExchangeAccount pubkey (account.set sum field))

/-- `entry(pubkey).or_default().field -= n`. -/
def subFrom (pubkey : PublicKey) (field : ExchangeAccount.Field) (n : ℕ) : BoardCall Unit := do
  let s ← Call.get
  let account := s.exchangeAccount pubkey
  let difference ← Call.lift (.expect (checkedSub (account.get field) n))
  Call.modify (restoreExchangeAccount pubkey (account.set difference field))

/-- `TaskBoard::credit_compute`. -/
def creditCompute (recipient : PublicKey) (amount : ℕ) : BoardCall Unit :=
  addTo recipient .computeBalance amount

/-- `TaskBoard::credit_base`. -/
def creditBase (recipient : PublicKey) (amount : ℕ) : BoardCall Unit :=
  addTo recipient .baseBalance amount

/-- `TaskBoard::credit_back_withdrawal`. -/
def creditBackWithdrawal (owner : PublicKey) (amount : ℕ) : BoardCall Unit :=
  addTo owner .baseBalance amount

/-- `TaskBoard::debit_for_withdrawal`. -/
def debitForWithdrawal (owner : PublicKey) (amount : ℕ) : BoardCall Unit := do
  Call.lift (Outcome.ensure (amount ≠ 0) .zeroWithdrawal)
  Call.modify (touchAccount owner)
  let s ← Call.get
  let account := s.exchangeAccount owner
  let available := account.baseBalance - account.lockedBase
  Call.lift (Outcome.ensure (amount ≤ available) (.insufficientBalance available amount))
  subFrom owner .baseBalance amount

/-- `TaskBoard::confirm_exchange_deposit`: the depositor is credited with what
    arrived, less the fee of moving it on. -/
def confirmExchangeDeposit (id : Uuid) (observedAmount networkFee : ℕ) (now : DateTime) :
    BoardCall (PublicKey × ℕ) := do
  let s ← Call.get
  let deposit ← Call.lift (.okOr .escrowNotFound (s.pendingDeposits.lookup id))
  Call.lift (Outcome.ensure (deposit.purpose = .fundExchangeAccount) .wrongEscrowPurpose)
  Call.lift (Outcome.ensure (deposit.status = .reserved) .escrowNotReserved)
  Call.lift (Outcome.ensure (now ≤ deposit.expiresAt) .escrowExpired)
  Call.lift (Outcome.ensure (deposit.requiredAmount ≤ observedAmount)
    (.escrowUnderfunded deposit.requiredAmount observedAmount))
  let credited := observedAmount - networkFee
  Call.modify fun s =>
    { s with pendingDeposits := s.pendingDeposits.insert id { deposit with status := .consumed } }
  addTo deposit.depositor .baseBalance credited
  pure (deposit.depositor, credited)

/-! ## Matching -/

/-- Whether a resting order's price is one the taker accepts. -/
def crosses (taker resting : Order) : Prop :=
  match taker.side with
  | .buy => resting.price ≤ taker.price
  | .sell => resting.price ≥ taker.price

instance (taker resting : Order) : Decidable (crosses taker resting) :=
  match h : taker.side with
  | .buy => decidable_of_iff (resting.price ≤ taker.price) (by simp [crosses, h])
  | .sell => decidable_of_iff (resting.price ≥ taker.price) (by simp [crosses, h])

/-- The resting orders a taker may be matched with: open, on the other side, of
    another owner, at a price it accepts. -/
structure Matches (taker resting : Order) : Prop where
  status : resting.status = .open
  side : resting.side = taker.side.opposite
  owner : resting.owner ≠ taker.owner
  price : crosses taker resting

instance (taker resting : Order) : Decidable (Matches taker resting) :=
  decidable_of_iff (resting.status = .open ∧ resting.side = taker.side.opposite ∧
      resting.owner ≠ taker.owner ∧ crosses taker resting)
    ⟨fun h => ⟨h.1, h.2.1, h.2.2.1, h.2.2.2⟩, fun h => ⟨h.status, h.side, h.owner, h.price⟩⟩

/-- Price-time priority among the orders a taker of a side is matched with: the
    best price first, then the earliest. -/
def Precedes (takerSide : Side) (a b : Order) : Prop :=
  match takerSide with
  | .buy => a.price < b.price ∨ a.price = b.price ∧ a.createdAt ≤ b.createdAt
  | .sell => b.price < a.price ∨ a.price = b.price ∧ a.createdAt ≤ b.createdAt

instance (takerSide : Side) : DecidableRel (Precedes takerSide) := fun a b =>
  match takerSide with
  | .buy => inferInstanceAs
      (Decidable (a.price < b.price ∨ a.price = b.price ∧ a.createdAt ≤ b.createdAt))
  | .sell => inferInstanceAs
      (Decidable (b.price < a.price ∨ a.price = b.price ∧ a.createdAt ≤ b.createdAt))

/-- `TaskBoard::best_resting_match`. The sort is stable. -/
def bestRestingMatch (s : TaskBoard) (taker : Order) : Option Uuid :=
  let candidates := s.orders.values.filter fun o => Matches taker o
  (candidates.insertionSort (Precedes taker.side)).head?.map Order.id

/-- The fee on a fill, in what the taker receives. -/
def takerFee (side : Side) (fillQty notional : ℕ) : Option ℕ :=
  match side with
  | .buy => (checkedMul fillQty takerFeeBps).map (· / 10000)
  | .sell => (checkedMul notional takerFeeBps).map (· / 10000)

/-- What is credited to a side of a fill: the taker pays the fee out of it. -/
def creditOf (isTaker : Bool) (received fee : ℕ) : Option ℕ :=
  if isTaker then checkedSub received fee else some received

/-- The resting order after a fill. -/
def fillTo (order : Order) (filled : ℕ) : Order :=
  { order with filled, status := if filled ≥ order.quantity then .filled else order.status }

/-- The two assets of a fill change hands. The lock of the buyer is released at
    its own price, and it pays the price of the execution; the taker pays the fee,
    which is returned, out of what it receives. -/
def settle (takerSide : Side) (buy sell : Order) (executionPrice fillQty : ℕ) : BoardCall ℕ := do
  let notional ← Call.lift (.expect (checkedMul executionPrice fillQty))
  let fee ← Call.lift (.expect (takerFee takerSide fillQty notional))
  let released ← Call.lift (.expect (checkedMul buy.price fillQty))
  subFrom buy.owner .lockedBase released
  subFrom buy.owner .baseBalance notional
  let computeCredit ← Call.lift (.expect (creditOf (takerSide = .buy) fillQty fee))
  addTo buy.owner .computeBalance computeCredit
  subFrom sell.owner .lockedCompute fillQty
  subFrom sell.owner .computeBalance fillQty
  let baseCredit ← Call.lift (.expect (creditOf (takerSide = .sell) notional fee))
  addTo sell.owner .baseBalance baseCredit
  pure fee

/-- The order of a fill that buys, and the one that sells. -/
def parties (taker resting : Order) : Order × Order :=
  match taker.side with
  | .buy => (taker, resting)
  | .sell => (resting, taker)

/-- One fill of the loop of `TaskBoard::place_order`, at the price of the resting
    order. -/
def fill (now : DateTime) (tradeId : Uuid) (taker resting : Order) : BoardCall (Order × Trade) := do
  let takerLeft ← Call.lift (.expect (checkedSub taker.quantity taker.filled))
  let restingLeft ← Call.lift (.expect (checkedSub resting.quantity resting.filled))
  let fillQty := min takerLeft restingLeft
  let restingFilled ← Call.lift (.expect (checkedAdd resting.filled fillQty))
  Call.modify (restoreOrder (fillTo resting restingFilled))
  let takerFilled ← Call.lift (.expect (checkedAdd taker.filled fillQty))
  let (buy, sell) := parties taker resting
  let fee ← settle taker.side buy sell resting.price fillQty
  pure ({ taker with filled := takerFilled },
    { id := tradeId, buyOrderId := buy.id, sellOrderId := sell.id, buyer := buy.owner,
      seller := sell.owner, price := resting.price, quantity := fillQty, executedAt := now,
      takerSide := taker.side, takerFee := fee })

/-- The loop of `TaskBoard::place_order`, for at most some fills. The ids of the
    trades are drawn one after the other. -/
def matchLoop (now : DateTime) (tradeIds : ℕ → Uuid) :
    ℕ → Order → List Trade → BoardCall (Order × List Trade)
  | 0, _, _ => Call.lift .panic
  | steps + 1, taker, trades => do
    if taker.filled < taker.quantity then
      let s ← Call.get
      match s.bestRestingMatch taker with
      | none => pure (taker, trades)
      | some restingId => do
        let resting ← Call.lift (.expect (s.orders.lookup restingId))
        let (taker, trade) ← fill now (tradeIds trades.length) taker resting
        matchLoop now tradeIds steps taker (trades ++ [trade])
    else pure (taker, trades)

/-- The number of open orders. -/
def openCount (s : TaskBoard) : ℕ :=
  s.orders.total fun _ o => if o.status = .open then 1 else 0

/-- Locking what an order may spend. -/
def lockFor (owner : PublicKey) (side : Side) (notional quantity : ℕ) : BoardCall Unit := do
  Call.modify (touchAccount owner)
  let s ← Call.get
  let account := s.exchangeAccount owner
  match side with
  | .buy => do
    let available := account.baseBalance - account.lockedBase
    Call.lift (Outcome.ensure (notional ≤ available) (.insufficientBalance available notional))
    addTo owner .lockedBase notional
  | .sell => do
    let available := account.computeBalance - account.lockedCompute
    Call.lift (Outcome.ensure (quantity ≤ available) (.insufficientBalance available quantity))
    addTo owner .lockedCompute quantity

/-- `TaskBoard::place_order`, with the ids it draws. All but the last fill close a
    resting order, so there are at most as many as there are open orders. -/
def placeOrder (id : Uuid) (tradeIds : ℕ → Uuid) (owner : PublicKey) (side : Side)
    (price quantity : ℕ) (now : DateTime) : BoardCall (Order × List Trade) := do
  Call.lift (Outcome.ensure (price ≠ 0 ∧ quantity ≠ 0) .invalidOrder)
  let notional ← Call.lift (.okOr .orderNotionalOverflow (checkedMul price quantity))
  lockFor owner side notional quantity
  let taker : Order :=
    { id, owner, side, price, quantity, filled := 0, status := .open, createdAt := now }
  let s ← Call.get
  let (taker, trades) ← matchLoop now tradeIds (s.openCount + 1) taker []
  let taker := if taker.filled ≥ taker.quantity then { taker with status := .filled } else taker
  Call.modify (restoreOrder taker)
  Call.modify fun s => trades.foldl (fun s trade => s.restoreTrade trade) s
  pure (taker, trades)

/-- `TaskBoard::cancel_order`. -/
def cancelOrder (orderId : Uuid) (caller : PublicKey) : BoardCall Order := do
  let s ← Call.get
  let order ← Call.lift (.okOr .orderNotFound (s.orders.lookup orderId))
  Call.lift (Outcome.ensure (order.owner = caller) .notOrderOwner)
  Call.lift (Outcome.ensure (order.status = .open) .orderNotOpen)
  let remaining ← Call.lift (.expect (checkedSub order.quantity order.filled))
  let cancelled := { order with status := .cancelled }
  Call.modify fun s => { s with orders := s.orders.insert orderId cancelled }
  match order.side with
  | .buy => do
    let released ← Call.lift (.expect (checkedMul order.price remaining))
    subFrom order.owner .lockedBase released
  | .sell => subFrom order.owner .lockedCompute remaining
  pure cancelled

/-! ## Fees -/

/-- `taker_fee_totals`: the fees on some trades, in compute and in base. -/
def takerFeeTotals (trades : List Trade) : Option (ℕ × ℕ) :=
  trades.foldlM (fun (compute, base) t =>
    match t.takerSide with
    | .buy => (checkedAdd compute t.takerFee).map (·, base)
    | .sell => (checkedAdd base t.takerFee).map (compute, ·)) (0, 0)

/-- The handler `place_order`: the fees of the trades go to the fee sink. -/
def placeOrderWithFees (feeSink : PublicKey) (id : Uuid) (tradeIds : ℕ → Uuid) (owner : PublicKey)
    (side : Side) (price quantity : ℕ) (now : DateTime) : BoardCall (Order × List Trade) := do
  let (order, trades) ← placeOrder id tradeIds owner side price quantity now
  let (computeFees, baseFees) ← Call.lift (.expect (takerFeeTotals trades))
  if computeFees > 0 then creditCompute feeSink computeFees
  if baseFees > 0 then creditBase feeSink baseFees
  pure (order, trades)

end TaskBoard

end Itx
