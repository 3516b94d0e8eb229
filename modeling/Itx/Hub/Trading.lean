import Itx.Hub.Conservation
import Itx.Hub.Funding
import Itx.Hub.OrderBook
import Itx.Hub.Solvency

/-!
# Trading across restarts

The handlers of the exchange (`hub/src/handlers.rs`) work on a copy of the records they
need, commit what they made of it in one transaction, and publish the same records on the
live board, all under its write lock. So each of them carries out the call of the board on
the whole of it, and on the store as well, or leaves both alone (`CarriesOut`): the
placements (`carriesOut_placeOrder`), the cancellations (`carriesOut_cancelOrder`) and the
credits of deposits (`carriesOut_confirmExchangeDeposit`).

The hub may stop at any moment, and starts again from the store. Whatever the handlers did
before, the board and the store say the same of the exchange (`Alike`), and what they say
holds together: the locks are those of the open orders, the balances cover them, and what
is filled of an order is what the trades say (`Desk.Durable`).

A confirmation is in two parts, since the node is asked for the balance of the address
without the lock; that the caller is the depositor is checked in the first one.
-/

namespace Itx

open Call TaskBoard

/-! ## The handlers -/

/-- One transaction of the store, which commits or fails. -/
def saveRows (commits : Bool) (rows : TaskBoard → TaskBoard) : Call Hub PlaceError Unit :=
  if commits then Call.modify fun hub => { hub with store := rows hub.store }
  else Call.lift (.err .store)

/-- `HubStore::save_order_and_account`, and what is then published. -/
def TaskBoard.restoreOrderAndAccount (order : Order) (pubkey : PublicKey)
    (account : ExchangeAccount) (s : TaskBoard) : TaskBoard :=
  (s.restoreOrder order).restoreExchangeAccount pubkey account

/-- The handler `cancel_order`, for the key that signed the request. -/
def Hub.cancelOrder (commits : Bool) (orderId : Uuid) (pubkey : PublicKey) :
    Call Hub PlaceError Order := do
  let live ← Call.get
  let order ← Call.lift (.okOr (.board .orderNotFound) (live.board.orders.lookup orderId))
  let (staged, order) ← Call.mapErr .board <| Call.onCopy
    (fun live : Hub => (TaskBoard.new.restoreOrder order).restoreExchangeAccount pubkey
      (live.board.exchangeAccount pubkey)) (TaskBoard.cancelOrder orderId pubkey)
  let account := staged.exchangeAccount pubkey
  saveRows commits (restoreOrderAndAccount order pubkey account)
  Call.modify fun live => { live with board := live.board.restoreOrderAndAccount order pubkey account }
  pure order

/-- What the handler `confirm_exchange_deposit` fails with before it asks the node. -/
inductive AskError
  | escrowNotFound
  | forbidden
  deriving DecidableEq, Repr

/-- The handler `confirm_exchange_deposit` up to where it asks the node: the address of the
    deposit, for its depositor. -/
def TaskBoard.depositAddress (escrowId : Uuid) (pubkey : PublicKey) (s : TaskBoard) :
    Outcome AskError PublicKey := do
  let deposit ← .okOr .escrowNotFound (s.pendingDeposits.lookup escrowId)
  Outcome.ensure (deposit.depositor = pubkey) .forbidden
  pure deposit.depositPubkey

/-- `HubStore::save_exchange_account_and_deposit`, and what is then published. -/
def TaskBoard.restoreAccountAndDeposit (pubkey : PublicKey) (account : ExchangeAccount)
    (deposit : PendingDeposit) (s : TaskBoard) : TaskBoard :=
  (s.restoreExchangeAccount pubkey account).restorePendingDeposit deposit

/-- The handler `confirm_exchange_deposit` from where the node has answered. -/
def Hub.confirmExchangeDeposit (commits : Bool) (escrowId : Uuid) (pubkey : PublicKey)
    (observedAmount : ℕ) (now : DateTime) : Call Hub PlaceError (PublicKey × ℕ) := do
  let live ← Call.get
  let deposit ← Call.lift (.okOr (.board .escrowNotFound) (live.board.pendingDeposits.lookup escrowId))
  let (staged, depositor, credited) ← Call.mapErr .board <| Call.onCopy
    (fun live : Hub => (TaskBoard.new.restorePendingDeposit deposit).restoreExchangeAccount pubkey
      (live.board.exchangeAccount pubkey))
    (TaskBoard.confirmExchangeDeposit escrowId observedAmount hubTransactionFee now)
  let account := staged.exchangeAccount depositor
  let deposit ← Call.lift (.expect (staged.pendingDeposits.lookup escrowId))
  saveRows commits (restoreAccountAndDeposit depositor account deposit)
  Call.modify fun live =>
    { live with board := live.board.restoreAccountAndDeposit depositor account deposit }
  pure (depositor, credited)

/-! ## The board and the store -/

namespace TaskBoard

/-- Two boards that say the same of the exchange. An account that is missing is an empty
    one. -/
structure Alike (s t : TaskBoard) : Prop where
  orders : s.orders = t.orders
  trades : s.trades = t.trades
  account : ∀ pk, s.exchangeAccount pk = t.exchangeAccount pk

/-- Every deposit of `s` is one of `t`, of the same depositor. -/
def KeepsDepositors (s t : TaskBoard) : Prop :=
  ∀ id d, s.pendingDeposits.lookup id = some d →
    ∃ d', t.pendingDeposits.lookup id = some d' ∧ d'.depositor = d.depositor

variable {s t u : TaskBoard}

theorem KeepsDepositors.of_eq (h : t.pendingDeposits = s.pendingDeposits) : s.KeepsDepositors t :=
  fun _ d hd => ⟨d, h ▸ hd, rfl⟩

/-- A deposit is replaced by one of the same depositor. -/
theorem KeepsDepositors.insert {id : Uuid} {d d' : PendingDeposit}
    (hd : s.pendingDeposits.lookup id = some d)
    (ht : t.pendingDeposits = s.pendingDeposits.insert id d') (hdepositor : d'.depositor = d.depositor) :
    s.KeepsDepositors t := by
  intro i e he
  rw [ht, Finmap.lookup_insert_eq]
  split_ifs with hi
  · rw [hi, hd] at he
    exact ⟨d', rfl, Option.some.inj he ▸ hdepositor⟩
  · exact ⟨e, he, rfl⟩

theorem DepositsKeyed.of_eq (h : s.DepositsKeyed) (hst : t.pendingDeposits = s.pendingDeposits) :
    t.DepositsKeyed := by
  rw [DepositsKeyed, hst]
  exact h

theorem Alike.refl (s : TaskBoard) : s.Alike s := ⟨rfl, rfl, fun _ => rfl⟩

theorem Alike.symm (h : s.Alike t) : t.Alike s := ⟨h.orders.symm, h.trades.symm, fun pk => (h.account pk).symm⟩

theorem Alike.trans (h : s.Alike t) (h' : t.Alike u) : s.Alike u :=
  ⟨h.orders.trans h'.orders, h.trades.trans h'.trades, fun pk => (h.account pk).trans (h'.account pk)⟩

theorem Alike.amount (h : s.Alike t) : s.amount = t.amount :=
  funext fun pk => funext fun field => congrArg (ExchangeAccount.get · field) (h.account pk)

theorem Alike.sound (h : s.Alike t) (ht : t.Sound) : s.Sound := by
  rw [Sound, h.orders, h.amount]
  exact ht

theorem Alike.booked (h : s.Alike t) (ht : t.Booked) : s.Booked := ht.congr h.orders h.trades

/-- Writing the same account to both. -/
theorem Alike.restoreExchangeAccount (h : s.Alike t) (pk : PublicKey) (account : ExchangeAccount) :
    (s.restoreExchangeAccount pk account).Alike (t.restoreExchangeAccount pk account) := by
  refine ⟨h.orders, h.trades, fun x => ?_⟩
  rw [exchangeAccount_restoreExchangeAccount, exchangeAccount_restoreExchangeAccount, h.account]

/-- Writing the same order to both. -/
theorem Alike.restoreOrder (h : s.Alike t) (order : Order) :
    (s.restoreOrder order).Alike (t.restoreOrder order) := by
  refine ⟨?_, h.trades, h.account⟩
  rw [TaskBoard.restoreOrder, TaskBoard.restoreOrder, h.orders]

/-- Writing the same trade to both. -/
theorem Alike.restoreTrade (h : s.Alike t) (trade : Trade) :
    (s.restoreTrade trade).Alike (t.restoreTrade trade) := by
  refine ⟨h.orders, ?_, h.account⟩
  rw [TaskBoard.restoreTrade, TaskBoard.restoreTrade, h.trades]

/-- Writing the same records of a fill to both. -/
theorem Alike.restoreFill (h : s.Alike t) (orders : List Order) (trades : List Trade)
    (accounts : List (PublicKey × ExchangeAccount)) :
    (s.restoreFill orders trades accounts).Alike (t.restoreFill orders trades accounts) := by
  refine List.foldl_rel (List.foldl_rel (List.foldl_rel h ?_) ?_) ?_
  · exact fun order _ _ _ h => h.restoreOrder order
  · exact fun trade _ _ _ h => h.restoreTrade trade
  · exact fun entry _ _ _ h => h.restoreExchangeAccount entry.1 entry.2

end TaskBoard

/-! ## Carrying out a call -/

/-- The handler carries out the call on the whole board, and writes the same records to the
    store; or it leaves both alone, and then panics only if the call does. -/
inductive CarriesOut {α β : Type} (x : BoardCall α) (answer : α → β) (hub : Hub) :
    Hub × Outcome PlaceError β → Prop
  | done {a : α} (rows : TaskBoard → TaskBoard) (hx : x hub.board = (rows hub.board, .ok a))
      (halike : ∀ {s t : TaskBoard}, s.Alike t → (rows s).Alike (rows t))
      (hkeyed : ∀ {s : TaskBoard}, s.DepositsKeyed → (rows s).DepositsKeyed)
      (hkept : hub.board.KeepsDepositors (rows hub.board)) :
      CarriesOut x answer hub (⟨rows hub.board, rows hub.store⟩, .ok (answer a))
  | refused {o : Outcome PlaceError β} (hok : ∀ b, o ≠ .ok b)
      (hpanic : o = .panic → (x hub.board).2 = .panic) : CarriesOut x answer hub (hub, o)

variable {hub : Hub} {commits : Bool} {id : Uuid} {pk : PublicKey} {now : DateTime}

theorem CarriesOut.err {α β : Type} {x : BoardCall α} {answer : α → β} (e : PlaceError) :
    CarriesOut x answer hub (hub, .err e) := by
  refine .refused ?_ ?_
  · rintro _ ⟨⟩
  · rintro ⟨⟩

theorem CarriesOut.panic {α β : Type} {x : BoardCall α} {answer : α → β}
    (h : (x hub.board).2 = .panic) : CarriesOut x answer hub (hub, .panic) := by
  refine .refused ?_ fun _ => h
  rintro _ ⟨⟩

/-- A placement. -/
theorem carriesOut_placeOrder {feeSink owner : PublicKey} {tradeIds : ℕ → Uuid} {side : Side}
    {price quantity : ℕ} (h : hub.board.OrdersKeyed) (hid : id ∉ hub.board.orders) :
    CarriesOut (placeOrderWithFees feeSink id tradeIds owner side price quantity now) Prod.fst hub
      (Hub.placeOrder commits feeSink id tradeIds owner side price quantity now hub) := by
  have hsim : EndAlike _ (placeOrderWithFees feeSink id tradeIds owner side price quantity now hub.board)
      (placeOrderWithFees feeSink id tradeIds owner side price quantity now
        (hub.board.stageOrder owner side price feeSink)) :=
    simulates_placeOrderWithFees hid (.inl rfl) (.inr (.inl rfl)) _ _ (staged_stageOrder h)
  rw [Hub.placeOrder_eq]
  generalize hd : placeOrderWithFees feeSink id tradeIds owner side price quantity now hub.board = d
    at hsim
  generalize placeOrderWithFees feeSink id tradeIds owner side price quantity now
    (hub.board.stageOrder owner side price feeSink) = r at hsim
  obtain ⟨hsame, hreturn⟩ := hsim
  obtain ⟨u, ⟨order, trades⟩ | e | _⟩ := r
  · obtain ⟨hstaged, horder⟩ := hreturn (order, trades) hsame
    -- Only a commit that succeeds publishes the copy.
    cases commits with
    | false => exact .err _
    | true =>
      have hdeposits : ∀ s : TaskBoard, (s.restoreFill (readOrders order trades u) trades
          (readAccounts feeSink order trades u)).pendingDeposits = s.pendingDeposits := fun s => by
        rw [restoreFill_eq]
      refine .done (a := (order, trades)) _ ?_ (fun h => h.restoreFill _ _ _) (fun h => h.of_eq (hdeposits _))
        (.of_eq (hdeposits _))
      rw [hd, hstaged.restoreFill horder]
      exact Prod.ext rfl hsame
  · exact .err _
  · exact .panic (hd ▸ hsame)

/-! ### Cancellations -/

/-- The copy of a cancellation holds the order and the account of the caller. -/
theorem staged_cancelOrder {s : TaskBoard} (h : s.OrdersKeyed) {order : Order}
    (ho : s.orders.lookup order.id = some order) :
    Staged s {pk} (fun o => o.id = order.id ∧ o.owner = pk) ⟨∅, ∅, []⟩ s
      ((TaskBoard.new.restoreOrder order).restoreExchangeAccount pk (s.exchangeAccount pk)) := by
  have horders : ∀ i, ((TaskBoard.new.restoreOrder order).restoreExchangeAccount pk
      (s.exchangeAccount pk)).orders.lookup i = if i = order.id then some order else none := by
    intro i
    rw [restoreExchangeAccount, TaskBoard.restoreOrder, Finmap.lookup_insert_eq]
    rfl
  refine ⟨?_, .empty _ _, ?_, fun i => ?_, .empty _ _, ?_, fun i o hi hc => ?_, h, fun i o hi => ?_,
    rfl, rfl⟩
  · rintro _ rfl
    exact Finmap.lookup_insert _
  · rintro _ ⟨⟩
  · -- The copy has one order, and only that one matters to a cancellation.
    rw [horders]
    split_ifs with hi
    · rw [hi, ho]
    · rw [Option.filter_none, Option.filter_eq_none_iff]
      intro o ho' hc
      exact hi ((h i o ho').symm.trans (of_decide_eq_true hc).1)
  · rintro _ ⟨⟩
  · exact (of_decide_eq_true hc).2
  · rw [horders] at hi
    split_ifs at hi with he
    rw [he, Option.some.inj hi]

/-- A cancellation on both boards. -/
theorem simulates_cancelOrder {s t u : TaskBoard} {copied : Set PublicKey} {crossing : Order → Bool}
    {order : Order} (h : Staged s copied crossing ⟨∅, ∅, []⟩ t u) (hpk : pk ∈ copied)
    (ht : t.orders.lookup order.id = some order) (hu : u.orders.lookup order.id = some order) :
    Simulates (fun t' u' => t' = t ∧ u' = u) (TaskBoard.cancelOrder order.id pk)
      (TaskBoard.cancelOrder order.id pk) fun o t' u' =>
        Staged s copied crossing ⟨{pk}, {order.id}, []⟩ t' u' ∧
          u'.orders.lookup order.id = some o ∧ o.id = order.id ∧ o.owner = pk := by
  refine .get_bind ?_
  rintro t u ⟨rfl, rfl⟩
  rw [ht, hu]
  refine .lift_bind fun o ho => .lift_bind fun _ howner => .lift_bind fun _ _ => ?_
  obtain rfl := Option.some.inj (Outcome.okOr_eq_ok.1 ho)
  have howner := Outcome.ensure_eq_ok.1 howner
  subst howner
  refine .lift_bind fun remaining _ => ?_
  -- The order goes on both books as cancelled, then its lock is released on both.
  have hmarked := h.restoreOrder { order with status := .cancelled } hpk
  refine .bind (Q := fun _ => StagedWith s copied crossing ⟨∅, {order.id}, []⟩
    (t.restoreOrder { order with status := .cancelled }).orders
    (u.restoreOrder { order with status := .cancelled }).orders) (.modify ?_) fun _ => ?_
  · rintro _ _ ⟨rfl, rfl⟩
    exact ⟨hmarked, rfl, rfl⟩
  have hdone : ∀ t' u', StagedWith s copied crossing (Touched.withAccount order.owner ⟨∅, {order.id}, []⟩)
      (t.restoreOrder { order with status := .cancelled }).orders
      (u.restoreOrder { order with status := .cancelled }).orders t' u' →
      Staged s copied crossing ⟨{order.owner}, {order.id}, []⟩ t' u' ∧
        u'.orders.lookup order.id = some { order with status := .cancelled } ∧
        order.id = order.id ∧ order.owner = order.owner := by
    rintro t' u' ⟨h', -, hu'⟩
    refine ⟨h', ?_, rfl, rfl⟩
    rw [hu']
    exact Finmap.lookup_insert _
  split
  · exact .lift_bind fun _ _ => .bind (simulates_subFrom hpk) fun _ => .pure hdone
  · exact .bind (simulates_subFrom hpk) fun _ => .pure hdone

/-- Publishing the cancelled order and the account of its owner gives the whole board. -/
theorem staged_restoreOrderAndAccount {s t u : TaskBoard} {copied : Set PublicKey}
    {crossing : Order → Bool} {order : Order}
    (h : Staged s copied crossing ⟨{order.owner}, {order.id}, []⟩ t u)
    (horder : u.orders.lookup order.id = some order) :
    s.restoreOrderAndAccount order order.owner (u.exchangeAccount order.owner) = t := by
  -- Without trades the only order touched is the cancelled one, and the only account its owner's.
  have hfees : ¬ EarnsFees [] := by decide
  have horders : touchedOrders order [] = ∅ := rfl
  have haccounts : touchedAccounts 0 order [] = {order.owner} := by
    rw [touchedAccounts, if_neg hfees]
    rfl
  have hread : readOrders order [] u = [order] := by
    rw [readOrders, horders]
    rfl
  have hreadAccounts : readAccounts 0 order [] u = [(order.owner, u.exchangeAccount order.owner)] := by
    rw [readAccounts, haccounts]
    rfl
  have hstaged : Staged s copied crossing
      { touchedIn order [] with accounts := touchedAccounts 0 order [] } t u := by
    rw [touchedIn, horders, haccounts]
    exact h
  have hboard := hstaged.restoreFill horder
  rw [hread, hreadAccounts] at hboard
  exact hboard

/-- How a cancellation of an order on the book ends. -/
theorem Hub.cancelOrder_eq {order : Order} (ho : hub.board.orders.lookup id = some order) :
    Hub.cancelOrder commits id pk hub =
      match TaskBoard.cancelOrder id pk ((TaskBoard.new.restoreOrder order).restoreExchangeAccount
        pk (hub.board.exchangeAccount pk)) with
      | (staged, .ok cancelled) =>
        let write := TaskBoard.restoreOrderAndAccount cancelled pk (staged.exchangeAccount pk)
        if commits then (⟨write hub.board, write hub.store⟩, .ok cancelled) else (hub, .err .store)
      | (_, .err e) => (hub, .err (.board e))
      | (_, .panic) => (hub, .panic) := by
  rw [Hub.cancelOrder]
  change Call.bind Call.get _ hub = _
  rw [Call.bind, Call.get]
  dsimp only
  rw [ho]
  change Call.bind (Call.mapErr PlaceError.board (Call.onCopy _ _)) _ hub = _
  rw [Call.bind, Call.mapErr, Call.onCopy]
  generalize TaskBoard.cancelOrder id pk _ = r
  obtain ⟨staged, cancelled | e | _⟩ := r
  · cases commits with
    | false => rfl
    | true => rfl
  · rfl
  · rfl

/-- A cancellation. -/
theorem carriesOut_cancelOrder (h : hub.board.OrdersKeyed) :
    CarriesOut (TaskBoard.cancelOrder id pk) (fun order => order) hub
      (Hub.cancelOrder commits id pk hub) := by
  cases ho : hub.board.orders.lookup id with
  | none =>
    -- Without the order there is nothing to copy.
    have : Hub.cancelOrder commits id pk hub = (hub, .err (.board .orderNotFound)) := by
      rw [Hub.cancelOrder]
      change Call.bind Call.get _ hub = _
      rw [Call.bind, Call.get]
      dsimp only
      rw [ho]
      rfl
    rw [this]
    exact .err _
  | some order =>
    obtain rfl := h id order ho
    have hu : ((TaskBoard.new.restoreOrder order).restoreExchangeAccount pk
        (hub.board.exchangeAccount pk)).orders.lookup order.id = some order := Finmap.lookup_insert _
    have hsim : EndAlike _ (TaskBoard.cancelOrder order.id pk hub.board) (TaskBoard.cancelOrder order.id pk
        ((TaskBoard.new.restoreOrder order).restoreExchangeAccount pk (hub.board.exchangeAccount pk))) :=
      simulates_cancelOrder (staged_cancelOrder h ho) rfl ho hu _ _ ⟨rfl, rfl⟩
    rw [Hub.cancelOrder_eq ho]
    generalize hd : TaskBoard.cancelOrder order.id pk hub.board = d at hsim
    generalize TaskBoard.cancelOrder order.id pk _ = r at hsim
    obtain ⟨hsame, hreturn⟩ := hsim
    obtain ⟨u, cancelled | e | _⟩ := r
    · obtain ⟨hstaged, horder, hid, rfl⟩ := hreturn cancelled hsame
      cases commits with
      | false => exact .err _
      | true =>
        refine .done (a := cancelled) _ ?_ (fun h => (h.restoreOrder _).restoreExchangeAccount _ _)
          (fun h => h) (.of_eq rfl)
        rw [← hid] at hstaged horder
        rw [hd, staged_restoreOrderAndAccount hstaged horder]
        exact Prod.ext rfl hsame
    · exact .err _
    · exact .panic (hd ▸ hsame)

/-! ### Deposits -/

/-- Crediting a deposit on a board and on a copy that has the deposit and the account of
    the depositor. -/
theorem simulates_confirmExchangeDeposit {s u₀ : TaskBoard} {observedAmount networkFee : ℕ}
    {deposit : PendingDeposit} (hs : s.pendingDeposits.lookup deposit.id = some deposit)
    (hu : u₀.pendingDeposits.lookup deposit.id = some deposit)
    (haccount : u₀.exchangeAccount deposit.depositor = s.exchangeAccount deposit.depositor) :
    Simulates (fun t u => t = s ∧ u = u₀)
      (TaskBoard.confirmExchangeDeposit deposit.id observedAmount networkFee now)
      (TaskBoard.confirmExchangeDeposit deposit.id observedAmount networkFee now) fun p t u =>
        u.pendingDeposits.lookup deposit.id = some { deposit with status := .consumed } ∧
          t = s.restoreAccountAndDeposit p.1 (u.exchangeAccount p.1)
            { deposit with status := .consumed } := by
  refine .get_bind ?_
  rintro s u₀ ⟨rfl, rfl⟩
  rw [hs, hu]
  refine .lift_bind fun d hd => ?_
  obtain rfl := Option.some.inj (Outcome.okOr_eq_ok.1 hd)
  refine .lift_bind fun _ _ => .lift_bind fun _ _ => .lift_bind fun _ _ => .lift_bind fun _ _ => ?_
  -- The deposit is consumed on both.
  refine .bind (Q := fun _ t u =>
    t = s.restorePendingDeposit { deposit with status := .consumed } ∧
      u = u₀.restorePendingDeposit { deposit with status := .consumed }) (.modify ?_) fun _ => ?_
  · rintro _ _ ⟨rfl, rfl⟩
    exact ⟨rfl, rfl⟩
  -- And the same account is written on both, since it was the same.
  refine .bind (Q := fun _ t u => ∃ account,
    t = (s.restorePendingDeposit { deposit with status := .consumed }).restoreExchangeAccount
      deposit.depositor account ∧
    u = (u₀.restorePendingDeposit { deposit with status := .consumed }).restoreExchangeAccount
      deposit.depositor account) (.get_bind ?_) fun _ => .pure ?_
  · rintro _ _ ⟨rfl, rfl⟩
    have hsame : (u₀.restorePendingDeposit { deposit with status := .consumed }).exchangeAccount
        deposit.depositor = (s.restorePendingDeposit
          { deposit with status := .consumed }).exchangeAccount deposit.depositor := haccount
    rw [hsame]
    refine .lift_bind fun sum _ => .modify ?_
    rintro _ _ ⟨rfl, rfl⟩
    exact ⟨_, rfl, rfl⟩
  · rintro _ _ ⟨account, rfl, rfl⟩
    refine ⟨Finmap.lookup_insert _, ?_⟩
    rw [exchangeAccount_restoreExchangeAccount, if_pos rfl]
    rfl

/-- How the credit of a deposit the hub has ends. -/
theorem Hub.confirmExchangeDeposit_eq {observedAmount : ℕ} {deposit : PendingDeposit}
    (hd : hub.board.pendingDeposits.lookup id = some deposit) :
    Hub.confirmExchangeDeposit commits id pk observedAmount now hub =
      match TaskBoard.confirmExchangeDeposit id observedAmount hubTransactionFee now
        ((TaskBoard.new.restorePendingDeposit deposit).restoreExchangeAccount pk
          (hub.board.exchangeAccount pk)) with
      | (staged, .ok (depositor, credited)) =>
        match staged.pendingDeposits.lookup id with
        | some deposit =>
          let write := restoreAccountAndDeposit depositor (staged.exchangeAccount depositor) deposit
          if commits then (⟨write hub.board, write hub.store⟩, .ok (depositor, credited))
          else (hub, .err .store)
        | none => (hub, .panic)
      | (_, .err e) => (hub, .err (.board e))
      | (_, .panic) => (hub, .panic) := by
  rw [Hub.confirmExchangeDeposit]
  change Call.bind Call.get _ hub = _
  rw [Call.bind, Call.get]
  dsimp only
  rw [hd]
  change Call.bind (Call.mapErr PlaceError.board (Call.onCopy _ _)) _ hub = _
  rw [Call.bind, Call.mapErr, Call.onCopy]
  generalize TaskBoard.confirmExchangeDeposit id observedAmount hubTransactionFee now _ = r
  obtain ⟨staged, ⟨depositor, credited⟩ | e | _⟩ := r
  · dsimp only
    cases staged.pendingDeposits.lookup id with
    | none => rfl
    | some deposit =>
      cases commits with
      | false => rfl
      | true => rfl
  · rfl
  · rfl

/-- The credit of a deposit, for its depositor. -/
theorem carriesOut_confirmExchangeDeposit {observedAmount : ℕ}
    (h : ∀ deposit, hub.board.pendingDeposits.lookup id = some deposit → deposit.depositor = pk) :
    CarriesOut (TaskBoard.confirmExchangeDeposit id observedAmount hubTransactionFee now) (fun p => p) hub
      (Hub.confirmExchangeDeposit commits id pk observedAmount now hub) := by
  cases hd : hub.board.pendingDeposits.lookup id with
  | none =>
    have : Hub.confirmExchangeDeposit commits id pk observedAmount now hub =
        (hub, .err (.board .escrowNotFound)) := by
      rw [Hub.confirmExchangeDeposit]
      change Call.bind Call.get _ hub = _
      rw [Call.bind, Call.get]
      dsimp only
      rw [hd]
      rfl
    rw [this]
    exact .err _
  | some deposit =>
    obtain rfl := h deposit hd
    rw [Hub.confirmExchangeDeposit_eq hd]
    set u₀ := (TaskBoard.new.restorePendingDeposit deposit).restoreExchangeAccount deposit.depositor
      (hub.board.exchangeAccount deposit.depositor) with hu₀
    by_cases hid : deposit.id = id
    · subst hid
      have hu : u₀.pendingDeposits.lookup deposit.id = some deposit := Finmap.lookup_insert _
      have haccount : u₀.exchangeAccount deposit.depositor =
          hub.board.exchangeAccount deposit.depositor := by
        rw [hu₀, exchangeAccount_restoreExchangeAccount, if_pos rfl]
      have hsim : EndAlike _ (TaskBoard.confirmExchangeDeposit deposit.id observedAmount hubTransactionFee now
          hub.board) (TaskBoard.confirmExchangeDeposit deposit.id observedAmount hubTransactionFee now u₀) :=
        simulates_confirmExchangeDeposit hd hu haccount _ _ ⟨rfl, rfl⟩
      generalize hdirect : TaskBoard.confirmExchangeDeposit deposit.id observedAmount hubTransactionFee now
        hub.board = d at hsim
      generalize TaskBoard.confirmExchangeDeposit deposit.id observedAmount hubTransactionFee now u₀ = r
        at hsim
      obtain ⟨hsame, hreturn⟩ := hsim
      obtain ⟨u, ⟨depositor, credited⟩ | e | _⟩ := r
      · obtain ⟨hconsumed, hboard⟩ := hreturn _ hsame
        dsimp only at hconsumed ⊢
        rw [hconsumed]
        cases commits with
        | false => exact .err _
        | true =>
          refine .done (a := (depositor, credited)) _ ?_
            (fun h => ⟨h.orders, h.trades, (h.restoreExchangeAccount _ _).account⟩)
            (fun h => DepositsKeyed.insert h rfl) (.insert hd rfl rfl)
          rw [hdirect]
          exact Prod.ext hboard hsame
      · exact .err _
      · exact .panic (hdirect ▸ hsame)
    · -- The deposit would be stored under another id: the copy does not have it.
      have hnone : u₀.pendingDeposits.lookup id = none := by
        rw [hu₀]
        exact Finmap.lookup_insert_of_ne _ (Ne.symm hid)
      have hmissing : TaskBoard.confirmExchangeDeposit id observedAmount hubTransactionFee now u₀ =
          (u₀, .err .escrowNotFound) := by
        rw [TaskBoard.confirmExchangeDeposit]
        change Call.bind Call.get _ u₀ = _
        rw [Call.bind, Call.get]
        dsimp only
        rw [hnone]
        rfl
      rw [hmissing]
      exact .err _

/-! ## The desk -/

/-- The hub as its exchange sees it, with what is kept of the run: the confirmations for
    which the node is being asked, the balances at first, and what each key has since
    deposited and withdrawn. -/
structure Desk where
  hub : Hub
  asked : List (Uuid × PublicKey)
  opening : PublicKey → Side → ℕ
  deposited : PublicKey → ℕ
  withdrawn : PublicKey → ℕ

/-- What happens to the desk: the two parts of a confirmation, placements, cancellations,
    payments, a restart, and everything else the hub does. -/
inductive DeskOp
  | askDeposit (escrowId : Uuid) (pubkey : PublicKey)
  | confirmDeposit (commits : Bool) (escrowId : Uuid) (pubkey : PublicKey) (observedAmount : ℕ)
      (now : DateTime)
  | placeOrder (commits : Bool) (id : Uuid) (tradeIds : ℕ → Uuid) (owner : PublicKey) (side : Side)
      (price quantity : ℕ) (now : DateTime)
  | cancelOrder (commits : Bool) (orderId : Uuid) (pubkey : PublicKey)
  | prepare (chainHeight : ℕ) (commits : Bool) (payment : Payment)
  | restart
  | other (hub : Hub)

/-- The desk after a step. -/
def DeskOp.after (feeSink : PublicKey) (desk : Desk) : DeskOp → Desk
  | .askDeposit escrowId pubkey =>
    match desk.hub.board.depositAddress escrowId pubkey with
    | .ok _ => { desk with asked := (escrowId, pubkey) :: desk.asked }
    | _ => desk
  | .confirmDeposit commits escrowId pubkey observedAmount now =>
    if (escrowId, pubkey) ∈ desk.asked then
      match Hub.confirmExchangeDeposit commits escrowId pubkey observedAmount now desk.hub with
      | (hub, .ok (depositor, credited)) =>
        { desk with hub, deposited := fun pk => desk.deposited pk + if pk = depositor then credited else 0 }
      | (hub, _) => { desk with hub }
    else desk
  | .placeOrder commits id tradeIds owner side price quantity now =>
    { desk with
      hub := (Hub.placeOrder commits feeSink id tradeIds owner side price quantity now desk.hub).1 }
  | .cancelOrder commits orderId pubkey =>
    { desk with hub := (Hub.cancelOrder commits orderId pubkey desk.hub).1 }
  | .prepare chainHeight commits payment =>
    match Itx.prepare chainHeight commits payment desk.hub with
    | (hub, .ok payment) =>
      { desk with
        hub
        withdrawn := fun pk => desk.withdrawn pk +
          if pk = payment.recipient then payment.purpose.debited?.getD 0 else 0 }
    | (hub, _) => { desk with hub }
  | .restart => { desk with hub := ⟨desk.hub.store, desk.hub.store⟩, asked := [] }
  | .other hub => { desk with hub }

/-- What the rest of the hub leaves alone: the exchange, in memory and on disk, and who
    made a deposit. -/
structure Hub.LeavesExchange (hub hub' : Hub) : Prop where
  board : hub'.board.Alike hub.board
  store : hub'.store.Alike hub.store
  kept : hub.board.KeepsDepositors hub'.board
  keyed : hub'.board.DepositsKeyed
  keyedStore : hub'.store.DepositsKeyed

/-- The desks that runs begin with: a hub that has just started from its store, with
    balances but no order and no trade. -/
structure Desk.Opens (desk : Desk) : Prop where
  loaded : desk.hub.board = desk.hub.store
  orders : desk.hub.store.orders = ∅
  trades : desk.hub.store.trades = ∅
  unlocked : ∀ (side : Side) pk, desk.hub.store.amount pk side.locked = 0
  opening : ∀ (side : Side) pk, desk.opening pk side = desk.hub.store.amount pk side.balance
  bound : InBound desk.hub.store
  keyed : desk.hub.store.DepositsKeyed
  asked : desk.asked = []
  deposited : ∀ pk, desk.deposited pk = 0
  withdrawn : ∀ pk, desk.withdrawn pk = 0

/-- The desk as a transition system. -/
def deskSystem (feeSink : PublicKey) : System Desk DeskOp where
  init := {desk | desk.Opens}
  step desk op desk' := desk' = op.after feeSink desk

/-- The steps that keep the supplies within the bound, whose placements draw fresh ids, and
    whose other part is not about the exchange. -/
structure DeskOp.Within (feeSink : PublicKey) (desk : Desk) (op : DeskOp) : Prop where
  bound : InBound (op.after feeSink desk).hub.board
  fresh : ∀ commits id tradeIds owner side price quantity now,
    op = .placeOrder commits id tradeIds owner side price quantity now →
      id ∉ desk.hub.board.orders ∧ tradeIds.Injective ∧ ∀ n, tradeIds n ∉ desk.hub.board.trades
  other : ∀ hub, op = .other hub → desk.hub.LeavesExchange hub

/-- What the board and the store say of the exchange, and that it holds together. -/
structure Desk.Durable (desk : Desk) : Prop where
  alike : desk.hub.board.Alike desk.hub.store
  sound : desk.hub.board.Sound
  booked : desk.hub.board.Booked
  bound : InBound desk.hub.board
  keyed : desk.hub.board.DepositsKeyed
  keyedStore : desk.hub.store.DepositsKeyed
  asked : ∀ p ∈ desk.asked, ∃ d, desk.hub.board.pendingDeposits.lookup p.1 = some d ∧ d.depositor = p.2

/-! ## Steps -/

namespace TaskBoard

/-- Crediting a fee, if there is one, to what keeps `P`. -/
theorem credit_bind_of {P : TaskBoard → Prop} {α : Type} {n : ℕ} {f : BoardCall α}
    {Q : α → TaskBoard → Prop} (side : Side) (hadd : Preserves P (addTo pk side.balance n))
    (hf : Triple P f Q (fun _ _ => True) fun _ => True) :
    Triple P (if n > 0 then addTo pk side.balance n >>= fun _ => f else f) Q (fun _ _ => True)
      fun _ => True := by
  split_ifs
  · exact .bind (hadd.conseq (fun _ h => h) (fun _ _ h => h) (fun _ _ _ => trivial) fun _ _ => trivial)
      fun _ => hf
  · exact hf

/-- What a placement and the credit of its fees leave, if the credits keep it. -/
theorem triple_placeOrderWithFees_of {s : TaskBoard} {P : TaskBoard → Prop}
    {feeSink owner : PublicKey} {tradeIds : ℕ → Uuid} {side : Side} {price quantity : ℕ}
    (hplace : Triple (· = s) (placeOrder id tradeIds owner side price quantity now) (fun _ => P)
      (fun _ _ => True) fun _ => True)
    (hadd : ∀ (side : Side) n, Preserves P (addTo feeSink side.balance n)) :
    Triple (· = s) (placeOrderWithFees feeSink id tradeIds owner side price quantity now)
      (fun _ => P) (fun _ _ => True) fun _ => True := by
  refine .bind hplace fun p => .expect_bind (fun totals _ => ?_) fun _ _ _ => trivial
  obtain ⟨order, trades⟩ := p
  obtain ⟨computeFees, baseFees⟩ := totals
  exact credit_bind_of .sell (hadd .sell _) (credit_bind_of .buy (hadd .buy _) (.pure fun _ h => h))

/-- What holds together of the exchange. -/
structure Orderly (s : TaskBoard) : Prop where
  sound : s.Sound
  booked : s.Booked

variable {s : TaskBoard}

theorem orderly_addTo (side : Side) (n : ℕ) : Preserves Orderly (addTo pk side.balance n) := by
  have hbooked : Preserves Booked (addTo pk side.balance n) :=
    preserves_addTo fun _ _ _ h => h.congr rfl rfl
  exact ((sound_addTo side n).and hbooked).conseq (fun _ h => ⟨h.sound, h.booked⟩)
    (fun _ _ h => ⟨h.1, h.2⟩) (fun _ _ h => ⟨h.1, h.2⟩)
    fun _ h => ⟨h.1, h.2⟩

/-- A placement with fresh ids. -/
theorem orderly_placeOrderWithFees {feeSink owner : PublicKey} {tradeIds : ℕ → Uuid} {side : Side}
    {price quantity : ℕ} (h : s.Orderly) (hb : InBound s) (hid : id ∉ s.orders)
    (hinj : tradeIds.Injective) (hfresh : ∀ n, tradeIds n ∉ s.trades) :
    Triple (· = s) (placeOrderWithFees feeSink id tradeIds owner side price quantity now)
      (fun _ => Orderly) (fun _ _ => True) fun _ => True := by
  refine triple_placeOrderWithFees_of ?_ orderly_addTo
  exact ((triple_placeOrder h.sound hb hid).and (triple_placeOrder_booked h.booked hid)).conseq
    (fun _ e => ⟨e, e⟩) (fun _ _ h => ⟨h.1, h.2.1 hinj hfresh⟩) (fun _ _ _ => trivial) fun _ _ => trivial

/-- A placement with a fresh id does not panic, nor do the credits of its fees. -/
theorem placeOrderWithFees_ne_panic {feeSink owner : PublicKey} {tradeIds : ℕ → Uuid} {side : Side}
    {price quantity : ℕ} (h : s.Sound) (hb : InBound s) (hid : id ∉ s.orders) :
    (placeOrderWithFees feeSink id tradeIds owner side price quantity now s).2 ≠ .panic := by
  have hlt : ∀ side, s.supply side < u64Bound := fun side => (hb side).trans (by decide)
  exact ((triple_placeOrderWithFees (fun hn => ((triple_placeOrder h hb hid).apply rfl).2 hn)
    fun side hle => absurd (hlt side) (not_lt.2 hle)).conseq (fun _ e => e) (fun _ _ _ => trivial)
    (fun _ _ _ => trivial) fun _ h => h).apply rfl |>.2

theorem orderly_cancelOrder (h : s.Orderly) (hb : InBound s) :
    Triple (· = s) (TaskBoard.cancelOrder id pk) (fun _ => Orderly) (fun _ _ => True) fun _ => True :=
  ((triple_cancelOrder h.sound hb).and (triple_cancelOrder_booked h.booked)).conseq
    (fun _ e => ⟨e, e⟩) (fun _ _ h => ⟨h.1, h.2⟩) (fun _ _ _ => trivial) fun _ _ => trivial

theorem orderly_confirmExchangeDeposit {observedAmount networkFee : ℕ} :
    Preserves Orderly (TaskBoard.confirmExchangeDeposit id observedAmount networkFee now) := by
  refine .bind .get fun s => .bind (.lift _) fun deposit => .bind (.lift _) fun _ => ?_
  refine .bind (.lift _) fun _ => .bind (.lift _) fun _ => .bind (.lift _) fun _ => ?_
  refine .bind (.modify fun s h => ⟨h.sound.congr rfl rfl, h.booked.congr rfl rfl⟩) fun _ => ?_
  exact .bind (orderly_addTo .buy _) fun _ => .pure _

end TaskBoard

variable {feeSink : PublicKey} {desk : Desk}

/-- The confirmations under way are of the depositors, whatever keeps these. -/
theorem Desk.Durable.asked_of_kept (h : desk.Durable) {board : TaskBoard}
    (hkept : desk.hub.board.KeepsDepositors board) :
    ∀ p ∈ desk.asked, ∃ d, board.pendingDeposits.lookup p.1 = some d ∧ d.depositor = p.2 := by
  intro p hp
  obtain ⟨d, hd, hdepositor⟩ := h.asked p hp
  obtain ⟨d', hd', hdepositor'⟩ := hkept _ d hd
  exact ⟨d', hd', hdepositor'.trans hdepositor⟩

/-- What a handler that carries out a call on the board leaves. -/
theorem Desk.Durable.carriesOut {α β : Type} {x : BoardCall α} {answer : α → β}
    {r : Hub × Outcome PlaceError β} (h : desk.Durable)
    (hx : Triple (· = desk.hub.board) x (fun _ => Orderly) (fun _ _ => True) fun _ => True)
    (hr : CarriesOut x answer desk.hub r) (hb : InBound r.1.board) :
    Desk.Durable { desk with hub := r.1 } := by
  cases hr with
  | @done a rows hdone halike hkeyed hkept =>
    have hend := hx _ rfl
    rw [hdone] at hend
    have hend : (rows desk.hub.board).Orderly := hend
    exact ⟨halike h.alike, hend.sound, hend.booked, hb, hkeyed h.keyed, hkeyed h.keyedStore,
      h.asked_of_kept hkept⟩
  | refused _ _ => exact h

/-- A confirmation under way credits the depositor. -/
theorem Desk.Durable.carriesOut_confirm (h : desk.Durable) {observedAmount : ℕ}
    (hasked : (id, pk) ∈ desk.asked) :
    CarriesOut (TaskBoard.confirmExchangeDeposit id observedAmount hubTransactionFee now) (fun p => p)
      desk.hub (Hub.confirmExchangeDeposit commits id pk observedAmount now desk.hub) := by
  obtain ⟨d, hd, hdepositor⟩ := h.asked _ hasked
  refine carriesOut_confirmExchangeDeposit fun d' hd' => ?_
  rw [hd] at hd'
  rw [← Option.some.inj hd', hdepositor]

/-- Rows of the journal written to two boards that say the same. -/
theorem alike_savePaymentEffects {s t : TaskBoard} (h : s.Alike t) (payment : Payment)
    (account : Option (PublicKey × ExchangeAccount)) (deposit : Option PendingDeposit)
    (reputation : Option (PublicKey × Reputation)) (faucet : Bool) :
    (savePaymentEffects payment account deposit reputation faucet s).Alike
      (savePaymentEffects payment account deposit reputation faucet t) := by
  refine ⟨h.orders, h.trades, fun x => ?_⟩
  cases account with
  | none => exact h.account x
  | some a => exact (h.restoreExchangeAccount a.1 a.2).account x

/-- Preparing a payment writes the same rows to both, and keeps the depositors. -/
theorem Prepared.leaves {hub hub' : Hub} {payment : Payment} (h : Prepared payment hub hub')
    (halike : hub.board.Alike hub.store) (hkeyed : hub.board.DepositsKeyed)
    (hkeyedStore : hub.store.DepositsKeyed) :
    hub'.board.Alike hub'.store ∧ hub.board.KeepsDepositors hub'.board ∧ hub'.board.DepositsKeyed ∧
      hub'.store.DepositsKeyed := by
  obtain ⟨-, account, deposit, hr, hboard, hstore⟩ := h
  rw [hboard, hstore]
  refine ⟨alike_savePaymentEffects halike _ _ _ _ _, ?_⟩
  rcases reserve_cases hr with ⟨-, -, rfl⟩ | ⟨_, _, -, -, -, -, rfl⟩ | ⟨_, _, _, d, -, -, hd, -, rfl⟩
  · exact ⟨.of_eq rfl, hkeyed.of_eq rfl, hkeyedStore.of_eq rfl⟩
  · exact ⟨.of_eq rfl, hkeyed.of_eq rfl, hkeyedStore.of_eq rfl⟩
  · obtain rfl := hkeyed _ d hd
    exact ⟨.insert hd rfl rfl, (DepositsKeyed.insert hkeyed rfl).of_eq rfl,
      (DepositsKeyed.insert hkeyedStore rfl).of_eq rfl⟩

/-- What one step preserves. -/
theorem Desk.Durable.after (h : desk.Durable) {op : DeskOp} (hop : op.Within feeSink desk) :
    (op.after feeSink desk).Durable := by
  have horderly : desk.hub.board.Orderly := ⟨h.sound, h.booked⟩
  have hbound := hop.bound
  cases op with
  | askDeposit escrowId pubkey =>
    rw [DeskOp.after]
    split
    · next hask =>
      obtain ⟨d, hd, hask⟩ := Outcome.bind_eq_ok.1 hask
      obtain ⟨_, hdepositor, -⟩ := Outcome.bind_eq_ok.1 hask
      refine { h with asked := fun p hp => ?_ }
      rcases List.mem_cons.1 hp with rfl | hp
      · exact ⟨d, Outcome.okOr_eq_ok.1 hd, Outcome.ensure_eq_ok.1 hdepositor⟩
      · exact h.asked p hp
    · exact h
  | confirmDeposit commits escrowId pubkey observedAmount now =>
    rw [DeskOp.after] at hbound ⊢
    split_ifs at hbound ⊢ with hasked
    · have hdirect : Triple (· = desk.hub.board) (TaskBoard.confirmExchangeDeposit escrowId observedAmount
          hubTransactionFee now) (fun _ => Orderly) (fun _ _ => True) fun _ => True :=
        orderly_confirmExchangeDeposit.conseq (fun _ e => e ▸ horderly) (fun _ _ h => h)
          (fun _ _ _ => trivial) fun _ _ => trivial
      have hcarries : CarriesOut (TaskBoard.confirmExchangeDeposit escrowId observedAmount
          hubTransactionFee now) (fun p => p) desk.hub
          (Hub.confirmExchangeDeposit commits escrowId pubkey observedAmount now desk.hub) :=
        h.carriesOut_confirm hasked
      have hr := h.carriesOut hdirect hcarries
      generalize Hub.confirmExchangeDeposit commits escrowId pubkey observedAmount now desk.hub = r
        at hr hbound ⊢
      obtain ⟨hub, ⟨depositor, credited⟩ | e | _⟩ := r
      · exact { hr hbound with }
      · exact hr hbound
      · exact hr hbound
    · exact h
  | placeOrder commits id tradeIds owner side price quantity now =>
    obtain ⟨hid, hinj, hfresh⟩ := hop.fresh _ _ _ _ _ _ _ _ rfl
    exact h.carriesOut (orderly_placeOrderWithFees horderly h.bound hid hinj hfresh)
      (carriesOut_placeOrder h.booked.keyed hid) hbound
  | cancelOrder commits orderId pubkey =>
    exact h.carriesOut (orderly_cancelOrder horderly h.bound) (carriesOut_cancelOrder h.booked.keyed)
      hbound
  | prepare chainHeight commits payment =>
    have hsound : (Itx.prepare chainHeight commits payment desk.hub).1.board.Sound := sound_prepare h.sound
    have hend : Ends _ _ _ (Itx.prepare chainHeight commits payment desk.hub) :=
      triple_prepare chainHeight desk.hub rfl
    rw [DeskOp.after] at hbound ⊢
    generalize Itx.prepare chainHeight commits payment desk.hub = r at hsound hend hbound ⊢
    obtain ⟨hub, p | e | _⟩ := r
    · obtain ⟨-, hprepared⟩ := hend
      obtain ⟨halike, hkept, hkeyed, hkeyedStore⟩ := hprepared.leaves h.alike h.keyed h.keyedStore
      obtain ⟨-, account, deposit, -, hboard, -⟩ := hprepared
      have hbooked : hub.board.Booked := by
        rw [hboard]
        exact h.booked.congr rfl rfl
      exact ⟨halike, hsound, hbooked, hbound, hkeyed, hkeyedStore, h.asked_of_kept hkept⟩
    · rw [show hub = desk.hub from hend]
      exact { h with }
    · exact hend.elim
  | restart =>
    refine ⟨.refl _, h.alike.symm.sound h.sound, h.alike.symm.booked h.booked, hbound, h.keyedStore,
      h.keyedStore, by simp [DeskOp.after]⟩
  | other hub =>
    obtain ⟨hboard, hstore, hkept, hkeyed, hkeyedStore⟩ := hop.other hub rfl
    exact ⟨(hboard.trans h.alike).trans hstore.symm, hboard.sound h.sound, hboard.booked h.booked, hbound,
      hkeyed, hkeyedStore, h.asked_of_kept hkept⟩

/-! ## Runs -/

theorem Desk.Opens.durable (h : desk.Opens) : desk.Durable := by
  have hsound : desk.hub.store.Sound := by
    rw [Sound, h.orders]
    refine ⟨by simp, by simp, by simp, fun side pk => ?_, fun side pk => ?_⟩
    · rw [h.unlocked, lockedIn, Finmap.total_empty]
    · rw [h.unlocked]
      exact Nat.zero_le _
  have hbooked := booked_of_empty h.orders h.trades
  have hloaded := h.loaded
  refine ⟨hloaded ▸ .refl _, hloaded ▸ hsound, hloaded ▸ hbooked, hloaded ▸ h.bound, hloaded ▸ h.keyed,
    h.keyed, ?_⟩
  rw [h.asked]
  rintro _ ⟨⟩

theorem durable_of_reachable
    (hd : (deskSystem feeSink).ReachableBy (DeskOp.Within feeSink) desk) : desk.Durable := by
  have h₀ : ∀ desk ∈ (deskSystem feeSink).init, desk.Durable := fun _ h => h.durable
  refine hd.invariant h₀ ?_
  rintro desk op _ h hop rfl
  exact h.after hop

/-- The exchange survives restarts. In every run of placements, cancellations, deposits,
    payments and restarts, from a store with no order and no trade, with fresh ids and balances
    that the supply bounds, whichever of their commits fail, the store says of the exchange
    what the board says, so that a restart at any point changes nothing of it; in what the
    store holds, the locks are those of the open orders and the balances cover them, the
    book is not crossed, and what is filled of an order is what its trades say. The
    handlers that place, with a fresh id, and that cancel never panic. -/
theorem trading_durable (hd : (deskSystem feeSink).ReachableBy (DeskOp.Within feeSink) desk) :
    desk.hub.board.Alike desk.hub.store ∧ desk.hub.store.Sound ∧ desk.hub.store.Booked ∧
    (∀ commits id tradeIds owner side price quantity now, id ∉ desk.hub.board.orders →
      (Hub.placeOrder commits feeSink id tradeIds owner side price quantity now desk.hub).2 ≠ .panic) ∧
    ∀ commits orderId pubkey, (Hub.cancelOrder commits orderId pubkey desk.hub).2 ≠ .panic := by
  have h := durable_of_reachable hd
  refine ⟨h.alike, h.alike.symm.sound h.sound, h.alike.symm.booked h.booked, ?_, ?_⟩
  · intro commits id tradeIds owner side price quantity now hid
    have hr : CarriesOut (placeOrderWithFees feeSink id tradeIds owner side price quantity now) Prod.fst
        desk.hub (Hub.placeOrder commits feeSink id tradeIds owner side price quantity now desk.hub) :=
      carriesOut_placeOrder h.booked.keyed hid
    have hdirect : (placeOrderWithFees feeSink id tradeIds owner side price quantity now desk.hub.board).2 ≠
        .panic := placeOrderWithFees_ne_panic h.sound h.bound hid
    intro hpanic
    generalize Hub.placeOrder commits feeSink id tradeIds owner side price quantity now desk.hub = r
      at hr hpanic
    cases hr with
    | done => cases hpanic
    | refused _ h => exact hdirect (h hpanic)
  · intro commits orderId pubkey hpanic
    have hr : CarriesOut (TaskBoard.cancelOrder orderId pubkey) (fun order => order) desk.hub
        (Hub.cancelOrder commits orderId pubkey desk.hub) := carriesOut_cancelOrder h.booked.keyed
    have hdirect : (TaskBoard.cancelOrder orderId pubkey desk.hub.board).2 ≠ .panic :=
      ((triple_cancelOrder h.sound h.bound).apply rfl).2
    generalize Hub.cancelOrder commits orderId pubkey desk.hub = r at hr hpanic
    cases hr with
    | done => cases hpanic
    | refused _ h => exact hdirect (h hpanic)

/-- A desk that has just started: key `2` has `5000` of compute, and key `1` is to send a
    deposit. -/
def sampleDesk : Desk where
  hub :=
    let store := (TaskBoard.new.restoreExchangeAccount 2 { computeBalance := 5000 }).restorePendingDeposit
      ⟨7, 1, 70, 2000, .fundExchangeAccount, .reserved, 0, 100⟩
    ⟨store, store⟩
  asked := []
  opening pk side := if pk = 2 ∧ side = .sell then 5000 else 0
  deposited _ := 0
  withdrawn _ := 0

/-- A deposit is credited, an order to sell rests and another one fails to commit before it
    is bought from; then the hub is started again, and what is left of the order cancelled. -/
def sampleTrading : List DeskOp :=
  [.askDeposit 7 1, .confirmDeposit true 7 1 101000 0, .placeOrder true 10 (fun n => n) 2 .sell 3 3000 0,
    .placeOrder false 12 (fun n => n) 1 .buy 4 500 1, .placeOrder true 11 (fun n => n) 1 .buy 4 1000 1,
    .restart, .cancelOrder true 10 2]

theorem sampleDesk_opens : sampleDesk.Opens := by
  have haccount : ∀ pk, sampleDesk.hub.store.exchangeAccount pk =
      if pk = 2 then { computeBalance := 5000 } else default := fun pk =>
    exchangeAccount_restoreExchangeAccount (s := TaskBoard.new) _
  refine ⟨rfl, rfl, rfl, fun side pk => ?_, fun side pk => ?_, by decide +kernel, fun id d hd => ?_, rfl,
    fun _ => rfl, fun _ => rfl⟩
  · rw [amount, haccount]
    split_ifs <;> cases side <;> rfl
  · rw [amount, haccount]
    by_cases hpk : pk = 2
    · cases side <;> simp [sampleDesk, hpk, Side.balance, ExchangeAccount.get]
    · simp [sampleDesk, hpk]
  · exact (DepositsKeyed.insert (b := TaskBoard.new) (fun _ _ h => by cases h) rfl) id d hd

/-- A step that does not place an order. -/
theorem DeskOp.Within.of_ne {op : DeskOp} (hbound : InBound (op.after feeSink desk).hub.board)
    (hplace : ∀ commits id tradeIds owner side price quantity now,
      op ≠ .placeOrder commits id tradeIds owner side price quantity now)
    (hother : ∀ hub, op ≠ .other hub) : op.Within feeSink desk :=
  ⟨hbound, fun _ _ _ _ _ _ _ _ e => absurd e (hplace _ _ _ _ _ _ _ _), fun _ e => absurd e (hother _)⟩

/-- A placement while there are no trades. -/
theorem DeskOp.Within.place {commits : Bool} {owner : PublicKey} {side : Side} {price quantity : ℕ}
    (hbound : InBound (DeskOp.after feeSink desk
      (.placeOrder commits id (fun n => n) owner side price quantity now)).hub.board)
    (hid : id ∉ desk.hub.board.orders) (htrades : desk.hub.board.trades = ∅) :
    DeskOp.Within feeSink desk (.placeOrder commits id (fun n => n) owner side price quantity now) := by
  refine ⟨hbound, ?_, by rintro _ ⟨⟩⟩
  rintro _ _ _ _ _ _ _ _ ⟨⟩
  refine ⟨hid, fun _ _ h => h, fun n => ?_⟩
  rw [htrades]
  exact Finmap.notMem_empty

theorem sampleTrading_reachable : (deskSystem 0).ReachableBy (DeskOp.Within 0)
    (sampleTrading.foldl (DeskOp.after 0) sampleDesk) := by
  have h₀ : (deskSystem 0).ReachableBy (DeskOp.Within 0) sampleDesk := .init sampleDesk_opens
  have h₁ := h₀.step (l := .askDeposit 7 1)
    (.of_ne (by decide +kernel) (by rintro _ _ _ _ _ _ _ _ ⟨⟩) (by rintro _ ⟨⟩)) rfl
  have h₂ := h₁.step (l := .confirmDeposit true 7 1 101000 0)
    (.of_ne (by decide +kernel) (by rintro _ _ _ _ _ _ _ _ ⟨⟩) (by rintro _ ⟨⟩)) rfl
  have h₃ := h₂.step (l := .placeOrder true 10 (fun n => n) 2 .sell 3 3000 0)
    (.place (by decide +kernel) (by decide +kernel) (by decide +kernel)) rfl
  have h₄ := h₃.step (l := .placeOrder false 12 (fun n => n) 1 .buy 4 500 1)
    (.place (by decide +kernel) (by decide +kernel) (by decide +kernel)) rfl
  have h₅ := h₄.step (l := .placeOrder true 11 (fun n => n) 1 .buy 4 1000 1)
    (.place (by decide +kernel) (by decide +kernel) (by decide +kernel)) rfl
  have h₆ := h₅.step (l := .restart)
    (.of_ne (by decide +kernel) (by rintro _ _ _ _ _ _ _ _ ⟨⟩) (by rintro _ ⟨⟩)) rfl
  exact h₆.step (l := .cancelOrder true 10 2)
    (.of_ne (by decide +kernel) (by rintro _ _ _ _ _ _ _ _ ⟨⟩) (by rintro _ ⟨⟩)) rfl

/-- After the sample run, key `1` has paid `3000` for its `1000` of compute, less the fee,
    nothing is locked any more, and the disk agrees. -/
theorem trading_durable_sample :
    let desk := sampleTrading.foldl (DeskOp.after 0) sampleDesk
    desk.hub.store.exchangeAccount 1 = ⟨97000, 0, 999, 0⟩ ∧
      desk.hub.store.exchangeAccount 2 = ⟨3000, 0, 4000, 0⟩ ∧ desk.hub.board.Alike desk.hub.store :=
  ⟨by decide +kernel, by decide +kernel, (trading_durable sampleTrading_reachable).1⟩

end Itx
