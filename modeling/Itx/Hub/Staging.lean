import Itx.Lib.Simulation
import Itx.Hub.Locks

/-!
# Staged placement

The handler `place_order` (`hub/src/handlers.rs`) runs a placement on a working copy
of the board, which holds only the resting orders the new one crosses and the accounts
of their owners, of the placer and of the fee sink (`stageOrder`). The records the
placement touched are read off the copy, committed to the store at once (`saveFill`)
and then published on the live board, which nothing else has written.

The copy and the whole board are run side by side (`Staged`): they agree on the
accounts that were copied and on the orders that match, and the whole board is the
one before with the touched records replaced by those of the copy. So publishing
them is placing the order on the whole board.
-/

namespace Itx

open Call

/-- What the handler `place_order` fails with: an error of the board, or a commit that
    failed. -/
inductive PlaceError
  | board (e : BoardError)
  | store
  deriving DecidableEq, Repr

namespace TaskBoard

/-- The orders `stage_order` copies: open, of another owner, on the other side, at a
    price the new order crosses. -/
def isStaged (owner : PublicKey) (side : Side) (price : ℕ) (o : Order) : Bool :=
  o.status = .open && o.owner ≠ owner && o.side ≠ side &&
    match side with
    | .buy => o.price ≤ price
    | .sell => o.price ≥ price

/-- `TaskBoard::stage_order`. -/
def stageOrder (owner : PublicKey) (side : Side) (price : ℕ) (feeSink : PublicKey) (s : TaskBoard) :
    TaskBoard :=
  let staged := (new.restoreExchangeAccount owner (s.exchangeAccount owner)).restoreExchangeAccount
    feeSink (s.exchangeAccount feeSink)
  (s.orders.values.filter (isStaged owner side price)).foldl
    (fun staged o =>
      (staged.restoreExchangeAccount o.owner (s.exchangeAccount o.owner)).restoreOrder o) staged

/-- The orders of some trades. -/
def tradedOrders (trades : List Trade) : Finset Uuid :=
  (trades.flatMap fun t => [t.buyOrderId, t.sellOrderId]).toFinset

/-- The parties of some trades. -/
def tradedAccounts (trades : List Trade) : Finset PublicKey :=
  (trades.flatMap fun t => [t.buyer, t.seller]).toFinset

/-- Whether some trades earned a fee. -/
def EarnsFees (trades : List Trade) : Prop :=
  ∃ fees ∈ takerFeeTotals trades, fees.1 > 0 ∨ fees.2 > 0

instance (trades : List Trade) : Decidable (EarnsFees trades) :=
  match h : takerFeeTotals trades with
  | none => .isFalse fun ⟨_, hfees, _⟩ => by rw [h] at hfees; cases hfees
  | some fees => decidable_of_iff (fees.1 > 0 ∨ fees.2 > 0) (by simp [EarnsFees, h])

/-- The resting orders a placement moved. -/
def touchedOrders (order : Order) (trades : List Trade) : Finset Uuid :=
  (tradedOrders trades).erase order.id

/-- The accounts a placement moved: the parties, the placer, whether it traded or not,
    and the fee sink if it earned anything. -/
def touchedAccounts (feeSink : PublicKey) (order : Order) (trades : List Trade) : Finset PublicKey :=
  let accounts := insert order.owner (tradedAccounts trades)
  if EarnsFees trades then insert feeSink accounts else accounts

/-- The placed order, and the resting ones it moved as they stand on a board. -/
def readOrders (order : Order) (trades : List Trade) (staged : TaskBoard) : List Order :=
  order :: (touchedOrders order trades).ascending.filterMap staged.orders.lookup

/-- The accounts a placement moved, as they stand on a board. -/
def readAccounts (feeSink : PublicKey) (order : Order) (trades : List Trade) (staged : TaskBoard) :
    List (PublicKey × ExchangeAccount) :=
  (touchedAccounts feeSink order trades).ascending.map fun pk => (pk, staged.exchangeAccount pk)

/-- The records of a fill, one after the other: the rows of `HubStore::save_fill`, and
    what is then published. -/
def restoreFill (orders : List Order) (trades : List Trade)
    (accounts : List (PublicKey × ExchangeAccount)) (s : TaskBoard) : TaskBoard :=
  let s := orders.foldl (fun s order => s.restoreOrder order) s
  let s := trades.foldl (fun s trade => s.restoreTrade trade) s
  accounts.foldl (fun s entry => s.restoreExchangeAccount entry.1 entry.2) s

end TaskBoard

open TaskBoard

/-- `HubStore::save_fill`: one transaction, which commits or fails. -/
def saveFill (commits : Bool) (orders : List Order) (trades : List Trade)
    (accounts : List (PublicKey × ExchangeAccount)) : Call Hub PlaceError Unit :=
  if commits then Call.modify fun hub => { hub with store := hub.store.restoreFill orders trades accounts }
  else Call.lift (.err .store)

/-- The handler `place_order`, with the ids it draws and whether its commit
    succeeds. -/
def Hub.placeOrder (commits : Bool) (feeSink : PublicKey) (id : Uuid) (tradeIds : ℕ → Uuid)
    (owner : PublicKey) (side : Side) (price quantity : ℕ) (now : DateTime) :
    Call Hub PlaceError Order := do
  let (staged, order, trades) ← Call.mapErr .board <|
    Call.onCopy (fun hub : Hub => hub.board.stageOrder owner side price feeSink)
      (placeOrderWithFees feeSink id tradeIds owner side price quantity now)
  let orders := readOrders order trades staged
  let accounts := readAccounts feeSink order trades staged
  saveFill commits orders trades accounts
  Call.modify fun hub => { hub with board := hub.board.restoreFill orders trades accounts }
  pure order

/-! ## The copy and the whole board -/

namespace TaskBoard

/-- Every order is stored under its id. -/
def OrdersKeyed (s : TaskBoard) : Prop := ∀ id o, s.orders.lookup id = some o → o.id = id

/-- What a placement has written so far. -/
structure Touched where
  accounts : Finset PublicKey
  orders : Finset Uuid
  trades : List Trade

/-- The account of one more key. -/
def Touched.withAccount (pk : PublicKey) (w : Touched) : Touched :=
  { w with accounts := insert pk w.accounts }

/-- One more order. -/
def Touched.withOrder (id : Uuid) (w : Touched) : Touched :=
  { w with orders := insert id w.orders }

@[simp] theorem Touched.withAccount_withAccount (pk : PublicKey) (w : Touched) :
    (w.withAccount pk).withAccount pk = w.withAccount pk := by
  simp [withAccount]

/-- The whole board `t` and the working copy `u` of a placement on `s` that has touched
    `w`. They agree on the accounts `copied` and on the orders that are `crossing`,
    and `t` is `s` with the touched records as they stand in `u`. -/
structure Staged (s : TaskBoard) (copied : Set PublicKey) (crossing : Order → Bool) (w : Touched)
    (t u : TaskBoard) : Prop where
  account : ∀ pk ∈ copied, u.exchangeAccounts.lookup pk = some (t.exchangeAccount pk)
  accounts : s.exchangeAccounts.Overlays w.accounts u.exchangeAccounts t.exchangeAccounts
  touched : ∀ pk ∈ w.accounts, pk ∈ copied
  order : ∀ id, (t.orders.lookup id).filter crossing = (u.orders.lookup id).filter crossing
  orders : s.orders.Overlays w.orders u.orders t.orders
  present : ∀ id ∈ w.orders, id ∈ u.orders
  owner : ∀ id o, t.orders.lookup id = some o → crossing o → o.owner ∈ copied
  keyed : t.OrdersKeyed
  keyedCopy : u.OrdersKeyed
  trades : t.trades = w.trades.foldl (fun m trade => m.insert trade.id trade) s.trades
  rest : { t with
    exchangeAccounts := s.exchangeAccounts, orders := s.orders, trades := s.trades } = s

variable {s t u : TaskBoard} {copied : Set PublicKey} {crossing : Order → Bool} {w : Touched}
  {pk : PublicKey}

theorem OrdersKeyed.restoreOrder (h : s.OrdersKeyed) (order : Order) :
    (s.restoreOrder order).OrdersKeyed := by
  intro id o ho
  rw [TaskBoard.restoreOrder, Finmap.lookup_insert_eq] at ho
  split_ifs at ho with hid
  · rw [← Option.some.inj ho, hid]
  · exact h id o ho

namespace Staged

theorem exchangeAccount_eq (h : Staged s copied crossing w t u) (hpk : pk ∈ copied) :
    u.exchangeAccount pk = t.exchangeAccount pk := by
  rw [exchangeAccount, h.account pk hpk, Option.getD_some]

/-- The same account written to both. -/
theorem restoreExchangeAccount (h : Staged s copied crossing w t u) (hpk : pk ∈ copied)
    (account : ExchangeAccount) :
    Staged s copied crossing (w.withAccount pk)
      (t.restoreExchangeAccount pk account) (u.restoreExchangeAccount pk account) where
  account := by
    intro x hx
    rw [exchangeAccount_restoreExchangeAccount, TaskBoard.restoreExchangeAccount,
      Finmap.lookup_insert_eq]
    split_ifs with hxpk
    · rfl
    · exact h.account x hx
  accounts := h.accounts.insert pk account
  touched := by
    intro x hx
    rcases Finset.mem_insert.1 hx with rfl | hx
    · exact hpk
    · exact h.touched x hx
  order := h.order
  orders := h.orders
  present := h.present
  owner := h.owner
  keyed := h.keyed
  keyedCopy := h.keyedCopy
  trades := h.trades
  rest := h.rest

/-- The same order written to both. -/
theorem restoreOrder (h : Staged s copied crossing w t u) (order : Order)
    (howner : order.owner ∈ copied) :
    Staged s copied crossing (w.withOrder order.id)
      (t.restoreOrder order) (u.restoreOrder order) where
  account := h.account
  accounts := h.accounts
  touched := h.touched
  order := by
    intro id
    rw [TaskBoard.restoreOrder, TaskBoard.restoreOrder, Finmap.lookup_insert_eq,
      Finmap.lookup_insert_eq]
    split_ifs with hid
    · rfl
    · exact h.order id
  orders := h.orders.insert order.id order
  present := by
    intro id hid
    rw [TaskBoard.restoreOrder, Finmap.mem_insert]
    exact (Finset.mem_insert.1 hid).imp_right (h.present id)
  owner := by
    intro id o ho hc
    rw [TaskBoard.restoreOrder, Finmap.lookup_insert_eq] at ho
    split_ifs at ho with hid
    · obtain rfl : order = o := Option.some.inj ho
      exact howner
    · exact h.owner id o ho hc
  keyed := h.keyed.restoreOrder order
  keyedCopy := h.keyedCopy.restoreOrder order
  trades := h.trades
  rest := h.rest

end Staged

/-! ### Fills -/

/-- The relation while only accounts are written: the books stand as they are. -/
def StagedWith (s : TaskBoard) (copied : Set PublicKey) (crossing : Order → Bool) (w : Touched)
    (book bookCopy : Finmap fun _ : Uuid => Order) (t u : TaskBoard) : Prop :=
  Staged s copied crossing w t u ∧ t.orders = book ∧ u.orders = bookCopy

variable {book bookCopy : Finmap fun _ : Uuid => Order} {field : ExchangeAccount.Field} {n : ℕ}

theorem simulates_addTo (hpk : pk ∈ copied) :
    Simulates (StagedWith s copied crossing w book bookCopy) (addTo pk field n) (addTo pk field n)
      fun _ => StagedWith s copied crossing (w.withAccount pk) book bookCopy := by
  refine .get_bind fun t u h => ?_
  rw [h.1.exchangeAccount_eq hpk]
  refine .lift_bind fun sum _ => .modify ?_
  rintro _ _ ⟨rfl, rfl⟩
  exact ⟨h.1.restoreExchangeAccount hpk _, h.2⟩

theorem simulates_subFrom (hpk : pk ∈ copied) :
    Simulates (StagedWith s copied crossing w book bookCopy) (subFrom pk field n) (subFrom pk field n)
      fun _ => StagedWith s copied crossing (w.withAccount pk) book bookCopy := by
  refine .get_bind fun t u h => ?_
  rw [h.1.exchangeAccount_eq hpk]
  refine .lift_bind fun difference _ => .modify ?_
  rintro _ _ ⟨rfl, rfl⟩
  exact ⟨h.1.restoreExchangeAccount hpk _, h.2⟩

theorem simulates_settle {takerSide : Side} {buy sell : Order} {price q : ℕ}
    (hb : buy.owner ∈ copied) (hs : sell.owner ∈ copied) :
    Simulates (StagedWith s copied crossing w book bookCopy) (settle takerSide buy sell price q)
      (settle takerSide buy sell price q) fun _ =>
        StagedWith s copied crossing ((w.withAccount buy.owner).withAccount sell.owner) book
          bookCopy := by
  refine .lift_bind fun notional _ => .lift_bind fun fee _ => .lift_bind fun released _ => ?_
  refine .bind (simulates_subFrom hb) fun _ => .bind (simulates_subFrom hb) fun _ => ?_
  refine .lift_bind fun computeCredit _ => .bind (simulates_addTo hb) fun _ => ?_
  refine .bind (simulates_subFrom hs) fun _ => .bind (simulates_subFrom hs) fun _ => ?_
  refine .lift_bind fun baseCredit _ => .bind (simulates_addTo hs) fun _ => .pure fun t u h => ?_
  simpa using h

/-- The orders copied are those the new one matches. -/
theorem matches_iff {taker o : Order} :
    Matches taker o ↔ isStaged taker.owner taker.side taker.price o = true := by
  unfold isStaged
  constructor
  · rintro ⟨hstatus, hside, howner, hprice⟩
    rw [crosses] at hprice
    cases h : taker.side <;> rw [h] at hside hprice <;>
      simp [hstatus, hside, howner, Side.opposite, hprice]
  · intro h
    simp only [Bool.and_eq_true, decide_eq_true_eq] at h
    obtain ⟨⟨⟨hstatus, howner⟩, hside⟩, hprice⟩ := h
    refine ⟨hstatus, ?_, howner, ?_⟩
    · cases ht : taker.side <;> cases ho : o.side <;> simp [Side.opposite, ht, ho] at hside ⊢
    · rw [crosses]
      cases ht : taker.side <;> rw [ht] at hprice <;> simpa using hprice

/-- The copy offers the same best resting order. -/
theorem Staged.bestRestingMatch_eq {taker : Order}
    (h : Staged s copied (isStaged taker.owner taker.side taker.price) w t u) :
    u.bestRestingMatch taker = t.bestRestingMatch taker := by
  have hfilter : ∀ s : TaskBoard, (s.orders.values.filter fun o => Matches taker o) =
      s.orders.values.filter (isStaged taker.owner taker.side taker.price) := by
    intro s
    refine List.filter_congr fun o _ => ?_
    rw [Bool.eq_iff_iff, decide_eq_true_iff, matches_iff]
  rw [bestRestingMatch, bestRestingMatch]
  simp only [hfilter, Finmap.filter_values_congr h.order]

/-- A resting order offered by the whole board is one of the copy, whose owner's
    account is copied. -/
theorem Staged.lookup_of_bestRestingMatch {taker : Order} {id : Uuid}
    (h : Staged s copied (isStaged taker.owner taker.side taker.price) w t u)
    (hbest : t.bestRestingMatch taker = some id) :
    ∃ resting, t.orders.lookup id = some resting ∧ u.orders.lookup id = some resting ∧
      resting.id = id ∧ Matches taker resting ∧ resting.owner ∈ copied := by
  obtain ⟨k, resting, hk, hm, rfl⟩ := bestRestingMatch_eq_some hbest
  obtain rfl : resting.id = k := h.keyed k resting hk
  have hc := matches_iff.1 hm
  have horder := h.order resting.id
  rw [hk, Option.filter_some, if_pos hc] at horder
  exact ⟨resting, hk, (Option.filter_eq_some_iff.1 horder.symm).1, rfl, hm, h.owner _ _ hk hc⟩

/-- What the trades of the loop have touched, the lock of the placer being taken. -/
def touchedBy (taker : Order) (trades : List Trade) : Touched where
  accounts := insert taker.owner (tradedAccounts trades)
  orders := (tradedOrders trades).erase taker.id
  trades := []

/-- One more trade of the taker, with a resting order. -/
theorem touchedBy_append {taker resting buy sell : Order} {trades : List Trade} {trade : Trade}
    (hne : resting.id ≠ taker.id) (hp : parties taker resting = (buy, sell))
    (hbuy : trade.buyOrderId = buy.id) (hsell : trade.sellOrderId = sell.id)
    (hbuyer : trade.buyer = buy.owner) (hseller : trade.seller = sell.owner) :
    touchedBy taker (trades ++ [trade]) =
      (((touchedBy taker trades).withOrder resting.id).withAccount buy.owner).withAccount
        sell.owner := by
  rw [parties] at hp
  simp only [touchedBy, Touched.withAccount, Touched.withOrder, tradedAccounts, tradedOrders, Touched.mk.injEq,
    List.flatMap_append, and_true]
  constructor
  · ext x
    cases ht : taker.side <;> rw [ht] at hp <;> obtain ⟨rfl, rfl⟩ := Prod.mk.inj hp <;>
      simp [hbuyer, hseller] <;> grind
  · ext x
    cases ht : taker.side <;> rw [ht] at hp <;> obtain ⟨rfl, rfl⟩ := Prod.mk.inj hp <;>
      simp [hbuy, hsell] <;> grind

/-- A fill on both boards. It closes the resting order unless nothing is left of the
    taker, so that it takes one of the open orders of each. -/
theorem simulates_fill {taker resting : Order} {trades : List Trade} {now : DateTime}
    {tradeId : Uuid} (h : Staged s copied crossing (touchedBy taker trades) t u)
    (hopen : resting.status = .open) (hne : resting.id ≠ taker.id)
    (ht : t.orders.lookup resting.id = some resting) (hu : u.orders.lookup resting.id = some resting)
    (htaker : taker.owner ∈ copied) (howner : resting.owner ∈ copied) :
    Simulates (fun t' u' => t' = t ∧ u' = u) (fill now tradeId taker resting)
      (fill now tradeId taker resting) fun p t' u' =>
        Staged s copied crossing (touchedBy taker (trades ++ [p.2])) t' u' ∧
          p.1 = { taker with filled := p.1.filled } ∧
          (p.1.filled < p.1.quantity →
            t'.openCount + 1 = t.openCount ∧ u'.openCount + 1 = u.openCount) := by
  refine .lift_bind fun takerLeft htl => .lift_bind fun restingLeft hrl => ?_
  refine .lift_bind fun restingFilled hrf => ?_
  rw [Outcome.expect_eq_ok] at htl hrl hrf
  have htl := checkedSub_eq_some.1 htl
  have hrl := checkedSub_eq_some.1 hrl
  obtain ⟨hrf, -⟩ := checkedAdd_eq_some.1 hrf
  obtain ⟨buy, sell, hp⟩ : ∃ buy sell, parties taker resting = (buy, sell) := ⟨_, _, rfl⟩
  -- The resting order is on both boards, and is filled on both.
  have hstaged := h.restoreOrder (fillTo resting restingFilled) howner
  have hparties : buy.owner ∈ copied ∧ sell.owner ∈ copied := by
    rw [parties] at hp
    split at hp <;> obtain ⟨rfl, rfl⟩ := Prod.mk.inj hp
    exacts [⟨htaker, howner⟩, ⟨howner, htaker⟩]
  refine .bind (Q := fun _ => StagedWith s copied crossing
    ((touchedBy taker trades).withOrder resting.id)
    (t.restoreOrder (fillTo resting restingFilled)).orders
    (u.restoreOrder (fillTo resting restingFilled)).orders) (.modify ?_) fun _ => ?_
  · rintro _ _ ⟨rfl, rfl⟩
    exact ⟨hstaged, rfl, rfl⟩
  refine .lift_bind fun takerFilled htf => ?_
  rw [Outcome.expect_eq_ok] at htf
  obtain ⟨htf, -⟩ := checkedAdd_eq_some.1 htf
  rw [hp]
  refine .bind (simulates_settle hparties.1 hparties.2) fun fee => .pure fun t' u' h' => ?_
  obtain ⟨h', ht', hu'⟩ := h'
  refine ⟨?_, rfl, fun hlt => ?_⟩
  · rw [touchedBy_append hne hp rfl rfl rfl rfl]
    exact h'
  · -- Something is left of the taker, so the fill was all that was left of the other.
    have hclosed : (fillTo resting restingFilled).status ≠ .open := by
      have : restingFilled ≥ resting.quantity := by
        change takerFilled < taker.quantity at hlt
        omega
      simp [fillTo, this]
    have hcount : ∀ {s s' : TaskBoard}, s.orders.lookup resting.id = some resting →
        s'.orders = (s.restoreOrder (fillTo resting restingFilled)).orders →
        s'.openCount + 1 = s.openCount := by
      intro s s' hs hs'
      have := openCount_restoreOrder (fillTo resting restingFilled) hs rfl hopen
      rw [if_neg hclosed, add_zero] at this
      rw [openCount, hs']
      exact this
    exact ⟨hcount ht ht', hcount hu hu'⟩

/-! ### Placements -/

variable {taker : Order} {trades : List Trade} {now : DateTime} {tradeIds : ℕ → Uuid}

/-- The loop on both boards, each with steps enough for its open orders. -/
theorem simulates_matchLoop {steps steps' : ℕ} (hfresh : taker.id ∉ s.orders)
    (htaker : taker.owner ∈ copied)
    (h : Staged s copied (isStaged taker.owner taker.side taker.price) (touchedBy taker trades) t u)
    (hpos : 0 < steps) (hpos' : 0 < steps')
    (hsteps : taker.filled < taker.quantity → t.openCount < steps)
    (hsteps' : taker.filled < taker.quantity → u.openCount < steps') :
    Simulates (fun t' u' => t' = t ∧ u' = u) (matchLoop now tradeIds steps taker trades)
      (matchLoop now tradeIds steps' taker trades) fun p t' u' =>
        Staged s copied (isStaged taker.owner taker.side taker.price) (touchedBy p.1 p.2) t' u' ∧
          p.1 = { taker with filled := p.1.filled } := by
  induction steps generalizing t u taker trades steps' with
  | zero => exact absurd hpos (Nat.lt_irrefl 0)
  | succ steps ih =>
    obtain ⟨steps', rfl⟩ := Nat.exists_eq_add_one_of_ne_zero hpos'.ne'
    rw [matchLoop, matchLoop]
    refine .ite (fun hlt => .get_bind ?_) fun _ => .pure ?_
    · rintro _ _ ⟨rfl, rfl⟩
      rw [h.bestRestingMatch_eq]
      split
      · refine .pure ?_
        rintro _ _ ⟨rfl, rfl⟩
        exact ⟨h, rfl⟩
      · next restingId hbest =>
        obtain ⟨resting, ht, hu, rfl, hm, howner⟩ := h.lookup_of_bestRestingMatch hbest
        -- The taker is not on the book yet.
        have hne : resting.id ≠ taker.id := by
          intro e
          have hw : taker.id ∉ (touchedBy taker trades).orders := Finset.notMem_erase _ _
          rw [e, h.orders taker.id, if_neg hw, Finmap.lookup_eq_none.2 hfresh] at ht
          cases ht
        rw [ht, hu]
        refine .lift_bind fun r hr => ?_
        obtain rfl : resting = r := Option.some.inj (Outcome.expect_eq_ok.1 hr)
        refine .bind (simulates_fill h hm.status hne ht hu htaker howner) ?_
        rintro ⟨taker', trade⟩ t' u' ⟨h', (htaker' : taker' = _), hleft⟩
        have hopen := one_le_openCount ht hm.status
        have hopen' := one_le_openCount hu hm.status
        have hsteps := hsteps hlt
        have hsteps' := hsteps' hlt
        have hrec := @ih t' u' taker' (trades ++ [trade]) steps'
          (by rw [htaker']; exact hfresh) (by rw [htaker']; exact htaker)
          (by rw [htaker'] at h' ⊢; exact h') (by omega) (by omega)
          (fun hlt' => by have := (hleft hlt').1; omega)
          (fun hlt' => by have := (hleft hlt').2; omega) t' u' ⟨rfl, rfl⟩
        rw [htaker'] at hrec ⊢
        exact hrec
    · rintro _ _ ⟨rfl, rfl⟩
      exact ⟨h, rfl⟩

theorem simulates_lockFor {side : Side} {notional quantity : ℕ} (hpk : pk ∈ copied) :
    Simulates (Staged s copied crossing w) (lockFor pk side notional quantity)
      (lockFor pk side notional quantity) fun _ =>
        Staged s copied crossing (w.withAccount pk) := by
  refine .bind (Q := fun _ => Staged s copied crossing (w.withAccount pk)) (.modify fun t u h => ?_)
    fun _ => .get_bind fun t u h => ?_
  · rw [touchAccount, touchAccount, h.exchangeAccount_eq hpk]
    exact h.restoreExchangeAccount hpk _
  · rw [h.exchangeAccount_eq hpk]
    have hlock : ∀ field n, Simulates (fun t' u' => t' = t ∧ u' = u) (addTo pk field n)
        (addTo pk field n) fun _ => Staged s copied crossing (w.withAccount pk) := by
      intro field n
      have hstart : ∀ t' u', t' = t ∧ u' = u →
          StagedWith s copied crossing (w.withAccount pk) t.orders u.orders t' u' := by
        rintro _ _ ⟨rfl, rfl⟩
        exact ⟨h, rfl, rfl⟩
      refine (simulates_addTo hpk).conseq hstart fun _ t' u' h' => ?_
      simpa using h'.1
    cases side with
    | buy => exact .lift_bind fun _ _ => hlock _ _
    | sell => exact .lift_bind fun _ _ => hlock _ _

/-- What a placement has touched once it is over, but for the fees. -/
def touchedIn (order : Order) (trades : List Trade) : Touched where
  accounts := insert order.owner (tradedAccounts trades)
  orders := insert order.id (touchedOrders order trades)
  trades

theorem foldl_restoreTrade (trades : List Trade) (s : TaskBoard) :
    trades.foldl (fun s trade => s.restoreTrade trade) s =
      { s with trades := trades.foldl (fun m trade => m.insert trade.id trade) s.trades } := by
  induction trades generalizing s with
  | nil => rfl
  | cons trade trades ih => rw [List.foldl_cons, ih]; rfl

/-- New trades written to the whole board, which had none. -/
theorem Staged.restoreTrades (h : Staged s copied crossing w t u) (hw : w.trades = [])
    (trades : List Trade) :
    Staged s copied crossing { w with trades }
      (trades.foldl (fun s trade => s.restoreTrade trade) t)
      (trades.foldl (fun s trade => s.restoreTrade trade) u) := by
  have htrades := h.trades
  rw [hw, List.foldl_nil] at htrades
  rw [foldl_restoreTrade, foldl_restoreTrade]
  exact
    { account := h.account, accounts := h.accounts, touched := h.touched, order := h.order
      orders := h.orders, present := h.present, owner := h.owner, keyed := h.keyed
      keyedCopy := h.keyedCopy, rest := h.rest
      trades := by rw [htrades] }

variable {id : Uuid} {owner : PublicKey} {side : Side} {price quantity : ℕ}

/-- A placement on both boards. -/
theorem simulates_placeOrder (hfresh : id ∉ s.orders) (howner : owner ∈ copied) :
    Simulates (Staged s copied (isStaged owner side price) ⟨∅, ∅, []⟩)
      (placeOrder id tradeIds owner side price quantity now)
      (placeOrder id tradeIds owner side price quantity now) fun p t u =>
        Staged s copied (isStaged owner side price) (touchedIn p.1 p.2) t u ∧
          u.orders.lookup p.1.id = some p.1 := by
  refine .lift_bind fun _ _ => .lift_bind fun notional _ => ?_
  refine .bind (simulates_lockFor howner) fun _ => .get_bind fun t u h => ?_
  refine .bind (simulates_matchLoop hfresh howner h (Nat.succ_pos _) (Nat.succ_pos _)
    (fun _ => Nat.lt_succ_self _) fun _ => Nat.lt_succ_self _) ?_
  rintro ⟨taker, trades⟩ t' u' ⟨h', (htaker : taker = _)⟩
  -- What is left to do always returns.
  refine ⟨rfl, ?_⟩
  rintro _ ⟨⟩
  set order := if taker.filled ≥ taker.quantity then { taker with status := .filled } else taker
    with horder
  have hterms : order.id = id ∧ order.owner = owner := by
    rw [horder, htaker]
    split_ifs
    exacts [⟨rfl, rfl⟩, ⟨rfl, rfl⟩]
  have hplaced := (h'.restoreOrder order (by rw [hterms.2]; exact howner)).restoreTrades
    rfl trades
  have hw : touchedIn order trades =
      { (touchedBy taker trades).withOrder order.id with trades } := by
    rw [touchedIn, Touched.withOrder, touchedBy, touchedOrders, hterms.1, hterms.2, htaker]
  refine ⟨?_, ?_⟩
  · change Staged s copied (isStaged owner side price) (touchedIn order trades) _ _
    rw [hw]
    exact hplaced
  change Finmap.lookup order.id (trades.foldl (fun s trade => s.restoreTrade trade)
    (u'.restoreOrder order)).orders = some order
  rw [(restoreTrades_eq trades _).1]
  exact Finmap.lookup_insert _

/-- A fee credited to both boards, if there is one. -/
theorem simulates_credit {α : Type} {f : BoardCall α} {Q : α → TaskBoard → TaskBoard → Prop}
    (hpk : pk ∈ copied)
    (hf : Simulates (StagedWith s copied crossing (if n > 0 then w.withAccount pk else w) book
      bookCopy) f f Q) :
    Simulates (StagedWith s copied crossing w book bookCopy)
      (if n > 0 then addTo pk field n >>= fun _ => f else f)
      (if n > 0 then addTo pk field n >>= fun _ => f else f) Q := by
  refine .ite (fun hpos => .bind (simulates_addTo hpk) fun _ => ?_) fun hneg => ?_
  · rwa [if_pos hpos] at hf
  · rwa [if_neg hneg] at hf

/-- A placement and the credit of its fees on both boards. -/
theorem simulates_placeOrderWithFees {feeSink : PublicKey} (hfresh : id ∉ s.orders)
    (howner : owner ∈ copied) (hsink : feeSink ∈ copied) :
    Simulates (Staged s copied (isStaged owner side price) ⟨∅, ∅, []⟩)
      (placeOrderWithFees feeSink id tradeIds owner side price quantity now)
      (placeOrderWithFees feeSink id tradeIds owner side price quantity now) fun p t u =>
        Staged s copied (isStaged owner side price)
          { touchedIn p.1 p.2 with accounts := touchedAccounts feeSink p.1 p.2 } t u ∧
          u.orders.lookup p.1.id = some p.1 := by
  refine .bind (simulates_placeOrder hfresh howner) ?_
  rintro ⟨order, trades⟩ t u ⟨h, hu⟩
  refine Simulates.lift_bind (R := StagedWith s copied (isStaged owner side price)
    (touchedIn order trades) t.orders u.orders) (fun fees hfees => ?_) t u ⟨h, rfl, rfl⟩
  obtain ⟨computeFees, baseFees⟩ := fees
  refine simulates_credit hsink (simulates_credit hsink (.pure ?_))
  rintro t' u' ⟨h', -, hu'⟩
  refine ⟨?_, by rw [hu']; exact hu⟩
  -- The fee sink is touched by either credit.
  have hearns : EarnsFees trades ↔ computeFees > 0 ∨ baseFees > 0 := by
    simp [EarnsFees, Outcome.expect_eq_ok.1 hfees]
  convert h' using 1
  simp only [touchedAccounts, hearns]
  by_cases hc : computeFees > 0
  · by_cases hb : baseFees > 0
    · simp [hc, hb, Touched.withAccount, touchedIn]
    · simp [hc, hb, Touched.withAccount, touchedIn]
  · by_cases hb : baseFees > 0
    · simp [hc, hb, Touched.withAccount, touchedIn]
    · simp [hc, hb, touchedIn]

/-! ### Copying and publishing -/

/-- The accounts a copy for a placement holds. -/
def copiedAccounts (s : TaskBoard) (owner : PublicKey) (side : Side) (price : ℕ)
    (feeSink : PublicKey) : Set PublicKey :=
  {pk | pk = owner ∨ pk = feeSink ∨
    ∃ o ∈ s.orders.values.filter (isStaged owner side price), o.owner = pk}

/-- Orders and the accounts of their owners copied one after the other. -/
theorem foldl_copy_orders (l : List Order) (staged : TaskBoard) :
    (l.foldl (fun staged o => (staged.restoreExchangeAccount o.owner
        (s.exchangeAccount o.owner)).restoreOrder o) staged).orders =
      (l.map fun o => (o.id, o)).foldl (fun m e => m.insert e.1 e.2) staged.orders := by
  induction l generalizing staged with
  | nil => rfl
  | cons o l ih => rw [List.foldl_cons, ih]; rfl

theorem foldl_copy_lookup {l : List Order} {staged : TaskBoard}
    (h : staged.exchangeAccounts.lookup pk = some (s.exchangeAccount pk) ∨ ∃ o ∈ l, o.owner = pk) :
    (l.foldl (fun staged o => (staged.restoreExchangeAccount o.owner
        (s.exchangeAccount o.owner)).restoreOrder o) staged).exchangeAccounts.lookup pk =
      some (s.exchangeAccount pk) := by
  induction l generalizing staged with
  | nil => exact h.resolve_right fun ⟨_, ho, _⟩ => by cases ho
  | cons o l ih =>
    refine ih ?_
    change (staged.exchangeAccounts.insert o.owner (s.exchangeAccount o.owner)).lookup pk = _ ∨ _
    rw [Finmap.lookup_insert_eq]
    split_ifs with hpk
    · exact .inl (by rw [hpk])
    · refine h.imp_right ?_
      rintro ⟨o', ho', rfl⟩
      rcases List.mem_cons.1 ho' with rfl | ho'
      · exact absurd rfl hpk
      · exact ⟨o', ho', rfl⟩

/-- The copy and the whole board before the placement. -/
theorem staged_stageOrder {feeSink : PublicKey} (h : s.OrdersKeyed) :
    Staged s (s.copiedAccounts owner side price feeSink) (isStaged owner side price) ⟨∅, ∅, []⟩ s
      (s.stageOrder owner side price feeSink) := by
  set l := s.orders.values.filter (isStaged owner side price) with hl
  have hmem : ∀ o ∈ l, s.orders.lookup o.id = some o ∧ isStaged owner side price o := by
    intro o ho
    obtain ⟨hvalue, hc⟩ := List.mem_filter.1 ho
    obtain ⟨k, hk⟩ := Finmap.mem_values.1 hvalue
    rw [h k o hk]
    exact ⟨hk, hc⟩
  -- The orders of the copy are those of the board that are in `l`.
  have horders : Finmap.Overlays ∅ (l.map Order.id).toFinset s.orders
      (s.stageOrder owner side price feeSink).orders := by
    rw [stageOrder, foldl_copy_orders]
    have := Finmap.overlays_foldl_insert s.orders (l.map fun o => (o.id, o)) (by
      intro e he
      obtain ⟨o, ho, rfl⟩ := List.mem_map.1 he
      exact (hmem o ho).1) ∅
    rwa [List.map_map] at this
  have hcopy : ∀ id o, (s.stageOrder owner side price feeSink).orders.lookup id = some o →
      s.orders.lookup id = some o := by
    intro id o ho
    rw [horders id] at ho
    split_ifs at ho
    · exact ho
    · cases ho
  refine ⟨?_, .empty _ _, nofun, ?_, .empty _ _, nofun, ?_, h, ?_, rfl, rfl⟩
  · rintro pk hpk
    refine foldl_copy_lookup ?_
    rw [TaskBoard.restoreExchangeAccount, TaskBoard.restoreExchangeAccount, Finmap.lookup_insert_eq,
      Finmap.lookup_insert_eq]
    rcases hpk with rfl | rfl | ho
    · left
      split_ifs with hpk
      · rw [hpk]
      · rfl
      · exact absurd rfl ‹_›
    · exact .inl (if_pos rfl)
    · exact .inr ho
  · intro id
    rw [horders id]
    split_ifs with hid
    · rfl
    · rw [Finmap.lookup_empty, Option.filter_none, Option.filter_eq_none_iff]
      intro o ho hc
      refine hid (List.mem_toFinset.2 (List.mem_map.2 ⟨o, ?_, h id o ho⟩))
      exact List.mem_filter.2 ⟨Finmap.mem_values.2 ⟨id, ho⟩, hc⟩
  · intro id o ho hc
    exact .inr (.inr ⟨o, List.mem_filter.2 ⟨Finmap.mem_values.2 ⟨id, ho⟩, hc⟩, rfl⟩)
  · exact fun id o ho => h id o (hcopy id o ho)

/-- The records of a fill, table by table. -/
theorem restoreFill_eq (orders : List Order) (trades : List Trade)
    (accounts : List (PublicKey × ExchangeAccount)) (s : TaskBoard) :
    s.restoreFill orders trades accounts =
      { s with
        orders := (orders.map fun o => (o.id, o)).foldl (fun m e => m.insert e.1 e.2) s.orders
        trades := trades.foldl (fun m trade => m.insert trade.id trade) s.trades
        exchangeAccounts := accounts.foldl (fun m e => m.insert e.1 e.2) s.exchangeAccounts } := by
  have horders : ∀ s : TaskBoard, orders.foldl (fun s order => s.restoreOrder order) s =
      { s with orders :=
          (orders.map fun o => (o.id, o)).foldl (fun m e => m.insert e.1 e.2) s.orders } := by
    intro s
    induction orders generalizing s with
    | nil => rfl
    | cons order orders ih => rw [List.foldl_cons, ih]; rfl
  have haccounts : ∀ s : TaskBoard,
      accounts.foldl (fun s entry => s.restoreExchangeAccount entry.1 entry.2) s =
      { s with exchangeAccounts :=
          accounts.foldl (fun m e => m.insert e.1 e.2) s.exchangeAccounts } := by
    intro s
    induction accounts generalizing s with
    | nil => rfl
    | cons e accounts ih => rw [List.foldl_cons, ih]; rfl
  rw [restoreFill, horders, foldl_restoreTrade, haccounts]

/-- Publishing the records of the copy gives the whole board. -/
theorem Staged.restoreFill {feeSink : PublicKey} {order : Order} {trades : List Trade}
    (h : Staged s copied crossing
      { touchedIn order trades with accounts := touchedAccounts feeSink order trades } t u)
    (horder : u.orders.lookup order.id = some order) :
    s.restoreFill (readOrders order trades u) trades (readAccounts feeSink order trades u) = t := by
  -- What is read back is the order itself and those its trades have touched.
  have hread : ∀ {o}, o ∈ readOrders order trades u ↔
      o = order ∨ ∃ id ∈ touchedOrders order trades, u.orders.lookup id = some o := by
    intro o
    simp only [readOrders, List.mem_cons, List.mem_filterMap, Finset.mem_ascending]
  have horders : t.orders = ((readOrders order trades u).map fun o => (o.id, o)).foldl
      (fun m e => m.insert e.1 e.2) s.orders := by
    refine h.orders.unique ?_
    have hfold := Finmap.overlays_foldl_insert u.orders
      ((readOrders order trades u).map fun o => (o.id, o)) (by
        intro e he
        obtain ⟨o, ho, rfl⟩ := List.mem_map.1 he
        rcases hread.1 ho with rfl | ⟨id, -, hid⟩
        · exact horder
        · rw [← h.keyedCopy id o hid] at hid
          exact hid) s.orders
    rw [List.map_map] at hfold
    convert hfold using 1
    ext id
    simp only [touchedIn, Finset.mem_insert, List.mem_toFinset, List.mem_map, Function.comp_apply]
    constructor
    · rintro (rfl | hid)
      · exact ⟨order, hread.2 (.inl rfl), rfl⟩
      · obtain ⟨o, ho⟩ := Finmap.mem_iff.1 (h.present id (Finset.mem_insert_of_mem hid))
        exact ⟨o, hread.2 (.inr ⟨id, hid, ho⟩), h.keyedCopy id o ho⟩
    · rintro ⟨o, ho, rfl⟩
      rcases hread.1 ho with rfl | ⟨id, hid, ho⟩
      · exact .inl rfl
      · rw [h.keyedCopy id o ho]
        exact .inr hid
  -- The accounts are read back in the same way.
  have haccounts : t.exchangeAccounts = (readAccounts feeSink order trades u).foldl
      (fun m e => m.insert e.1 e.2) s.exchangeAccounts := by
    refine h.accounts.unique ?_
    have hfold := Finmap.overlays_foldl_insert u.exchangeAccounts
      (readAccounts feeSink order trades u) (by
        intro e he
        obtain ⟨pk, hpk, rfl⟩ := List.mem_map.1 he
        have hpk := h.touched pk (Finset.mem_ascending.1 hpk)
        rw [h.exchangeAccount_eq hpk]
        exact h.account pk hpk) s.exchangeAccounts
    convert hfold using 1
    ext pk
    simp [readAccounts, Finset.mem_ascending]
  have htrades : t.trades = trades.foldl (fun m trade => m.insert trade.id trade) s.trades :=
    h.trades
  rw [restoreFill_eq, ← horders, ← haccounts, ← htrades, ← h.rest]

end TaskBoard

/-! ## Runs -/

open TaskBoard

/-- What may happen to a board, as far as its orders go: the calls that write them, and
    everything else the hub does. -/
inductive BookOp
  | placeOrder (id : Uuid) (tradeIds : ℕ → Uuid) (owner : PublicKey) (side : Side)
      (price quantity : ℕ) (now : DateTime)
  | cancelOrder (orderId : Uuid) (caller : PublicKey)
  | restoreOrder (order : Order)
  | handler (commits : Bool) (feeSink : PublicKey) (id : Uuid) (tradeIds : ℕ → Uuid)
      (owner : PublicKey) (side : Side) (price quantity : ℕ) (now : DateTime) (store : TaskBoard)
  | other

/-- The boards of the hub: a new one, and what any calls make of it. Nothing but
    placing, cancelling and reloading writes an order. -/
def bookSystem : System TaskBoard BookOp where
  init := {TaskBoard.new}
  step s op s' :=
    match op with
    | .placeOrder id tradeIds owner side price quantity now =>
      s' = (TaskBoard.placeOrder id tradeIds owner side price quantity now s).1
    | .cancelOrder orderId caller => s' = (TaskBoard.cancelOrder orderId caller s).1
    | .restoreOrder order => s' = s.restoreOrder order
    | .handler commits feeSink id tradeIds owner side price quantity now store =>
      s' = (Hub.placeOrder commits feeSink id tradeIds owner side price quantity now ⟨s, store⟩).1.board
    | .other => s'.orders = s.orders

section

variable {s : TaskBoard} {commits : Bool} {feeSink : PublicKey} {id : Uuid} {tradeIds : ℕ → Uuid}
  {owner : PublicKey} {side : Side} {price quantity : ℕ} {now : DateTime} {pk : PublicKey}

/-- How the handler ends: it changes the hub only if it returns, and then both the board
    and the store, by the same records. -/
theorem Hub.placeOrder_eq (hub : Hub) :
    Hub.placeOrder commits feeSink id tradeIds owner side price quantity now hub =
      match placeOrderWithFees feeSink id tradeIds owner side price quantity now
        (hub.board.stageOrder owner side price feeSink) with
      | (staged, .ok (order, trades)) =>
        let write := TaskBoard.restoreFill (readOrders order trades staged) trades
          (readAccounts feeSink order trades staged)
        if commits then (⟨write hub.board, write hub.store⟩, .ok order) else (hub, .err .store)
      | (_, .err e) => (hub, .err (.board e))
      | (_, .panic) => (hub, .panic) := by
  change Call.bind (Call.mapErr PlaceError.board (Call.onCopy _ _)) _ hub = _
  rw [Call.bind, Call.mapErr, Call.onCopy]
  generalize placeOrderWithFees feeSink id tradeIds owner side price quantity now
    (hub.board.stageOrder owner side price feeSink) = r
  obtain ⟨staged, ⟨order, trades⟩ | e | _⟩ := r
  · cases commits with
    | false => rfl
    | true => rfl
  · rfl
  · rfl

theorem ordersKeyed_addTo {field : ExchangeAccount.Field} {n : ℕ} :
    Preserves OrdersKeyed (addTo pk field n) :=
  .bind .get fun _ => .bind (.lift _) fun _ => .modify fun _ h => h

theorem ordersKeyed_subFrom {field : ExchangeAccount.Field} {n : ℕ} :
    Preserves OrdersKeyed (subFrom pk field n) :=
  .bind .get fun _ => .bind (.lift _) fun _ => .modify fun _ h => h

theorem ordersKeyed_settle {takerSide : Side} {buy sell : Order} {executionPrice q : ℕ} :
    Preserves OrdersKeyed (settle takerSide buy sell executionPrice q) := by
  refine .bind (.lift _) fun _ => .bind (.lift _) fun _ => .bind (.lift _) fun _ => ?_
  refine .bind ordersKeyed_subFrom fun _ => .bind ordersKeyed_subFrom fun _ => ?_
  refine .bind (.lift _) fun _ => .bind ordersKeyed_addTo fun _ => ?_
  refine .bind ordersKeyed_subFrom fun _ => .bind ordersKeyed_subFrom fun _ => ?_
  exact .bind (.lift _) fun _ => .bind ordersKeyed_addTo fun _ => .pure _

theorem ordersKeyed_matchLoop {steps : ℕ} {taker : Order} {trades : List Trade} :
    Preserves OrdersKeyed (matchLoop now tradeIds steps taker trades) := by
  induction steps generalizing taker trades with
  | zero => exact .lift _
  | succ steps ih =>
    rw [matchLoop]
    split_ifs
    · refine .bind .get fun s => ?_
      split
      · exact .pure _
      · refine .bind (.lift _) fun resting => .bind ?_ fun _ => ih
        refine .bind (.lift _) fun _ => .bind (.lift _) fun _ => .bind (.lift _) fun _ => ?_
        refine .bind (.modify fun _ h => h.restoreOrder _) fun _ => .bind (.lift _) fun _ => ?_
        exact .bind ordersKeyed_settle fun _ => .pure _
    · exact .pure _

theorem ordersKeyed_placeOrder :
    Preserves OrdersKeyed (TaskBoard.placeOrder id tradeIds owner side price quantity now) := by
  have hlock : ∀ notional, Preserves OrdersKeyed (lockFor owner side notional quantity) := by
    intro notional
    refine .bind (.modify fun _ h => h) fun _ => .bind .get fun _ => ?_
    cases side with
    | buy => exact .bind (.lift _) fun _ => ordersKeyed_addTo
    | sell => exact .bind (.lift _) fun _ => ordersKeyed_addTo
  refine .bind (.lift _) fun _ => .bind (.lift _) fun notional => .bind (hlock notional) fun _ => ?_
  refine .bind .get fun _ => .bind ordersKeyed_matchLoop fun _ => ?_
  refine .bind (.modify fun _ h => h.restoreOrder _) fun _ => .bind (.modify fun s h => ?_)
    fun _ => .pure _
  rw [OrdersKeyed, (restoreTrades_eq _ s).1]
  exact h

theorem ordersKeyed_cancelOrder {orderId : Uuid} {caller : PublicKey} :
    Preserves OrdersKeyed (cancelOrder orderId caller) := by
  refine .of_state fun s h => .get_bind fun s' e => ?_
  subst e
  refine .lift_known (fun order ho => ?_) (fun _ _ => h) fun _ => h
  have hid : order.id = orderId := h orderId order (Outcome.okOr_eq_ok.1 ho)
  refine Triple.conseq (show Preserves OrdersKeyed _ from .bind (.lift _) fun _ =>
    .bind (.lift _) fun _ => .bind (.lift _) fun remaining => .bind (.modify fun s h => ?_)
      fun _ => ?_) (fun _ e => e ▸ h) (fun _ _ h => h) (fun _ _ h => h) fun _ h => h
  · subst hid
    exact h.restoreOrder { order with status := .cancelled }
  · split
    · exact .bind (.lift _) fun _ => .bind ordersKeyed_subFrom fun _ => .pure _
    · exact .bind ordersKeyed_subFrom fun _ => .pure _

theorem ordersKeyed_restoreFill (h : s.OrdersKeyed) (orders : List Order) (trades : List Trade)
    (accounts : List (PublicKey × ExchangeAccount)) :
    (s.restoreFill orders trades accounts).OrdersKeyed := by
  rw [restoreFill_eq]
  change ∀ id o, Finmap.lookup id (List.foldl _ s.orders _) = some o → o.id = id
  rw [List.foldl_map]
  induction orders generalizing s with
  | nil => exact h
  | cons order orders ih => exact ih (h.restoreOrder order)

/-- On every board of the hub the orders are stored under their ids. -/
theorem ordersKeyed_of_reachable (hs : bookSystem.Reachable s) : s.OrdersKeyed := by
  have h₀ : ∀ s ∈ bookSystem.init, s.OrdersKeyed := by
    rintro _ rfl _ _ ho
    cases ho
  refine hs.invariant h₀ fun s op s' h _ hstep => ?_
  cases op with
  | placeOrder id tradeIds owner side price quantity now =>
    rw [show s' = _ from hstep]
    exact ordersKeyed_placeOrder.apply h
  | cancelOrder orderId caller =>
    rw [show s' = _ from hstep]
    exact ordersKeyed_cancelOrder.apply h
  | restoreOrder order =>
    rw [show s' = _ from hstep]
    exact h.restoreOrder order
  | handler commits feeSink id tradeIds owner side price quantity now store =>
    rw [show s' = _ from hstep, Hub.placeOrder_eq]
    split
    · split
      · exact ordersKeyed_restoreFill h _ _ _
      · exact h
    · exact h
    · exact h
  | other =>
    rw [OrdersKeyed, show s'.orders = s.orders from hstep]
    exact h

/-- Staged placement refines direct placement. From every board of the hub, with a fresh
    id: if placing the order and crediting the fees on the whole board returns, so does
    the handler, and it leaves that same board; if it fails, the handler fails with the
    same error. A handler that does not return, for whatever reason, leaves the board
    and the store as they were. -/
theorem staged_refines_direct {hub : Hub} (hs : bookSystem.Reachable hub.board)
    (hid : id ∉ hub.board.orders) :
    let direct := placeOrderWithFees feeSink id tradeIds owner side price quantity now hub.board
    let staged := fun commits =>
      Hub.placeOrder commits feeSink id tradeIds owner side price quantity now hub
    (∀ order trades, direct.2 = .ok (order, trades) →
      (staged true).2 = .ok order ∧ (staged true).1.board = direct.1 ∧
        (staged false).2 = .err .store) ∧
    (∀ e, direct.2 = .err e → ∀ commits, (staged commits).2 = .err (.board e)) ∧
    (direct.2 = .panic → ∀ commits, (staged commits).2 = .panic) ∧
    ∀ commits, (∀ order, (staged commits).2 ≠ .ok order) → (staged commits).1 = hub := by
  intro direct staged
  have hstart : Staged hub.board (hub.board.copiedAccounts owner side price feeSink)
      (isStaged owner side price) ⟨∅, ∅, []⟩ hub.board
      (hub.board.stageOrder owner side price feeSink) :=
    staged_stageOrder (ordersKeyed_of_reachable hs)
  have hsim : EndAlike _ direct (placeOrderWithFees feeSink id tradeIds owner side price quantity now
      (hub.board.stageOrder owner side price feeSink)) :=
    simulates_placeOrderWithFees hid (.inl rfl) (.inr (.inl rfl)) _ _ hstart
  have hend : ∀ commits, staged commits = _ := fun commits => Hub.placeOrder_eq hub
  generalize placeOrderWithFees feeSink id tradeIds owner side price quantity now
    (hub.board.stageOrder owner side price feeSink) = r at hsim hend
  obtain ⟨hsame, hreturn⟩ := hsim
  -- Both end alike. The copy is published only if the placement returned and is stored.
  obtain ⟨u, ⟨order, trades⟩ | e | _⟩ := r
  · obtain ⟨hstaged, horder⟩ := hreturn (order, trades) hsame
    have hboard := hstaged.restoreFill horder
    refine ⟨fun order' trades' h => ?_, fun e h => ?_, fun h => ?_, fun commits h => ?_⟩
    · rw [hsame] at h
      obtain ⟨rfl, rfl⟩ := Prod.mk.inj (Outcome.ok.inj h)
      rw [hend, hend]
      exact ⟨rfl, hboard, rfl⟩
    · rw [hsame] at h
      cases h
    · rw [hsame] at h
      cases h
    · rw [hend] at h ⊢
      cases commits with
      | false => rfl
      | true => exact absurd rfl (h order)
  · refine ⟨fun order' trades' h => ?_, fun e' h => ?_, fun h => ?_, fun commits h => ?_⟩
    · rw [hsame] at h
      cases h
    · rw [hsame] at h
      cases h
      exact fun commits => by rw [hend]
    · rw [hsame] at h
      cases h
    · rw [hend]
  · refine ⟨fun order' trades' h => ?_, fun e' h => ?_, fun h => ?_, fun commits h => ?_⟩
    · rw [hsame] at h
      cases h
    · rw [hsame] at h
      cases h
    · exact fun commits => by rw [hend]
    · rw [hend]

/-- On the board where `2000` are still on sale by the fee sink itself, an order to buy
    `1000` is filled at once: the handler leaves the board of the direct placement, on
    which the sink has been paid and has earned the fee. -/
theorem staged_refines_direct_crossed :
    (Hub.placeOrder true 2 12 (fun n => n + 1) 1 .buy 4 1000 2 ⟨crossed, TaskBoard.new⟩).1.board =
        (placeOrderWithFees 2 12 (fun n => n + 1) 1 .buy 4 1000 2 crossed).1 ∧
      ((placeOrderWithFees 2 12 (fun n => n + 1) 1 .buy 4 1000 2 crossed).1.exchangeAccount
        2).computeBalance = 3001 := by
  have hreach : bookSystem.Reachable crossed := by
    have h₁ : bookSystem.Reachable (ExchangeOp.after TaskBoard.new (.creditBase 1 100000)) :=
      .step (.init rfl) trivial (l := BookOp.other) rfl
    have h₂ : bookSystem.Reachable (ExchangeOp.after (ExchangeOp.after TaskBoard.new
        (.creditBase 1 100000)) (.creditCompute 2 5000)) := h₁.step (l := BookOp.other) trivial rfl
    have h₃ := h₂.step (l := BookOp.placeOrder 10 (fun n => n) 2 .sell 3 3000 0) trivial rfl
    exact h₃.step (l := BookOp.placeOrder 11 (fun n => n) 1 .buy 4 1000 1) trivial rfl
  have hreturns : (placeOrderWithFees 2 12 (fun n => n + 1) 1 .buy 4 1000 2 crossed).2 =
      .ok (⟨12, 1, .buy, 4, 1000, 1000, .filled, 2⟩, [⟨1, 12, 10, 1, 2, 3, 1000, 2, .buy, 1⟩]) := by
    decide +kernel
  have hfresh : 12 ∉ crossed.orders := by
    decide +kernel
  refine ⟨?_, by decide +kernel⟩
  generalize hhub : (⟨crossed, TaskBoard.new⟩ : Hub) = hub
  have hboard : crossed = hub.board := by rw [← hhub]
  rw [hboard] at hreach hreturns hfresh ⊢
  exact ((staged_refines_direct hreach hfresh).1 _ _ hreturns).2.1

end

end Itx
