import Itx.Lib.Loop
import Itx.Hub.Staging

/-!
# The order book

What `place_order` and `cancel_order` (`hub/src/board.rs`) make of the book. The loop of
a placement is seen pass by pass (`matchPass`, `matchLoop_eq`): a pass that goes on
executes one trade, with an order that no other one precedes at that moment
(`Executes`). What is filled of an order is what the trades say, those on the board and,
while an order is matched, those of the placement (`Taking`).

A placement that ends leaves nothing that crosses the new order, or nothing of the new
order: the book stays uncrossed, but for the orders of one owner (`Uncrossed`).
-/

namespace Itx

open Call

/-- What a trade fills of an order. -/
def Trade.fills (t : Trade) (order : Uuid) : ℕ :=
  if t.buyOrderId = order ∨ t.sellOrderId = order then t.quantity else 0

/-- What some trades fill of an order. -/
def filledIn (trades : List Trade) (order : Uuid) : ℕ := (trades.map (·.fills order)).sum

theorem filledIn_concat (trades : List Trade) (t : Trade) (order : Uuid) :
    filledIn (trades ++ [t]) order = filledIn trades order + t.fills order := by
  simp [filledIn]

/-- An order of which `n` is filled, by its status too. -/
structure Order.Filled (order : Order) (n : ℕ) : Prop where
  eq : order.filled = n
  le : order.filled ≤ order.quantity
  status : order.status = .filled ↔ order.filled = order.quantity

namespace TaskBoard

/-- What the trades of the board fill of an order. -/
def traded (s : TaskBoard) (order : Uuid) : ℕ := s.trades.total fun _ t => t.fills order

/-- No open order to buy is at or above an open order to sell of another owner. -/
def Uncrossed (s : TaskBoard) : Prop :=
  ∀ i j buy sell, s.orders.lookup i = some buy → s.orders.lookup j = some sell →
    buy.status = .open → sell.status = .open → buy.side = .buy → sell.side = .sell →
    buy.owner ≠ sell.owner → buy.price < sell.price

/-- `TaskBoard::order_book`: the bids and the asks, best first. The sorts are stable. -/
def orderBook (s : TaskBoard) : List Order × List Order :=
  let bids := s.orders.values.filter fun o => o.status = .open ∧ o.side = .buy
  let asks := s.orders.values.filter fun o => o.status = .open ∧ o.side = .sell
  (bids.insertionSort (Precedes .sell), asks.insertionSort (Precedes .buy))

variable {s s' : TaskBoard} {taker maker order : Order} {id : Uuid} {now : DateTime}
  {tradeIds : ℕ → Uuid}

/-! ## Priority -/

/-- Strict price-time priority among the orders a taker of a side is matched with: a
    strictly better price, or the same price and strictly earlier. -/
def Better (takerSide : Side) (a b : Order) : Prop :=
  match takerSide with
  | .buy => a.price < b.price ∨ a.price = b.price ∧ a.createdAt < b.createdAt
  | .sell => b.price < a.price ∨ a.price = b.price ∧ a.createdAt < b.createdAt

theorem precedes_iff {side : Side} {a b : Order} : Precedes side a b ↔ ¬ Better side b a := by
  cases side with
  | buy =>
    simp only [Precedes, Better]
    grind
  | sell =>
    simp only [Precedes, Better]
    grind

instance (side : Side) : Std.Total (Precedes side) where
  total a b := by
    cases side with
    | buy =>
      simp only [Precedes]
      grind
    | sell =>
      simp only [Precedes]
      grind

instance (side : Side) : IsTrans Order (Precedes side) where
  trans a b c := by
    cases side with
    | buy =>
      simp only [Precedes]
      grind
    | sell =>
      simp only [Precedes]
      grind

/-- The order is one the taker may be matched with, and none of those is better. -/
structure BestMatch (s : TaskBoard) (taker maker : Order) : Prop where
  mem : s.orders.lookup maker.id = some maker
  accepted : Matches taker maker
  best : ∀ id o, s.orders.lookup id = some o → Matches taker o → ¬ Better taker.side o maker

theorem bestRestingMatch_spec (h : s.OrdersKeyed) (hid : s.bestRestingMatch taker = some id) :
    ∃ maker, s.orders.lookup id = some maker ∧ s.BestMatch taker maker := by
  obtain ⟨maker, hhead, rfl⟩ := Option.map_eq_some_iff.1 hid
  have hsorted := List.pairwise_insertionSort (Precedes taker.side)
    (s.orders.values.filter fun o => Matches taker o)
  have hmem : ∀ o, o ∈ (s.orders.values.filter fun o => Matches taker o).insertionSort
      (Precedes taker.side) ↔ (∃ k, s.orders.lookup k = some o) ∧ Matches taker o := by
    intro o
    rw [List.mem_insertionSort, List.mem_filter, Finmap.mem_values, decide_eq_true_eq]
  -- The head of a sorted list comes before the others, and the list is of the orders that match.
  generalize (s.orders.values.filter fun o => Matches taker o).insertionSort
    (Precedes taker.side) = sorted at hhead hsorted hmem
  obtain ⟨rest, rfl⟩ : ∃ rest, sorted = maker :: rest := List.head?_eq_some_iff.1 hhead
  obtain ⟨⟨k, hk⟩, hmatches⟩ := (hmem maker).1 List.mem_cons_self
  obtain rfl := h k maker hk
  refine ⟨maker, hk, hk, hmatches, fun id o ho hm => precedes_iff.1 ?_⟩
  rcases List.mem_cons.1 ((hmem o).2 ⟨⟨id, ho⟩, hm⟩) with rfl | hrest
  · exact (total_of (Precedes taker.side) o o).elim (fun h => h) fun h => h
  · exact (List.pairwise_cons.1 hsorted).1 o hrest

theorem bestRestingMatch_eq_none (hnone : s.bestRestingMatch taker = none)
    (ho : s.orders.lookup id = some order) : ¬ Matches taker order := by
  intro hm
  have hsorted := List.head?_eq_none_iff.1 (Option.map_eq_none_iff.1 hnone)
  have hmem : order ∈ (s.orders.values.filter fun o => Matches taker o).insertionSort
      (Precedes taker.side) := by
    rw [List.mem_insertionSort, List.mem_filter, Finmap.mem_values]
    exact ⟨⟨id, ho⟩, decide_eq_true hm⟩
  rw [hsorted] at hmem
  cases hmem

/-- An order the endpoint lists is an open one of its side. -/
theorem mem_orderBook :
    (order ∈ s.orderBook.1 ↔
      (∃ i, s.orders.lookup i = some order) ∧ order.status = .open ∧ order.side = .buy) ∧
    (order ∈ s.orderBook.2 ↔
      (∃ i, s.orders.lookup i = some order) ∧ order.status = .open ∧ order.side = .sell) := by
  simp only [orderBook, List.mem_insertionSort, List.mem_filter, Finmap.mem_values,
    decide_eq_true_eq, and_self]

/-- The lists of the endpoint do not cross, but for the orders of one owner. -/
theorem Uncrossed.orderBook (h : s.Uncrossed) {bid ask : Order} (hbid : bid ∈ s.orderBook.1)
    (hask : ask ∈ s.orderBook.2) (howner : bid.owner ≠ ask.owner) : bid.price < ask.price := by
  obtain ⟨⟨i, hi⟩, hbopen, hbuy⟩ := mem_orderBook.1.1 hbid
  obtain ⟨⟨j, hj⟩, hsopen, hsell⟩ := mem_orderBook.2.1 hask
  exact h i j bid ask hi hj hbopen hsopen hbuy hsell howner

/-! ## The passes of the loop -/

/-- What the loop of `TaskBoard::place_order` works on. -/
structure Matching where
  board : TaskBoard
  taker : Order
  trades : List Trade

/-- One turn of the loop of `TaskBoard::place_order`. -/
def matchPass (now : DateTime) (tradeIds : ℕ → Uuid) (_ : ℕ) : Call Matching BoardError Bool :=
  fun m =>
    if m.taker.filled < m.taker.quantity then
      match m.board.bestRestingMatch m.taker with
      | none => (m, .ok false)
      | some restingId =>
        let pass : BoardCall (Order × Trade) := do
          let resting ← Call.lift (.expect (m.board.orders.lookup restingId))
          fill now (tradeIds m.trades.length) m.taker resting
        match pass m.board with
        | (board, .ok (taker, trade)) => (⟨board, taker, m.trades ++ [trade]⟩, .ok true)
        | (board, .err e) => ({ m with board }, .err e)
        | (board, .panic) => ({ m with board }, .panic)
    else (m, .ok false)

/-- The loop of the placement is the loop of its passes, if these are enough. -/
theorem matchLoop_eq {steps n : ℕ} {m m' : Matching} {o : Outcome BoardError Unit}
    (h : Call.loop (matchPass now tradeIds) steps n m = some (m', o)) :
    matchLoop now tradeIds steps m.taker m.trades m.board =
      (m'.board, o >>= fun _ => .ok (m'.taker, m'.trades)) := by
  induction steps generalizing n m with
  | zero => cases h
  | succ steps ih =>
    rw [Call.loop, matchPass] at h
    rw [matchLoop]
    -- A pass of the loop is a step of `matchLoop`, for each outcome of the match and of the fill.
    split_ifs at h ⊢ with hlt
    · change Call.bind Call.get _ m.board = _
      rw [Call.bind, Call.get]
      dsimp only at h ⊢
      cases hbest : m.board.bestRestingMatch m.taker with
      | none =>
        rw [hbest] at h
        obtain ⟨rfl, rfl⟩ := Prod.mk.inj (Option.some.inj h)
        rfl
      | some restingId =>
        rw [hbest] at h
        dsimp only at h ⊢
        cases hrest : m.board.orders.lookup restingId with
        | none =>
          rw [hrest] at h
          obtain ⟨rfl, rfl⟩ := Prod.mk.inj (Option.some.inj h)
          rfl
        | some resting =>
          have hpass : (Call.lift (.expect (some resting)) >>= fun resting =>
              fill now (tradeIds m.trades.length) m.taker resting : BoardCall (Order × Trade)) =
                fill now (tradeIds m.trades.length) m.taker resting := rfl
          rw [hrest, hpass] at h
          change Call.bind (fill now (tradeIds m.trades.length) m.taker resting) _ m.board = _
          rw [Call.bind]
          generalize fill now (tradeIds m.trades.length) m.taker resting m.board = r at h
          obtain ⟨board, ⟨taker, trade⟩ | e | _⟩ := r
          · -- The fill went through, and the loop goes on from what it leaves.
            exact ih h
          · obtain ⟨rfl, rfl⟩ := Prod.mk.inj (Option.some.inj h)
            rfl
          · obtain ⟨rfl, rfl⟩ := Prod.mk.inj (Option.some.inj h)
            rfl
    · obtain ⟨rfl, rfl⟩ := Prod.mk.inj (Option.some.inj h)
      rfl

/-- What is filled at once of two orders. -/
def fillQuantity (taker maker : Order) : ℕ :=
  min (taker.quantity - taker.filled) (maker.quantity - maker.filled)

/-- A pass that goes on: the taker trades with a best match, at its price, for as much as
    both have left. -/
structure Executes (tradeIds : ℕ → Uuid) (m : Matching) (maker : Order) (trade : Trade)
    (m' : Matching) : Prop where
  left : m.taker.filled < m.taker.quantity
  best : m.board.BestMatch m.taker maker
  makerFilled : maker.filled ≤ maker.quantity
  taker : m'.taker =
    { m.taker with filled := m.taker.filled + fillQuantity m.taker maker }
  orders : m'.board.orders = m.board.orders.insert maker.id
    (fillTo maker (maker.filled + fillQuantity m.taker maker))
  boardTrades : m'.board.trades = m.board.trades
  trades : m'.trades = m.trades ++ [trade]
  id : trade.id = tradeIds m.trades.length
  price : trade.price = maker.price
  quantity : trade.quantity = fillQuantity m.taker maker
  parties : trade.buyOrderId = m.taker.id ∧ trade.sellOrderId = maker.id ∨
    trade.buyOrderId = maker.id ∧ trade.sellOrderId = m.taker.id

/-- What writing an account preserves, adding to one does. -/
theorem preserves_addTo {pk : PublicKey} {field : ExchangeAccount.Field} {n : ℕ}
    {P : TaskBoard → Prop} (hP : ∀ s pk account, P s → P (s.restoreExchangeAccount pk account)) :
    Preserves P (addTo pk field n) :=
  .bind .get fun _ => .bind (.lift _) fun _ => .modify fun s => hP s _ _

theorem preserves_subFrom {pk : PublicKey} {field : ExchangeAccount.Field} {n : ℕ}
    {P : TaskBoard → Prop} (hP : ∀ s pk account, P s → P (s.restoreExchangeAccount pk account)) :
    Preserves P (subFrom pk field n) :=
  .bind .get fun _ => .bind (.lift _) fun _ => .modify fun s => hP s _ _

theorem preserves_settle {takerSide : Side} {buy sell : Order} {price q : ℕ}
    {P : TaskBoard → Prop} (hP : ∀ s pk account, P s → P (s.restoreExchangeAccount pk account)) :
    Preserves P (settle takerSide buy sell price q) := by
  refine .bind (.lift _) fun notional => .bind (.lift _) fun fee => .bind (.lift _) fun released => ?_
  refine .bind (preserves_subFrom hP) fun _ => .bind (preserves_subFrom hP) fun _ => ?_
  refine .bind (.lift _) fun computeCredit => .bind (preserves_addTo hP) fun _ => ?_
  refine .bind (preserves_subFrom hP) fun _ => .bind (preserves_subFrom hP) fun _ => ?_
  exact .bind (.lift _) fun baseCredit => .bind (preserves_addTo hP) fun _ => .pure _

theorem preserves_lockFor {owner : PublicKey} {side : Side} {notional quantity : ℕ}
    {P : TaskBoard → Prop} (hP : ∀ s pk account, P s → P (s.restoreExchangeAccount pk account)) :
    Preserves P (lockFor owner side notional quantity) := by
  refine .bind (.modify fun s => hP s _ _) fun _ => .bind .get fun _ => ?_
  cases side with
  | buy => exact .bind (.lift _) fun _ => preserves_addTo hP
  | sell => exact .bind (.lift _) fun _ => preserves_addTo hP

/-- What one fill does. -/
theorem triple_fill_executes {m : Matching} (hlt : m.taker.filled < m.taker.quantity)
    (hbest : m.board.BestMatch m.taker maker) :
    Triple (· = m.board) (fill now (tradeIds m.trades.length) m.taker maker)
      (fun p s' => Executes tradeIds m maker p.2 ⟨s', p.1, m.trades ++ [p.2]⟩) (fun _ _ => True)
      fun _ => True := by
  refine .expect_bind (fun takerLeft ht => ?_) fun _ _ _ => trivial
  refine .expect_bind (fun makerLeft hm => ?_) fun _ _ _ => trivial
  have ht := checkedSub_eq_some.1 ht
  have hm := checkedSub_eq_some.1 hm
  -- What both have left is what the fill is of.
  have hq : min takerLeft makerLeft = fillQuantity m.taker maker := by
    rw [fillQuantity, ← ht, ← hm, Nat.add_sub_cancel_left, Nat.add_sub_cancel_left]
  dsimp only
  rw [hq]
  refine .expect_bind (fun makerFilled hmf => .modify_bind ?_) fun _ _ _ => trivial
  refine .expect_bind (fun takerFilled htf => ?_) fun _ _ _ => trivial
  obtain ⟨rfl, -⟩ := checkedAdd_eq_some.1 hmf
  obtain ⟨rfl, -⟩ := checkedAdd_eq_some.1 htf
  generalize hp : TaskBoard.parties m.taker maker = p
  obtain ⟨buy, sell⟩ := p
  obtain ⟨-, -, -, -, hparties⟩ := parties_spec hbest.accepted hp
  -- Settling moves balances, so the order and the trades stay as they are by then.
  let frame : TaskBoard → Prop := fun s' => s'.trades = m.board.trades ∧
    s'.orders = m.board.orders.insert maker.id
      (fillTo maker (maker.filled + fillQuantity m.taker maker))
  refine .bind ((preserves_settle (P := frame) fun _ _ _ h => h).conseq
    (fun _ e => e ▸ ⟨rfl, rfl⟩) (fun _ _ => id) (fun _ _ _ => trivial) fun _ _ => trivial)
    fun fee => .pure fun s' hs' => ?_
  refine ⟨hlt, hbest, by omega, rfl, hs'.2, hs'.1, rfl, rfl, rfl, rfl, ?_⟩
  rcases hparties with ⟨rfl, rfl⟩ | ⟨rfl, rfl⟩
  · exact .inl ⟨rfl, rfl⟩
  · exact .inr ⟨rfl, rfl⟩

/-- What a pass that goes on does. -/
theorem executes_of_goesOn {n : ℕ} {m m' : Matching} (hkeyed : m.board.OrdersKeyed)
    (h : Call.GoesOn (matchPass now tradeIds) n m m') :
    ∃ maker trade, Executes tradeIds m maker trade m' := by
  rw [Call.GoesOn, matchPass] at h
  split_ifs at h with hlt
  · split at h
    · cases (Prod.mk.inj h).2
    · next restingId hid =>
      -- The pass looked the best match up itself.
      obtain ⟨maker, hlookup, hbest⟩ := bestRestingMatch_spec hkeyed hid
      have hexec : Ends _ _ _ (fill now (tradeIds m.trades.length) m.taker maker m.board) :=
        triple_fill_executes hlt hbest _ rfl
      have hpass : (Call.lift (.expect (some maker)) >>= fun resting =>
          fill now (tradeIds m.trades.length) m.taker resting : BoardCall (Order × Trade)) =
            fill now (tradeIds m.trades.length) m.taker maker := rfl
      rw [hlookup, hpass] at h
      dsimp only at h
      generalize fill now (tradeIds m.trades.length) m.taker maker m.board = r at h hexec
      obtain ⟨board, ⟨taker, trade⟩ | e | _⟩ := r
      · obtain ⟨rfl, -⟩ := Prod.mk.inj h
        exact ⟨maker, trade, hexec⟩
      · cases (Prod.mk.inj h).2
      · cases (Prod.mk.inj h).2
  · cases (Prod.mk.inj h).2

/-- A pass that says the loop is over changes nothing, and leaves nothing of the taker or
    nothing it could be matched with. -/
theorem over_of_matchPass {n : ℕ} {m m' : Matching}
    (h : matchPass now tradeIds n m = (m', .ok false)) :
    m' = m ∧ (m.taker.filled < m.taker.quantity →
      ∀ id o, m.board.orders.lookup id = some o → ¬ Matches m.taker o) := by
  rw [matchPass] at h
  split_ifs at h with hlt
  · split at h
    · -- The taker is not filled, and nothing rests that it matches.
      next hnone =>
      obtain ⟨rfl, -⟩ := Prod.mk.inj h
      exact ⟨rfl, fun _ id o ho => bestRestingMatch_eq_none hnone ho⟩
    · dsimp only at h
      split at h
      · cases (Prod.mk.inj h).2
      · cases (Prod.mk.inj h).2
      · cases (Prod.mk.inj h).2
  · obtain ⟨rfl, -⟩ := Prod.mk.inj h
    exact ⟨rfl, fun h => absurd h hlt⟩

/-! ## What is filled -/

/-- An order is being matched. What is filled of the orders is what the trades of the
    board and those of the placement say. -/
structure Taking (m : Matching) : Prop where
  keyed : m.board.OrdersKeyed
  fresh : m.taker.id ∉ m.board.orders
  status : m.taker.status = .open
  left : m.taker.filled ≤ m.taker.quantity
  filled : m.taker.filled = filledIn m.trades m.taker.id
  orders : ∀ id o, m.board.orders.lookup id = some o →
    o.Filled (m.board.traded id + filledIn m.trades id)
  others : ∀ id, id ∉ m.board.orders →
    m.board.traded id = 0 ∧ (id ≠ m.taker.id → filledIn m.trades id = 0)
  uncrossed : m.board.Uncrossed

section

variable {m m' : Matching} {trade : Trade}

theorem Executes.le (h : Executes tradeIds m maker trade m') :
    m.taker.filled + fillQuantity m.taker maker ≤ m.taker.quantity ∧
      maker.filled + fillQuantity m.taker maker ≤ maker.quantity := by
  have := h.left
  have := h.makerFilled
  rw [fillQuantity]
  omega

theorem Executes.fills (h : Executes tradeIds m maker trade m') (id : Uuid) :
    trade.fills id =
      if id = m.taker.id ∨ id = maker.id then fillQuantity m.taker maker else 0 := by
  rw [Trade.fills, h.quantity]
  refine if_congr ?_ rfl rfl
  rcases h.parties with ⟨hb, hs⟩ | ⟨hb, hs⟩
  · rw [hb, hs, eq_comm, eq_comm (a := maker.id)]
  · rw [hb, hs, eq_comm, eq_comm (a := m.taker.id), or_comm]

theorem Executes.traded (h : Executes tradeIds m maker trade m') (id : Uuid) :
    m'.board.traded id = m.board.traded id := by
  rw [TaskBoard.traded, TaskBoard.traded, h.boardTrades]

theorem Executes.lookup (h : Executes tradeIds m maker trade m') (id : Uuid) :
    m'.board.orders.lookup id = if id = maker.id then
      some (fillTo maker (maker.filled + fillQuantity m.taker maker))
    else m.board.orders.lookup id := by
  rw [h.orders, Finmap.lookup_insert_eq]

/-- The open orders after a fill were open before it, at the same price. -/
theorem Executes.open_of_open (h : Executes tradeIds m maker trade m')
    (ho : m'.board.orders.lookup id = some order) (hopen : order.status = .open) :
    ∃ o, m.board.orders.lookup id = some o ∧ o.status = .open ∧ o.side = order.side ∧
      o.owner = order.owner ∧ o.price = order.price := by
  rw [h.lookup] at ho
  split_ifs at ho with hid
  · obtain rfl := Option.some.inj ho
    exact ⟨maker, hid ▸ h.best.mem, h.best.accepted.status, rfl, rfl, rfl⟩
  · exact ⟨order, ho, hopen, rfl, rfl, rfl⟩

theorem Executes.uncrossed (h : Executes tradeIds m maker trade m') (hm : m.board.Uncrossed) :
    m'.board.Uncrossed := by
  intro i j buy sell hi hj hbopen hsopen hbuy hsell howner
  obtain ⟨buy₀, hi₀, hbopen₀, hbside, hbowner, hbprice⟩ := h.open_of_open hi hbopen
  obtain ⟨sell₀, hj₀, hsopen₀, hsside, hsowner, hsprice⟩ := h.open_of_open hj hsopen
  rw [← hbprice, ← hsprice]
  exact hm i j buy₀ sell₀ hi₀ hj₀ hbopen₀ hsopen₀ (hbside.trans hbuy) (hsside.trans hsell)
    (by rwa [hbowner, hsowner])

/-- The resting order of a fill has that much more filled. -/
theorem Executes.filled (h : Executes tradeIds m maker trade m') {n : ℕ} (hn : maker.Filled n) :
    (fillTo maker (maker.filled + fillQuantity m.taker maker)).Filled
      (n + fillQuantity m.taker maker) := by
  have hle := h.le.2
  refine ⟨congrArg (· + _) hn.eq, hle, ?_⟩
  simp only [fillTo, h.best.accepted.status]
  split_ifs with hfull
  · exact iff_of_true rfl (le_antisymm hle hfull)
  · exact iff_of_false (by simp) (by omega)

/-- What one pass preserves. -/
theorem Taking.executes (hm : Taking m) (h : Executes tradeIds m maker trade m') : Taking m' := by
  have hne : maker.id ≠ m.taker.id := fun e =>
    hm.fresh (e ▸ Finmap.mem_iff.2 ⟨_, h.best.mem⟩)
  -- A fill writes an order that rests already, so the book has the same ids.
  have hmem : ∀ id, id ∈ m'.board.orders ↔ id ∈ m.board.orders := by
    intro id
    rw [h.orders, Finmap.mem_insert, or_iff_right_of_imp]
    rintro rfl
    exact Finmap.mem_iff.2 ⟨_, h.best.mem⟩
  have hid : m'.taker.id = m.taker.id := by rw [h.taker]
  refine ⟨fun id o ho => ?_, ?_, ?_, ?_, ?_, fun id o ho => ?_, fun id hnot => ?_,
    h.uncrossed hm.uncrossed⟩
  · rw [h.lookup] at ho
    split_ifs at ho with hid
    · rw [← Option.some.inj ho, hid]
      rfl
    · exact hm.keyed id o ho
  · rw [hmem, hid]
    exact hm.fresh
  · rw [h.taker]
    exact hm.status
  · rw [h.taker]
    exact h.le.1
  · rw [hid, h.trades, filledIn_concat, h.fills, if_pos (.inl rfl), ← hm.filled, h.taker]
  · -- The maker is filled by this trade, and any other order by none.
    rw [h.traded, h.trades, filledIn_concat, h.fills, ← Nat.add_assoc]
    rw [h.lookup] at ho
    split_ifs at ho with hmaker
    · rw [← Option.some.inj ho, if_pos (.inr hmaker), hmaker]
      exact h.filled (hm.orders _ maker h.best.mem)
    · have htaker : id ≠ m.taker.id := fun e => hm.fresh (e ▸ Finmap.mem_iff.2 ⟨o, ho⟩)
      rw [if_neg (not_or.2 ⟨htaker, hmaker⟩), Nat.add_zero]
      exact hm.orders id o ho
  · rw [hmem] at hnot
    have hmaker : id ≠ maker.id := fun e => hnot (e ▸ Finmap.mem_iff.2 ⟨_, h.best.mem⟩)
    rw [h.traded, hid]
    refine ⟨(hm.others id hnot).1, fun htaker => ?_⟩
    rw [h.trades, filledIn_concat, h.fills, if_neg (not_or.2 ⟨htaker, hmaker⟩),
      (hm.others id hnot).2 htaker]

/-- A pass that goes on closes an order, or nothing is left of the taker. -/
theorem Executes.openCount (h : Executes tradeIds m maker trade m') :
    m'.board.openCount < m.board.openCount ∨
      0 < m.board.openCount ∧ m'.taker.quantity ≤ m'.taker.filled := by
  have hpos := one_le_openCount h.best.mem h.best.accepted.status
  have hcount := openCount_restoreOrder (fillTo maker (maker.filled + fillQuantity m.taker maker))
    h.best.mem rfl h.best.accepted.status
  have heq : m'.board.openCount = (m.board.restoreOrder
      (fillTo maker (maker.filled + fillQuantity m.taker maker))).openCount := by
    rw [TaskBoard.openCount, TaskBoard.openCount, h.orders]
    rfl
  -- Either the taker is filled by what the maker has left, or the maker is by what the taker has
  -- left.
  rcases le_total (m.taker.quantity - m.taker.filled) (maker.quantity - maker.filled) with hle | hle
  · right
    refine ⟨hpos, ?_⟩
    rw [h.taker]
    simp only [fillQuantity, min_eq_left hle]
    omega
  · left
    have hfull : maker.quantity ≤ maker.filled + fillQuantity m.taker maker := by
      rw [fillQuantity, min_eq_right hle]
      omega
    rw [heq]
    rw [show (fillTo maker (maker.filled + fillQuantity m.taker maker)).status = .filled from
      if_pos hfull] at hcount
    simp only [reduceCtorEq, if_false] at hcount
    omega

/-- The loop ends: with as many passes as there are open orders, and one to find that it
    is over. -/
theorem matchPass_terminates {n fuel : ℕ} (hm : Taking m) (hfuel : m.board.openCount < fuel) :
    Call.loop (matchPass now tradeIds) fuel n m ≠ none := by
  refine Call.loop_ne_none (I := Taking) (μ := fun m => m.board.openCount) ?_ ?_ hm hfuel
  · intro n m₀ m₁ h₀ hgo
    obtain ⟨maker, trade, hexec⟩ := executes_of_goesOn h₀.keyed hgo
    exact h₀.executes hexec
  · intro n m₀ m₁ h₀ hgo
    obtain ⟨maker, trade, hexec⟩ := executes_of_goesOn h₀.keyed hgo
    refine hexec.openCount.imp_right fun ⟨hpos, hfull⟩ => ⟨hpos, fun m₂ hgo₂ => ?_⟩
    obtain ⟨_, _, hexec₂⟩ := executes_of_goesOn (h₀.executes hexec).keyed hgo₂
    exact absurd hexec₂.left (not_lt.2 hfull)

end

/-! ## A placement -/

/-- What holds of the book at rest. -/
structure Booked (s : TaskBoard) : Prop where
  keyed : s.OrdersKeyed
  orders : ∀ id o, s.orders.lookup id = some o → o.Filled (s.traded id)
  others : ∀ id, id ∉ s.orders → s.traded id = 0
  uncrossed : s.Uncrossed

theorem Booked.congr (h : s.Booked) (ho : s'.orders = s.orders) (ht : s'.trades = s.trades) :
    s'.Booked := by
  have htraded : s'.traded = s.traded := by
    funext id
    rw [traded, traded, ht]
  refine ⟨?_, ?_, ?_, ?_⟩
  · rw [OrdersKeyed, ho]
    exact h.keyed
  · rw [ho, htraded]
    exact h.orders
  · rw [ho, htraded]
    exact h.others
  · rw [Uncrossed, ho]
    exact h.uncrossed

/-- What the loop of a placement begins with. -/
def placing (s : TaskBoard) (id : Uuid) (owner : PublicKey) (side : Side) (price quantity : ℕ)
    (now : DateTime) : Matching where
  board := (lockFor owner side (price * quantity) quantity s).1
  taker := { id, owner, side, price, quantity, filled := 0, status := .open, createdAt := now }
  trades := []

variable {owner : PublicKey} {side : Side} {price quantity : ℕ}

theorem lockFor_frame {notional : ℕ} :
    (lockFor owner side notional quantity s).1.orders = s.orders ∧
      (lockFor owner side notional quantity s).1.trades = s.trades :=
  (preserves_lockFor (P := fun s' => s'.orders = s.orders ∧ s'.trades = s.trades)
    fun _ _ _ h => h).apply ⟨rfl, rfl⟩

theorem Booked.taking (h : s.Booked) (hid : id ∉ s.orders) :
    Taking (s.placing id owner side price quantity now) := by
  have hb : (s.placing id owner side price quantity now).board.Booked :=
    h.congr lockFor_frame.1 lockFor_frame.2
  refine ⟨hb.keyed, ?_, rfl, Nat.zero_le _, rfl, hb.orders, fun i hi => ⟨hb.others i hi, fun _ => rfl⟩,
    hb.uncrossed⟩
  change id ∉ (lockFor owner side (price * quantity) quantity s).1.orders
  rwa [lockFor_frame.1]

/-- A pass the loop of a placement comes to. -/
structure Passing (tradeIds : ℕ → Uuid) (m₀ : Matching) (n : ℕ) (m : Matching) : Prop where
  taking : Taking m
  length : m.trades.length = n
  ids : m.trades.map Trade.id = (List.range n).map tradeIds
  boardTrades : m.board.trades = m₀.board.trades
  taker : ∃ filled, m.taker = { m₀.taker with filled }

theorem Taking.passing {m₀ m : Matching} {n : ℕ} (h : Taking m₀) (ht : m₀.trades = [])
    (hm : Call.reaches (matchPass now tradeIds) m₀ n = some m) : Passing tradeIds m₀ n m := by
  refine Call.reaches_invariant (I := Passing tradeIds m₀) ?_ (fun n m₁ m₂ h₁ hgo => ?_) hm
  · exact ⟨h, by rw [ht]; rfl, by rw [ht]; rfl, rfl, _, rfl⟩
  · obtain ⟨maker, trade, hexec⟩ := executes_of_goesOn h₁.taking.keyed hgo
    obtain ⟨filled, htaker⟩ := h₁.taker
    refine ⟨h₁.taking.executes hexec, ?_, ?_, hexec.boardTrades.trans h₁.boardTrades,
      m₁.taker.filled + fillQuantity m₁.taker maker, ?_⟩
    · rw [hexec.trades, List.length_append, h₁.length, List.length_singleton]
    · rw [hexec.trades, List.map_append, h₁.ids, List.range_succ, List.map_append, List.map_singleton,
        List.map_singleton, hexec.id, h₁.length]
    · rw [hexec.taker, htaker]

/-- The trades of a placement, under ids that are not in use. -/
theorem traded_restoreTrades {trades : List Trade} (hnodup : (trades.map Trade.id).Nodup)
    (hfresh : ∀ t ∈ trades, t.id ∉ s.trades) (order : Uuid) :
    (trades.foldl (fun s trade => s.restoreTrade trade) s).traded order =
      s.traded order + filledIn trades order := by
  induction trades generalizing s with
  | nil => rfl
  | cons t trades ih =>
    rw [List.map_cons, List.nodup_cons] at hnodup
    have hrest : ∀ t' ∈ trades, t'.id ∉ (s.restoreTrade t).trades := by
      intro t' ht'
      rw [restoreTrade, Finmap.mem_insert, not_or]
      refine ⟨fun e => hnodup.1 (e ▸ List.mem_map_of_mem ht'), hfresh t' (List.mem_cons_of_mem _ ht')⟩
    rw [List.foldl_cons, ih hnodup.2 hrest, traded, traded, restoreTrade,
      Finmap.total_insert_of_notMem (hfresh t List.mem_cons_self), filledIn, filledIn, List.map_cons,
      List.sum_cons]
    omega

/-- A book on which nothing is matched with the new order, or nothing is left of it. -/
theorem Uncrossed.restoreOrder (h : s.Uncrossed)
    (hover : order.status = .open → ∀ i o, s.orders.lookup i = some o → ¬ Matches order o) :
    (s.restoreOrder order).Uncrossed := by
  intro i j buy sell hi hj hbopen hsopen hbuy hsell howner
  rw [TaskBoard.restoreOrder, Finmap.lookup_insert_eq] at hi hj
  by_contra hle
  -- The new order is one of the two, or both were on the book.
  rw [not_lt] at hle
  split_ifs at hi hj
  · obtain rfl := Option.some.inj hi
    obtain rfl := Option.some.inj hj
    exact howner rfl
  · obtain rfl := Option.some.inj hi
    -- It buys, and what it would cross is an order it matches.
    refine hover hbopen j sell hj ⟨hsopen, ?_, howner.symm, ?_⟩
    · rw [hsell, hbuy]
      rfl
    · rw [crosses, hbuy]
      exact hle
  · obtain rfl := Option.some.inj hj
    refine hover hsopen i buy hi ⟨hbopen, ?_, howner, ?_⟩
    · rw [hsell, hbuy]
      rfl
    · rw [crosses, hsell]
      exact hle
  · exact not_le.2 (h i j buy sell hi hj hbopen hsopen hbuy hsell howner) hle

/-- The order of a placement as it goes on the book. -/
def closed (taker : Order) : Order :=
  if taker.filled ≥ taker.quantity then { taker with status := .filled } else taker

/-- The end of a loop: the order goes on the book, and the trades are kept. -/
theorem Taking.booked {m : Matching} (h : Taking m) (hnodup : (m.trades.map Trade.id).Nodup)
    (hfresh : ∀ t ∈ m.trades, t.id ∉ m.board.trades)
    (hover : m.taker.filled < m.taker.quantity →
      ∀ id o, m.board.orders.lookup id = some o → ¬ Matches m.taker o) :
    (m.trades.foldl (fun s trade => s.restoreTrade trade)
      (m.board.restoreOrder (closed m.taker))).Booked := by
  have hid : (closed m.taker).id = m.taker.id := by
    rw [closed]
    split_ifs <;> rfl
  have horders := (restoreTrades_eq m.trades (m.board.restoreOrder (closed m.taker))).1
  have htraded := traded_restoreTrades (s := m.board.restoreOrder (closed m.taker)) hnodup hfresh
  have hkept : (m.board.restoreOrder (closed m.taker)).traded = m.board.traded := rfl
  refine ⟨?_, fun id o ho => ?_, fun id hnot => ?_, ?_⟩
  · rw [OrdersKeyed, horders]
    exact h.keyed.restoreOrder _
  · rw [htraded, hkept]
    -- The taker has its fills in the trades of the loop, the others had theirs before.
    rw [horders, TaskBoard.restoreOrder, Finmap.lookup_insert_eq] at ho
    split_ifs at ho with he
    · obtain rfl := Option.some.inj ho
      rw [he, hid, (h.others _ h.fresh).1, Nat.zero_add, ← h.filled, closed]
      split_ifs with hfull
      · exact ⟨rfl, h.left, iff_of_true rfl (le_antisymm h.left hfull)⟩
      · refine ⟨rfl, h.left, iff_of_false ?_ (by omega)⟩
        rw [h.status]
        simp
    · exact h.orders id o ho
  · rw [horders, TaskBoard.restoreOrder, Finmap.mem_insert, not_or, hid] at hnot
    rw [htraded, hkept, (h.others id hnot.2).1, (h.others id hnot.2).2 hnot.1]
  · rw [Uncrossed, horders]
    refine h.uncrossed.restoreOrder fun hopen => ?_
    rw [closed] at hopen ⊢
    split_ifs at hopen ⊢ with hfull
    -- It is open only if something is left of it, and then the last pass found nothing.
    exact hover (not_le.1 hfull)

theorem infallible_matchLoop {steps : ℕ} {trades : List Trade} :
    Infallible (matchLoop now tradeIds steps taker trades) := by
  -- The balances are changed with checks that panic, and never with an error.
  have hadd : ∀ pk field n, Infallible (addTo pk field n) := fun _ _ _ =>
    .bind .get fun _ => .bind (.expect _) fun _ => .modify _
  have hsub : ∀ pk field n, Infallible (subFrom pk field n) := fun _ _ _ =>
    .bind .get fun _ => .bind (.expect _) fun _ => .modify _
  induction steps generalizing taker trades with
  | zero => exact .lift fun _ => nofun
  | succ steps ih =>
    rw [matchLoop]
    split_ifs
    · refine .bind .get fun s => ?_
      split
      · exact .pure _
      · refine .bind (.expect _) fun resting => .bind ?_ fun _ => ih
        refine .bind (.expect _) fun _ => .bind (.expect _) fun _ => .bind (.expect _) fun _ => ?_
        refine .bind (.modify _) fun _ => .bind (.expect _) fun _ => .bind ?_ fun _ => .pure _
        refine .bind (.expect _) fun _ => .bind (.expect _) fun _ => .bind (.expect _) fun _ => ?_
        refine .bind (hsub _ _ _) fun _ => .bind (hsub _ _ _) fun _ => .bind (.expect _) fun _ => ?_
        refine .bind (hadd _ _ _) fun _ => .bind (hsub _ _ _) fun _ => .bind (hsub _ _ _) fun _ => ?_
        exact .bind (.expect _) fun _ => .bind (hadd _ _ _) fun _ => .pure _
    · exact .pure _

/-- The loop of a placement, when it returns: it has come to a last pass, with nothing
    left of the taker or nothing to match it with. -/
theorem Taking.triple_matchLoop {m₀ : Matching} (h : Taking m₀) (ht : m₀.trades = []) :
    Triple (· = m₀.board) (matchLoop now tradeIds (m₀.board.openCount + 1) m₀.taker [])
      (fun p s' => ∃ n, Call.reaches (matchPass now tradeIds) m₀ n = some ⟨s', p.1, p.2⟩ ∧
        (p.1.filled < p.1.quantity → ∀ id o, s'.orders.lookup id = some o → ¬ Matches p.1 o))
      (fun _ _ => False) fun _ => True := by
  rintro _ rfl
  have hreturns : Call.loop (matchPass now tradeIds) (m₀.board.openCount + 1) 0 m₀ ≠ none :=
    matchPass_terminates h (Nat.lt_succ_self _)
  obtain ⟨⟨m, o⟩, hloop⟩ := Option.ne_none_iff_exists'.1 hreturns
  have heq := matchLoop_eq hloop
  have hloops : Infallible (matchLoop now tradeIds (m₀.board.openCount + 1) m₀.taker m₀.trades) :=
    infallible_matchLoop
  have herr := hloops m₀.board
  rw [heq] at herr
  rw [ht] at heq
  rw [heq]
  -- The loop has returned at its last pass; it has no errors, and may panic.
  obtain _ | e | _ := o
  · obtain ⟨n, m', hm', hlast⟩ := Call.reaches_last (s := m₀) rfl hloop
    obtain ⟨rfl, hover⟩ := over_of_matchPass hlast
    exact ⟨n, hm', hover⟩
  · exact herr e rfl
  · exact trivial

/-- The trades of a placement are those of a pass its loop comes to, and it leaves the
    book as it should be. -/
theorem triple_placeOrder_booked (h : s.Booked) (hid : id ∉ s.orders) :
    Triple (· = s) (placeOrder id tradeIds owner side price quantity now)
      (fun p s' => (tradeIds.Injective → (∀ n, tradeIds n ∉ s.trades) → s'.Booked) ∧ ∃ n m, m.trades = p.2 ∧
        Call.reaches (matchPass now tradeIds) (s.placing id owner side price quantity now) n = some m)
      (fun _ => Booked) fun _ => True := by
  -- A refusal comes before anything is locked.
  refine .lift_known (fun _ _ => .lift_known (fun notional hn => ?_) (fun _ _ => h) fun hn =>
    absurd hn Outcome.okOr_ne_panic) (fun _ _ => h) fun hn => absurd hn Outcome.ensure_ne_panic
  obtain ⟨rfl, -⟩ := checkedMul_eq_some.1 (Outcome.okOr_eq_ok.1 hn)
  refine .bind ((Triple.self s (lockFor owner side (price * quantity) quantity)).conseq
    (fun _ h => h) (fun _ _ h => h) (fun _ s' he => ?_) fun _ _ => trivial) fun _ => ?_
  · have hs' : s' = (lockFor owner side (price * quantity) quantity s).1 := by rw [he]
    rw [hs']
    exact h.congr lockFor_frame.1 lockFor_frame.2
  refine .get_bind fun s₁ hs₁ => ?_
  -- What is locked, and the new order, are the state the loop starts from.
  obtain ⟨m₀, hm₀⟩ : ∃ m₀, m₀ = s.placing id owner side price quantity now := ⟨_, rfl⟩
  have htaking : Taking m₀ := hm₀ ▸ h.taking hid
  have hs₁ : s₁ = m₀.board := by
    rw [hm₀, placing, hs₁]
  have htaker : Order.mk id owner side price quantity 0 .open now = m₀.taker := by rw [hm₀, placing]
  have htrades : m₀.trades = [] := by rw [hm₀, placing]
  have hkept : m₀.board.trades = s.trades := by
    rw [hm₀]
    exact lockFor_frame.2
  rw [hs₁, htaker, ← hm₀]
  refine .bind ((htaking.triple_matchLoop htrades).conseq (fun _ h => h) (fun _ _ h => h)
    (fun _ _ h => h.elim) fun _ h => h) fun p => ?_
  refine .of_state fun s₂ ⟨n, hreach, hover⟩ => .modify_bind (.modify_bind (.pure ?_))
  rintro _ rfl
  have hpass := htaking.passing htrades hreach
  have hboard : s₂.trades = s.trades := hpass.boardTrades.trans hkept
  refine ⟨fun hinj hfresh => hpass.taking.booked ?_ (fun t ht => ?_) hover, n, _, rfl, hreach⟩
  · -- The trades are under the ids that were drawn, one for each pass.
    rw [hpass.ids]
    exact List.nodup_range.map hinj
  · have hmem : t.id ∈ (List.range n).map tradeIds := hpass.ids ▸ List.mem_map_of_mem ht
    obtain ⟨k, -, hk⟩ := List.mem_map.1 hmem
    rw [← hk]
    change tradeIds k ∉ s₂.trades
    rw [hboard]
    exact hfresh k

theorem triple_cancelOrder_booked {caller : PublicKey} (h : s.Booked) :
    Triple (· = s) (cancelOrder id caller) (fun _ => Booked) (fun _ => Booked) fun _ => True := by
  refine .get_bind fun s' hs' => ?_
  subst hs'
  refine .lift_known (fun order ho => ?_) (fun _ _ => h) fun _ => trivial
  refine .lift_known (fun _ _ => ?_) (fun _ _ => h) fun _ => trivial
  refine .lift_known (fun _ hopen => ?_) (fun _ _ => h) fun _ => trivial
  refine .expect_bind (fun remaining _ => .modify_bind ?_) fun _ _ _ => trivial
  have ho := Outcome.okOr_eq_ok.1 ho
  have hopen := Outcome.ensure_eq_ok.1 hopen
  obtain rfl := h.keyed id order ho
  have hcancelled : (s'.restoreOrder { order with status := .cancelled }).Booked := by
    -- The order is no longer open, with what was filled of it.
    refine ⟨h.keyed.restoreOrder _, fun i o hi => ?_, fun i hi => ?_,
      h.uncrossed.restoreOrder (by simp)⟩
    · rw [restoreOrder, Finmap.lookup_insert_eq] at hi
      split_ifs at hi with he
      · obtain rfl := Option.some.inj hi
        have hfilled := h.orders _ order ho
        rw [he]
        refine ⟨hfilled.eq, hfilled.le, iff_of_false (by simp) fun hfull => ?_⟩
        have := hfilled.status.2 hfull
        rw [hopen] at this
        cases this
      · exact h.orders i o hi
    · rw [restoreOrder, Finmap.mem_insert, not_or] at hi
      exact h.others i hi.2
  have hsub : ∀ field n, Triple (· = s'.restoreOrder { order with status := .cancelled })
      (subFrom order.owner field n) (fun _ => Booked) (fun _ => Booked) fun _ => True :=
    fun field n => (preserves_subFrom fun _ _ _ h => h.congr rfl rfl).conseq (fun _ e => e ▸ hcancelled)
      (fun _ _ h => h) (fun _ _ h => h) fun _ _ => trivial
  -- What is unlocked is money or compute, by the side of the order.
  cases hside : order.side with
  | buy =>
    rw [hside] at hsub
    refine .expect_bind (fun released _ => ?_) fun _ _ _ => trivial
    exact .bind (hsub _ _) fun _ => .pure fun _ h => h
  | sell =>
    rw [hside] at hsub
    exact .bind (hsub _ _) fun _ => .pure fun _ h => h

/-! ## Runs -/

theorem booked_of_empty (ho : s.orders = ∅) (ht : s.trades = ∅) : s.Booked := by
  refine ⟨?_, ?_, fun id _ => ?_, ?_⟩
  · rw [OrdersKeyed, ho]
    simp
  · rw [ho]
    simp
  · rw [traded, ht, Finmap.total_empty]
  · rw [Uncrossed, ho]
    simp

end TaskBoard

end Itx
