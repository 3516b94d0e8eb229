import Itx.Lib.System
import Itx.Hub.Ledger
import Itx.Hub.Effects

/-!
# Locks are exact and covered

What an account has locked is what its open orders may still spend, and its
balance covers it (`Covers`). The placed order is not on the book while it is
matched, and its lock is taken already: the invariant of the loop is about the
book with the order on it.

A fill changes one order of each side: the buy order with the account of the
buyer, then the sell order with that of the seller, and each of these changes
keeps the invariant (`Covers.insert`).
-/

namespace Itx

open Call ExchangeAccount

/-- What a quantity of an order locks: its notional if the order buys, the
    quantity itself if it sells. -/
def Order.lockOf (order : Order) (quantity : ℕ) : Side → ℕ
  | .buy => order.price * quantity
  | .sell => quantity

/-- What an order locks of the balance of a key: what is left of it, while it is
    open. -/
def Order.locks (order : Order) (side : Side) (pk : PublicKey) : ℕ :=
  if order.owner = pk ∧ order.side = side ∧ order.status = .open then
    order.lockOf (order.quantity - order.filled) side
  else 0

theorem Order.lockOf_add (order : Order) (side : Side) (m n : ℕ) :
    order.lockOf (m + n) side = order.lockOf m side + order.lockOf n side := by
  cases side with
  | buy => exact Nat.mul_add _ _ _
  | sell => rfl

theorem Order.locks_of_filled {order : Order} (h : order.filled = order.quantity) (side : Side)
    (pk : PublicKey) : order.locks side pk = 0 := by
  rw [locks, h, Nat.sub_self]
  cases side <;> simp [lockOf]

/-- `order'` is `order` with `n` more of it filled. It is open, unless nothing is
    left of it. -/
structure Order.FilledBy (n : ℕ) (order order' : Order) : Prop where
  id : order'.id = order.id
  owner : order'.owner = order.owner
  side : order'.side = order.side
  price : order'.price = order.price
  quantity : order'.quantity = order.quantity
  filled : order'.filled = order.filled + n
  filled_le : order'.filled ≤ order'.quantity
  status : order'.status = .open ∨ order'.filled = order'.quantity

/-- What a fill of an order releases. -/
def Order.released (order : Order) (n : ℕ) (side : Side) (pk : PublicKey) : ℕ :=
  if order.owner = pk ∧ order.side = side then order.lockOf n side else 0

/-- A fill releases what it fills. -/
theorem Order.FilledBy.locks {n : ℕ} {order order' : Order} (h : order.FilledBy n order')
    (hopen : order.status = .open) (side : Side) (pk : PublicKey) :
    order'.locks side pk + order.released n side pk = order.locks side pk := by
  have hle : order.filled + n ≤ order.quantity := h.filled ▸ h.quantity ▸ h.filled_le
  have hleft : order.quantity - order.filled = order.quantity - (order.filled + n) + n := by omega
  rcases h.status with hst | hst
  · rw [Order.locks, Order.locks, Order.released, h.owner, h.side, hst, hopen, h.quantity, h.filled,
      hleft, Order.lockOf_add]
    by_cases ho : order.owner = pk ∧ order.side = side
    · have hlock : ∀ k, order'.lockOf k side = order.lockOf k side := fun k => by
        cases side with
        | buy => exact congrArg (· * k) h.price
        | sell => rfl
      simp [ho, hlock]
    · simp only [← and_assoc, ho, false_and, if_false]
  · have hn : order.quantity - order.filled = n := by
      rw [h.filled, h.quantity] at hst
      omega
    rw [Order.locks_of_filled hst, zero_add, Order.locks, Order.released, hopen, hn]
    simp

namespace TaskBoard

/-- The orders of a board. -/
abbrev Book := Finmap fun _ : Uuid => Order

/-- What the open orders of a key lock. -/
def lockedIn (book : Book) (side : Side) (pk : PublicKey) : ℕ :=
  book.total fun _ o => o.locks side pk

/-- The locks of the accounts are those of the orders of the book, and the
    balances cover them. -/
structure Covers (book : Book) (amounts : PublicKey → Field → ℕ) : Prop where
  keyed : ∀ id o, book.lookup id = some o → o.id = id
  filled_le : ∀ id o, book.lookup id = some o → o.filled ≤ o.quantity
  quantity_lt : ∀ id o, book.lookup id = some o → o.quantity < u64Bound
  exact : ∀ (side : Side) pk, amounts pk side.locked = lockedIn book side pk
  covered : ∀ (side : Side) pk, amounts pk side.locked ≤ amounts pk side.balance

variable {book : Book} {amounts amounts' : PublicKey → Field → ℕ} {id : Uuid}

namespace Covers

/-- An order is put on the book or changes, together with the locks of the
    accounts. -/
theorem insert (h : Covers book amounts) (order : Order) (hfilled : order.filled ≤ order.quantity)
    (hquantity : order.quantity < u64Bound)
    (hlocks : ∀ (side : Side) pk, amounts' pk side.locked +
      book.weight (fun _ o => o.locks side pk) order.id =
        amounts pk side.locked + order.locks side pk)
    (hcovered : ∀ (side : Side) pk, amounts' pk side.locked ≤ amounts' pk side.balance) :
    Covers (book.insert order.id order) amounts' := by
  have hmem : ∀ {P : Uuid → Order → Prop}, P order.id order →
      (∀ id o, book.lookup id = some o → P id o) →
      ∀ id o, (book.insert order.id order).lookup id = some o → P id o := by
    intro P hself hrest id o ho
    rw [Finmap.lookup_insert_eq] at ho
    split_ifs at ho with hid
    · rw [hid, ← Option.some.inj ho]
      exact hself
    · exact hrest id o ho
  refine ⟨hmem rfl h.keyed, hmem hfilled h.filled_le, hmem hquantity h.quantity_lt,
    fun side pk => ?_, hcovered⟩
  have htotal := Finmap.total_insert (f := fun (_ : Uuid) o => Order.locks o side pk) (m := book)
    (a := order.id) (b := order)
  have := hlocks side pk
  rw [h.exact side pk] at this
  rw [lockedIn] at this ⊢
  omega

/-- What an order locks, its owner has locked. -/
theorem locks_le (h : Covers book amounts) {order : Order} (ho : book.lookup id = some order)
    (side : Side) (pk : PublicKey) : order.locks side pk ≤ amounts pk side.locked := by
  have hle := Finmap.weight_le_total (f := fun (_ : Uuid) o => Order.locks o side pk) (m := book)
    (a := id)
  rw [Finmap.weight_of_lookup ho] at hle
  exact h.exact side pk ▸ hle

/-- A quantity left of an open order is locked. -/
theorem lockOf_le (h : Covers book amounts) {order : Order} (ho : book.lookup id = some order)
    (hopen : order.status = .open) {n : ℕ} (hn : order.filled + n ≤ order.quantity) :
    order.lockOf n order.side ≤ amounts order.owner order.side.locked := by
  refine le_trans ?_ (h.locks_le ho order.side order.owner)
  rw [Order.locks, if_pos ⟨rfl, rfl, hopen⟩,
    show order.quantity - order.filled = order.quantity - order.filled - n + n by omega,
    Order.lockOf_add]
  exact Nat.le_add_left _ _

/-- A fill of an order: what it releases is unlocked, and the balance may lose as
    much. -/
theorem fill (h : Covers book amounts) {order order' : Order} {n : ℕ}
    (ho : book.lookup id = some order) (hopen : order.status = .open)
    (hfill : order.FilledBy n order')
    (hlocked : ∀ (side : Side) pk,
      amounts' pk side.locked = amounts pk side.locked - order.released n side pk)
    (hbalance : ∀ (side : Side) pk,
      amounts pk side.balance ≤ amounts' pk side.balance + order.released n side pk) :
    Covers (book.insert order'.id order') amounts' := by
  refine h.insert order' hfill.filled_le ?_ (fun side pk => ?_) fun side pk => ?_
  · rw [hfill.quantity]
    exact h.quantity_lt id order ho
  · have hlocks := hfill.locks hopen side pk
    have hle := h.locks_le ho side pk
    rw [hfill.id, h.keyed id order ho, Finmap.weight_of_lookup ho, hlocked side pk]
    omega
  · have := h.covered side pk
    have := hbalance side pk
    rw [hlocked side pk]
    omega

/-- A fill of two orders of different sides. -/
theorem fillBoth (h : Covers book amounts) {a a' b b' : Order} {n : ℕ}
    (ha : book.lookup a.id = some a) (hb : book.lookup b.id = some b) (hne : a.id ≠ b.id)
    (haopen : a.status = .open) (hbopen : b.status = .open) (hafill : a.FilledBy n a')
    (hbfill : b.FilledBy n b')
    (hlocked : ∀ (side : Side) pk, amounts' pk side.locked =
      amounts pk side.locked - (a.released n side pk + b.released n side pk))
    (hbalance : ∀ (side : Side) pk, amounts pk side.balance ≤
      amounts' pk side.balance + (a.released n side pk + b.released n side pk)) :
    Covers ((book.insert a'.id a').insert b'.id b') amounts' := by
  -- Half-way, only the owner of the first order has been debited.
  let half : PublicKey → Field → ℕ := fun pk field =>
    amounts pk field - match field with
      | .lockedBase | .baseBalance => a.released n .buy pk
      | .lockedCompute | .computeBalance => a.released n .sell pk
  have hhalf : ∀ (side : Side) pk, half pk side.locked =
      amounts pk side.locked - a.released n side pk ∧
        half pk side.balance = amounts pk side.balance - a.released n side pk := fun side pk => by
    cases side <;> exact ⟨rfl, rfl⟩
  have h₁ : Covers (book.insert a'.id a') half :=
    h.fill ha haopen hafill (fun side pk => (hhalf side pk).1) fun side pk => by
      rw [(hhalf side pk).2]
      omega
  have hb' : (book.insert a'.id a').lookup b.id = some b := by
    rw [Finmap.lookup_insert_eq, hafill.id, if_neg hne.symm, hb]
  refine h₁.fill hb' hbopen hbfill (fun side pk => ?_) fun side pk => ?_
  · rw [hlocked side pk, (hhalf side pk).1, Nat.sub_sub]
  · have := hbalance side pk
    rw [(hhalf side pk).2]
    omega

end Covers

/-! ## Settling a fill -/

/-- A tenth of the range of `u64`. -/
def exchangeBound : ℕ := u64Bound / 10

/-- The supplies are such that the fees on any part of them are in range. -/
def InBound (s : TaskBoard) : Prop := ∀ side, s.supply side < exchangeBound

theorem exists_takerFee (side : Side) {q notional : ℕ} (hq : q < exchangeBound)
    (hn : notional < exchangeBound) :
    ∃ fee, takerFee side q notional = some fee ∧ fee ≤ received side q notional := by
  have hmul : ∀ k : ℕ, k < exchangeBound → checkedMul k takerFeeBps = some (k * takerFeeBps) :=
    fun k hk => checkedMul_eq_some.2 ⟨rfl, by rw [exchangeBound] at hk; rw [takerFeeBps]; omega⟩
  obtain ⟨fee, hfee⟩ : ∃ fee, takerFee side q notional = some fee := by
    cases side with
    | buy => exact ⟨_, by rw [takerFee, hmul q hq]; rfl⟩
    | sell => exact ⟨_, by rw [takerFee, hmul notional hn]; rfl⟩
  exact ⟨fee, hfee, takerFee_le hfee⟩

theorem exists_creditOf (isTaker : Bool) {n fee : ℕ} (h : isTaker = true → fee ≤ n) :
    ∃ credit, creditOf isTaker n fee = some credit ∧ credit ≤ n := by
  cases isTaker with
  | false => exact ⟨n, rfl, le_rfl⟩
  | true => exact ⟨n - fee, checkedSub_eq_some.2 (Nat.add_sub_cancel' (h rfl)), Nat.sub_le _ _⟩

variable {s : TaskBoard} {E : BoardError → TaskBoard → Prop}

/-- Settling a fill of what is locked does not panic. It releases the locks, and
    takes no more than that from the balances. -/
theorem triple_settle {takerSide : Side} {buy sell : Order} {price q : ℕ} (hb : InBound s)
    (hbuy : buy.side = .buy) (hsell : sell.side = .sell) (hne : buy.owner ≠ sell.owner)
    (hprice : price ≤ buy.price)
    (hlockb : buy.price * q ≤ s.amount buy.owner .lockedBase)
    (hcovb : s.amount buy.owner .lockedBase ≤ s.amount buy.owner .baseBalance)
    (hlocks : q ≤ s.amount sell.owner .lockedCompute)
    (hcovs : s.amount sell.owner .lockedCompute ≤ s.amount sell.owner .computeBalance) :
    Triple (· = s) (settle takerSide buy sell price q)
      (fun _ s' => s'.orders = s.orders ∧
        (∀ (side : Side) pk, s'.amount pk side.locked =
          s.amount pk side.locked - (buy.released q side pk + sell.released q side pk)) ∧
        ∀ (side : Side) pk, s.amount pk side.balance ≤
          s'.amount pk side.balance + (buy.released q side pk + sell.released q side pk)) E
      fun _ => False := by
  have hbase : s.amount buy.owner .baseBalance < exchangeBound :=
    (amount_le_supply s _ .buy).trans_lt (hb .buy)
  have hcompute : s.amount sell.owner .computeBalance < exchangeBound :=
    (amount_le_supply s _ .sell).trans_lt (hb .sell)
  have hbase₂ := (amount_add_le_supply (s := s) .buy hne).trans_lt (hb .buy)
  have hcompute₂ := (amount_add_le_supply (s := s) .sell hne).trans_lt (hb .sell)
  have hbound : exchangeBound ≤ u64Bound := by decide
  have hnotional : price * q ≤ buy.price * q := Nat.mul_le_mul_right q hprice
  have hq : q < exchangeBound := by omega
  have hpq : price * q < exchangeBound := by omega
  -- The fee is taken from what the taker receives, and is no more than that.
  obtain ⟨fee, hfee, hle⟩ := exists_takerFee takerSide hq hpq
  have hfeeb : decide (takerSide = .buy) = true → fee ≤ q := fun h => by
    rw [of_decide_eq_true h] at hle
    exact hle
  have hfees : decide (takerSide = .sell) = true → fee ≤ price * q := fun h => by
    rw [of_decide_eq_true h] at hle
    exact hle
  obtain ⟨cc, hcc, hccle⟩ := exists_creditOf _ hfeeb
  obtain ⟨bc, hbc, hbcle⟩ := exists_creditOf _ hfees
  refine .lift_bind (Outcome.expect_eq_ok.2 (checkedMul_eq_some.2 ⟨rfl, by omega⟩)) ?_
  refine .lift_bind (Outcome.expect_eq_ok.2 hfee) ?_
  refine .lift_bind (Outcome.expect_eq_ok.2 (checkedMul_eq_some.2 ⟨rfl, by omega⟩)) ?_
  -- The lock of the buyer covers the notional at its own price, the balance covers the lock.
  refine subFrom_bind hlockb (subFrom_bind ?_ (.lift_bind (Outcome.expect_eq_ok.2 hcc) ?_))
  · simp only [amount_setAmount, reduceCtorEq, and_false, if_false]
    omega
  refine addTo_bind ?_ (subFrom_bind ?_ (subFrom_bind ?_ (.lift_bind (Outcome.expect_eq_ok.2 hbc)
    (addTo_bind ?_ (.pure ?_)))))
  · simp only [amount_setAmount, reduceCtorEq, and_false, if_false]
    simp only [Side.balance] at hcompute₂
    omega
  · simp only [amount_setAmount, hne.symm, false_and, if_false]
    exact hlocks
  · simp only [amount_setAmount, hne.symm, reduceCtorEq, false_and, and_false, if_false]
    omega
  · simp only [amount_setAmount, hne.symm, reduceCtorEq, false_and, and_false, if_false]
    simp only [Side.balance] at hbase₂
    omega
  · rintro _ rfl
    refine ⟨rfl, fun side pk => ?_, fun side pk => ?_⟩
    -- The buyer, the seller, and anybody else.
    all_goals
      rw [Order.released, Order.released, hbuy, hsell]
      rcases eq_or_ne buy.owner pk with rfl | hpb
      · cases side <;>
          simp [amount_setAmount, Side.locked, Side.balance, Order.lockOf, hne, hne.symm] <;> omega
      rcases eq_or_ne sell.owner pk with rfl | hps
      · cases side <;>
          simp [amount_setAmount, Side.locked, Side.balance, Order.lockOf, hne, hne.symm] <;> omega
      · cases side <;>
          simp [amount_setAmount, Side.locked, Side.balance, hpb, hpb.symm, hps, hps.symm]

/-! ## Matching -/

variable {taker resting buy sell : Order} {now : DateTime}

/-- The best resting order is one of the book. -/
theorem bestRestingMatch_eq_some (h : s.bestRestingMatch taker = some id) :
    ∃ k o, s.orders.lookup k = some o ∧ Matches taker o ∧ o.id = id := by
  obtain ⟨o, ho, hid⟩ := Option.map_eq_some_iff.1 h
  have hmem := (List.mem_insertionSort _).1 (List.mem_of_head? ho)
  obtain ⟨hvalue, hmatches⟩ := List.mem_filter.1 hmem
  obtain ⟨k, hk⟩ := Finmap.mem_values.1 hvalue
  exact ⟨k, o, hk, of_decide_eq_true hmatches, hid⟩

/-- One of the two orders of a fill buys and the other sells, and the buyer's
    price is not below that of the resting order. -/
theorem parties_spec (hm : Matches taker resting) (hp : parties taker resting = (buy, sell)) :
    buy.side = .buy ∧ sell.side = .sell ∧ buy.owner ≠ sell.owner ∧ resting.price ≤ buy.price ∧
      (buy = taker ∧ sell = resting ∨ buy = resting ∧ sell = taker) := by
  obtain ⟨-, hside, howner, hprice⟩ := hm
  rw [parties] at hp
  rw [crosses] at hprice
  cases ht : taker.side with
  | buy =>
    rw [ht] at hp hside hprice
    obtain ⟨rfl, rfl⟩ := Prod.mk.inj hp
    exact ⟨ht, hside, howner.symm, hprice, .inl ⟨rfl, rfl⟩⟩
  | sell =>
    rw [ht] at hp hside
    obtain ⟨rfl, rfl⟩ := Prod.mk.inj hp
    exact ⟨hside, ht, howner, le_rfl, .inr ⟨rfl, rfl⟩⟩

/-- An order is being matched: it is not on the book yet, and its lock is taken. -/
structure Placing (s : TaskBoard) (taker : Order) : Prop where
  covers : Covers (s.orders.insert taker.id taker) s.amount
  fresh : taker.id ∉ s.orders
  status : taker.status = .open
  bound : InBound s

theorem openCount_restoreOrder {order : Order} (order' : Order)
    (ho : s.orders.lookup order.id = some order)
    (hid : order'.id = order.id) (hopen : order.status = .open) :
    (s.restoreOrder order').openCount + 1 = s.openCount + if order'.status = .open then 1 else 0 := by
  have h := Finmap.total_insert (f := fun (_ : Uuid) (o : Order) => if o.status = .open then 1 else 0)
    (m := s.orders) (a := order'.id) (b := order')
  rw [hid, Finmap.weight_of_lookup ho, if_pos hopen] at h
  rw [openCount, openCount, restoreOrder, hid]
  exact h

/-- A fill leaves an order being matched, and closes the resting order unless
    nothing is left of the taker. -/
theorem triple_fill {tradeId : Uuid} (h : Placing s taker) (hm : Matches taker resting)
    (hr : s.orders.lookup resting.id = some resting) :
    Triple (· = s) (fill now tradeId taker resting)
      (fun p s' => Placing s' p.1 ∧
        (p.1.filled < p.1.quantity → s'.openCount < s.openCount)) E fun _ => False := by
  have hne : resting.id ≠ taker.id := fun e => h.fresh (e ▸ Finmap.mem_iff.2 ⟨_, hr⟩)
  have hrbook : (s.orders.insert taker.id taker).lookup resting.id = some resting := by
    rw [Finmap.lookup_insert_eq, if_neg hne, hr]
  have htbook : (s.orders.insert taker.id taker).lookup taker.id = some taker :=
    Finmap.lookup_insert _
  have htle := h.covers.filled_le _ _ htbook
  have hrle := h.covers.filled_le _ _ hrbook
  have htq := h.covers.quantity_lt _ _ htbook
  have hrq := h.covers.quantity_lt _ _ hrbook
  obtain ⟨q, hq⟩ : ∃ q, q = min (taker.quantity - taker.filled) (resting.quantity - resting.filled) :=
    ⟨_, rfl⟩
  have hrfill : resting.FilledBy q (fillTo resting (resting.filled + q)) :=
    ⟨rfl, rfl, rfl, rfl, rfl, rfl, by simp only [fillTo]; omega, by
      simp only [fillTo, hm.status]
      split_ifs with hfull
      · exact .inr (by omega)
      · exact .inl rfl⟩
  have htfill : taker.FilledBy q { taker with filled := taker.filled + q } :=
    ⟨rfl, rfl, rfl, rfl, rfl, rfl, by simp only; omega, .inl h.status⟩
  refine .lift_bind (Outcome.expect_eq_ok.2 (checkedSub_eq_some.2 (Nat.add_sub_cancel' htle))) ?_
  refine .lift_bind (Outcome.expect_eq_ok.2 (checkedSub_eq_some.2 (Nat.add_sub_cancel' hrle))) ?_
  dsimp only
  rw [← hq]
  refine .lift_bind (Outcome.expect_eq_ok.2 (checkedAdd_eq_some.2 ⟨rfl, by omega⟩)) ?_
  refine .modify_bind (.lift_bind (Outcome.expect_eq_ok.2 (checkedAdd_eq_some.2 ⟨rfl, by omega⟩)) ?_)
  generalize hp : parties taker resting = p
  obtain ⟨buy, sell⟩ := p
  obtain ⟨hbuy, hsell, howner, hprice, hparties⟩ := parties_spec hm hp
  -- Both orders are on the book with the taker on it, and open.
  have hon : ∀ o, o = taker ∨ o = resting → (s.orders.insert taker.id taker).lookup o.id = some o ∧
      o.status = .open ∧ o.filled + q ≤ o.quantity := by
    rintro o (rfl | rfl)
    · exact ⟨htbook, h.status, by omega⟩
    · exact ⟨hrbook, hm.status, by omega⟩
  obtain ⟨hbon, hbopen, hbq⟩ := hon buy (by tauto)
  obtain ⟨hson, hsopen, hsq⟩ := hon sell (by tauto)
  have hlockb := h.covers.lockOf_le hbon hbopen hbq
  have hlocks := h.covers.lockOf_le hson hsopen hsq
  rw [hbuy] at hlockb
  rw [hsell] at hlocks
  refine .bind ((triple_settle (s := s.restoreOrder (fillTo resting (resting.filled + q))) h.bound
    hbuy hsell howner hprice hlockb (h.covers.covered .buy _) hlocks (h.covers.covered .sell _)).and
      (supply_settle (m := s.supply) (E := E)) |>.conseq (fun _ e => ⟨e, fun _ => e ▸ rfl⟩)
      (fun _ _ => id) (fun _ _ he => he.1) fun _ hN => hN.1) fun fee => .pure fun s' hs' => ?_
  obtain ⟨⟨horders, hlocked, hbalance⟩, -, hsupply⟩ := hs'
  have hreleased : ∀ side pk, buy.released q side pk + sell.released q side pk =
      resting.released q side pk + taker.released q side pk := by
    intro side pk
    rcases hparties with ⟨rfl, rfl⟩ | ⟨rfl, rfl⟩
    · exact Nat.add_comm _ _
    · rfl
  have hbook : s'.orders.insert taker.id { taker with filled := taker.filled + q } =
      ((s.orders.insert taker.id taker).insert resting.id (fillTo resting (resting.filled + q))).insert
        taker.id { taker with filled := taker.filled + q } := by
    refine Finmap.ext_lookup fun x => ?_
    simp only [horders, restoreOrder, fillTo, Finmap.lookup_insert_eq]
    split_ifs <;> rfl
  refine ⟨⟨?_, ?_, h.status, fun side => ?_⟩, fun hlt => ?_⟩
  · change Covers (s'.orders.insert taker.id { taker with filled := taker.filled + q }) s'.amount
    rw [hbook]
    refine h.covers.fillBoth hrbook htbook hne hm.status h.status hrfill htfill (fun side pk => ?_)
      fun side pk => ?_
    · rw [← hreleased]
      exact hlocked side pk
    · rw [← hreleased]
      exact hbalance side pk
  · rw [horders]
    change taker.id ∉ s.orders.insert resting.id _
    rw [Finmap.mem_insert, not_or]
    exact ⟨hne.symm, h.fresh⟩
  · have := hsupply side
    have := h.bound side
    omega
  · have hcount := openCount_restoreOrder (fillTo resting (resting.filled + q)) hr rfl
      hm.status
    have hfull : resting.filled + q ≥ resting.quantity := by
      have : taker.filled + q < taker.quantity := hlt
      omega
    rw [show (fillTo resting (resting.filled + q)).status = .filled from if_pos hfull] at hcount
    rw [openCount, horders]
    simp only [reduceCtorEq, if_false, add_zero] at hcount
    rw [openCount] at hcount
    omega

theorem one_le_openCount {order : Order} (ho : s.orders.lookup id = some order)
    (hopen : order.status = .open) : 1 ≤ s.openCount := by
  have h := Finmap.weight_le_total (m := s.orders) (a := id)
    (f := fun (_ : Uuid) (o : Order) => if o.status = .open then 1 else 0)
  rwa [Finmap.weight_of_lookup ho, if_pos hopen] at h

/-- The loop does not panic: every fill but the last one closes an order, so the
    steps are enough. -/
theorem triple_matchLoop {tradeIds : ℕ → Uuid} {steps : ℕ} {trades : List Trade}
    (h : Placing s taker) (hpos : 0 < steps)
    (hsteps : taker.filled < taker.quantity → s.openCount < steps) :
    Triple (· = s) (matchLoop now tradeIds steps taker trades) (fun p s' => Placing s' p.1) E
      fun _ => False := by
  induction steps generalizing s taker trades with
  | zero => exact absurd hpos (Nat.lt_irrefl 0)
  | succ steps ih =>
    rw [matchLoop]
    split_ifs with hlt
    · refine .get_bind fun s' hs' => ?_
      subst hs'
      split
      · exact .pure fun _ e => e ▸ h
      · next restingId hbest =>
        obtain ⟨k, resting, hk, hm, rfl⟩ := bestRestingMatch_eq_some hbest
        have hne : k ≠ taker.id := fun e => h.fresh (e ▸ Finmap.mem_iff.2 ⟨_, hk⟩)
        obtain rfl : resting.id = k := h.covers.keyed k resting (by
          rw [Finmap.lookup_insert_eq, if_neg hne, hk])
        refine .lift_bind (Outcome.expect_eq_ok.2 hk) (.bind (triple_fill h hm hk) fun p => ?_)
        refine .of_state fun s₁ hs₁ => ih hs₁.1 ?_ fun hlt' => ?_
        · have := one_le_openCount hk hm.status
          have := hsteps hlt
          omega
        · have := hs₁.2 hlt'
          have := hsteps hlt
          omega
    · exact .pure fun _ e => e ▸ h

/-! ## Placing and cancelling -/

/-- What holds of a board at rest. -/
def Sound (s : TaskBoard) : Prop := Covers s.orders s.amount

theorem Sound.touchAccount (h : s.Sound) (pk : PublicKey) : (s.touchAccount pk).Sound := by
  have : (s.touchAccount pk).amount = s.amount := funext fun _ => funext fun _ => amount_touchAccount
  rw [Sound, this]
  exact h

/-- Locking what the order may spend. -/
theorem triple_lockFor (taker : Order) (h : s.Sound) (hb : InBound s) (hid : taker.id ∉ s.orders)
    (hopen : taker.status = .open) (hfilled : taker.filled = 0) (hq : taker.quantity < u64Bound) :
    Triple (· = s) (lockFor taker.owner taker.side (taker.price * taker.quantity) taker.quantity)
      (fun _ s' => Placing s' taker) (fun _ => Sound) fun _ => False := by
  have hlocks : ∀ side pk, taker.locks side pk = taker.released taker.quantity side pk := by
    intro side pk
    rw [Order.locks, Order.released, hopen, hfilled, Nat.sub_zero]
    simp
  -- The lock of the side of the order grows by what the order may spend.
  have key : ∀ n, n = taker.lockOf taker.quantity taker.side →
      n ≤ s.amount taker.owner taker.side.balance - s.amount taker.owner taker.side.locked →
      Triple (· = s.touchAccount taker.owner) (addTo taker.owner taker.side.locked n)
        (fun _ s' => Placing s' taker) (fun _ => Sound) fun _ => False := by
    intro n hn hle
    have hcov := h.covered taker.side taker.owner
    have hbal := (amount_le_supply s taker.owner taker.side).trans_lt (hb taker.side)
    have hbound : exchangeBound ≤ u64Bound := by decide
    refine (triple_addTo fun hover => ?_).conseq (fun _ => id) ?_ (fun _ _ => id) fun _ => id
    · rw [amount_touchAccount] at hover
      omega
    rintro _ _ rfl
    refine ⟨h.insert taker (hfilled ▸ Nat.zero_le _) hq (fun side pk => ?_) fun side pk => ?_, hid, hopen,
      fun side => ?_⟩
    · rw [Finmap.weight_of_notMem hid, hlocks, Order.released, amount_setAmount_locked,
        amount_touchAccount, amount_touchAccount, hn]
      rcases eq_or_ne taker.owner pk with rfl | hpk
      · rcases eq_or_ne taker.side side with rfl | hside
        · simp
        · simp [hside, hside.symm]
      · simp [hpk, hpk.symm]
    · have := h.covered side pk
      rw [amount_setAmount_locked, amount_setAmount_of_ne (Side.balance_ne_locked _ _),
        amount_touchAccount, amount_touchAccount, amount_touchAccount]
      split_ifs with hif
      · obtain ⟨rfl, rfl⟩ := hif
        omega
      · exact this
    · have := supply_setAmount (s.touchAccount taker.owner) taker.owner taker.side.locked
        ((s.touchAccount taker.owner).amount taker.owner taker.side.locked + n) side
      rw [if_neg (Side.locked_ne_balance _ _), if_neg (Side.locked_ne_balance _ _),
        supply_touchAccount] at this
      have := hb side
      omega
  have hsound := h.touchAccount taker.owner
  refine .modify_bind (.get_bind fun s' hs' => ?_)
  subst hs'
  cases hside : taker.side with
  | buy =>
    refine .lift_known (fun _ hok => ?_) (fun _ _ => hsound) fun hn => absurd hn Outcome.ensure_ne_panic
    rw [exchangeAccount_touchAccount, Outcome.ensure_eq_ok] at hok
    rw [hside] at key
    exact key _ rfl hok
  | sell =>
    refine .lift_known (fun _ hok => ?_) (fun _ _ => hsound) fun hn => absurd hn Outcome.ensure_ne_panic
    rw [exchangeAccount_touchAccount, Outcome.ensure_eq_ok] at hok
    rw [hside] at key
    exact key _ rfl hok

theorem restoreTrades_eq (trades : List Trade) (s : TaskBoard) :
    (trades.foldl (fun s trade => s.restoreTrade trade) s).orders = s.orders ∧
      (trades.foldl (fun s trade => s.restoreTrade trade) s).exchangeAccounts =
        s.exchangeAccounts := by
  induction trades generalizing s with
  | nil => exact ⟨rfl, rfl⟩
  | cons trade trades ih => exact ih (s.restoreTrade trade)

theorem Sound.congr {s' : TaskBoard} (h : s.Sound) (ho : s'.orders = s.orders)
    (ha : s'.exchangeAccounts = s.exchangeAccounts) : s'.Sound := by
  have : s'.amount = s.amount := by
    funext pk field
    rw [amount, amount, exchangeAccount, exchangeAccount, ha]
  rw [Sound, ho, this]
  exact h

/-- Placing an order neither panics nor breaks the locks. -/
theorem triple_placeOrder {tradeIds : ℕ → Uuid} {owner : PublicKey} {side : Side}
    {price quantity : ℕ} (h : s.Sound) (hb : InBound s) (hid : id ∉ s.orders) :
    Triple (· = s) (placeOrder id tradeIds owner side price quantity now) (fun _ => Sound)
      (fun _ => Sound) fun _ => False := by
  refine .lift_known (fun _ hpos => .lift_known (fun notional hn => ?_) (fun _ _ => h) fun hn =>
    absurd hn Outcome.okOr_ne_panic) (fun _ _ => h) fun hn => absurd hn Outcome.ensure_ne_panic
  obtain ⟨rfl, hlt⟩ := checkedMul_eq_some.1 (Outcome.okOr_eq_ok.1 hn)
  have hq : quantity < u64Bound :=
    (Nat.le_mul_of_pos_left quantity (Nat.pos_of_ne_zero (Outcome.ensure_eq_ok.1 hpos).1)).trans_lt hlt
  refine .bind (triple_lockFor ⟨id, owner, side, price, quantity, 0, .open, now⟩ h hb hid
    rfl rfl hq) fun _ => .get_bind fun s₁ hs₁ => ?_
  refine .bind (triple_matchLoop hs₁ (Nat.succ_pos _) fun _ => Nat.lt_succ_self _) fun p => ?_
  refine .of_state fun s₂ hs₂ => .modify_bind (.modify_bind (.pure fun s₃ hs₃ => ?_))
  obtain ⟨taker, trades⟩ := p
  have hbook := hs₂.covers
  have htaker : (s₂.orders.insert taker.id taker).lookup taker.id = some taker :=
    Finmap.lookup_insert _
  obtain ⟨horders, haccounts⟩ := restoreTrades_eq trades (s₂.restoreOrder
    (if taker.filled ≥ taker.quantity then { taker with status := .filled } else taker))
  subst hs₃
  refine Sound.congr ?_ horders haccounts
  split_ifs with hfull
  · have hle := hbook.filled_le _ _ htaker
    have hzero : ∀ side pk, taker.released 0 side pk = 0 := by
      intro side pk
      rw [Order.released]
      cases side <;> simp [Order.lockOf]
    have hfill : taker.FilledBy 0 { taker with status := .filled } :=
      ⟨rfl, rfl, rfl, rfl, rfl, rfl, hle, .inr (le_antisymm hle hfull)⟩
    have : Covers ((s₂.orders.insert taker.id taker).insert taker.id
        { taker with status := .filled }) s₂.amount :=
      hbook.fill htaker hs₂.status hfill (fun side pk => by rw [hzero, Nat.sub_zero])
        fun side pk => by rw [hzero, Nat.add_zero]
    rwa [Finmap.insert_insert] at this
  · exact hbook

/-- Cancelling an order neither panics nor breaks the locks. -/
theorem triple_cancelOrder {caller : PublicKey} (h : s.Sound) (hb : InBound s) :
    Triple (· = s) (cancelOrder id caller) (fun _ => Sound) (fun _ => Sound) fun _ => False := by
  refine .get_bind fun s' hs' => ?_
  subst hs'
  refine .lift_known (fun order ho => ?_) (fun _ _ => h) fun hn => absurd hn Outcome.okOr_ne_panic
  refine .lift_known (fun _ _ => ?_) (fun _ _ => h) fun hn => absurd hn Outcome.ensure_ne_panic
  refine .lift_known (fun _ hopen => ?_) (fun _ _ => h) fun hn => absurd hn Outcome.ensure_ne_panic
  have ho := Outcome.okOr_eq_ok.1 ho
  have hopen := Outcome.ensure_eq_ok.1 hopen
  obtain rfl : order.id = id := h.keyed id order ho
  have hle := h.filled_le _ _ ho
  refine .lift_bind (Outcome.expect_eq_ok.2 (checkedSub_eq_some.2 (Nat.add_sub_cancel' hle)))
    (.modify_bind ?_)
  have hlock := h.lockOf_le ho hopen (n := order.quantity - order.filled) (by omega)
  have hbal := (amount_le_supply s' order.owner order.side).trans_lt (hb order.side)
  have hcov := h.covered order.side order.owner
  have hbound : exchangeBound ≤ u64Bound := by decide
  -- The whole lock of the order is released.
  have key : Triple (· = s'.restoreOrder { order with status := .cancelled })
      (subFrom order.owner order.side.locked
        (order.lockOf (order.quantity - order.filled) order.side))
      (fun _ => Sound) (fun _ => Sound) fun _ => False := by
    refine (triple_subFrom (s := s'.restoreOrder { order with status := .cancelled })
      fun hlt => not_le.2 hlt hlock).conseq (fun _ => id) ?_ (fun _ _ => id) fun _ => id
    rintro _ _ ⟨-, rfl⟩
    refine h.insert { order with status := .cancelled } hle
      (h.quantity_lt _ order ho)
      (fun side pk => ?_) fun side pk => ?_
    · rw [Finmap.weight_of_lookup ho, Order.locks, Order.locks, hopen, amount_setAmount_locked]
      change (if pk = order.owner ∧ side = order.side then
        s'.amount order.owner order.side.locked - _ else s'.amount pk side.locked) + _ = _
      rcases eq_or_ne order.owner pk with rfl | hpk
      · rcases eq_or_ne order.side side with rfl | hside
        · simp
          omega
        · simp [hside, hside.symm]
      · simp [hpk, hpk.symm]
    · rw [amount_setAmount_locked, amount_setAmount_of_ne (Side.balance_ne_locked _ _)]
      change (if pk = order.owner ∧ side = order.side then
        s'.amount order.owner order.side.locked - _ else s'.amount pk side.locked) ≤
          s'.amount pk side.balance
      have := h.covered side pk
      split_ifs with hif
      · obtain ⟨rfl, rfl⟩ := hif
        omega
      · exact this
  cases hside : order.side with
  | buy =>
    rw [hside] at key hlock hcov hbal
    refine .lift_bind (Outcome.expect_eq_ok.2 (checkedMul_eq_some.2 ⟨rfl, ?_⟩))
      (.bind key fun _ => .pure fun _ => id)
    simp only [Order.lockOf] at hlock
    omega
  | sell =>
    rw [hside] at key
    exact .bind key fun _ => .pure fun _ => id

/-! ## Deposits, credits and withdrawals -/

variable {pk : PublicKey}

/-- A balance may change as long as it covers what is locked. -/
theorem Sound.setBalance (h : s.Sound) (side : Side) {n : ℕ} (hle : s.amount pk side.locked ≤ n) :
    (s.setAmount pk side.balance n).Sound := by
  refine ⟨h.keyed, h.filled_le, h.quantity_lt, fun side' x => ?_, fun side' x => ?_⟩
  · rw [amount_setAmount_of_ne (Side.locked_ne_balance _ _)]
    exact h.exact side' x
  · rw [amount_setAmount_of_ne (Side.locked_ne_balance _ _), amount_setAmount]
    split_ifs with hif
    · obtain ⟨rfl, hside⟩ := hif
      obtain rfl := Side.balance_inj.1 hside
      exact hle
    · exact h.covered side' x

theorem sound_addTo (side : Side) (n : ℕ) : Preserves Sound (addTo pk side.balance n) := by
  refine Triple.of_state fun s h => (triple_addTo fun _ => h).conseq (fun _ => id) ?_
    (fun _ _ => id) fun _ => id
  rintro _ _ rfl
  exact h.setBalance side ((h.covered side pk).trans (Nat.le_add_right _ _))

theorem sound_confirmExchangeDeposit (observedAmount networkFee : ℕ) :
    Preserves Sound (confirmExchangeDeposit id observedAmount networkFee now) := by
  refine .bind .get fun s => .bind (.lift _) fun deposit => .bind (.lift _) fun _ => ?_
  refine .bind (.lift _) fun _ => .bind (.lift _) fun _ => .bind (.lift _) fun _ => ?_
  exact .bind (.modify fun s h => h.congr rfl rfl) fun _ => .bind (sound_addTo .buy _) fun _ => .pure _

theorem sound_debitForWithdrawal (amount : ℕ) : Preserves Sound (debitForWithdrawal pk amount) := by
  refine .bind (.lift _) fun _ => .bind (.modify fun s h => h.touchAccount pk) fun _ => ?_
  refine Triple.get_bind fun s h => .lift_known (fun _ hok => ?_) (fun _ _ => h) fun _ => h
  refine (triple_subFrom fun _ => h).conseq (fun _ => id) ?_ (fun _ _ => id) fun _ => id
  rintro _ _ ⟨-, rfl⟩
  have hle : amount ≤ s.amount pk .baseBalance - s.amount pk .lockedBase := Outcome.ensure_eq_ok.1 hok
  have hcov : s.amount pk .lockedBase ≤ s.amount pk .baseBalance := h.covered .buy pk
  have hleft : s.amount pk .lockedBase ≤ s.amount pk .baseBalance - amount := by omega
  exact h.setBalance .buy hleft

/-- A withdrawal is debited from what is not locked; other payments leave the
    accounts alone. -/
theorem sound_prepare {chainHeight : ℕ} {commits : Bool} {payment : Payment} {store : TaskBoard}
    (h : s.Sound) : (prepare chainHeight commits payment ⟨s, store⟩).1.board.Sound := by
  have hend : Ends _ _ _ (prepare chainHeight commits payment ⟨s, store⟩) :=
    triple_prepare chainHeight ⟨s, store⟩ rfl
  generalize prepare chainHeight commits payment ⟨s, store⟩ = r at hend
  obtain ⟨s', p | e | _⟩ := r
  · obtain ⟨-, -, account, deposit, hr, hboard, -⟩ := hend
    rw [hboard]
    rcases reserve_cases hr with ⟨-, rfl, rfl⟩ | ⟨debited, base, -, hle, hbase, rfl, rfl⟩ |
      ⟨_, _, _, d, -, -, -, rfl, rfl⟩
    · exact h.congr rfl rfl
    · have hcov : (s.exchangeAccount p.recipient).lockedBase ≤
        (s.exchangeAccount p.recipient).baseBalance := h.covered .buy p.recipient
      dsimp only at hle hbase
      have hleft : (s.exchangeAccount p.recipient).lockedBase ≤ base := by omega
      exact (h.setBalance .buy hleft).congr rfl rfl
    · exact h.congr rfl rfl
  · rw [show s' = ⟨s, store⟩ from hend]
    exact h
  · exact hend.elim

/-! ## Runs of the exchange -/

/-- A call on the ledger of the exchange. The ids a placement draws, the store a
    payment is committed to and whether it commits are part of it. -/
inductive ExchangeOp
  | confirmExchangeDeposit (id : Uuid) (observedAmount networkFee : ℕ) (now : DateTime)
  | creditBase (recipient : PublicKey) (amount : ℕ)
  | creditCompute (recipient : PublicKey) (amount : ℕ)
  | placeOrder (id : Uuid) (tradeIds : ℕ → Uuid) (owner : PublicKey) (side : Side)
      (price quantity : ℕ) (now : DateTime)
  | cancelOrder (orderId : Uuid) (caller : PublicKey)
  | debitForWithdrawal (owner : PublicKey) (amount : ℕ)
  | creditBackWithdrawal (owner : PublicKey) (amount : ℕ)
  | prepare (chainHeight : ℕ) (commits : Bool) (payment : Payment) (store : TaskBoard)

/-- The board after a call, whatever its outcome. -/
def ExchangeOp.after (s : TaskBoard) : ExchangeOp → TaskBoard
  | .confirmExchangeDeposit id observedAmount networkFee now =>
    (TaskBoard.confirmExchangeDeposit id observedAmount networkFee now s).1
  | .creditBase recipient amount => (TaskBoard.creditBase recipient amount s).1
  | .creditCompute recipient amount => (TaskBoard.creditCompute recipient amount s).1
  | .placeOrder id tradeIds owner side price quantity now =>
    (TaskBoard.placeOrder id tradeIds owner side price quantity now s).1
  | .cancelOrder orderId caller => (TaskBoard.cancelOrder orderId caller s).1
  | .debitForWithdrawal owner amount => (TaskBoard.debitForWithdrawal owner amount s).1
  | .creditBackWithdrawal owner amount => (TaskBoard.creditBackWithdrawal owner amount s).1
  | .prepare chainHeight commits payment store =>
    (Itx.prepare chainHeight commits payment ⟨s, store⟩).1.board

/-- The exchange as a transition system, from any board without accounts and
    orders. -/
def exchangeSystem : System TaskBoard ExchangeOp where
  init := {s | s.exchangeAccounts = ∅ ∧ s.orders = ∅}
  step s op s' := s' = op.after s

/-- The steps that keep the supplies within the bound, and whose placed orders
    draw fresh ids. -/
def Within (s : TaskBoard) (op : ExchangeOp) : Prop :=
  InBound (op.after s) ∧
    ∀ id tradeIds owner side price quantity now,
      op = .placeOrder id tradeIds owner side price quantity now → id ∉ s.orders

theorem sound_of_empty (ha : s.exchangeAccounts = ∅) (ho : s.orders = ∅) : s.Sound := by
  have hamount : ∀ pk field, s.amount pk field = 0 := fun pk field => by
    rw [amount, exchangeAccount, ha, Finmap.lookup_empty]
    exact get_default field
  rw [Sound, ho]
  refine ⟨by simp, by simp, by simp, fun side pk => ?_, fun side pk => ?_⟩
  · rw [hamount, lockedIn, Finmap.total_empty]
  · rw [hamount, hamount]

theorem inBound_of_empty (ha : s.exchangeAccounts = ∅) : InBound s := fun side => by
  rw [supply, ha, Finmap.total_empty]
  decide

/-- What one call preserves. -/
theorem sound_after (h : s.Sound) (hb : InBound s) {op : ExchangeOp} (hop : Within s op) :
    (op.after s).Sound := by
  cases op with
  | confirmExchangeDeposit id observedAmount networkFee now =>
    exact (sound_confirmExchangeDeposit observedAmount networkFee).apply h
  | creditBase recipient amount => exact (sound_addTo .buy amount).apply h
  | creditCompute recipient amount => exact (sound_addTo .sell amount).apply h
  | placeOrder id tradeIds owner side price quantity now =>
    exact ((triple_placeOrder h hb (hop.2 _ _ _ _ _ _ _ rfl)).apply rfl).1
  | cancelOrder orderId caller => exact ((triple_cancelOrder h hb).apply rfl).1
  | debitForWithdrawal owner amount => exact (sound_debitForWithdrawal amount).apply h
  | creditBackWithdrawal owner amount => exact (sound_addTo .buy amount).apply h
  | prepare chainHeight commits payment store => exact sound_prepare h

theorem sound_of_reachable (hs : exchangeSystem.ReachableBy Within s) : s.Sound ∧ InBound s := by
  have h₀ : ∀ s ∈ exchangeSystem.init, s.Sound ∧ InBound s := fun s h =>
    ⟨sound_of_empty h.1 h.2, inBound_of_empty h.1⟩
  refine hs.invariant h₀ ?_
  rintro s op _ ⟨h, hb⟩ hop rfl
  exact ⟨sound_after h hb hop, hop.1⟩

/-- In every run whose supplies stay within the bound, the locks of an account are
    what its open orders may still spend, and its balances cover them; no call of
    `place_order`, with a fresh id, or of `cancel_order` panics. -/
theorem locks_exact (hs : exchangeSystem.ReachableBy Within s) :
    (∀ pk, (s.exchangeAccount pk).lockedBase = lockedIn s.orders .buy pk ∧
      (s.exchangeAccount pk).lockedBase ≤ (s.exchangeAccount pk).baseBalance ∧
      (s.exchangeAccount pk).lockedCompute = lockedIn s.orders .sell pk ∧
      (s.exchangeAccount pk).lockedCompute ≤ (s.exchangeAccount pk).computeBalance) ∧
    (∀ id tradeIds owner side price quantity now, id ∉ s.orders →
      (placeOrder id tradeIds owner side price quantity now s).2 ≠ .panic) ∧
    ∀ orderId caller, (cancelOrder orderId caller s).2 ≠ .panic := by
  obtain ⟨h, hb⟩ := sound_of_reachable hs
  refine ⟨fun pk => ⟨h.exact .buy pk, h.covered .buy pk, h.exact .sell pk, h.covered .sell pk⟩,
    fun id tradeIds owner side price quantity now hid => ?_, fun orderId caller => ?_⟩
  · exact ((triple_placeOrder h hb hid).apply rfl).2
  · exact ((triple_cancelOrder h hb).apply rfl).2

/-- A board on which an order to sell `3000` at `3` rests, `1000` of it filled by an
    order to buy at `4`. -/
def crossed : TaskBoard :=
  let s₁ := ExchangeOp.after new (.creditBase 1 100000)
  let s₂ := ExchangeOp.after s₁ (.creditCompute 2 5000)
  let s₃ := ExchangeOp.after s₂ (.placeOrder 10 (fun n => n) 2 .sell 3 3000 0)
  ExchangeOp.after s₃ (.placeOrder 11 (fun n => n) 1 .buy 4 1000 1)

instance (s : TaskBoard) : Decidable (InBound s) :=
  decidable_of_iff (s.supply .buy < exchangeBound ∧ s.supply .sell < exchangeBound)
    ⟨fun h side => by cases side; exacts [h.1, h.2], fun h => ⟨h .buy, h .sell⟩⟩

theorem crossed_reachable : exchangeSystem.ReachableBy Within crossed := by
  have h₁ : exchangeSystem.ReachableBy Within _ := .step (l := .creditBase 1 100000)
    (.init (s := new) ⟨rfl, rfl⟩) ⟨by decide +kernel, nofun⟩ rfl
  have h₂ := h₁.step (l := .creditCompute 2 5000) ⟨by decide +kernel, nofun⟩ rfl
  have h₃ := h₂.step (l := .placeOrder 10 (fun n => n) 2 .sell 3 3000 0) ⟨by decide +kernel, by
    rintro _ _ _ _ _ _ _ ⟨⟩
    decide +kernel⟩ rfl
  exact h₃.step (l := .placeOrder 11 (fun n => n) 1 .buy 4 1000 1) ⟨by decide +kernel, by
    rintro _ _ _ _ _ _ _ ⟨⟩
    decide +kernel⟩ rfl

theorem locks_exact_crossed : (crossed.exchangeAccount 2).lockedCompute = 2000 ∧
    (crossed.exchangeAccount 1).lockedBase = 0 ∧ (crossed.exchangeAccount 1).baseBalance = 97000 ∧
    (crossed.exchangeAccount 2).lockedCompute = lockedIn crossed.orders .sell 2 :=
  ⟨by decide +kernel, by decide +kernel, by decide +kernel,
    ((locks_exact crossed_reachable).1 2).2.2.1⟩

end TaskBoard

end Itx
