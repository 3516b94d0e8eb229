import Itx.Hub.Trading

/-!
# The tape explains the balances

A fill debits and credits two accounts, and the fee of its taker goes to the fee sink at
the end of the placement (`hub/src/board.rs`, `hub/src/handlers.rs`). The trade it leaves
on the tape says all of this: what the buyer paid and the seller delivered
(`Trade.spent`), what each received, the taker less its fee (`Trade.gained`), and the fee
(`Trade.fee`).

So the balance of a key is what it had at first, with its deposits and withdrawals, and
what the tape says; `Balanced` carries this through a placement, and `Explained` through
the runs of the desk. Every equation is a sum, with what has left the account on the side
of the balance.
-/

namespace Itx

open Call TaskBoard ExchangeAccount

/-! ## Trades -/

/-- What a trade takes from a key: base if it buys, compute if it sells. -/
def Trade.spent (t : Trade) (side : Side) (pk : PublicKey) : ℕ :=
  match side with
  | .buy => if pk = t.buyer then t.price * t.quantity else 0
  | .sell => if pk = t.seller then t.quantity else 0

/-- The fee of a trade, in the asset of a side. -/
def Trade.fee (t : Trade) (side : Side) : ℕ := feeIn t.takerSide t.takerFee side

/-- What a trade brings a key: base if it sells, compute if it buys, less the fee. -/
def Trade.gained (t : Trade) (side : Side) (pk : PublicKey) : ℕ :=
  match side with
  | .buy => if pk = t.seller then t.price * t.quantity - t.fee .buy else 0
  | .sell => if pk = t.buyer then t.quantity - t.fee .sell else 0

/-- What some trades take from a key. -/
def spentIn (trades : List Trade) (side : Side) (pk : PublicKey) : ℕ :=
  (trades.map (·.spent side pk)).sum

/-- What some trades bring a key. -/
def gainedIn (trades : List Trade) (side : Side) (pk : PublicKey) : ℕ :=
  (trades.map (·.gained side pk)).sum

namespace TaskBoard

/-- What the trades of the board took from a key. -/
def spent (s : TaskBoard) (side : Side) (pk : PublicKey) : ℕ := s.trades.total fun _ t => t.spent side pk

/-- What the trades of the board brought a key. -/
def gained (s : TaskBoard) (side : Side) (pk : PublicKey) : ℕ :=
  s.trades.total fun _ t => t.gained side pk

/-- The fees of the trades of the board. -/
def fees (s : TaskBoard) (side : Side) : ℕ := s.trades.total fun _ t => t.fee side

/-! ## Balances through a call -/

/-- The balances, with what has left them since, are `credits`. -/
def Balanced (debits credits : Side → PublicKey → ℕ) (s : TaskBoard) : Prop :=
  ∀ side pk, s.amount pk side.balance + debits side pk = credits side pk

variable {s : TaskBoard} {debits credits : Side → PublicKey → ℕ} {pk : PublicKey} {field : Field}
  {n : ℕ} {E : BoardError → TaskBoard → Prop} {now : DateTime} {id : Uuid}

theorem balanced_addTo :
    Triple (Balanced debits credits) (addTo pk field n)
      (fun _ => Balanced debits fun side x =>
        credits side x + if x = pk ∧ side.balance = field then n else 0) E fun _ => True := by
  refine .of_state fun s hs => (triple_addTo fun _ => trivial).conseq (fun _ e => e) ?_
    (fun _ _ h => h) fun _ h => h
  rintro _ _ rfl side x
  have := hs side x
  rw [amount_setAmount]
  dsimp only
  split_ifs with h
  · obtain ⟨rfl, rfl⟩ := h
    omega
  · omega

theorem balanced_subFrom :
    Triple (Balanced debits credits) (subFrom pk field n)
      (fun _ => Balanced (fun side x => debits side x + if x = pk ∧ side.balance = field then n else 0)
        credits) E fun _ => True := by
  refine .of_state fun s hs => (triple_subFrom fun _ => trivial).conseq (fun _ e => e) ?_
    (fun _ _ h => h) fun _ h => h
  rintro _ _ ⟨hle, rfl⟩ side x
  have := hs side x
  rw [amount_setAmount]
  dsimp only
  split_ifs with h
  · obtain ⟨rfl, rfl⟩ := h
    omega
  · omega

/-- A fill takes from the two accounts, and brings them, what its trade says. -/
theorem balanced_settle {takerSide : Side} {buy sell : Order} {price q : ℕ} :
    Triple (Balanced debits credits) (settle takerSide buy sell price q)
      (fun fee s => ∀ t : Trade, t.buyer = buy.owner → t.seller = sell.owner → t.price = price →
        t.quantity = q → t.takerSide = takerSide → t.takerFee = fee →
        Balanced (fun side x => debits side x + t.spent side x)
          (fun side x => credits side x + t.gained side x) s) E fun _ => True := by
  refine .expect_bind (fun notional hn => ?_) fun _ _ _ => trivial
  obtain ⟨rfl, -⟩ := checkedMul_eq_some.1 hn
  refine .expect_bind (fun fee _ => ?_) fun _ _ _ => trivial
  refine .expect_bind (fun released _ => ?_) fun _ _ _ => trivial
  -- The steps are those of `settle`, in its order, with each sum and difference in range.
  refine .bind balanced_subFrom fun _ => .bind balanced_subFrom fun _ => ?_
  refine .expect_bind (fun computeCredit hcc => ?_) fun _ _ _ => trivial
  refine .bind balanced_addTo fun _ => .bind balanced_subFrom fun _ => .bind balanced_subFrom fun _ => ?_
  refine .expect_bind (fun baseCredit hbc => ?_) fun _ _ _ => trivial
  refine .bind balanced_addTo fun _ => .pure fun s hs t hbuyer hseller hprice hq hside hfee side x => ?_
  -- What is credited to a side is what its part of the trade brings it.
  have hcompute : computeCredit = q - t.fee .sell := by
    rw [Trade.fee, hside, hfee, feeIn]
    cases takerSide with
    | buy => exact (Nat.sub_eq_of_eq_add' (checkedSub_eq_some.1 hcc).symm).symm
    | sell => exact (Option.some.inj hcc).symm
  have hbase : baseCredit = price * q - t.fee .buy := by
    rw [Trade.fee, hside, hfee, feeIn]
    cases takerSide with
    | buy => exact (Option.some.inj hbc).symm
    | sell => exact (Nat.sub_eq_of_eq_add' (checkedSub_eq_some.1 hbc).symm).symm
  have hside' := hs side x
  rw [hcompute, hbase] at hside'
  cases side with
  | buy =>
    simp [Side.balance, Trade.spent, Trade.gained, hbuyer, hseller, hprice, hq] at hside' ⊢
    omega
  | sell =>
    simp [Side.balance, Trade.spent, Trade.gained, hbuyer, hseller, hq] at hside' ⊢
    omega

/-! ### Placements -/

/-- The balances from those of a board, through some trades. -/
abbrev Through (s : TaskBoard) (trades : List Trade) : TaskBoard → Prop :=
  Balanced (fun side x => spentIn trades side x) fun side x => s.amount x side.balance + gainedIn trades side x

theorem through_nil (s : TaskBoard) : Through s [] s := fun _ _ => rfl

variable {s₀ : TaskBoard} {taker resting : Order} {trades : List Trade} {tradeIds : ℕ → Uuid}
  {owner : PublicKey} {side : Side} {price quantity : ℕ}

/-- One more trade. -/
theorem through_append {t : Trade} (h : Balanced (fun side x => spentIn trades side x + t.spent side x)
    (fun side x => s₀.amount x side.balance + gainedIn trades side x + t.gained side x) s) :
    Through s₀ (trades ++ [t]) s := by
  intro side x
  have := h side x
  simp only [spentIn, gainedIn, List.map_append, List.sum_append, List.map_singleton, List.sum_singleton]
    at this ⊢
  omega

theorem through_fill {tradeId : Uuid} :
    Triple (Through s₀ trades) (fill now tradeId taker resting)
      (fun p => Through s₀ (trades ++ [p.2])) E fun _ => True := by
  refine .expect_bind (fun takerLeft _ => ?_) fun _ _ _ => trivial
  refine .expect_bind (fun restingLeft _ => ?_) fun _ _ _ => trivial
  refine .expect_bind (fun restingFilled _ => ?_) fun _ _ _ => trivial
  refine .bind (R := fun _ => Through s₀ trades) (.modify fun _ h => h) fun _ => ?_
  refine .expect_bind (fun takerFilled _ => ?_) fun _ _ _ => trivial
  exact .bind balanced_settle fun fee => .pure fun s hs => through_append (hs _ rfl rfl rfl rfl rfl rfl)

theorem through_matchLoop {steps : ℕ} :
    Triple (Through s₀ trades) (matchLoop now tradeIds steps taker trades)
      (fun p => Through s₀ p.2) E fun _ => True := by
  induction steps generalizing taker trades with
  | zero => exact .lift nofun nofun fun _ _ _ => trivial
  | succ steps ih =>
    rw [matchLoop]
    split_ifs
    · refine .get_bind fun s hs => ?_
      split
      · exact .pure fun _ e => e ▸ hs
      · refine .expect_bind (fun resting _ => ?_) fun _ _ _ => trivial
        exact .bind (through_fill.conseq (fun _ e => e ▸ hs) (fun _ _ h => h) (fun _ _ h => h)
          fun _ h => h) fun p => ih
    · exact .pure fun _ h => h

/-- Locks are not balances. -/
theorem balanced_lockFor {notional : ℕ} :
    Triple (Balanced debits credits) (lockFor owner side notional quantity)
      (fun _ => Balanced debits credits) (fun _ _ => True) fun _ => True := by
  have key : ∀ side n, Triple (Balanced debits credits) (addTo owner (Side.locked side) n)
      (fun _ => Balanced debits credits) (fun _ _ => True) fun _ => True := by
    refine fun side n => balanced_addTo.conseq (fun _ h => h) (fun _ s h side' x => ?_)
      (fun _ _ h => h) fun _ h => h
    have := h side' x
    simpa using this
  refine .bind (R := fun _ => Balanced debits credits) (.modify fun s h => ?_) fun _ => .get_bind fun s hs => ?_
  · intro side x
    rw [amount_touchAccount]
    exact h side x
  · cases side with
    | buy =>
      exact .lift_known (fun _ _ => (key .buy _).conseq (fun _ e => e ▸ hs) (fun _ _ h => h)
        (fun _ _ h => h) fun _ h => h) (fun _ _ => trivial) fun _ => trivial
    | sell =>
      exact .lift_known (fun _ _ => (key .sell _).conseq (fun _ e => e ▸ hs) (fun _ _ h => h)
        (fun _ _ h => h) fun _ h => h) (fun _ _ => trivial) fun _ => trivial

theorem Balanced.congr {s' : TaskBoard} (h : Balanced debits credits s)
    (ha : s'.exchangeAccounts = s.exchangeAccounts) : Balanced debits credits s' := by
  intro side x
  rw [amount, exchangeAccount, ha]
  exact h side x

theorem through_placeOrder :
    Triple (· = s₀) (placeOrder id tradeIds owner side price quantity now)
      (fun p => Through s₀ p.2) (fun _ _ => True) fun _ => True := by
  refine .lift_known (fun _ _ => ?_) (fun _ _ => trivial) fun _ => trivial
  refine .lift_known (fun notional _ => ?_) (fun _ _ => trivial) fun _ => trivial
  have hlock : Triple (Through s₀ []) (lockFor owner side notional quantity) (fun _ => Through s₀ [])
      (fun _ _ => True) fun _ => True := balanced_lockFor
  refine .bind (hlock.conseq (fun _ e => e ▸ through_nil s₀) (fun _ _ h => h) (fun _ _ h => h)
    fun _ h => h) fun _ => .get_bind fun s₁ hs₁ => ?_
  refine .bind (through_matchLoop.conseq (fun _ e => e ▸ hs₁) (fun _ _ h => h) (fun _ _ h => h)
    fun _ h => h) fun p => .of_state fun s₂ hs₂ => .modify_bind (.modify_bind (.pure fun s₃ hs₃ => ?_))
  obtain ⟨taker, trades⟩ := p
  rw [hs₃]
  exact hs₂.congr (restoreTrades_eq trades _).2

/-- The fees of some trades are those of the tape. -/
theorem feesIn_eq (trades : List Trade) (side : Side) : feesIn trades side = (trades.map (·.fee side)).sum :=
  rfl

/-- A credited fee, if there is one. -/
theorem balanced_credit_bind {α : Type} {f : BoardCall α} {Q : α → TaskBoard → Prop} (side : Side)
    (hf : Triple (Balanced debits fun side' x =>
      credits side' x + if x = pk ∧ side' = side then n else 0) f Q (fun _ _ => True) fun _ => True) :
    Triple (Balanced debits credits) (if n > 0 then addTo pk side.balance n >>= fun _ => f else f) Q
      (fun _ _ => True) fun _ => True := by
  split_ifs with hpos
  · refine .bind balanced_addTo fun _ => ?_
    simpa only [Side.balance_inj] using hf
  · obtain rfl : n = 0 := by omega
    simpa using hf

/-- A placement and the credit of its fees: the fee sink has the fees of the trades. -/
theorem through_placeOrderWithFees {feeSink : PublicKey} :
    Triple (· = s₀) (placeOrderWithFees feeSink id tradeIds owner side price quantity now)
      (fun p => Balanced (fun side x => spentIn p.2 side x) fun side x =>
        s₀.amount x side.balance + gainedIn p.2 side x + if x = feeSink then feesIn p.2 side else 0)
      (fun _ _ => True) fun _ => True := by
  refine .bind through_placeOrder fun p => .expect_bind (fun totals htotals => ?_) fun _ _ _ => trivial
  obtain ⟨order, trades⟩ := p
  rw [takerFeeTotals_eq_some htotals]
  refine balanced_credit_bind .sell (balanced_credit_bind .buy (.pure fun s hs side x => ?_))
  have := hs side x
  by_cases hx : x = feeSink
  · cases side <;> simpa [hx] using this
  · simpa [hx] using this

/-! ### The tape of a placement -/

/-- Trades written one after the other, under ids that are not in use. -/
theorem total_restoreTrades {m : Finmap fun _ : Uuid => Trade} (hnodup : (trades.map Trade.id).Nodup)
    (hfresh : ∀ t ∈ trades, t.id ∉ m) (f : Trade → ℕ) :
    (trades.foldl (fun m trade => m.insert trade.id trade) m).total (fun _ t => f t) =
      (m.total fun _ t => f t) + (trades.map f).sum := by
  induction trades generalizing m with
  | nil => rfl
  | cons t trades ih =>
    rw [List.map_cons, List.nodup_cons] at hnodup
    have hrest : ∀ t' ∈ trades, t'.id ∉ m.insert t.id t := by
      intro t' ht'
      rw [Finmap.mem_insert, not_or]
      exact ⟨fun e => hnodup.1 (e ▸ List.mem_map_of_mem ht'), hfresh t' (List.mem_cons_of_mem _ ht')⟩
    rw [List.foldl_cons, ih hnodup.2 hrest, Finmap.total_insert_of_notMem (hfresh t List.mem_cons_self),
      List.map_cons, List.sum_cons]
    omega

/-- The trades of a placement have the ids it draws. -/
theorem ids_placeOrderWithFees {feeSink : PublicKey} (h : s.Booked) (hid : id ∉ s.orders) :
    Triple (· = s) (placeOrderWithFees feeSink id tradeIds owner side price quantity now)
      (fun p _ => ∃ n, p.2.map Trade.id = (List.range n).map tradeIds) (fun _ _ => True)
      fun _ => True := by
  refine .bind (R := fun p _ => ∃ n, p.2.map Trade.id = (List.range n).map tradeIds)
    ((triple_placeOrder_booked h hid).conseq (fun _ e => e) (fun p _ hp => ?_) (fun _ _ _ => trivial)
      fun _ _ => trivial) fun p => ?_
  · obtain ⟨-, n, m, hm, hreach⟩ := hp
    exact ⟨n, hm ▸ ((h.taking hid).passing rfl hreach).ids⟩
  · refine .expect_bind (fun totals _ => ?_) fun _ _ _ => trivial
    obtain ⟨order, trades⟩ := p
    have hadd : ∀ side n, Preserves (fun _ => ∃ n, trades.map Trade.id = (List.range n).map tradeIds)
        (addTo feeSink (Side.balance side) n) := fun _ _ => preserves_addTo fun _ _ _ h => h
    exact credit_bind_of .sell (hadd .sell _) (credit_bind_of .buy (hadd .buy _) (.pure fun _ h => h))

/-- The trades of a placement are all that it adds to the tape. -/
theorem tape_of_placed {feeSink : PublicKey} {s' : TaskBoard} {order : Order} (h : s.Booked)
    (hid : id ∉ s.orders) (hinj : tradeIds.Injective) (hfresh : ∀ n, tradeIds n ∉ s.trades)
    (hok : placeOrderWithFees feeSink id tradeIds owner side price quantity now s =
      (s', .ok (order, trades))) (f : Trade → ℕ) :
    (s'.trades.total fun _ t => f t) = (s.trades.total fun _ t => f t) + (trades.map f).sum := by
  have hsim : EndAlike _ (placeOrderWithFees feeSink id tradeIds owner side price quantity now s) _ :=
    simulates_placeOrderWithFees hid (.inl rfl) (.inr (.inl rfl)) _ _ (staged_stageOrder h.keyed)
  have hids : Ends _ _ _ (placeOrderWithFees feeSink id tradeIds owner side price quantity now s) :=
    ids_placeOrderWithFees h hid s rfl
  rw [hok] at hsim hids
  obtain ⟨n, (hids : trades.map Trade.id = (List.range n).map tradeIds)⟩ := hids
  have htrades : s'.trades = trades.foldl (fun m trade => m.insert trade.id trade) s.trades :=
    (hsim.2 _ rfl).1.trades
  rw [htrades]
  refine total_restoreTrades ?_ (fun t ht => ?_) f
  · rw [hids]
    exact List.nodup_range.map hinj
  · have hmem : t.id ∈ (List.range n).map tradeIds := hids ▸ List.mem_map_of_mem ht
    obtain ⟨k, -, hk⟩ := List.mem_map.1 hmem
    rw [← hk]
    exact hfresh k

/-! ## The other calls -/

/-- A call that leaves the tape as it was, besides what it does to the balances. -/
theorem balanced_and_trades {α : Type} {x : BoardCall α} {Q : α → TaskBoard → Prop}
    {m : Finmap fun _ : Uuid => Trade}
    (hx : Triple (Balanced debits credits) x Q (fun _ _ => True) fun _ => True)
    (htrades : Preserves (fun s => s.trades = m) x) :
    Triple (fun s => Balanced debits credits s ∧ s.trades = m) x (fun a s => Q a s ∧ s.trades = m)
      (fun _ _ => True) fun _ => True :=
  (hx.and htrades).conseq (fun _ h => h) (fun _ _ h => h) (fun _ _ _ => trivial) fun _ _ => trivial

/-- Cancelling moves no balance, and leaves the tape. -/
theorem balanced_cancelOrder {m : Finmap fun _ : Uuid => Trade} :
    Triple (fun s => Balanced debits credits s ∧ s.trades = m) (TaskBoard.cancelOrder id pk)
      (fun _ s => Balanced debits credits s ∧ s.trades = m) (fun _ _ => True) fun _ => True := by
  have key : ∀ owner side n, Triple (fun s => Balanced debits credits s ∧ s.trades = m)
      (subFrom owner (Side.locked side) n) (fun _ s => Balanced debits credits s ∧ s.trades = m)
      (fun _ _ => True) fun _ => True := by
    refine fun owner side n => (balanced_and_trades balanced_subFrom
      (preserves_subFrom fun _ _ _ h => h)).conseq (fun _ h => h) (fun _ s h => ⟨fun side' x => ?_, h.2⟩)
      (fun _ _ h => h) fun _ h => h
    have := h.1 side' x
    simpa using this
  refine .get_bind fun s hs => .lift_known (fun order _ => ?_) (fun _ _ => trivial) fun _ => trivial
  refine .lift_known (fun _ _ => ?_) (fun _ _ => trivial) fun _ => trivial
  refine .lift_known (fun _ _ => ?_) (fun _ _ => trivial) fun _ => trivial
  refine .expect_bind (fun remaining _ => ?_) fun _ _ _ => trivial
  refine .bind (R := fun _ s => Balanced debits credits s ∧ s.trades = m) (.modify ?_) fun _ => ?_
  · rintro _ rfl
    exact hs
  · split
    · exact .expect_bind (fun released _ => .bind (key _ .buy _) fun _ => .pure fun _ h => h)
        fun _ _ _ => trivial
    · exact .bind (key _ .sell _) fun _ => .pure fun _ h => h

/-- Crediting a deposit brings base to its depositor, and leaves the tape. -/
theorem balanced_confirmExchangeDeposit {observedAmount networkFee : ℕ}
    {m : Finmap fun _ : Uuid => Trade} :
    Triple (fun s => Balanced debits credits s ∧ s.trades = m)
      (TaskBoard.confirmExchangeDeposit id observedAmount networkFee now)
      (fun p s => Balanced debits (fun side x =>
        credits side x + if x = p.1 ∧ side = .buy then p.2 else 0) s ∧ s.trades = m)
      (fun _ _ => True) fun _ => True := by
  refine .get_bind fun s hs => .lift_known (fun deposit _ => ?_) (fun _ _ => trivial) fun _ => trivial
  refine .lift_known (fun _ _ => ?_) (fun _ _ => trivial) fun _ => trivial
  refine .lift_known (fun _ _ => ?_) (fun _ _ => trivial) fun _ => trivial
  refine .lift_known (fun _ _ => ?_) (fun _ _ => trivial) fun _ => trivial
  refine .lift_known (fun _ _ => ?_) (fun _ _ => trivial) fun _ => trivial
  refine .bind (R := fun _ s => Balanced debits credits s ∧ s.trades = m) (.modify ?_) fun _ => ?_
  · rintro _ rfl
    exact hs
  · refine .bind (balanced_and_trades balanced_addTo (preserves_addTo fun _ _ _ h => h)) fun _ =>
      .pure fun s h => ⟨fun side x => ?_, h.2⟩
    have := h.1 side x
    have hside : side.balance = Field.baseBalance ↔ side = .buy := by cases side <;> decide
    simpa only [hside] using this

end TaskBoard

/-! ## Runs of the desk -/

/-- What a key has of the asset of a side, with what has left it, is what has come in. -/
def Desk.Explained (feeSink : PublicKey) (desk : Desk) : Prop :=
  ∀ side pk, desk.hub.board.amount pk side.balance + desk.hub.board.spent side pk +
      (if side = .buy then desk.withdrawn pk else 0) =
    desk.opening pk side + (if side = .buy then desk.deposited pk else 0) + desk.hub.board.gained side pk +
      if pk = feeSink then desk.hub.board.fees side else 0

variable {feeSink : PublicKey} {desk : Desk}

theorem Desk.Explained.balanced (h : desk.Explained feeSink) :
    Balanced (fun side pk => desk.hub.board.spent side pk + if side = .buy then desk.withdrawn pk else 0)
      (fun side pk => desk.opening pk side + (if side = .buy then desk.deposited pk else 0) +
        desk.hub.board.gained side pk + if pk = feeSink then desk.hub.board.fees side else 0)
      desk.hub.board := fun side pk => (Nat.add_assoc _ _ _).symm.trans (h side pk)

/-- What is explained of a board is explained of one that says the same. -/
theorem Desk.Explained.alike (h : desk.Explained feeSink) {hub : Hub}
    (ha : hub.board.Alike desk.hub.board) : Desk.Explained feeSink { desk with hub } := by
  intro side pk
  rw [ha.amount, spent, gained, fees, ha.trades]
  exact h side pk

/-- What a payment reserves of the account of its recipient: what it debits. -/
theorem amount_of_reserve {s : TaskBoard} {payment : Payment} {account : Option ExchangeAccount}
    {deposit : Option PendingDeposit} (hr : reserve payment s = .ok (account, deposit)) (side : Side)
    (pk : PublicKey) :
    (account.elim s fun a => s.restoreExchangeAccount payment.recipient a).amount pk side.balance +
      (if pk = payment.recipient ∧ side = .buy then payment.purpose.debited?.getD 0 else 0) =
        s.amount pk side.balance := by
  rcases reserve_cases hr with ⟨hp, rfl, -⟩ | ⟨debited, base, hp, -, hbase, rfl, -⟩ |
    ⟨_, _, _, _, hp, -, -, rfl, -⟩
  · simp [hp, Purpose.debited?]
  · rw [hp, Purpose.debited?, Option.elim_some, amount, exchangeAccount_restoreExchangeAccount, amount]
    by_cases hpk : pk = payment.recipient
    · subst hpk
      cases side with
      | buy =>
        simp only [if_true, and_self, Option.getD_some, Side.balance, ExchangeAccount.get]
        omega
      | sell => simp [Side.balance, ExchangeAccount.get]
    · simp [hpk]
  · simp [hp, Purpose.debited?]

/-- What one step preserves. -/
theorem Desk.Explained.after (h : desk.Explained feeSink) (hd : desk.Durable) {op : DeskOp}
    (hop : op.Within feeSink desk) : (op.after feeSink desk).Explained feeSink := by
  cases op with
  | askDeposit escrowId pubkey =>
    rw [DeskOp.after]
    split <;> exact h
  | confirmDeposit commits escrowId pubkey observedAmount now =>
    rw [DeskOp.after]
    split_ifs with hasked
    · have hcarries : CarriesOut (TaskBoard.confirmExchangeDeposit escrowId observedAmount
          hubTransactionFee now) (fun p => p) desk.hub
          (Hub.confirmExchangeDeposit commits escrowId pubkey observedAmount now desk.hub) :=
        hd.carriesOut_confirm hasked
      have hend : Ends _ _ _ (TaskBoard.confirmExchangeDeposit escrowId observedAmount hubTransactionFee now
          desk.hub.board) := balanced_confirmExchangeDeposit _ ⟨h.balanced, rfl⟩
      generalize Hub.confirmExchangeDeposit commits escrowId pubkey observedAmount now desk.hub = r
        at hcarries ⊢
      cases hcarries with
      | @done a rows hdone =>
        obtain ⟨depositor, credited⟩ := a
        rw [hdone] at hend
        obtain ⟨hbalanced, (htrades : (rows desk.hub.board).trades = desk.hub.board.trades)⟩ := hend
        -- The depositor has the amount less the fee of the network, and nobody has traded.
        intro side pk
        have hkey := hbalanced side pk
        dsimp only at hkey ⊢
        rw [spent, gained, fees, htrades]
        rw [spent, gained, fees] at hkey
        cases side with
        | buy =>
          simp only [and_true, if_true] at hkey ⊢
          omega
        | sell =>
          simp only [reduceCtorEq, and_false, if_false] at hkey ⊢
          omega
      | @refused o hok =>
        -- A deposit that is refused changes nothing.
        obtain a | e | _ := o
        · exact absurd rfl (hok a)
        · exact h
        · exact h
    · exact h
  | placeOrder commits id tradeIds owner side price quantity now =>
    obtain ⟨hid, hinj, hfresh⟩ := hop.fresh _ _ _ _ _ _ _ _ rfl
    have hcarries : CarriesOut (placeOrderWithFees feeSink id tradeIds owner side price quantity now)
        Prod.fst desk.hub (Hub.placeOrder commits feeSink id tradeIds owner side price quantity now desk.hub) :=
      carriesOut_placeOrder hd.booked.keyed hid
    have hend : Ends _ _ _ (placeOrderWithFees feeSink id tradeIds owner side price quantity now
        desk.hub.board) := through_placeOrderWithFees _ rfl
    rw [DeskOp.after]
    generalize Hub.placeOrder commits feeSink id tradeIds owner side price quantity now desk.hub = r
      at hcarries ⊢
    cases hcarries with
    | @done a rows hdone =>
      obtain ⟨order, trades⟩ := a
      rw [hdone] at hend
      -- The trades of the placement are on the tape, once each.
      have htape := tape_of_placed hd.booked hid hinj hfresh hdone
      have hend : Balanced _ _ (rows desk.hub.board) := hend
      intro side pk
      have hkey := hend side pk
      have hbefore := h side pk
      have hspent := htape fun t => t.spent side pk
      have hgained := htape fun t => t.gained side pk
      have hfees := htape fun t => t.fee side
      dsimp only at hkey ⊢
      rw [spent, gained, fees] at hbefore ⊢
      rw [spentIn, gainedIn, feesIn_eq] at hkey
      rw [hspent, hgained, hfees]
      -- What the fee sink gains beyond its own trades are their fees.
      split_ifs at hkey hbefore ⊢ <;> omega
    | refused => exact h
  | cancelOrder commits orderId pubkey =>
    have hcarries : CarriesOut (TaskBoard.cancelOrder orderId pubkey) (fun order => order) desk.hub
        (Hub.cancelOrder commits orderId pubkey desk.hub) := carriesOut_cancelOrder hd.booked.keyed
    have hend : Ends _ _ _ (TaskBoard.cancelOrder orderId pubkey desk.hub.board) :=
      balanced_cancelOrder _ ⟨h.balanced, rfl⟩
    rw [DeskOp.after]
    generalize Hub.cancelOrder commits orderId pubkey desk.hub = r at hcarries ⊢
    cases hcarries with
    | @done a rows hdone =>
      rw [hdone] at hend
      obtain ⟨hbalanced, (htrades : (rows desk.hub.board).trades = desk.hub.board.trades)⟩ := hend
      -- A cancellation unlocks, which is no trade.
      intro side pk
      have hkey := hbalanced side pk
      dsimp only at hkey ⊢
      rw [spent, gained, fees] at hkey ⊢
      rw [htrades]
      omega
    | refused => exact h
  | prepare chainHeight commits payment =>
    have hend : Ends _ _ _ (Itx.prepare chainHeight commits payment desk.hub) :=
      triple_prepare chainHeight desk.hub rfl
    rw [DeskOp.after]
    generalize Itx.prepare chainHeight commits payment desk.hub = r at hend ⊢
    obtain ⟨hub, p | e | _⟩ := r
    · obtain ⟨-, -, account, deposit, hr, hboard, -⟩ := hend
      have hboth := amount_of_reserve hr
      -- A withdrawal takes what it debits from the account that is written with it.
      intro side pk
      have hbefore := h side pk
      have hkey := hboth side pk
      have htrades : hub.board.trades = desk.hub.board.trades := by rw [hboard]; rfl
      have hamount : hub.board.amount pk side.balance = (account.elim desk.hub.board fun a =>
          desk.hub.board.restoreExchangeAccount p.recipient a).amount pk side.balance := by
        rw [hboard]
        cases account <;> rfl
      dsimp only
      rw [spent, gained, fees] at hbefore ⊢
      rw [htrades, hamount]
      cases side with
      | buy =>
        simp only [and_true, if_true] at hkey hbefore ⊢
        omega
      | sell =>
        simp only [reduceCtorEq, and_false, if_false] at hkey hbefore ⊢
        omega
    · rw [show hub = desk.hub from hend]
      exact h
    · exact hend.elim
  | restart => exact h.alike hd.alike.symm
  | other hub => exact h.alike (hop.other hub rfl).board

theorem Desk.Opens.explained (h : desk.Opens) : desk.Explained feeSink := by
  have hnone : ∀ f : Trade → ℕ, (desk.hub.board.trades.total fun _ t => f t) = 0 := fun f => by
    rw [h.loaded, h.trades, Finmap.total_empty]
  intro side pk
  rw [spent, gained, fees, hnone, hnone, hnone, h.loaded, h.opening, h.deposited, h.withdrawn]
  simp

/-- The tape explains the balances. In every run of placements, cancellations, deposits,
    payments and restarts, from a store with no order and no trade, with fresh ids and balances
    that the supply bounds, whichever of their commits fail, what the store holds for a key,
    with what the key has spent in the trades the store keeps and what it has withdrawn, is
    what it had at first, what it has deposited and what it has gained in these trades; the
    fee sink also has all their fees. -/
theorem tape_explains (hd : (deskSystem feeSink).ReachableBy (DeskOp.Within feeSink) desk) (side : Side)
    (pk : PublicKey) :
    desk.hub.store.amount pk side.balance + desk.hub.store.spent side pk +
        (if side = .buy then desk.withdrawn pk else 0) =
      desk.opening pk side + (if side = .buy then desk.deposited pk else 0) +
        desk.hub.store.gained side pk + if pk = feeSink then desk.hub.store.fees side else 0 := by
  have h₀ : ∀ desk ∈ (deskSystem feeSink).init, desk.Explained feeSink := fun _ h => h.explained
  have h : desk.Explained feeSink := by
    refine hd.invariant_of (fun _ => durable_of_reachable) h₀ ?_
    rintro desk op _ hd h hop rfl
    exact h.after hd hop
  have hstore : Desk.Explained feeSink { desk with hub := ⟨desk.hub.store, desk.hub.store⟩ } :=
    h.alike (durable_of_reachable hd).alike.symm
  exact hstore side pk

/-- After the sample run, key `1` has deposited `100000` and paid `3000` of it, and the fee
    of its compute is with the fee sink. -/
theorem tape_explains_sample :
    let desk := sampleTrading.foldl (DeskOp.after 0) sampleDesk
    desk.hub.store.amount 1 Side.buy.balance = 97000 ∧ desk.hub.store.spent .buy 1 = 3000 ∧
      desk.hub.store.fees .sell = 1 ∧
      desk.hub.store.amount 1 Side.buy.balance + desk.hub.store.spent .buy 1 + desk.withdrawn 1 =
        desk.opening 1 .buy + desk.deposited 1 + desk.hub.store.gained .buy 1 := by
  refine ⟨by decide +kernel, by decide +kernel, by decide +kernel, ?_⟩
  have h := tape_explains sampleTrading_reachable .buy 1
  generalize sampleTrading.foldl (DeskOp.after 0) sampleDesk = desk at h ⊢
  simpa using h

end Itx
