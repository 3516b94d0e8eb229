import Itx.Hub.Locks

/-!
# Trading conserves value

A fill moves base from the buyer to the seller and compute from the seller to the
buyer, but for the fee of the taker, which leaves the supply of what it receives
(`supply_settle`). The loop accumulates the fees with the trades (`feesIn`), and
the handler credits their totals to the fee sink: the supplies are those before
the order.

Nothing is assumed of the board: the sums come back to what they were whatever the
accounts involved. On a board of a run within the bound, moreover, the fees are
part of a supply, so that crediting them does not overflow.
-/

namespace Itx

open Call ExchangeAccount

namespace TaskBoard

variable {s : TaskBoard} {taker resting : Order} {orderId : Uuid} {now : DateTime} {m : Side → ℕ}
  {E : BoardError → TaskBoard → Prop} {trades : List Trade}

/-! ## The fees of some trades -/

/-- The fees of some trades, in the asset of a side. -/
def feesIn (trades : List Trade) (side : Side) : ℕ :=
  (trades.map fun t => feeIn t.takerSide t.takerFee side).sum

/-- The fee of a trade is at most what its taker receives. -/
def FeeCovered (t : Trade) : Prop :=
  t.takerFee ≤ received t.takerSide t.quantity (t.price * t.quantity)

theorem feesIn_append_singleton (trades : List Trade) (t : Trade) (side : Side) :
    feesIn (trades ++ [t]) side = feesIn trades side + feeIn t.takerSide t.takerFee side := by
  simp [feesIn]

/-- The accumulation of `takerFeeTotals`: it fails only when the fees of a side are
    out of range. -/
theorem foldlM_fees {c b : ℕ} {r : Option (ℕ × ℕ)}
    (h : trades.foldlM (fun (compute, base) t =>
      match t.takerSide with
      | .buy => (checkedAdd compute t.takerFee).map (·, base)
      | .sell => (checkedAdd base t.takerFee).map (compute, ·)) (c, b) = r) :
    r = some (c + feesIn trades .sell, b + feesIn trades .buy) ∨
      r = none ∧ (u64Bound ≤ c + feesIn trades .sell ∨ u64Bound ≤ b + feesIn trades .buy) := by
  subst h
  induction trades generalizing c b with
  | nil => exact .inl rfl
  | cons t trades ih =>
    rw [List.foldlM_cons]
    -- A fee is charged in what the taker receives.
    cases hside : t.takerSide with
    | buy =>
      have hsell : feesIn (t :: trades) .sell = t.takerFee + feesIn trades .sell := by
        simp [feesIn, feeIn, hside, Side.opposite]
      have hbuy : feesIn (t :: trades) .buy = feesIn trades .buy := by
        simp [feesIn, feeIn, hside, Side.opposite]
      rw [hsell, hbuy, ← Nat.add_assoc]
      rcases lt_or_ge (c + t.takerFee) u64Bound with hlt | hge
      · simp only [checkedAdd_eq_some.2 ⟨rfl, hlt⟩]
        exact ih
      · simp only [checkedAdd, checked_eq_none.2 hge]
        exact .inr ⟨rfl, .inl (hge.trans (Nat.le_add_right _ _))⟩
    | sell =>
      have hsell : feesIn (t :: trades) .sell = feesIn trades .sell := by
        simp [feesIn, feeIn, hside, Side.opposite]
      have hbuy : feesIn (t :: trades) .buy = t.takerFee + feesIn trades .buy := by
        simp [feesIn, feeIn, hside, Side.opposite]
      rw [hsell, hbuy, ← Nat.add_assoc]
      rcases lt_or_ge (b + t.takerFee) u64Bound with hlt | hge
      · simp only [checkedAdd_eq_some.2 ⟨rfl, hlt⟩]
        exact ih
      · simp only [checkedAdd, checked_eq_none.2 hge]
        exact .inr ⟨rfl, .inr (hge.trans (Nat.le_add_right _ _))⟩

theorem takerFeeTotals_eq_some {p : ℕ × ℕ} (h : takerFeeTotals trades = some p) :
    p = (feesIn trades .sell, feesIn trades .buy) := by
  rcases foldlM_fees h with h | ⟨h, -⟩
  · rw [Option.some.inj h, Nat.zero_add, Nat.zero_add]
  · cases h

theorem le_feesIn_of_eq_none (h : takerFeeTotals trades = none) :
    ∃ side, u64Bound ≤ feesIn trades side := by
  rcases foldlM_fees h with h | ⟨-, h | h⟩
  · cases h
  · exact ⟨.sell, Nat.zero_add (feesIn trades .sell) ▸ h⟩
  · exact ⟨.buy, Nat.zero_add (feesIn trades .buy) ▸ h⟩

/-! ## Placing -/

/-- What is out of the supplies, the fees of the trades made so far, and what they
    were at first. -/
def Traded (m : Side → ℕ) (trades : List Trade) (s : TaskBoard) : Prop :=
  (∀ side, s.supply side + feesIn trades side = m side) ∧ ∀ t ∈ trades, FeeCovered t

theorem traded_fill {tradeId : Uuid} (h : Traded m trades s) :
    Triple (· = s) (fill now tradeId taker resting) (fun p => Traded m (trades ++ [p.2])) E
      fun _ => True := by
  refine .expect_bind (fun takerLeft _ => ?_) fun _ _ _ => trivial
  refine .expect_bind (fun restingLeft _ => ?_) fun _ _ _ => trivial
  refine .expect_bind (fun restingFilled _ => .modify_bind ?_) fun _ _ _ => trivial
  refine .expect_bind (fun takerFilled _ => ?_) fun _ _ _ => trivial
  -- Settling takes the fee out of the supply of one side, and nothing else.
  refine .bind ((supply_settle (m := s.supply)).conseq ?_ (fun _ _ => id) (fun _ _ => id)
    fun _ => id) fun fee => .pure fun s' hs' => ⟨fun side => ?_, fun t ht => ?_⟩
  · rintro _ rfl side
    rfl
  · have hfee := hs'.2 side
    have hside := h.1 side
    rw [feesIn_append_singleton]
    dsimp only
    omega
  · rcases List.mem_append.1 ht with ht | ht
    · exact h.2 t ht
    · rw [List.mem_singleton.1 ht]
      exact hs'.1

theorem traded_matchLoop {tradeIds : ℕ → Uuid} {steps : ℕ} (h : Traded m trades s) :
    Triple (· = s) (matchLoop now tradeIds steps taker trades) (fun p => Traded m p.2) E
      fun _ => True := by
  induction steps generalizing s taker trades with
  | zero => exact .lift nofun nofun fun _ _ _ => trivial
  | succ steps ih =>
    rw [matchLoop]
    split_ifs
    · refine .get_bind fun s' hs' => ?_
      subst hs'
      split
      · exact .pure fun _ e => e ▸ h
      · refine .expect_bind (fun resting _ => ?_) fun _ _ _ => trivial
        exact .bind (traded_fill h) fun p => .of_state fun s₁ hs₁ => ih hs₁
    · exact .pure fun _ e => e ▸ h

/-- Locks are not part of the supplies. -/
theorem supply_setAmount_locked {pk : PublicKey} {side : Side} {n : ℕ} :
    (s.setAmount pk side.locked n).supply = s.supply := by
  funext side'
  have h := supply_setAmount s pk side.locked n side'
  rwa [if_neg (Side.locked_ne_balance _ _), if_neg (Side.locked_ne_balance _ _)] at h

theorem supply_lockFor {owner : PublicKey} {side : Side} {notional quantity : ℕ} :
    Preserves (fun s => s.supply = m) (lockFor owner side notional quantity) := by
  have key : ∀ side n, Preserves (fun s => s.supply = m) (addTo owner (Side.locked side) n) := by
    refine fun side n => Triple.of_state fun s hs => ?_
    refine (triple_addTo fun _ => hs).conseq (fun _ => id) ?_ (fun _ _ => id) fun _ => id
    rintro _ _ rfl
    rw [supply_setAmount_locked, hs]
  refine .bind (.modify fun s hs => ?_) fun _ => .bind .get fun s => ?_
  · funext side
    rw [supply_touchAccount, hs]
  · cases side with
    | buy => exact .bind (.lift _) fun _ => key .buy notional
    | sell => exact .bind (.lift _) fun _ => key .sell quantity

theorem supply_congr {s' : TaskBoard} (h : s'.exchangeAccounts = s.exchangeAccounts) :
    s'.supply = s.supply := by
  funext side
  rw [supply, supply, h]

/-- An order that is placed takes its fees out of the supplies; one that is refused
    leaves them. -/
theorem traded_placeOrder {tradeIds : ℕ → Uuid} {owner : PublicKey} {side : Side}
    {price quantity : ℕ} :
    Triple (· = s) (placeOrder orderId tradeIds owner side price quantity now)
      (fun p => Traded s.supply p.2) (fun _ s' => s'.supply = s.supply) fun _ => True := by
  refine .lift_known (fun _ _ => ?_) (fun _ _ => rfl) fun _ => trivial
  refine .lift_known (fun notional _ => ?_) (fun _ _ => rfl) fun _ => trivial
  refine .bind ((supply_lockFor (m := s.supply)).conseq (fun _ e => e ▸ rfl) (fun _ _ => id)
    (fun _ _ => id) fun _ _ => trivial) fun _ => .get_bind fun s₁ hs₁ => ?_
  refine .bind (traded_matchLoop ⟨fun side => congrFun hs₁ side, nofun⟩) fun p => ?_
  refine .of_state fun s₂ hs₂ => .modify_bind (.modify_bind (.pure fun s₃ hs₃ => ?_))
  obtain ⟨taker, trades⟩ := p
  have hsupply : s₃.supply = s₂.supply := by
    rw [hs₃]
    exact supply_congr (restoreTrades_eq trades _).2
  exact ⟨fun side => hsupply ▸ hs₂.1 side, hs₂.2⟩

/-- Crediting to some account what is out of the supply of a side, if anything is. -/
theorem credit_bind {α : Type} {pk : PublicKey} (side : Side) {d : Side → ℕ} {n : ℕ} {N : Prop}
    {f : BoardCall α} {Q : α → TaskBoard → Prop} (hn : d side = n)
    (h : ∀ side', s.supply side' + d side' = m side') (hN : u64Bound ≤ m side → N)
    (hf : ∀ s', (∀ side', s'.supply side' + (if side' = side then 0 else d side') = m side') →
      Triple (· = s') f Q E fun _ => N) :
    Triple (· = s) (if n > 0 then addTo pk side.balance n >>= fun _ => f else f) Q E
      fun _ => N := by
  subst hn
  split_ifs with hpos
  · -- What is credited was out of the supply, so it fits if the sum of both does.
    refine .bind (triple_addTo fun hover => hN ?_) fun _ => .of_state fun s' hs' =>
      hf s' fun side' => ?_
    · have := amount_le_supply s pk side
      have := h side
      omega
    · have hset := supply_setAmount s pk side.balance (s.amount pk side.balance + d side) side'
      have := h side'
      simp only [Side.balance_inj] at hset
      rw [hs']
      -- The balance of this side has gained it, and the others are as they were.
      rcases eq_or_ne side' side with rfl | hne
      · rw [if_pos rfl, if_pos rfl] at hset
        rw [if_pos rfl]
        omega
      · rw [if_neg hne.symm, if_neg hne.symm] at hset
        rw [if_neg hne]
        omega
  · refine hf s fun side' => ?_
    have := h side'
    split_ifs with hside
    · subst hside
      omega
    · exact this

/-- The handler gives the supplies back as they were. It panics only if placing the
    order does, or if a supply is out of range. -/
theorem triple_placeOrderWithFees {feeSink : PublicKey} {tradeIds : ℕ → Uuid} {owner : PublicKey}
    {side : Side} {price quantity : ℕ} {N : Prop}
    (hpanic : (placeOrder orderId tradeIds owner side price quantity now s).2 = .panic → N)
    (hover : ∀ side, u64Bound ≤ s.supply side → N) :
    Triple (· = s) (placeOrderWithFees feeSink orderId tradeIds owner side price quantity now)
      (fun p s' => s'.supply = s.supply ∧ ∀ t ∈ p.2, FeeCovered t)
      (fun _ s' => s'.supply = s.supply) fun _ => N := by
  have hplace := (traded_placeOrder (s := s)).and
    (Triple.self s (placeOrder orderId tradeIds owner side price quantity now))
  refine .bind (hplace.conseq (fun _ e => ⟨e, e⟩) (fun _ _ h => h.1) (fun _ _ h => h.1)
    fun s' h => hpanic (by rw [h.2])) fun p => .of_state fun s₁ hs₁ => ?_
  obtain ⟨order, trades⟩ := p
  refine .expect_bind (fun totals htotals => ?_) fun hn _ _ => ?_
  · -- First the fees in compute are given back and then those in money, to the same account.
    rw [takerFeeTotals_eq_some htotals]
    refine credit_bind .sell rfl hs₁.1 (hover .sell) fun s₂ hs₂ => ?_
    refine credit_bind .buy (d := fun side => if side = .sell then 0 else feesIn trades side)
      rfl hs₂ (hover .buy) fun s₃ hs₃ => .pure fun _ e => ?_
    subst e
    refine ⟨funext fun side => ?_, hs₁.2⟩
    have := hs₃ side
    cases side <;> simpa using this
  · -- A sum of fees that does not fit is more than the supply it was taken from.
    obtain ⟨side, hle⟩ := le_feesIn_of_eq_none hn
    have : s₁.supply side + feesIn trades side = s.supply side := hs₁.1 side
    exact hover side (by omega)

/-! ## Cancelling -/

/-- Cancelling an order only releases locks. -/
theorem supply_cancelOrder {caller : PublicKey} :
    Preserves (fun s => s.supply = m) (cancelOrder orderId caller) := by
  have key : ∀ pk side n, Preserves (fun s => s.supply = m) (subFrom pk (Side.locked side) n) := by
    refine fun pk side n => Triple.of_state fun s hs => ?_
    refine (triple_subFrom fun _ => hs).conseq (fun _ => id) ?_ (fun _ _ => id) fun _ => id
    rintro _ _ ⟨-, rfl⟩
    rw [supply_setAmount_locked, hs]
  refine .bind .get fun s => .bind (.lift _) fun order => .bind (.lift _) fun _ => ?_
  refine .bind (.lift _) fun _ => .bind (.lift _) fun remaining => ?_
  refine .bind (.modify fun s hs => (supply_congr rfl).trans hs) fun _ => ?_
  split
  · exact .bind (.lift _) fun _ => .bind (key _ .buy _) fun _ => .pure _
  · exact .bind (key _ .sell _) fun _ => .pure _

/-- Trading conserves value: an order, its fees credited to the fee sink, leaves the
    sums of the base and of the compute of all the accounts as they were, whether it
    is placed or refused, and no fee exceeds what the taker receives; cancelling an
    order leaves both sums too. In a run within the bound, the order is placed or
    refused: nothing panics. -/
theorem trading_conserves (s : TaskBoard) (feeSink : PublicKey) (orderId : Uuid)
    (tradeIds : ℕ → Uuid) (owner : PublicKey) (side : Side) (price quantity : ℕ) (now : DateTime) :
    let placed := placeOrderWithFees feeSink orderId tradeIds owner side price quantity now s
    (∀ order trades, placed.2 = .ok (order, trades) →
      placed.1.supply = s.supply ∧
      ∀ t ∈ trades, t.takerFee ≤ received t.takerSide t.quantity (t.price * t.quantity)) ∧
    (∀ e, placed.2 = .err e → placed.1.supply = s.supply) ∧
    (exchangeSystem.ReachableBy Within s → orderId ∉ s.orders → placed.2 ≠ .panic) ∧
    ∀ caller, (cancelOrder orderId caller s).1.supply = s.supply := by
  intro placed
  have hends : Ends _ _ _ placed :=
    triple_placeOrderWithFees (N := True) (fun _ => trivial) (fun _ _ => trivial) s rfl
  refine ⟨fun order trades hok => ?_, fun e herr => ?_, fun hs hid => ?_, fun caller => ?_⟩
  · rw [Ends, hok] at hends
    exact hends
  · rw [Ends, herr] at hends
    exact hends
  · obtain ⟨h, hb⟩ := sound_of_reachable hs
    -- Below a tenth of `2 ^ 64` nothing overflows.
    have hlt : ∀ side, s.supply side < u64Bound := fun side => (hb side).trans (by decide)
    exact ((triple_placeOrderWithFees (fun hn => ((triple_placeOrder h hb hid).apply rfl).2 hn)
      fun side hle => absurd (hlt side) (not_lt.2 hle)).conseq (fun _ => id) (fun _ _ _ => trivial)
      (fun _ _ _ => trivial) fun _ => id).apply rfl |>.2
  · exact supply_cancelOrder.apply rfl

/-- What is left of the order resting on `crossed` is bought by another one, and the
    fee goes to the seller. -/
theorem trading_conserves_crossed :
    let placed := placeOrderWithFees 2 12 (fun n => n) 1 .buy 5 2000 2 crossed
    placed.2 = .ok (⟨12, 1, .buy, 5, 2000, 2000, .filled, 2⟩,
      [⟨0, 12, 10, 1, 2, 3, 2000, 2, .buy, 2⟩]) ∧
    (placed.1.exchangeAccount 2).computeBalance = 2002 ∧
    placed.2 ≠ .panic ∧ placed.1.supply = crossed.supply := by
  intro placed
  have hok : placed.2 = .ok (⟨12, 1, .buy, 5, 2000, 2000, .filled, 2⟩,
      [⟨0, 12, 10, 1, 2, 3, 2000, 2, .buy, 2⟩]) := by decide +kernel
  have h := trading_conserves crossed 2 12 (fun n => n) 1 .buy 5 2000 2
  exact ⟨hok, by decide +kernel, h.2.2.1 crossed_reachable (by decide +kernel), (h.1 _ _ hok).1⟩

end TaskBoard

end Itx
