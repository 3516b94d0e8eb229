import Itx.Hub.Exchange

/-!
# Amounts of the ledger

The accounts as a table of amounts (`amount`), one for each key and each field: a
key without an account has none. A statement of the source on an account writes
one amount (`setAmount`), so that what a call does to the ledger is read off the
amounts it writes (`triple_addTo`, `triple_subFrom`).

The *supply* of a side is the sum of its balance over all the accounts: base for
the buyers, compute for the sellers.
-/

namespace Itx

open Call ExchangeAccount

/-- What the orders of a side spend. -/
def Side.balance : Side → Field
  | .buy => .baseBalance
  | .sell => .computeBalance

/-- What the orders of a side lock. -/
def Side.locked : Side → Field
  | .buy => .lockedBase
  | .sell => .lockedCompute

@[simp] theorem Side.balance_inj {side side' : Side} :
    side.balance = side'.balance ↔ side = side' := by
  cases side <;> cases side' <;> decide

@[simp] theorem Side.locked_inj {side side' : Side} :
    side.locked = side'.locked ↔ side = side' := by
  cases side <;> cases side' <;> decide

@[simp] theorem Side.locked_ne_balance (side side' : Side) : side.locked ≠ side'.balance := by
  cases side <;> cases side' <;> decide

@[simp] theorem Side.balance_ne_locked (side side' : Side) : side.balance ≠ side'.locked := by
  cases side <;> cases side' <;> decide

namespace TaskBoard

variable {s : TaskBoard} {pk x : PublicKey} {field : Field} {n : ℕ}

/-- An amount of the account of a key. -/
def amount (s : TaskBoard) (pk : PublicKey) (field : Field) : ℕ := (s.exchangeAccount pk).get field

/-- Writing an amount of the account of a key. -/
def setAmount (pk : PublicKey) (field : Field) (n : ℕ) (s : TaskBoard) : TaskBoard :=
  s.restoreExchangeAccount pk ((s.exchangeAccount pk).set n field)

@[simp] theorem setAmount_orders : (s.setAmount pk field n).orders = s.orders := rfl

/-- One account is written, the others stay. -/
theorem exchangeAccount_restoreExchangeAccount (account : ExchangeAccount) :
    (s.restoreExchangeAccount pk account).exchangeAccount x =
      if x = pk then account else s.exchangeAccount x := by
  rw [exchangeAccount, restoreExchangeAccount, Finmap.lookup_insert_eq]
  split_ifs
  · rfl
  · rfl

/-- One amount is written, the others stay. -/
theorem amount_setAmount {field' : Field} :
    (s.setAmount pk field n).amount x field' =
      if x = pk ∧ field' = field then n else s.amount x field' := by
  rw [amount, setAmount, exchangeAccount_restoreExchangeAccount]
  by_cases hx : x = pk
  · subst hx
    rw [if_pos rfl, get_set]
    simp [amount]
  · rw [if_neg hx, if_neg fun h => hx h.1, amount]

/-- Amounts of other fields are not that one. -/
theorem amount_setAmount_of_ne {field' : Field} (h : field' ≠ field) :
    (s.setAmount pk field n).amount x field' = s.amount x field' := by
  rw [amount_setAmount, if_neg fun hx => h hx.2]

/-- Nor is what is locked on the other side. -/
theorem amount_setAmount_locked {side side' : Side} :
    (s.setAmount pk side.locked n).amount x side'.locked =
      if x = pk ∧ side' = side then n else s.amount x side'.locked := by
  simp only [amount_setAmount, Side.locked_inj]

@[simp] theorem exchangeAccount_touchAccount :
    (s.touchAccount pk).exchangeAccount x = s.exchangeAccount x := by
  rw [touchAccount, exchangeAccount_restoreExchangeAccount]
  split_ifs with h
  · rw [h]
  · rfl

@[simp] theorem amount_touchAccount : (s.touchAccount pk).amount x field = s.amount x field := by
  rw [amount, exchangeAccount_touchAccount, amount]

@[simp] theorem touchAccount_orders : (s.touchAccount pk).orders = s.orders := rfl

/-- An amount is the weight of the account in a total. -/
theorem weight_get : s.exchangeAccounts.weight (fun _ a => a.get field) pk = s.amount pk field := by
  rw [Finmap.weight, amount, exchangeAccount]
  cases s.exchangeAccounts.lookup pk with
  | none => exact (get_default field).symm
  | some account => rfl

/-! ## The supplies -/

/-- The sum of the balances of a side over all the accounts. -/
def supply (s : TaskBoard) (side : Side) : ℕ :=
  s.exchangeAccounts.total fun _ a => a.get side.balance

/-- An account has no more than all have. -/
theorem amount_le_supply (s : TaskBoard) (pk : PublicKey) (side : Side) :
    s.amount pk side.balance ≤ s.supply side :=
  weight_get (s := s) ▸ Finmap.weight_le_total

/-- The balances of two accounts are part of the supply. -/
theorem amount_add_le_supply (side : Side) (h : pk ≠ x) :
    s.amount pk side.balance + s.amount x side.balance ≤ s.supply side := by
  have hle := Finmap.sum_weight_le_total (f := fun (_ : PublicKey) a => a.get side.balance)
    (m := s.exchangeAccounts) (l := [pk, x]) (by simp [h])
  simpa [weight_get, supply] using hle

/-- The supply after a restored account. -/
theorem supply_restoreExchangeAccount (s : TaskBoard) (pk : PublicKey) (side : Side)
    (account : ExchangeAccount) :
    (s.restoreExchangeAccount pk account).supply side + s.amount pk side.balance =
      s.supply side + account.get side.balance := by
  have h := Finmap.total_insert (f := fun (_ : PublicKey) a => a.get side.balance)
    (m := s.exchangeAccounts) (a := pk) (b := account)
  rwa [weight_get] at h

@[simp] theorem supply_touchAccount (side : Side) : (s.touchAccount pk).supply side = s.supply side :=
  Nat.add_right_cancel (supply_restoreExchangeAccount s pk side (s.exchangeAccount pk))

/-- Writing an amount changes the supply of its side. -/
theorem supply_setAmount (s : TaskBoard) (pk : PublicKey) (field : Field) (n : ℕ) (side : Side) :
    (s.setAmount pk field n).supply side + (if field = side.balance then s.amount pk field else 0) =
      s.supply side + if field = side.balance then n else 0 := by
  have h := supply_restoreExchangeAccount s pk side ((s.exchangeAccount pk).set n field)
  rw [get_set] at h
  by_cases hf : field = side.balance
  · subst hf
    rw [if_pos rfl] at h
    rw [if_pos rfl, if_pos rfl]
    exact h
  · rw [if_neg hf, if_neg hf, add_zero, add_zero]
    rw [if_neg (Ne.symm hf)] at h
    exact Nat.add_right_cancel h

/-! ## Writing amounts -/

variable {E : BoardError → TaskBoard → Prop} {N : TaskBoard → Prop}

/-- An amount grows, or the call panics out of range. -/
theorem triple_addTo (hN : u64Bound ≤ s.amount pk field + n → N s) :
    Triple (· = s) (addTo pk field n)
      (fun _ s' => s' = s.setAmount pk field (s.amount pk field + n)) E N := by
  refine .get_bind fun s' hs' => ?_
  subst hs'
  refine .expect_bind (fun sum hsum => .modify fun t ht => ?_) fun hn t ht => ?_
  · obtain ⟨rfl, -⟩ := checkedAdd_eq_some.1 hsum
    rw [ht]
    rfl
  · subst ht
    exact hN (checked_eq_none.1 hn)

/-- An amount shrinks, or the call panics below zero. -/
theorem triple_subFrom (hN : s.amount pk field < n → N s) :
    Triple (· = s) (subFrom pk field n)
      (fun _ s' => n ≤ s.amount pk field ∧ s' = s.setAmount pk field (s.amount pk field - n)) E N := by
  refine .get_bind fun s' hs' => ?_
  subst hs'
  refine .expect_bind (fun d hd => .modify fun t ht => ?_) fun hn t ht => ?_
  · have hd : n + d = s'.amount pk field := checkedSub_eq_some.1 hd
    refine ⟨by omega, ?_⟩
    rw [ht, show s'.amount pk field - n = d by omega]
    rfl
  · subst ht
    exact hN (checkedSub_eq_none.1 hn)

variable {α : Type} {f : Unit → BoardCall α} {R : α → TaskBoard → Prop}

/-- An addition known to be in range. -/
theorem addTo_bind (hlt : s.amount pk field + n < u64Bound)
    (h : Triple (· = s.setAmount pk field (s.amount pk field + n)) (f ()) R E N) :
    Triple (· = s) (addTo pk field n >>= f) R E N :=
  .bind (triple_addTo fun hle => absurd hlt (not_lt.2 hle)) fun _ => h

/-- A subtraction known not to underflow. -/
theorem subFrom_bind (hle : n ≤ s.amount pk field)
    (h : Triple (· = s.setAmount pk field (s.amount pk field - n)) (f ()) R E N) :
    Triple (· = s) (subFrom pk field n >>= f) R E N :=
  .bind (triple_subFrom fun hlt => absurd hle (not_le.2 hlt)) fun _ _ hs => h _ hs.2

/-! ## Conservation

The supplies are followed by what has left them, `d`, and what has come in, so that
no subtraction is needed. -/

variable {d m : Side → ℕ}

/-- What is added to a balance is added to the supply. -/
theorem supply_addTo :
    Triple (fun s => ∀ side, s.supply side + d side = m side) (addTo pk field n)
      (fun _ s => ∀ side, s.supply side + d side = m side + if field = side.balance then n else 0)
      E fun _ => True := by
  refine .of_state fun s hs => (triple_addTo fun _ => trivial).conseq (fun _ => id) ?_
    (fun _ _ => id) fun _ => id
  rintro _ _ rfl side
  have h := supply_setAmount s pk field (s.amount pk field + n) side
  have := hs side
  split_ifs at h ⊢ <;> omega

/-- What is taken from a balance is taken from the supply. -/
theorem supply_subFrom :
    Triple (fun s => ∀ side, s.supply side + d side = m side) (subFrom pk field n)
      (fun _ s => ∀ side, s.supply side + (d side + if field = side.balance then n else 0) = m side)
      E fun _ => True := by
  refine .of_state fun s hs => (triple_subFrom fun _ => trivial).conseq (fun _ => id) ?_
    (fun _ _ => id) fun _ => id
  rintro _ _ ⟨hle, rfl⟩ side
  have h := supply_setAmount s pk field (s.amount pk field - n) side
  have := hs side
  split_ifs at h ⊢ <;> omega

/-- What a taker receives on a fill: compute if it buys, base if it sells. -/
def received (takerSide : Side) (fillQty notional : ℕ) : ℕ :=
  match takerSide with
  | .buy => fillQty
  | .sell => notional

/-- The fee of a fill is at most what the taker receives. -/
theorem takerFee_le {side : Side} {q notional fee : ℕ} (h : takerFee side q notional = some fee) :
    fee ≤ received side q notional := by
  have hle : ∀ k : ℕ, k * takerFeeBps / 10000 ≤ k := fun k =>
    Nat.div_le_of_le_mul (by rw [Nat.mul_comm 10000]; exact Nat.mul_le_mul_left k (by decide))
  cases side with
  | buy =>
    obtain ⟨_, hmul, rfl⟩ := Option.map_eq_some_iff.1 h
    obtain ⟨rfl, -⟩ := checkedMul_eq_some.1 hmul
    exact hle q
  | sell =>
    obtain ⟨_, hmul, rfl⟩ := Option.map_eq_some_iff.1 h
    obtain ⟨rfl, -⟩ := checkedMul_eq_some.1 hmul
    exact hle notional

/-- The fee of a fill, in the asset of a side. -/
def feeIn (takerSide : Side) (fee : ℕ) (side : Side) : ℕ := if takerSide = side.opposite then fee else 0

/-- A fill moves both assets from one account to the other, but for the fee. -/
theorem supply_settle {takerSide : Side} {buy sell : Order} {price q : ℕ} :
    Triple (fun s => ∀ side, s.supply side = m side) (settle takerSide buy sell price q)
      (fun fee s => fee ≤ received takerSide q (price * q) ∧
        ∀ side, s.supply side + feeIn takerSide fee side = m side) E fun _ => True := by
  refine .expect_bind (fun notional hn => ?_) fun _ _ _ => trivial
  obtain ⟨rfl, -⟩ := checkedMul_eq_some.1 hn
  refine .expect_bind (fun fee hf => ?_) fun _ _ _ => trivial
  have hfee := takerFee_le hf
  refine .expect_bind (fun released _ => ?_) fun _ _ _ => trivial
  refine .bind ((supply_subFrom (d := fun _ => 0)).conseq (fun _ => id) (fun _ _ => id)
    (fun _ _ => id) fun _ => id) fun _ => ?_
  refine .bind supply_subFrom fun _ => .expect_bind (fun computeCredit hcc => ?_) fun _ _ _ => trivial
  refine .bind supply_addTo fun _ => .bind supply_subFrom fun _ => .bind supply_subFrom fun _ => ?_
  refine .expect_bind (fun baseCredit hbc => ?_) fun _ _ _ => trivial
  refine .bind supply_addTo fun _ => .pure fun s hs => ⟨hfee, fun side => ?_⟩
  have hside := hs side
  cases takerSide <;> cases side <;>
    simp [creditOf, feeIn, received, Side.opposite, Side.balance] at hcc hbc hside hfee ⊢ <;> omega

end TaskBoard

end Itx
