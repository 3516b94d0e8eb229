import Itx.Hub.Ledger
import Itx.Hub.Journal

/-!
# What custody owes

The exchange keeps the coin of its customers at one address. What the hub reports it owes
there (`TaskBoard::exchange_liabilities`, `hub/src/board.rs`) is the balances and the
amounts of the withdrawals that are not confirmed; what it keeps there before it spends
anything of its own (`maintain_wallet`, `hub/src/handlers.rs`) is the balances and what
those withdrawals were debited.

A withdrawal is debited with the fee of its transaction, and its recipient gets the rest
(`withdraw`): custody pays both. The two sums differ by the fees of the withdrawals that
are not confirmed.
-/

namespace Itx

open Call

/-- What a withdrawal was debited. -/
def Purpose.debited? : Purpose → Option ℕ
  | .withdrawal debited => some debited
  | _ => none

namespace TaskBoard

/-- What `exchange_liabilities` sums. -/
def owed (s : TaskBoard) : List ℕ :=
  s.exchangeAccounts.values.map ExchangeAccount.baseBalance ++
    (s.payments.values.filter fun p =>
      p.status ≠ .confirmed ∧ p.purpose.debited?.isSome).map Payment.amount

/-- `TaskBoard::exchange_liabilities`. -/
def exchangeLiabilities (s : TaskBoard) : ℕ := saturatingSum s.owed

/-- The `liabilities + reserved` of `maintain_wallet`. The sums are of 128 bits. -/
def custodyObligations (s : TaskBoard) : ℕ :=
  let liabilities := (s.exchangeAccounts.values.map ExchangeAccount.baseBalance).sum
  let reserved := ((s.payments.values.filter fun p => p.status ≠ .confirmed).filterMap
    fun p => p.purpose.debited?).sum
  liabilities + reserved

/-- The sum of `exchange_liabilities` is in range. -/
def Unsaturated (s : TaskBoard) : Prop := s.owed.sum < u64Bound

end TaskBoard

/-- What is paid out for a withdrawal that is not confirmed. -/
def Payment.outgoing (p : Payment) : ℕ :=
  if p.status ≠ .confirmed ∧ p.purpose.debited?.isSome then p.amount else 0

/-- What was debited for a withdrawal that is not confirmed. -/
def Payment.reserved (p : Payment) : ℕ :=
  if p.status ≠ .confirmed then p.purpose.debited?.getD 0 else 0

namespace TaskBoard

variable {s s' : TaskBoard}

theorem sum_owed (s : TaskBoard) :
    s.owed.sum = s.supply .buy + s.payments.total fun _ p => p.outgoing := by
  rw [owed, List.sum_append, Finmap.sum_values, Finmap.sum_filter_values]
  simp only [decide_eq_true_eq]
  rfl

theorem exchangeLiabilities_eq (h : s.Unsaturated) :
    s.exchangeLiabilities = s.supply .buy + s.payments.total fun _ p => p.outgoing := by
  rw [Unsaturated] at h
  rw [exchangeLiabilities, saturatingSum_eq, ← sum_owed]
  omega

theorem custodyObligations_eq (s : TaskBoard) :
    s.custodyObligations = s.supply .buy + s.payments.total fun _ p => p.reserved := by
  have hsum : ∀ l : List Payment, (l.filterMap fun p => p.purpose.debited?).sum =
      (l.map fun p => p.purpose.debited?.getD 0).sum := by
    intro l
    induction l with
    | nil => rfl
    | cons p l ih =>
      rw [List.filterMap_cons, List.map_cons, List.sum_cons, ← ih]
      cases p.purpose.debited? with
      | none => exact (Nat.zero_add _).symm
      | some debited => rfl
  rw [custodyObligations, hsum, Finmap.sum_values, Finmap.sum_filter_values]
  simp only [decide_eq_true_eq]
  rfl

end TaskBoard

/-! ## Preparing a withdrawal -/

variable {hub hub' : Hub} {payment : Payment} {debited : ℕ}

/-- Preparing a withdrawal takes what it debits out of the balances, and adds the
    withdrawal to those that are not confirmed. -/
theorem Prepared.withdrawal (h : Prepared payment hub hub')
    (hpurpose : payment.purpose = .withdrawal debited) (hfresh : payment.id ∉ hub.board.payments) :
    hub'.board.supply .buy + debited = hub.board.supply .buy ∧
      ∀ f : Payment → ℕ, hub'.board.payments.total (fun _ p => f p) =
        f payment + hub.board.payments.total fun _ p => f p := by
  obtain ⟨-, account, deposit, hr, hw, -⟩ := h
  rw [hw]
  refine ⟨?_, fun f => Finmap.total_insert_of_notMem hfresh⟩
  rcases reserve_cases hr with ⟨hp, -⟩ | ⟨debited', base, hp, -, hbase, rfl, -⟩ | ⟨_, _, _, _, hp, -⟩
  · rw [hp] at hpurpose
    cases hpurpose
  · obtain rfl := Purpose.withdrawal.inj (hp.symm.trans hpurpose)
    have hsupply : ∀ account : ExchangeAccount, account.baseBalance = base →
        (hub.board.restoreExchangeAccount payment.recipient account).supply .buy + debited' =
          hub.board.supply .buy := by
      rintro account rfl
      have := TaskBoard.supply_restoreExchangeAccount hub.board payment.recipient .buy account
      change _ + (hub.board.exchangeAccount payment.recipient).baseBalance =
        _ + account.baseBalance at this
      omega
    exact hsupply _ rfl
  · rw [hp] at hpurpose
    cases hpurpose

theorem outgoing_of_withdrawal (hpurpose : payment.purpose = .withdrawal debited)
    (hstatus : payment.status ≠ .confirmed) :
    payment.outgoing = payment.amount ∧ payment.reserved = debited := by
  rw [Payment.outgoing, Payment.reserved, hpurpose]
  exact ⟨if_pos ⟨hstatus, rfl⟩, if_pos hstatus⟩

/-- A prepared withdrawal leaves what custody is kept for as it was, and takes from the
    liabilities what it debits beyond what it pays. -/
theorem Prepared.liabilities (h : Prepared payment hub hub')
    (hpurpose : payment.purpose = .withdrawal debited) (hstatus : payment.status ≠ .confirmed)
    (hfresh : payment.id ∉ hub.board.payments) (hle : payment.amount ≤ debited)
    (hsat : hub.board.Unsaturated) :
    hub'.board.custodyObligations = hub.board.custodyObligations ∧
      hub'.board.exchangeLiabilities + (debited - payment.amount) =
        hub.board.exchangeLiabilities := by
  obtain ⟨hsupply, htotal⟩ := h.withdrawal hpurpose hfresh
  obtain ⟨hout, hres⟩ := outgoing_of_withdrawal hpurpose hstatus
  have hpaid := htotal Payment.outgoing
  have hkept := htotal Payment.reserved
  have hsat' : hub'.board.Unsaturated := by
    rw [TaskBoard.Unsaturated, TaskBoard.sum_owed] at hsat ⊢
    omega
  rw [TaskBoard.custodyObligations_eq, TaskBoard.custodyObligations_eq,
    TaskBoard.exchangeLiabilities_eq hsat, TaskBoard.exchangeLiabilities_eq hsat']
  omega

/-! ## The handler -/

/-- `MIN_EXCHANGE_WITHDRAWAL`. -/
def minExchangeWithdrawal : ℕ := hubTransactionFee + 1

/-- What the handler `withdraw` fails with. -/
inductive WithdrawError
  | belowMinimum
  | insufficientBalance (available required : ℕ)
  | build
  | payment (e : PaymentError)
  deriving DecidableEq, Repr

/-- The handler `withdraw`: `debit` is all that leaves the account. What is built of the
    outputs of custody is given. -/
def withdraw (c : Crypto) (chainHeight : ℕ) (commits : Bool) (id : Uuid) (now : DateTime)
    (custody : PublicKey) (built : Option Transaction) (pubkey : PublicKey) (debit : ℕ) :
    Call Hub WithdrawError Payment := do
  Call.lift (Outcome.ensure (minExchangeWithdrawal ≤ debit) .belowMinimum)
  let s ← Call.get
  let account := s.board.exchangeAccount pubkey
  let available := account.baseBalance - account.lockedBase
  Call.lift (Outcome.ensure (debit ≤ available) (.insufficientBalance available debit))
  let net ← Call.lift (.expect (checkedSub debit hubTransactionFee))
  let tx ← Call.lift (.okOr .build built)
  let payment := Payment.new c id now (.withdrawal debit) custody pubkey net (some tx)
  let payment ← Call.mapErr WithdrawError.payment (prepare chainHeight commits payment)
  Call.mapErr WithdrawError.payment (send commits payment)
  pure payment

/-! ## Runs -/

/-- What happens to the ledger and the journal: deposits, credits, trades and
    cancellations, which leave the payments alone, and the calls on the journal; the
    withdrawals of an earlier version, which debited what they paid, are adopted when the
    process starts. -/
inductive CustodyOp
  | ledger
  | journal (op : JournalOp)
  | adopt (payment : Payment)

/-- The runs of the ledger with its journal. -/
def custodyRuns (c : Crypto) : System Journal CustodyOp where
  init := {j | j.hub.board.payments = ∅ ∧ j.hub.store.payments = ∅ ∧ j.copies = []}
  step j op j' :=
    match op with
    | .ledger => j'.copies = j.copies ∧ j'.hub.board.payments = j.hub.board.payments ∧
        j'.hub.store.payments = j.hub.store.payments
    | .journal op => op.Enabled j ∧ j' = op.after c j
    | .adopt payment => payment.id ∉ j.hub.board.payments ∧ payment.status = .needsReview ∧
        payment.submissions = 1 ∧ payment.purpose = .withdrawal payment.amount ∧
        Wrote (savePaymentEffects payment none none none false) j.hub j'.hub ∧
        j'.copies = j.copies

/-- The withdrawals that are prepared debit as `R` says, against what they pay. -/
def Withdraws (R : ℕ → ℕ → Prop) (_ : Journal) (op : CustodyOp) : Prop :=
  ∀ id now debited source recipient amount transaction chainHeight commits,
    op = .journal (.prepare id now (.withdrawal debited) source recipient amount transaction
      chainHeight commits) → R amount debited

/-- The payments of the journal are such that `R` holds of what they pay and what they
    debit, on the board and in the store, and the copies are earlier versions of them. -/
structure Journal.Debits (R : ℕ → ℕ → Prop) (j : Journal) : Prop where
  synced : j.hub.board.payments = j.hub.store.payments
  keyed : ∀ id p, j.hub.board.payments.lookup id = some p → p.id = id
  submissions : ∀ id p, j.hub.board.payments.lookup id = some p →
    p.submissions ≤ maxPayoutSubmissions
  debits : ∀ id p debited, j.hub.board.payments.lookup id = some p →
    p.purpose = .withdrawal debited → R p.amount debited
  copies : ∀ p ∈ j.copies, p.status ≠ .confirmed ∧ p.submissions ≤ maxPayoutSubmissions ∧
    ∃ q, j.hub.board.payments.lookup p.id = some q ∧ p.SameAs q

variable {c : Crypto} {R : ℕ → ℕ → Prop} {j j' : Journal}

/-- A payment is written, new or over one that it continues. -/
theorem Journal.Debits.insert (h : j.Debits R) {p : Payment}
    (hboard : hub'.board.payments = j.hub.board.payments.insert p.id p)
    (hstore : hub'.store.payments = j.hub.store.payments.insert p.id p)
    (hsub : p.submissions ≤ maxPayoutSubmissions)
    (hold : ∀ q, j.hub.board.payments.lookup p.id = some q → q.SameAs p)
    (hnew : p.id ∉ j.hub.board.payments → ∀ debited, p.purpose = .withdrawal debited →
      R p.amount debited) : (⟨hub', j.copies⟩ : Journal).Debits R := by
  -- Every payment is the one written or was there before.
  have hlookup : ∀ id q, hub'.board.payments.lookup id = some q →
      id = p.id ∧ q = p ∨ j.hub.board.payments.lookup id = some q := by
    intro id q hq
    rw [hboard, Finmap.lookup_insert_eq] at hq
    split_ifs at hq with hid
    · exact .inl ⟨hid, (Option.some.inj hq).symm⟩
    · exact .inr hq
  refine ⟨?_, fun id q hq => ?_, fun id q hq => ?_, fun id q debited hq hp => ?_, fun q hq => ?_⟩
  · change hub'.board.payments = hub'.store.payments
    rw [hboard, hstore, h.synced]
  · rcases hlookup id q hq with ⟨rfl, rfl⟩ | hq
    · rfl
    · exact h.keyed id q hq
  · rcases hlookup id q hq with ⟨rfl, rfl⟩ | hq
    · exact hsub
    · exact h.submissions id q hq
  · rcases hlookup id q hq with ⟨rfl, rfl⟩ | hq
    · cases hmem : j.hub.board.payments.lookup q.id with
      | none => exact hnew (Finmap.lookup_eq_none.1 hmem) debited hp
      | some q₀ =>
        -- It goes on a payment that has its debits already.
        have hdebits := h.debits _ q₀ debited hmem
        obtain ⟨_, _, _, _, rfl⟩ := hold q₀ hmem
        exact hdebits hp
    · exact h.debits id q debited hq hp
  · obtain ⟨hstatus, hsubs, r, hr, hsame⟩ := h.copies q hq
    refine ⟨hstatus, hsubs, ?_⟩
    change ∃ r, hub'.board.payments.lookup q.id = some r ∧ _
    rw [hboard, Finmap.lookup_insert_eq]
    -- A copy of it is of an earlier state of the same payment.
    split_ifs with hid
    · exact ⟨p, rfl, hsame.trans (hold r (hid ▸ hr))⟩
    · exact ⟨r, hr, hsame⟩

theorem Journal.Debits.confirms (h : j.Debits R) (hc : Confirms payment j.hub hub') :
    (⟨hub', j.copies⟩ : Journal).Debits R := by
  obtain ⟨current, hcurrent, -, deposit, reputation, -, hboard, hstore⟩ := hc
  have hid := h.keyed _ current hcurrent
  refine h.insert (p := { current with status := .confirmed }) (by rw [hboard]; rfl)
    (by rw [hstore]; rfl) (h.submissions _ current hcurrent) (fun q hq => ?_) fun hnot => ?_
  · change j.hub.board.payments.lookup current.id = some q at hq
    rw [hid, hcurrent] at hq
    obtain rfl := Option.some.inj hq
    exact ⟨_, _, _, _, rfl⟩
  · change current.id ∉ _ at hnot
    exact absurd (Finmap.mem_iff.2 ⟨current, hid ▸ hcurrent⟩) hnot

theorem Journal.Debits.resolves (h : j.Debits R) (hcopy : payment ∈ j.copies)
    (hr : Resolves payment j.hub hub') : (⟨hub', j.copies⟩ : Journal).Debits R := by
  rcases hr with rfl | hc | ⟨next, hnext, current, hcurrent, -, -, -, hboard, hstore⟩
  · exact h
  · exact h.confirms hc
  · obtain ⟨-, -, q, hq, hsame⟩ := h.copies payment hcopy
    refine h.insert (p := next) (by rw [hboard]; rfl) (by rw [hstore]; rfl) hnext.submissions
      (fun q' hq' => ?_) fun hnot => absurd (Finmap.mem_iff.2 ⟨current, hcurrent⟩) hnot
    exact hnext.of_current hq hsame hq'

/-- What the handler does to the hub is a step of the journal, or nothing. -/
theorem withdraw_step {chainHeight : ℕ} {commits : Bool} {id : Uuid} {now : DateTime}
    {custody : PublicKey} {tx : Transaction} {pubkey : PublicKey} {debit : ℕ} (j : Journal) :
    let hub' := (withdraw c chainHeight commits id now custody (some tx) pubkey debit j.hub).1
    hub' = j.hub ∨ hub' = (JournalOp.after c j (.prepare id now (.withdrawal debit) custody pubkey
      (debit - hubTransactionFee) (some tx) chainHeight commits)).hub := by
  -- A check that fails leaves the hub.
  have hensure : ∀ (p : Prop) [Decidable p] (e : WithdrawError)
      (f : Unit → Call Hub WithdrawError Payment) (hub : Hub),
      (Call.lift (Outcome.ensure p e) >>= f) hub = if p then f () hub else (hub, .err e) := by
    intro p _ e f hub
    split_ifs with hp
    · rw [Outcome.ensure_of hp]
      rfl
    · rw [Outcome.ensure, if_neg hp]
      rfl
  dsimp only
  generalize hr : withdraw c chainHeight commits id now custody (some tx) pubkey debit j.hub = r
  rw [withdraw, hensure] at hr
  split_ifs at hr with hmin
  · change (Call.lift (Outcome.ensure _ _) >>= _) j.hub = r at hr
    rw [hensure] at hr
    split_ifs at hr
    · right
      rw [minExchangeWithdrawal] at hmin
      have hnet : checkedSub debit hubTransactionFee = some (debit - hubTransactionFee) :=
        checkedSub_eq_some.2 (Nat.add_sub_cancel' (by omega))
      rw [hnet] at hr
      change Call.bind (Call.mapErr WithdrawError.payment (prepare chainHeight commits _)) _ j.hub = r
        at hr
      have hend : Ends _ _ _ (prepare chainHeight commits (Payment.new c id now (.withdrawal debit)
          custody pubkey (debit - hubTransactionFee) (some tx)) j.hub) :=
        triple_prepare chainHeight _ rfl
      rw [Call.bind, Call.mapErr] at hr
      rw [JournalOp.after, ← hr]
      generalize prepare chainHeight commits _ j.hub = r' at hend
      obtain ⟨hub', p | e | _⟩ := r'
      · -- A payment with its transaction has nothing to be sent for.
        have hsend : send commits p = pure () := by
          rw [send, hend.1]
          rfl
        change (Call.bind (Call.mapErr WithdrawError.payment (send commits p)) _ hub').1 = hub'
        rw [hsend]
        rfl
      · rfl
      · rfl
    · exact .inl (by rw [← hr])
  · exact .inl (by rw [← hr])

/-- What one call on the journal preserves. -/
theorem Journal.Debits.journal (h : j.Debits R) {op : JournalOp} (hen : op.Enabled j)
    (hR : Withdraws R j (.journal op)) : (op.after c j).Debits R := by
  cases op with
  | prepare id now purpose source recipient amount transaction chainHeight commits =>
    have hend : Ends _ _ _ (prepare chainHeight commits
        (Payment.new c id now purpose source recipient amount transaction) j.hub) :=
      triple_prepare chainHeight _ rfl
    rw [JournalOp.after]
    generalize prepare chainHeight commits _ j.hub = r at hend
    obtain ⟨hub', p | e | _⟩ := r
    · obtain ⟨hp, -, account, deposit, -, hboard, hstore⟩ := hend
      have hid : p.id = id := by rw [hp]; rfl
      have hsub : p.submissions ≤ maxPayoutSubmissions := by
        rw [hp]
        exact Nat.le_of_ble_eq_true rfl
      have hb : hub'.board.payments = j.hub.board.payments.insert p.id p := by rw [hboard]; rfl
      have hfresh : p.id ∉ j.hub.board.payments := by
        rw [hid]
        exact hen
      -- What is written is new, and debits what the run allows.
      have hkept := h.insert hb (by rw [hstore]; rfl) hsub
        (fun q hq => absurd (Finmap.mem_iff.2 ⟨q, hq⟩) hfresh) fun _ debited hpurpose => by
          rw [hp] at hpurpose ⊢
          obtain rfl : purpose = .withdrawal debited := hpurpose
          exact hR id now debited source recipient amount transaction chainHeight commits rfl
      refine ⟨hkept.synced, hkept.keyed, hkept.submissions, hkept.debits, fun q hq => ?_⟩
      rcases List.mem_cons.1 hq with rfl | hq
      · refine ⟨by simp [hp, Payment.new], hsub, q, ?_, .refl q⟩
        change hub'.board.payments.lookup q.id = _
        rw [hb, Finmap.lookup_insert]
      · exact hkept.copies q hq
    · obtain rfl : hub' = j.hub := hend
      exact h
    · exact hend.elim
  | send payment commits =>
    have hend : Ends _ _ _ (send commits payment j.hub) := triple_send _ rfl
    rw [JournalOp.after]
    generalize send commits payment j.hub = r at hend
    obtain ⟨hub', _ | e | _⟩ := r
    · rcases hend with rfl | hend
      · exact h
      · exact h.confirms hend
    · obtain rfl : hub' = j.hub := hend
      exact h
    · exact hend.elim
  | read =>
    refine ⟨h.synced, h.keyed, h.submissions, h.debits, fun p hp => ?_⟩
    rcases List.mem_append.1 hp with hp | hp
    · exact h.copies p hp
    · rw [List.mem_filter, decide_eq_true_iff] at hp
      obtain ⟨id, hid⟩ := Finmap.mem_values.1 hp.1
      refine ⟨hp.2, h.submissions id p hid, p, ?_, .refl p⟩
      change j.hub.board.payments.lookup p.id = some p
      rw [h.keyed id p hid, hid]
  | resolve payment now replies commits =>
    -- The copy may be an earlier version of what is on the board by now.
    obtain ⟨hstatus, hsub, -⟩ := h.copies payment hen
    have hend : Ends _ _ _ (resolve c now replies commits payment j.hub) :=
      triple_resolve c hstatus hsub _ rfl
    rw [JournalOp.after]
    generalize resolve c now replies commits payment j.hub = r at hend
    obtain ⟨hub', _ | e | _⟩ := r
    · exact h.resolves hen hend
    · obtain rfl : hub' = j.hub := hend
      exact h
    · exact hend.elim
  | crash =>
    refine ⟨rfl, ?_, ?_, ?_, by simp [JournalOp.after]⟩
    · change ∀ id p, j.hub.store.payments.lookup id = some p → _
      rw [← h.synced]
      exact h.keyed
    · change ∀ id p, j.hub.store.payments.lookup id = some p → _
      rw [← h.synced]
      exact h.submissions
    · change ∀ id p debited, j.hub.store.payments.lookup id = some p → _
      rw [← h.synced]
      exact h.debits

theorem debits_of_reachable (hR : ∀ n, R n n) (hs : (custodyRuns c).ReachableBy (Withdraws R) j) :
    j.Debits R := by
  have h₀ : ∀ j ∈ (custodyRuns c).init, j.Debits R := by
    rintro j ⟨hb, hst, hc⟩
    -- There are no payments at the start.
    have hnone : ∀ id p, j.hub.board.payments.lookup id ≠ some p := by
      intro id p
      rw [hb, Finmap.lookup_empty]
      exact (Option.some_ne_none p).symm
    refine ⟨hb.trans hst.symm, ?_, ?_, ?_, ?_⟩
    · exact fun id p hp => absurd hp (hnone id p)
    · exact fun id p hp => absurd hp (hnone id p)
    · exact fun id p debited hp => absurd hp (hnone id p)
    · rw [hc]
      exact fun p hp => absurd hp List.not_mem_nil
  refine hs.invariant h₀ fun j op j' h hop hstep => ?_
  cases op with
  | ledger =>
    obtain ⟨hc, hb, hst⟩ := hstep
    refine ⟨by rw [hb, hst, h.synced], ?_, ?_, ?_, ?_⟩
    · rw [hb]
      exact h.keyed
    · rw [hb]
      exact h.submissions
    · rw [hb]
      exact h.debits
    · rw [hc, hb]
      exact h.copies
  | journal op =>
    obtain ⟨hen, rfl⟩ := hstep
    exact h.journal hen hop
  | adopt payment =>
    obtain ⟨hfresh, hstatus, hsub, hpurpose, ⟨hboard, hstore⟩, hc⟩ := hstep
    have hb : j'.hub.board.payments = j.hub.board.payments.insert payment.id payment := by
      rw [hboard]
      rfl
    have hkept := h.insert hb (by rw [hstore]; rfl)
      (by rw [hsub]; exact Nat.le_of_ble_eq_true rfl)
      (fun q hq => absurd (Finmap.mem_iff.2 ⟨q, hq⟩) hfresh) fun _ debited hp => by
        obtain rfl := Purpose.withdrawal.inj (hp.symm.trans hpurpose)
        exact hR _
    rw [← hc] at hkept
    exact hkept

/-- When the solvency figure is right. In the runs whose withdrawals all debit just what
    they pay, it is what custody is kept for. In every run whose withdrawals debit no less
    than they pay, it is so exactly while no unconfirmed withdrawal debited more, and
    preparing a withdrawal leaves it as it was exactly if this one does not. -/
theorem liabilities_cover_iff (hs : (custodyRuns c).ReachableBy (Withdraws (· ≤ ·)) j)
    (hsat : j.hub.board.Unsaturated) :
    ((custodyRuns c).ReachableBy (Withdraws (· = ·)) j →
      j.hub.board.exchangeLiabilities = j.hub.board.custodyObligations) ∧
    (j.hub.board.exchangeLiabilities = j.hub.board.custodyObligations ↔
      ∀ id p debited, j.hub.board.payments.lookup id = some p → p.status ≠ .confirmed →
        p.purpose = .withdrawal debited → debited = p.amount) ∧
    ∀ chainHeight commits payment debited p hub', payment.purpose = .withdrawal debited →
      payment.status ≠ .confirmed → payment.amount ≤ debited →
      payment.id ∉ j.hub.board.payments →
      prepare chainHeight commits payment j.hub = (hub', .ok p) →
      (hub'.board.exchangeLiabilities = j.hub.board.exchangeLiabilities ↔
        debited = payment.amount) := by
  have h := debits_of_reachable (fun _ => le_rfl) hs
  have hiff : j.hub.board.exchangeLiabilities = j.hub.board.custodyObligations ↔
      ∀ id p debited, j.hub.board.payments.lookup id = some p → p.status ≠ .confirmed →
        p.purpose = .withdrawal debited → debited = p.amount := by
    rw [TaskBoard.exchangeLiabilities_eq hsat, TaskBoard.custodyObligations_eq, Nat.add_left_cancel_iff,
      Finmap.total_eq_iff]
    · -- Term by term, a payment reserves what is still to go out exactly if it debited no more.
      refine forall₂_congr fun id p => ⟨fun heq debited hp hstatus hpurpose => ?_, fun heq hp => ?_⟩
      · obtain ⟨hout, hres⟩ := outgoing_of_withdrawal hpurpose hstatus
        rw [← hres, ← hout, heq hp]
      · rw [Payment.outgoing, Payment.reserved]
        by_cases hstatus : p.status ≠ .confirmed
        · cases hpurpose : p.purpose with
          | withdrawal debited =>
            have := heq debited hp hstatus hpurpose
            simp [hstatus, Purpose.debited?, this]
          | faucet => simp [Purpose.debited?]
          | escrow depositId forfeitedBond previousStatus => simp [Purpose.debited?]
        · simp [hstatus]
    · -- And no payment goes out with more than it debited.
      intro id p hp
      rw [Payment.outgoing, Payment.reserved]
      by_cases hstatus : p.status ≠ .confirmed
      · cases hpurpose : p.purpose with
        | withdrawal debited =>
          have := h.debits id p debited hp hpurpose
          simpa [hstatus, Purpose.debited?] using this
        | faucet => simp [Purpose.debited?]
        | escrow depositId forfeitedBond previousStatus => simp [Purpose.debited?]
      · simp [hstatus]
  refine ⟨fun hexact => hiff.2 fun id p debited hp _ hpurpose => ?_, hiff, ?_⟩
  · exact ((debits_of_reachable (R := (· = ·)) (fun _ => rfl) hexact).debits id p debited hp
      hpurpose).symm
  · intro chainHeight commits payment debited p hub' hpurpose hstatus hle hfresh hprepare
    have hend : Ends _ _ _ (prepare chainHeight commits payment j.hub) :=
      triple_prepare chainHeight _ rfl
    rw [hprepare] at hend
    obtain ⟨rfl, hprep⟩ := hend
    -- What the figure loses is what was debited beyond the amount.
    have hdiff := (hprep.liabilities hpurpose hstatus hfresh hle hsat).2
    change hub'.board.exchangeLiabilities + (debited - payment.amount) = _ at hdiff
    omega

/-! A customer with `5000` withdraws `1500`, of which `500` are paid out. -/

/-- The hub before the withdrawal. -/
def sampleCustody : Hub :=
  ⟨TaskBoard.new.restoreExchangeAccount 7 ⟨5000, 0, 0, 0⟩,
    TaskBoard.new.restoreExchangeAccount 7 ⟨5000, 0, 0, 0⟩⟩

/-- The hub after the withdrawal, which has not been confirmed. -/
def sampleWithdrawn : Hub :=
  (withdraw pairingCrypto 10 true 20 0 1 (some ⟨[⟨101, 0⟩], [⟨500, 1, 7⟩]⟩) 7 1500 sampleCustody).1

/-- The step of the journal the handler takes. -/
def sampleDebit : JournalOp :=
  .prepare 20 0 (.withdrawal 1500) 1 7 500 (some ⟨[⟨101, 0⟩], [⟨500, 1, 7⟩]⟩) 10 true

theorem sampleWithdrawn_reachable : ∃ copies,
    (custodyRuns pairingCrypto).ReachableBy (Withdraws (· ≤ ·)) ⟨sampleWithdrawn, copies⟩ := by
  have h₀ : (custodyRuns pairingCrypto).ReachableBy (Withdraws (· ≤ ·)) ⟨sampleCustody, []⟩ :=
    .init ⟨rfl, rfl, rfl⟩
  have hfresh : 20 ∉ sampleCustody.board.payments := by decide +kernel
  have hstep : (custodyRuns pairingCrypto).step ⟨sampleCustody, []⟩ (.journal sampleDebit)
      (sampleDebit.after pairingCrypto ⟨sampleCustody, []⟩) := ⟨hfresh, rfl⟩
  have h₁ := h₀.step (l := .journal sampleDebit) (by
    rintro _ _ _ _ _ _ _ _ _ ⟨⟩
    decide) hstep
  have hhub : sampleWithdrawn = sampleCustody ∨
      sampleWithdrawn = (sampleDebit.after pairingCrypto ⟨sampleCustody, []⟩).hub :=
    @withdraw_step pairingCrypto 10 true 20 0 1 ⟨[⟨101, 0⟩], [⟨500, 1, 7⟩]⟩ 7 1500 ⟨sampleCustody, []⟩
  rcases hhub with hhub | hhub
  · rw [hhub]
    exact ⟨[], h₀⟩
  · rw [hhub]
    exact ⟨_, h₁⟩

/-- The liabilities fall short of what custody is kept for by the fee, and preparing the
    withdrawal has lowered them. -/
theorem liabilities_short_of_fee :
    (∃ copies, (custodyRuns pairingCrypto).Reachable ⟨sampleWithdrawn, copies⟩) ∧
      sampleWithdrawn.board.Unsaturated ∧
      sampleWithdrawn.board.exchangeLiabilities = 4000 ∧
      sampleWithdrawn.board.custodyObligations = 5000 ∧
      sampleCustody.board.exchangeLiabilities = 5000 := by
  obtain ⟨copies, h⟩ := sampleWithdrawn_reachable
  refine ⟨⟨copies, h.reachable⟩, ?_, by decide +kernel, by decide +kernel, by decide +kernel⟩
  rw [TaskBoard.Unsaturated]
  decide +kernel

/-- The withdrawal is not confirmed and debited the fee: the figure is not what custody is
    kept for. Before it, it was. -/
theorem liabilities_cover_iff_sample :
    sampleWithdrawn.board.exchangeLiabilities ≠ sampleWithdrawn.board.custodyObligations ∧
      sampleCustody.board.exchangeLiabilities = sampleCustody.board.custodyObligations := by
  constructor
  · obtain ⟨copies, h⟩ := sampleWithdrawn_reachable
    have hsat : sampleWithdrawn.board.Unsaturated := by
      rw [TaskBoard.Unsaturated]
      decide +kernel
    have hlookup : ∃ p, sampleWithdrawn.board.payments.lookup 20 = some p ∧ p.status = .pending ∧
        p.purpose = .withdrawal 1500 ∧ p.amount = 500 := by
      refine ⟨_, rfl, ?_⟩
      decide +kernel
    obtain ⟨p, hp, hstatus, hpurpose, hamount⟩ := hlookup
    intro heq
    have := (liabilities_cover_iff h hsat).2.1.1 heq 20 p 1500 hp (by rw [hstatus]; nofun) hpurpose
    rw [hamount] at this
    cases this
  · have h₀ : ∀ R, (custodyRuns pairingCrypto).ReachableBy (Withdraws R) ⟨sampleCustody, []⟩ :=
      fun R => .init ⟨rfl, rfl, rfl⟩
    have hsat : sampleCustody.board.Unsaturated := by
      rw [TaskBoard.Unsaturated]
      decide +kernel
    exact (liabilities_cover_iff (h₀ _) hsat).1 (h₀ _)

end Itx
