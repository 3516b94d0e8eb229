import Itx.Hub.Payments

/-!
# What the calls on the journal do

Each call on the journal ends in one of two ways: nothing has changed, or the same
rows have been written to the store and to the board (`Wrote`). What the rows are
is said by one lemma for each call; the errors, a failed commit among them, leave
everything as it was.
-/

namespace Itx

open Call

/-- The rows of a transaction have been written to the store and to the board. -/
def Wrote (rows : TaskBoard → TaskBoard) (s s' : Hub) : Prop :=
  s'.board = rows s.board ∧ s'.store = rows s.store

variable {s : Hub} {commits : Bool} {payment : Payment}

/-- Committing, then publishing the same rows. -/
theorem triple_commit {rows : TaskBoard → TaskBoard} {α : Type} {f : Unit → HubCall α}
    {Q : α → Hub → Prop} {N : Hub → Prop}
    (h : Triple (· = { s with store := rows s.store }) (f ()) Q (fun _ => (· = s)) N) :
    Triple (· = s) (commit commits rows >>= f) Q (fun _ => (· = s)) N := by
  rw [commit]
  split_ifs
  · exact .modify_bind h
  · exact .lift_known nofun (fun _ _ => rfl) nofun

/-- What preparing a payment writes. -/
def Prepared (payment : Payment) (s s' : Hub) : Prop :=
  checkTransaction payment = .ok () ∧ ∃ account deposit, reserve payment s.board = .ok (account, deposit) ∧
    Wrote (savePaymentEffects payment (account.map (payment.recipient, ·)) deposit none
      (payment.purpose = .faucet)) s s'

theorem reserve_ne_panic (board : TaskBoard) : reserve payment board ≠ .panic := by
  rw [reserve]
  split
  · exact Outcome.bind_ne_panic Outcome.ensure_ne_panic fun _ _ => nofun
  · next debited =>
    refine Outcome.bind_ne_panic Outcome.ensure_ne_panic fun _ hle => ?_
    refine Outcome.bind_ne_panic ?_ fun _ _ => nofun
    have hle := Outcome.ensure_eq_ok.1 hle
    rw [Ne, Outcome.expect_eq_panic, checkedSub_eq_none]
    omega
  · refine Outcome.bind_ne_panic Outcome.ensure_ne_panic fun _ _ => ?_
    refine Outcome.bind_ne_panic Outcome.okOr_ne_panic fun _ _ => ?_
    refine Outcome.bind_ne_panic Outcome.ensure_ne_panic fun _ _ => ?_
    exact Outcome.bind_ne_panic Outcome.ensure_ne_panic fun _ _ => nofun

/-- What a payment reserves, by its purpose. -/
theorem reserve_cases {board : TaskBoard} {account : Option ExchangeAccount}
    {deposit : Option PendingDeposit} (h : reserve payment board = .ok (account, deposit)) :
    (payment.purpose = .faucet ∧ account = none ∧ deposit = none) ∨
    (∃ debited baseBalance, payment.purpose = .withdrawal debited ∧
      debited ≤ (board.exchangeAccount payment.recipient).baseBalance -
        (board.exchangeAccount payment.recipient).lockedBase ∧
      debited + baseBalance = (board.exchangeAccount payment.recipient).baseBalance ∧
      account = some { board.exchangeAccount payment.recipient with baseBalance } ∧
      deposit = none) ∨
    ∃ depositId forfeitedBond previousStatus d,
      payment.purpose = .escrow depositId forfeitedBond previousStatus ∧
      (∀ p ∈ board.payments.values, p.purpose.depositId? ≠ some depositId) ∧
      board.pendingDeposits.lookup depositId = some d ∧ account = none ∧
      deposit = some { d with status := .disbursing } := by
  rw [reserve] at h
  split at h
  · next hp =>
    obtain ⟨_, -, h⟩ := Outcome.bind_eq_ok.1 h
    obtain ⟨rfl, rfl⟩ := Prod.mk.inj (Outcome.ok.inj h)
    exact .inl ⟨hp, rfl, rfl⟩
  · next debited hp =>
    obtain ⟨_, hle, h⟩ := Outcome.bind_eq_ok.1 h
    obtain ⟨base, hbase, h⟩ := Outcome.bind_eq_ok.1 h
    obtain ⟨rfl, rfl⟩ := Prod.mk.inj (Outcome.ok.inj h)
    exact .inr (.inl ⟨debited, base, hp, Outcome.ensure_eq_ok.1 hle,
      checkedSub_eq_some.1 (Outcome.expect_eq_ok.1 hbase), rfl, rfl⟩)
  · next depositId forfeitedBond previousStatus hp =>
    obtain ⟨_, hno, h⟩ := Outcome.bind_eq_ok.1 h
    obtain ⟨d, hd, h⟩ := Outcome.bind_eq_ok.1 h
    obtain ⟨_, -, h⟩ := Outcome.bind_eq_ok.1 h
    obtain ⟨_, -, h⟩ := Outcome.bind_eq_ok.1 h
    obtain ⟨rfl, rfl⟩ := Prod.mk.inj (Outcome.ok.inj h)
    exact .inr (.inr ⟨depositId, forfeitedBond, previousStatus, d, hp, Outcome.ensure_eq_ok.1 hno,
      Outcome.okOr_eq_ok.1 hd, rfl, rfl⟩)

theorem checkTransaction_ne_panic : checkTransaction payment ≠ .panic := by
  rw [checkTransaction]
  split <;> exact Outcome.ensure_ne_panic

/-- `prepare` writes the payment with what it reserves, or nothing. -/
theorem triple_prepare (chainHeight : ℕ) :
    Triple (· = s) (prepare chainHeight commits payment)
      (fun p s' => p = { payment with scannedThrough := chainHeight - evidenceScanLookback } ∧
        Prepared p s s') (fun _ => (· = s)) fun _ => False := by
  rw [prepare]
  generalize { payment with scannedThrough := chainHeight - evidenceScanLookback } = p
  refine .lift_known (fun _ hcheck => .get_bind fun s' hs' => ?_) (fun _ _ => rfl) fun hn =>
    absurd hn checkTransaction_ne_panic
  subst hs'
  refine .lift_known (fun r hr => ?_) (fun _ _ => rfl) fun hn => absurd hn (reserve_ne_panic _)
  obtain ⟨account, deposit⟩ := r
  refine triple_commit (.modify_bind (.modify_bind ?_))
  have hwrote : ∀ {s''}, Wrote (savePaymentEffects p (account.map (p.recipient, ·)) deposit none
      (p.purpose = .faucet)) s' s'' → p = p ∧ Prepared p s' s'' := fun h =>
    ⟨rfl, hcheck, account, deposit, hr, h⟩
  dsimp only
  split_ifs with hf
  · refine .modify_bind (.modify_bind (.pure fun _ e => hwrote ?_))
    rw [e, hf]
    cases account <;> cases deposit <;> exact ⟨rfl, rfl⟩
  · refine .modify_bind (.pure fun _ e => hwrote ?_)
    rw [Bool.not_eq_true] at hf
    rw [e, hf]
    cases account <;> cases deposit <;> exact ⟨rfl, rfl⟩

/-- What confirming a payment writes. -/
def Confirms (payment : Payment) (s s' : Hub) : Prop :=
  ∃ current, s.board.payments.lookup payment.id = some current ∧ current.status ≠ .confirmed ∧
    ∃ deposit reputation, confirmEffects { current with status := .confirmed } s.board =
        .ok (deposit, reputation) ∧
      Wrote (savePaymentEffects { current with status := .confirmed } none deposit
        (reputation.map (current.recipient, ·)) false) s s'

/-- What follows from a payment, by its purpose. -/
theorem confirmEffects_cases {board : TaskBoard} {deposit : Option PendingDeposit}
    {reputation : Option Reputation}
    (h : confirmEffects payment board = .ok (deposit, reputation)) :
    (payment.purpose.depositId? = none ∧ deposit = none ∧ reputation = none) ∨
    ∃ depositId forfeitedBond previousStatus d,
      payment.purpose = .escrow depositId forfeitedBond previousStatus ∧
      board.pendingDeposits.lookup depositId = some d ∧
      deposit = some { d with status := .refunded } ∧
      (forfeitedBond = false ∧ reputation = none ∨
        forfeitedBond = true ∧ reputation = some { board.reputationOf payment.recipient with
          totalEarned := (board.reputationOf payment.recipient).totalEarned + payment.amount }) := by
  rw [confirmEffects] at h
  split at h
  · next depositId forfeitedBond previousStatus hp =>
    obtain ⟨d, hd, h⟩ := Outcome.bind_eq_ok.1 h
    refine .inr ⟨depositId, forfeitedBond, previousStatus, d, hp, Outcome.okOr_eq_ok.1 hd, ?_⟩
    cases forfeitedBond with
    | false =>
      obtain ⟨rfl, rfl⟩ := Prod.mk.inj (Outcome.ok.inj h)
      exact ⟨rfl, .inl ⟨rfl, rfl⟩⟩
    | true =>
      obtain ⟨earned, hearned, h⟩ := Outcome.bind_eq_ok.1 h
      obtain ⟨rfl, rfl⟩ := Prod.mk.inj (Outcome.ok.inj h)
      obtain ⟨rfl, -⟩ := checkedAdd_eq_some.1 (Outcome.okOr_eq_ok.1 hearned)
      exact ⟨rfl, .inr ⟨rfl, rfl⟩⟩
  · next hne =>
    obtain ⟨rfl, rfl⟩ := Prod.mk.inj (Outcome.ok.inj h)
    refine .inl ⟨?_, rfl, rfl⟩
    cases hp : payment.purpose with
    | faucet => rfl
    | withdrawal debited => rfl
    | escrow depositId forfeitedBond previousStatus => exact absurd hp (hne _ _ _)

theorem confirmEffects_ne_panic (board : TaskBoard) : confirmEffects payment board ≠ .panic := by
  rw [confirmEffects]
  split
  · refine Outcome.bind_ne_panic Outcome.okOr_ne_panic fun _ _ => ?_
    split_ifs
    · exact Outcome.bind_ne_panic Outcome.okOr_ne_panic fun _ _ => nofun
    · nofun
  · nofun

/-- `confirm` writes the payment as confirmed, with what follows from it, or
    nothing. -/
theorem triple_confirm :
    Triple (· = s) (confirm commits payment) (fun _ s' => s' = s ∨ Confirms payment s s')
      (fun _ => (· = s)) fun _ => False := by
  refine .get_bind fun s' hs' => ?_
  subst hs'
  split
  · exact .pure fun _ e => .inl e
  · next current hcurrent =>
    split_ifs with hstatus
    · exact .pure fun _ e => .inl e
    refine .lift_known (fun r hr => ?_) (fun _ _ => rfl) fun hn => absurd hn (confirmEffects_ne_panic _)
    obtain ⟨deposit, reputation⟩ := r
    refine triple_commit (.modify_bind (.modify_bind (.modify fun _ e => .inr ?_)))
    refine ⟨current, hcurrent, hstatus, deposit, reputation, hr, ?_⟩
    rw [e]
    constructor
    · cases deposit <;> cases reputation <;> rfl
    · rfl

/-- What saving a payment over an earlier copy of it writes. -/
def Saves (previous next : Payment) (s s' : Hub) : Prop :=
  ∃ current, s.board.payments.lookup next.id = some current ∧
    current.submissions = previous.submissions ∧ current.status = previous.status ∧
    current.submittedAt = previous.submittedAt ∧
    Wrote (savePaymentEffects next none none none false) s s'

/-- Saving over an earlier copy writes the payment, or nothing. -/
theorem triple_saveOver {previous next : Payment} :
    Triple (· = s) (saveOver commits previous next)
      (fun _ s' => s' = s ∨ Saves previous next s s') (fun _ => (· = s)) fun _ => False := by
  refine .get_bind fun s' hs' => ?_
  subst hs'
  split
  · exact .pure fun _ e => .inl e
  · next current hcurrent =>
    split_ifs with hmoved
    · exact .pure fun _ e => .inl e
    push Not at hmoved
    refine triple_commit (.modify_bind (.pure fun _ e => .inr ?_))
    refine ⟨current, hcurrent, hmoved.1, hmoved.2.1, hmoved.2.2, ?_⟩
    rw [e]
    exact ⟨rfl, rfl⟩

/-! ## Resolving -/

/-- `q` is the payment `p` at another moment: only how far its settlement is may
    differ. -/
def Payment.SameAs (p q : Payment) : Prop :=
  ∃ submittedAt submissions status scannedThrough,
    q = { p with submittedAt, submissions, status, scannedThrough }

theorem Payment.SameAs.refl (p : Payment) : p.SameAs p := ⟨_, _, _, _, rfl⟩

theorem Payment.SameAs.symm {p q : Payment} (h : p.SameAs q) : q.SameAs p := by
  obtain ⟨_, _, _, _, rfl⟩ := h
  exact ⟨_, _, _, _, rfl⟩

theorem Payment.SameAs.trans {p q r : Payment} (h : p.SameAs q) (h' : q.SameAs r) : p.SameAs r := by
  obtain ⟨_, _, _, _, rfl⟩ := h
  obtain ⟨_, _, _, _, rfl⟩ := h'
  exact ⟨_, _, _, _, rfl⟩

/-- What a payment whose settlement goes on may be saved as. -/
structure Payment.Continues (p q : Payment) : Prop where
  same : p.SameAs q
  status : q.status ≠ .confirmed
  submissions : q.submissions ≤ maxPayoutSubmissions

/-- The payment that a copy was made of goes on as the copy does. -/
theorem Payment.Continues.of_current {payments : Finmap fun _ : Uuid => Payment} {p next q current : Payment}
    (h : p.Continues next) (hq : payments.lookup p.id = some q) (hsame : p.SameAs q)
    (hcurrent : payments.lookup next.id = some current) : current.SameAs next := by
  have hid : next.id = p.id := by
    obtain ⟨_, _, _, _, rfl⟩ := h.same
    rfl
  rw [hid, hq] at hcurrent
  obtain rfl := Option.some.inj hcurrent
  exact hsame.symm.trans h.same

/-- `send` confirms a payment without a transaction, or does nothing. -/
theorem triple_send :
    Triple (· = s) (send commits payment) (fun _ s' => s' = s ∨ Confirms payment s s')
      (fun _ => (· = s)) fun _ => False := by
  rw [send]
  split
  · exact .pure fun _ e => .inl e
  · refine .ignore (triple_confirm.conseq (fun _ => id) (fun _ _ => id) (fun _ _ e => .inl e)
      fun _ => id)

/-- What resolving a copy of a payment writes. -/
def Resolves (payment : Payment) (s s' : Hub) : Prop :=
  s' = s ∨ Confirms payment s s' ∨ ∃ next, payment.Continues next ∧ Saves payment next s s'

theorem continues_resubmitted {now : DateTime} (hstatus : payment.status = .pending)
    (hsub : payment.submissions ≤ maxPayoutSubmissions) :
    payment.Continues (resubmitted now payment) := by
  rw [resubmitted]
  split_ifs with hif
  · exact ⟨⟨_, _, _, _, rfl⟩, nofun, hsub⟩
  · rw [not_or, not_le] at hif
    exact ⟨⟨_, _, _, _, rfl⟩, by rw [hstatus]; nofun, hif.1⟩

variable (c : Crypto)

theorem scanPass_eq {wanted : Hash} {reply : ℕ → Option (List Block)} {e : Option Evidence}
    {q : Payment} (h : scanPass c wanted reply payment = (e, q)) :
    ∃ scannedThrough, q = { payment with scannedThrough } := by
  rw [scanPass] at h
  split at h
  · exact ⟨_, (Prod.mk.inj h).2.symm⟩
  · split_ifs at h <;> exact ⟨_, (Prod.mk.inj h).2.symm⟩

/-- A scan only moves the height it has read through. -/
theorem scanForEvidence_eq {replies : NodeReplies} {e : Evidence} {q : Payment}
    (h : scanForEvidence c replies payment = (e, q)) :
    ∃ scannedThrough, q = { payment with scannedThrough } := by
  rw [scanForEvidence] at h
  split at h
  · exact ⟨_, (Prod.mk.inj h).2.symm⟩
  · split at h
    · next h₁ =>
      obtain ⟨n, rfl⟩ := scanPass_eq c h₁
      exact ⟨n, (Prod.mk.inj h).2.symm⟩
    · next h₁ =>
      obtain ⟨n, rfl⟩ := scanPass_eq c h₁
      split at h
      · next h₂ =>
        obtain ⟨n', rfl⟩ := scanPass_eq c h₂
        exact ⟨n', (Prod.mk.inj h).2.symm⟩
      · next h₂ =>
        obtain ⟨n', rfl⟩ := scanPass_eq c h₂
        exact ⟨n', (Prod.mk.inj h).2.symm⟩

theorem observe_ne_panic {replies : NodeReplies} : observe c replies payment ≠ .panic := by
  rw [observe]
  split
  · nofun
  · refine Outcome.bind_ne_panic Outcome.okOr_ne_panic fun _ _ => ?_
    exact Outcome.bind_ne_panic Outcome.okOr_ne_panic fun _ _ => nofun

/-- Resolving a copy of an unconfirmed payment confirms the payment, or saves what
    the copy continues as, or does nothing. -/
theorem triple_resolve {now : DateTime} {replies : NodeReplies} (hstatus : payment.status ≠ .confirmed)
    (hsub : payment.submissions ≤ maxPayoutSubmissions) :
    Triple (· = s) (resolve c now replies commits payment) (fun _ s' => Resolves payment s s')
      (fun _ => (· = s)) fun _ => False := by
  have hconfirm : Triple (· = s) (confirm commits payment) (fun _ s' => Resolves payment s s')
      (fun _ => (· = s)) fun _ => False :=
    triple_confirm.conseq (fun _ => id) (fun _ _ h => h.imp id .inl) (fun _ _ => id) fun _ => id
  have hsave : ∀ next, payment.Continues next →
      Triple (· = s) (saveOver commits payment next) (fun _ s' => Resolves payment s s')
        (fun _ => (· = s)) fun _ => False := fun next hnext =>
    triple_saveOver.conseq (fun _ => id) (fun _ _ h => h.imp id fun h => .inr ⟨next, hnext, h⟩)
      (fun _ _ => id) fun _ => id
  rw [resolve]
  split_ifs
  · exact .pure fun _ e => .inl e
  refine .lift_known (fun outcome _ => ?_) (fun _ _ => rfl) fun hn => absurd hn (observe_ne_panic c)
  split
  · exact hconfirm
  · next hpending _ =>
    refine .bind (hsave _ (continues_resubmitted hpending hsub)) fun saved => ?_
    -- The payment that is sent once more has a transaction.
    have hsend : ∀ p : Payment, resubmitted now payment = p → p.status = .pending →
        p.transaction ≠ none := by
      rintro _ rfl hp
      rw [resubmitted] at hp ⊢
      split_ifs at hp ⊢ with hif
      rw [not_or, Option.isNone_iff_eq_none] at hif
      exact hif.2
    split_ifs with _ hp
    · rw [send]
      split
      · exact .pure fun _ h => h
      · next hnone => exact absurd hnone (hsend _ rfl hp)
    · exact .pure fun _ h => h
    · exact .pure fun _ h => h
  · exact .pure fun _ e => .inl e
  · split
    · exact hconfirm
    · next scanned hscan =>
      obtain ⟨n, rfl⟩ := scanForEvidence_eq c hscan
      exact .bind (hsave _ ⟨⟨_, _, _, _, rfl⟩, nofun, hsub⟩) fun _ => .pure fun _ h => h
    · next scanned hscan =>
      obtain ⟨n, rfl⟩ := scanForEvidence_eq c hscan
      exact .bind (hsave _ ⟨⟨_, _, _, _, rfl⟩, hstatus, hsub⟩) fun _ => .pure fun _ h => h

end Itx
