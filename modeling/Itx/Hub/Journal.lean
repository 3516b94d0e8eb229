import Itx.Lib.System
import Itx.Hub.Effects

/-!
# The journal is exactly-once

A run of the journal: payments are prepared, sent and resolved from copies made
earlier, in any order, while commits fail and the process crashes, to start again
from its store. The state of such a run is the hub and the copies held by the calls
under way, which a crash loses.

A call runs under the write lock from its last read of the board to what it
publishes, so it is one step. A crash inside it, between its commit and what it
publishes, leaves what the whole call followed by a crash leaves.

The invariant is what the *books* say (`Books`): every account is what it was less
the withdrawals of the journal, every reputation what it was plus the bonds of the
confirmed payments, and the status of a deposit that of its only payment. Each call
writes one payment, with what it moves, and the books balance again.
-/

namespace Itx

open Call

/-! ## Runs -/

/-- The state of a run: the hub, and the copies of payments held by the calls under
    way. -/
structure Journal where
  hub : Hub
  copies : List Payment

/-- The steps of a run. -/
inductive JournalOp
  /-- `prepare` on a new payment. -/
  | prepare (id : Uuid) (now : DateTime) (purpose : Purpose) (source recipient : PublicKey)
      (amount : ℕ) (transaction : Option Transaction) (chainHeight : ℕ) (commits : Bool)
  /-- `send`, on a copy. -/
  | send (payment : Payment) (commits : Bool)
  /-- `resolve_all` copies the unconfirmed payments. -/
  | read
  /-- `resolve`, on a copy, with what the node answers. -/
  | resolve (payment : Payment) (now : DateTime) (replies : NodeReplies) (commits : Bool)
  /-- The process stops, and starts again from the store. -/
  | crash

variable (c : Crypto)

/-- The state after a step. -/
def JournalOp.after (s : Journal) : JournalOp → Journal
  | .prepare id now purpose source recipient amount transaction chainHeight commits =>
    let payment := Payment.new c id now purpose source recipient amount transaction
    match Itx.prepare chainHeight commits payment s.hub with
    | (hub, .ok payment) => ⟨hub, payment :: s.copies⟩
    | (hub, _) => ⟨hub, s.copies⟩
  | .send payment commits => { s with hub := (Itx.send commits payment s.hub).1 }
  | .read =>
    { s with copies := s.copies ++
        s.hub.board.payments.values.filter fun p => p.status ≠ .confirmed }
  | .resolve payment now replies commits =>
    { s with hub := (Itx.resolve c now replies commits payment s.hub).1 }
  | .crash => ⟨⟨s.hub.store, s.hub.store⟩, []⟩

/-- A new payment has a fresh id, and a call is given a copy it holds. -/
def JournalOp.Enabled (s : Journal) : JournalOp → Prop
  | .prepare id .. => id ∉ s.hub.board.payments
  | .send payment _ => payment ∈ s.copies
  | .resolve payment .. => payment ∈ s.copies
  | _ => True

/-- The runs of the journal from a state. -/
def journalFrom (s : Journal) : System Journal JournalOp where
  init := {s}
  step s op s' := op.Enabled s ∧ s' = op.after c s

/-- The runs of the journal, from an empty one. -/
def journal (board : TaskBoard) : System Journal JournalOp := journalFrom c ⟨⟨board, board⟩, []⟩

/-! ## The books -/

/-- What a payment takes out of the account of a key. -/
def Payment.debit (p : Payment) (pk : PublicKey) : ℕ :=
  match p.purpose with
  | .withdrawal debited => if p.recipient = pk then debited else 0
  | _ => 0

/-- What a payment adds to the earnings of a key. -/
def Payment.earned (p : Payment) (pk : PublicKey) : ℕ :=
  match p.purpose with
  | .escrow _ true _ => if p.recipient = pk ∧ p.status = .confirmed then p.amount else 0
  | _ => 0

/-- The status of the deposit a payment disburses. -/
def Payment.depositStatus (p : Payment) : EscrowStatus :=
  if p.status = .confirmed then .refunded else .disbursing

/-- The board `b` differs from `b₀` by what its payments say. -/
structure Books (b₀ b : TaskBoard) : Prop where
  keyed : ∀ id p, b.payments.lookup id = some p → p.id = id
  submissions : ∀ id p, b.payments.lookup id = some p → p.submissions ≤ maxPayoutSubmissions
  base : ∀ pk, (b.exchangeAccount pk).baseBalance + b.payments.total (fun _ p => p.debit pk) =
    (b₀.exchangeAccount pk).baseBalance
  earned : ∀ pk, (b.reputationOf pk).totalEarned =
    (b₀.reputationOf pk).totalEarned + b.payments.total fun _ p => p.earned pk
  /-- A deposit has at most one payment. -/
  unique : ∀ id p id' p', b.payments.lookup id = some p → b.payments.lookup id' = some p' →
    p.purpose.depositId?.isSome → p.purpose.depositId? = p'.purpose.depositId? → id = id'
  deposit : ∀ id p depositId, b.payments.lookup id = some p →
    p.purpose.depositId? = some depositId → ∃ d, b₀.pendingDeposits.lookup depositId = some d ∧
      b.pendingDeposits.lookup depositId = some { d with status := p.depositStatus }
  untouched : ∀ depositId, (∀ id p, b.payments.lookup id = some p →
    p.purpose.depositId? ≠ some depositId) →
      b.pendingDeposits.lookup depositId = b₀.pendingDeposits.lookup depositId

/-- The payments of `b` are those of `b'`, some of them further on; a confirmed one
    is as it was. -/
def Follows (b b' : TaskBoard) : Prop :=
  ∀ id p, b.payments.lookup id = some p → ∃ q, b'.payments.lookup id = some q ∧ p.SameAs q ∧
    (p.status = .confirmed → q = p)

variable {b₀ b b' : TaskBoard} {payment next : Payment}

theorem Follows.refl (b : TaskBoard) : Follows b b := fun _ p h => ⟨p, h, .refl p, fun _ => rfl⟩

theorem Follows.trans {b'' : TaskBoard} (h : Follows b b') (h' : Follows b' b'') :
    Follows b b'' := by
  intro id p hp
  obtain ⟨q, hq, hpq, hconf⟩ := h id p hp
  obtain ⟨r, hr, hqr, hconf'⟩ := h' id q hq
  refine ⟨r, hr, hpq.trans hqr, fun hp => ?_⟩
  obtain rfl := hconf hp
  exact hconf' hp

/-- Writing one payment, new or further on. -/
theorem Follows.insert (payment : Payment) (h : b'.payments = b.payments.insert payment.id payment)
    (hp : ∀ p, b.payments.lookup payment.id = some p → p.SameAs payment ∧ p.status ≠ .confirmed) :
    Follows b b' := by
  intro id p hid
  rw [h, Finmap.lookup_insert_eq]
  split_ifs with heq
  · subst heq
    obtain ⟨hsame, hstatus⟩ := hp p hid
    exact ⟨payment, rfl, hsame, fun h => absurd h hstatus⟩
  · exact ⟨p, hid, .refl p, fun _ => rfl⟩

/-- Writing a payment that goes on. -/
theorem Follows.write {current : Payment} (payment : Payment)
    (h : b'.payments = b.payments.insert payment.id payment)
    (hcurrent : b.payments.lookup payment.id = some current) (hsame : current.SameAs payment)
    (hstatus : current.status ≠ .confirmed) : Follows b b' := by
  refine .insert payment h fun p hp => ?_
  obtain rfl := Option.some.inj (hp.symm.trans hcurrent)
  exact ⟨hsame, hstatus⟩

/-- A copy of a payment stays one. -/
theorem Follows.copy {p : Payment} (h : Follows b b')
    (hp : ∃ q, b.payments.lookup p.id = some q ∧ p.SameAs q) :
    ∃ q, b'.payments.lookup p.id = some q ∧ p.SameAs q := by
  obtain ⟨q, hq, hsame⟩ := hp
  obtain ⟨r, hr, hsame', -⟩ := h p.id q hq
  exact ⟨r, hr, hsame.trans hsame'⟩

/-! ## What the calls write -/

/-- Writing one payment, new or further on, with what it moves. -/
theorem Books.insert (h : Books b₀ b) (payment : Payment)
    (hpay : b'.payments = b.payments.insert payment.id payment)
    (hsub : payment.submissions ≤ maxPayoutSubmissions)
    (hold : ∀ p, b.payments.lookup payment.id = some p →
      p.purpose.depositId? = payment.purpose.depositId?)
    (hunique : ∀ id p, b.payments.lookup id = some p → p.purpose.depositId?.isSome →
      p.purpose.depositId? = payment.purpose.depositId? → id = payment.id)
    (hbase : ∀ pk, (b'.exchangeAccount pk).baseBalance + payment.debit pk =
      (b.exchangeAccount pk).baseBalance + b.payments.weight (fun _ p => p.debit pk) payment.id)
    (hearned : ∀ pk, (b'.reputationOf pk).totalEarned +
      b.payments.weight (fun _ p => p.earned pk) payment.id =
        (b.reputationOf pk).totalEarned + payment.earned pk)
    (hdeposit : ∀ depositId, payment.purpose.depositId? = some depositId →
      ∃ d, b₀.pendingDeposits.lookup depositId = some d ∧
        b'.pendingDeposits.lookup depositId = some { d with status := payment.depositStatus })
    (hother : ∀ depositId, payment.purpose.depositId? ≠ some depositId →
      b'.pendingDeposits.lookup depositId = b.pendingDeposits.lookup depositId) : Books b₀ b' := by
  -- What is journaled then is the payment, or was journaled under another id.
  have hlookup : ∀ id p, b'.payments.lookup id = some p →
      id = payment.id ∧ p = payment ∨ id ≠ payment.id ∧ b.payments.lookup id = some p := by
    intro id p hp
    rw [hpay, Finmap.lookup_insert_eq] at hp
    split_ifs at hp with heq
    · exact .inl ⟨heq, (Option.some.inj hp).symm⟩
    · exact .inr ⟨heq, hp⟩
  refine ⟨fun id p hp => ?_, fun id p hp => ?_, fun pk => ?_, fun pk => ?_,
    fun id p id' p' hp hp' hsome heq => ?_, fun id p depositId hp hdep => ?_, fun depositId hno => ?_⟩
  · rcases hlookup id p hp with ⟨rfl, rfl⟩ | ⟨-, hp⟩
    · rfl
    · exact h.keyed id p hp
  · rcases hlookup id p hp with ⟨rfl, rfl⟩ | ⟨-, hp⟩
    · exact hsub
    · exact h.submissions id p hp
  -- What it debits now comes from the balance, but for what it has debited before.
  · have htotal := Finmap.total_insert (f := fun (_ : Uuid) (p : Payment) => p.debit pk)
      (m := b.payments) (a := payment.id) (b := payment)
    have := hbase pk
    have := h.base pk
    rw [hpay]
    omega
  · have htotal := Finmap.total_insert (f := fun (_ : Uuid) (p : Payment) => p.earned pk)
      (m := b.payments) (a := payment.id) (b := payment)
    have := hearned pk
    have := h.earned pk
    rw [hpay]
    omega
  · rcases hlookup id p hp with ⟨rfl, rfl⟩ | ⟨-, hp⟩
    · rcases hlookup id' p' hp' with ⟨rfl, -⟩ | ⟨-, hp'⟩
      · rfl
      · exact (hunique id' p' hp' (heq ▸ hsome) heq.symm).symm
    · rcases hlookup id' p' hp' with ⟨rfl, rfl⟩ | ⟨-, hp'⟩
      · exact hunique id p hp hsome heq
      · exact h.unique id p id' p' hp hp' hsome heq
  · rcases hlookup id p hp with ⟨rfl, rfl⟩ | ⟨hne, hp⟩
    · exact hdeposit depositId hdep
    · obtain ⟨d, hd, hbd⟩ := h.deposit id p depositId hp hdep
      refine ⟨d, hd, (hother depositId fun hpdep => hne ?_).trans hbd⟩
      exact hunique id p hp (by rw [hdep]; rfl) (hdep.trans hpdep.symm)
  · have hpno : payment.purpose.depositId? ≠ some depositId :=
      hno payment.id payment (by rw [hpay, Finmap.lookup_insert])
    rw [hother depositId hpno]
    refine h.untouched depositId fun id p hp => ?_
    by_cases heq : id = payment.id
    · subst heq
      rw [hold p hp]
      exact hpno
    · exact hno id p (by rw [hpay, Finmap.lookup_insert_eq, if_neg heq, hp])

/-- What is on the board after the rows of a transaction. -/
theorem exchangeAccount_savePaymentEffects {account : Option ExchangeAccount}
    {deposit : Option PendingDeposit} {reputation : Option (PublicKey × Reputation)} {faucet : Bool}
    (x : PublicKey) :
    (savePaymentEffects payment (account.map (payment.recipient, ·)) deposit reputation faucet
      b).exchangeAccount x =
        if x = payment.recipient then account.getD (b.exchangeAccount x) else b.exchangeAccount x := by
  cases account with
  | none => exact (ite_self _).symm
  | some a =>
    change ((b.exchangeAccounts.insert payment.recipient a).lookup x).getD default = _
    rw [Finmap.lookup_insert_eq]
    split_ifs <;> rfl

theorem reputationOf_savePaymentEffects (payment : Payment) {account : Option (PublicKey × ExchangeAccount)}
    {deposit : Option PendingDeposit} {reputation : Option Reputation} {faucet : Bool}
    (x : PublicKey) :
    (savePaymentEffects payment account deposit (reputation.map (payment.recipient, ·)) faucet
      b).reputationOf x =
        if x = payment.recipient then reputation.getD (b.reputationOf x) else b.reputationOf x := by
  cases reputation with
  | none => exact (ite_self _).symm
  | some r =>
    change ((b.reputation.insert payment.recipient r).lookup x).getD default = _
    rw [Finmap.lookup_insert_eq]
    split_ifs <;> rfl

theorem Payment.earned_of_ne (h : payment.status ≠ .confirmed) (pk : PublicKey) :
    payment.earned pk = 0 := by
  rw [earned]
  split
  · exact if_neg fun hif => h hif.2
  · rfl

theorem Payment.earned_of_no_deposit (h : payment.purpose.depositId? = none) (pk : PublicKey) :
    payment.earned pk = 0 := by
  rw [earned]
  split
  · next hp =>
    rw [hp] at h
    cases h
  · rfl

/-- Preparing a new payment adds it to the journal, with what it reserves. -/
theorem Books.prepare {account : Option ExchangeAccount} {deposit : Option PendingDeposit}
    (h : Books b₀ b) (hkeyed : ∀ id d, b₀.pendingDeposits.lookup id = some d → d.id = id)
    (hfresh : payment.id ∉ b.payments) (hstatus : payment.status ≠ .confirmed)
    (hsub : payment.submissions ≤ maxPayoutSubmissions)
    (hr : reserve payment b = .ok (account, deposit)) :
    Books b₀ (savePaymentEffects payment (account.map (payment.recipient, ·)) deposit none
      (payment.purpose = .faucet) b) := by
  have hnone : ∀ p, b.payments.lookup payment.id ≠ some p := fun p hp =>
    hfresh (Finmap.mem_iff.2 ⟨p, hp⟩)
  have hearned : ∀ pk, (b.reputationOf pk).totalEarned +
      b.payments.weight (fun _ p => p.earned pk) payment.id =
        (b.reputationOf pk).totalEarned + payment.earned pk := fun pk => by
    rw [Finmap.weight_of_notMem hfresh, Payment.earned_of_ne hstatus]
  refine h.insert payment rfl hsub (fun p hp => absurd hp (hnone p)) (fun id p hp hsome heq => ?_)
    (fun pk => ?_) hearned (fun depositId hdep => ?_) fun depositId hdep => ?_
  -- The other payments are on other deposits.
  · rcases reserve_cases hr with ⟨hp', -⟩ | ⟨_, _, hp', -⟩ | ⟨depositId, _, _, d, hp', hno, -⟩
    · rw [heq, hp'] at hsome
      cases hsome
    · rw [heq, hp'] at hsome
      cases hsome
    · rw [hp'] at heq
      exact absurd heq (hno p (Finmap.mem_values.2 ⟨id, hp⟩))
  · rw [exchangeAccount_savePaymentEffects, Finmap.weight_of_notMem hfresh, Payment.debit]
    rcases reserve_cases hr with ⟨hp', rfl, -⟩ | ⟨debited, base, hp', -, hbase, rfl, -⟩ |
      ⟨_, _, _, d, hp', -, -, rfl, -⟩
    · rw [hp']
      exact congrArg ExchangeAccount.baseBalance (ite_self _)
    · rw [hp']
      split_ifs with hpk hpk' hpk'
      · rw [hpk]
        change base + debited = _
        omega
      · exact absurd hpk.symm hpk'
      · exact absurd hpk'.symm hpk
      · rfl
    · rw [hp']
      exact congrArg ExchangeAccount.baseBalance (ite_self _)
  · rcases reserve_cases hr with ⟨hp', -⟩ | ⟨_, _, hp', -⟩ | ⟨_, _, _, d, hp', hno, hd, -, rfl⟩
    · rw [hp'] at hdep
      cases hdep
    · rw [hp'] at hdep
      cases hdep
    · rw [hp'] at hdep
      obtain rfl := Option.some.inj hdep
      have hd₀ := (h.untouched _ fun id p hp => hno p (Finmap.mem_values.2 ⟨id, hp⟩)).symm.trans hd
      refine ⟨d, hd₀, ?_⟩
      change (b.pendingDeposits.insert d.id _).lookup _ = _
      rw [hkeyed _ d hd₀, Finmap.lookup_insert, Payment.depositStatus, if_neg hstatus]
  · rcases reserve_cases hr with ⟨-, -, rfl⟩ | ⟨_, _, -, -, -, -, rfl⟩ |
      ⟨depositId', _, _, d, hp', hno, hd, -, rfl⟩
    · rfl
    · rfl
    · have hd₀ := (h.untouched _ fun id p hp => hno p (Finmap.mem_values.2 ⟨id, hp⟩)).symm.trans hd
      change (b.pendingDeposits.insert d.id _).lookup _ = _
      rw [hkeyed _ d hd₀, Finmap.lookup_insert_of_ne]
      rintro rfl
      exact hdep (by rw [hp']; rfl)

/-- Confirming a payment, with what follows from it. -/
theorem Books.confirm {current : Payment} {deposit : Option PendingDeposit}
    {reputation : Option Reputation}
    (h : Books b₀ b) (hkeyed : ∀ id d, b₀.pendingDeposits.lookup id = some d → d.id = id)
    (hcurrent : b.payments.lookup current.id = some current) (hstatus : current.status ≠ .confirmed)
    (hr : confirmEffects { current with status := .confirmed } b = .ok (deposit, reputation)) :
    Books b₀ (savePaymentEffects { current with status := .confirmed } none deposit
      (reputation.map (current.recipient, ·)) false b) := by
  refine h.insert { current with status := .confirmed } rfl
    (h.submissions _ current hcurrent) (fun p hp => ?_)
    (fun id p hp hsome heq => h.unique id p _ current hp hcurrent hsome heq) (fun pk => ?_)
    (fun pk => ?_) (fun depositId hdep => ?_) fun depositId hdep => ?_
  · obtain rfl := Option.some.inj (hp.symm.trans hcurrent)
    rfl
  · rw [Finmap.weight_of_lookup hcurrent]
    rfl
  -- It has earned nothing before. What it earns now is the bond, if it returns one.
  · rw [Finmap.weight_of_lookup hcurrent, Payment.earned_of_ne hstatus,
      reputationOf_savePaymentEffects { current with status := .confirmed }]
    rcases confirmEffects_cases hr with ⟨hp', -, rfl⟩ |
      ⟨depositId, _, _, d, hp', hd, -, ⟨rfl, rfl⟩ | ⟨rfl, rfl⟩⟩
    · rw [Payment.earned_of_no_deposit hp']
      exact congrArg Reputation.totalEarned (ite_self _)
    · rw [Payment.earned, hp']
      exact congrArg Reputation.totalEarned (ite_self _)
    · rw [Payment.earned, hp']
      dsimp only
      split_ifs with hpk hpk' hpk'
      · rw [hpk]
        rfl
      · exact absurd ⟨hpk.symm, rfl⟩ hpk'
      · exact absurd hpk'.1.symm hpk
      · rfl
  · rcases confirmEffects_cases hr with ⟨hp', -⟩ | ⟨_, _, _, d, hp', hd, rfl, -⟩
    · rw [hp'] at hdep
      cases hdep
    · rw [hp'] at hdep
      obtain rfl := Option.some.inj hdep
      obtain ⟨d₀, hd₀, hd'⟩ := h.deposit _ current _ hcurrent (congrArg Purpose.depositId? hp')
      obtain rfl := Option.some.inj (hd.symm.trans hd')
      refine ⟨d₀, hd₀, ?_⟩
      change (b.pendingDeposits.insert d₀.id _).lookup _ = _
      rw [hkeyed _ d₀ hd₀, Finmap.lookup_insert]
      rfl
  · rcases confirmEffects_cases hr with ⟨-, rfl, -⟩ | ⟨_, _, _, d, hp', hd, rfl, -⟩
    · rfl
    · obtain ⟨d₀, hd₀, hd'⟩ := h.deposit _ current _ hcurrent (congrArg Purpose.depositId? hp')
      obtain rfl := Option.some.inj (hd.symm.trans hd')
      change (b.pendingDeposits.insert d₀.id _).lookup _ = _
      rw [hkeyed _ d₀ hd₀, Finmap.lookup_insert_of_ne]
      rintro rfl
      exact hdep (by rw [hp']; rfl)

/-- Saving a payment that goes on moves nothing. -/
theorem Books.save {current : Payment} (h : Books b₀ b)
    (hcurrent : b.payments.lookup next.id = some current) (hsame : current.SameAs next)
    (hstatus : current.status ≠ .confirmed) (hnext : next.status ≠ .confirmed)
    (hsub : next.submissions ≤ maxPayoutSubmissions) :
    Books b₀ (savePaymentEffects next none none none false b) := by
  obtain ⟨_, _, status, _, rfl⟩ := hsame
  refine h.insert _ rfl hsub (fun p hp => ?_)
    (fun id p hp hsome heq => h.unique id p _ current hp hcurrent hsome heq) (fun pk => ?_)
    (fun pk => ?_) (fun depositId hdep => ?_) fun _ _ => rfl
  · obtain rfl := Option.some.inj (hp.symm.trans hcurrent)
    rfl
  · rw [Finmap.weight_of_lookup hcurrent]
    rfl
  · rw [Finmap.weight_of_lookup hcurrent, Payment.earned_of_ne hstatus, Payment.earned_of_ne hnext]
    rfl
  · obtain ⟨d, hd, hbd⟩ := h.deposit _ current _ hcurrent hdep
    refine ⟨d, hd, ?_⟩
    rw [Payment.depositStatus, if_neg hstatus] at hbd
    rw [Payment.depositStatus, if_neg hnext]
    exact hbd

/-! ## Runs keep the books -/

/-- What holds throughout a run: the board is what is stored, the books balance, and
    the copies are earlier versions of payments of the journal. -/
structure Journal.Sound (b₀ : TaskBoard) (s : Journal) : Prop where
  synced : s.hub.board = s.hub.store
  books : Books b₀ s.hub.board
  copies : ∀ p ∈ s.copies, p.status ≠ .confirmed ∧ p.submissions ≤ maxPayoutSubmissions ∧
    ∃ q, s.hub.board.payments.lookup p.id = some q ∧ p.SameAs q

/-- A step of the hub that keeps the books. -/
structure Advances (b₀ : TaskBoard) (s s' : Hub) : Prop where
  synced : s'.board = s'.store
  books : Books b₀ s'.board
  follows : Follows s.board s'.board

variable {s s' : Hub} {j : Journal}

theorem Journal.Sound.refl (h : j.Sound b₀) : Advances b₀ j.hub j.hub :=
  ⟨h.synced, h.books, .refl _⟩

/-- The same rows written to the board and to the store. -/
theorem Advances.of_wrote {rows : TaskBoard → TaskBoard} (hsynced : s.board = s.store)
    (hw : Wrote rows s s') (hbooks : Books b₀ (rows s.board))
    (hfollows : Follows s.board (rows s.board)) : Advances b₀ s s' := by
  refine ⟨?_, hw.1 ▸ hbooks, hw.1 ▸ hfollows⟩
  rw [hw.1, hw.2, hsynced]

/-- The copies are still earlier versions of payments of the journal. -/
theorem Journal.Sound.advance (h : j.Sound b₀) (ha : Advances b₀ j.hub s') :
    (⟨s', j.copies⟩ : Journal).Sound b₀ := by
  refine ⟨ha.synced, ha.books, fun p hp => ?_⟩
  obtain ⟨hstatus, hsub, hcopy⟩ := h.copies p hp
  exact ⟨hstatus, hsub, ha.follows.copy hcopy⟩

section

variable (hkeyed : ∀ id d, b₀.pendingDeposits.lookup id = some d → d.id = id)
include hkeyed

theorem advances_of_prepared (h : j.Sound b₀) (hfresh : payment.id ∉ j.hub.board.payments)
    (hstatus : payment.status ≠ .confirmed) (hsub : payment.submissions ≤ maxPayoutSubmissions)
    (hp : Prepared payment j.hub s') : Advances b₀ j.hub s' := by
  obtain ⟨-, account, deposit, hr, hw⟩ := hp
  refine .of_wrote h.synced hw (h.books.prepare hkeyed hfresh hstatus hsub hr) ?_
  exact .insert payment rfl fun p hp => absurd (Finmap.mem_iff.2 ⟨p, hp⟩) hfresh

theorem advances_of_confirms (h : j.Sound b₀) (hp : Confirms payment j.hub s') :
    Advances b₀ j.hub s' := by
  obtain ⟨current, hcurrent, hstatus, deposit, reputation, hr, hw⟩ := hp
  rw [← h.books.keyed _ current hcurrent] at hcurrent
  refine .of_wrote h.synced hw (h.books.confirm hkeyed hcurrent hstatus hr) ?_
  exact .write { current with status := .confirmed } rfl hcurrent ⟨_, _, _, _, rfl⟩ hstatus

theorem advances_of_resolves (h : j.Sound b₀) (hcopy : payment ∈ j.copies)
    (hp : Resolves payment j.hub s') : Advances b₀ j.hub s' := by
  obtain ⟨hstatus, -, q, hq, hsame⟩ := h.copies payment hcopy
  rcases hp with rfl | hp | ⟨next, hnext, current, hcurrent, -, hcs, -, hw⟩
  · exact h.refl
  · exact advances_of_confirms hkeyed h hp
  · -- The payment is the one the copy was made of, and it has not been confirmed since.
    have hsame' := hnext.of_current hq hsame hcurrent
    exact .of_wrote h.synced hw (h.books.save hcurrent hsame' (hcs ▸ hstatus) hnext.status
      hnext.submissions) (.write next rfl hcurrent hsame' (hcs ▸ hstatus))

/-- What one step of a run does. -/
theorem Journal.Sound.step (h : j.Sound b₀) {op : JournalOp} (hop : op.Enabled j) :
    (op.after c j).Sound b₀ ∧ Follows j.hub.board (op.after c j).hub.board := by
  cases op with
  | prepare id now purpose source recipient amount transaction chainHeight commits =>
    have hend : Ends _ _ _ (prepare chainHeight commits
        (Payment.new c id now purpose source recipient amount transaction) j.hub) :=
      triple_prepare chainHeight _ rfl
    rw [JournalOp.after]
    generalize prepare chainHeight commits _ j.hub = r at hend
    obtain ⟨s', p | e | _⟩ := r
    · obtain ⟨hp, hprep⟩ := hend
      have hid : p.id = id := by rw [hp]; rfl
      have hstatus : p.status ≠ .confirmed := by rw [hp]; nofun
      have hsub : p.submissions ≤ maxPayoutSubmissions := by
        rw [hp]
        exact Nat.le_of_ble_eq_true rfl
      -- A new payment moves what it reserves, and its copy is the payment itself.
      have ha := advances_of_prepared hkeyed h (hid ▸ hop) hstatus hsub hprep
      obtain ⟨-, account, deposit, -, hw, -⟩ := hprep
      refine ⟨⟨ha.synced, ha.books, fun q hq => ?_⟩, ha.follows⟩
      rcases List.mem_cons.1 hq with rfl | hq
      · refine ⟨hstatus, hsub, q, ?_, .refl q⟩
        change s'.board.payments.lookup q.id = _
        rw [hw]
        exact Finmap.lookup_insert _
      · exact (h.advance ha).copies q hq
    · obtain rfl : s' = j.hub := hend
      exact ⟨h, .refl _⟩
    · exact hend.elim
  | send payment commits =>
    have hend : Ends _ _ _ (send commits payment j.hub) := triple_send _ rfl
    rw [JournalOp.after]
    generalize send commits payment j.hub = r at hend
    have ha : Advances b₀ j.hub r.1 := by
      obtain ⟨s', _ | e | _⟩ := r
      · rcases hend with rfl | hend
        · exact h.refl
        · exact advances_of_confirms hkeyed h hend
      · obtain rfl : s' = j.hub := hend
        exact h.refl
      · exact hend.elim
    exact ⟨h.advance ha, ha.follows⟩
  | read =>
    refine ⟨⟨h.synced, h.books, fun p hp => ?_⟩, .refl _⟩
    rcases List.mem_append.1 hp with hp | hp
    · exact h.copies p hp
    · rw [List.mem_filter, decide_eq_true_iff] at hp
      obtain ⟨id, hid⟩ := Finmap.mem_values.1 hp.1
      have hkey := h.books.keyed id p hid
      exact ⟨hp.2, h.books.submissions id p hid, p, by rw [hkey]; exact hid, .refl p⟩
  | resolve payment now replies commits =>
    obtain ⟨hstatus, hsub, -⟩ := h.copies payment hop
    have hend : Ends _ _ _ (resolve c now replies commits payment j.hub) :=
      triple_resolve c hstatus hsub _ rfl
    rw [JournalOp.after]
    generalize resolve c now replies commits payment j.hub = r at hend
    have ha : Advances b₀ j.hub r.1 := by
      obtain ⟨s', _ | e | _⟩ := r
      · exact advances_of_resolves hkeyed h hop hend
      · obtain rfl : s' = j.hub := hend
        exact h.refl
      · exact hend.elim
    exact ⟨h.advance ha, ha.follows⟩
  | crash =>
    rw [JournalOp.after]
    refine ⟨⟨rfl, h.synced ▸ h.books, nofun⟩, ?_⟩
    rw [← h.synced]
    exact .refl _

theorem Journal.Sound.of_reachable (h : j.Sound b₀) {j' : Journal}
    (hs : (journalFrom c j).Reachable j') : j'.Sound b₀ ∧ Follows j.hub.board j'.hub.board := by
  have h₀ : ∀ i ∈ (journalFrom c j).init, i.Sound b₀ ∧ Follows j.hub.board i.hub.board := by
    rintro _ rfl
    exact ⟨h, .refl _⟩
  refine hs.invariant h₀ ?_
  rintro i op _ ⟨hi, hf⟩ - ⟨hop, rfl⟩
  obtain ⟨hi', hf'⟩ := hi.step c hkeyed hop
  exact ⟨hi', hf.trans hf'⟩

omit hkeyed in
/-- The books of an empty journal. -/
theorem sound_of_empty (hpayments : b₀.payments = ∅) : (⟨⟨b₀, b₀⟩, []⟩ : Journal).Sound b₀ := by
  have hnone : ∀ {α : Prop} id p, b₀.payments.lookup id = some p → α := by
    intro α id p hp
    rw [hpayments, Finmap.lookup_empty] at hp
    cases hp
  refine ⟨rfl, ⟨fun id p hp => hnone id p hp, fun id p hp => hnone id p hp, fun pk => ?_,
    fun pk => ?_, fun id p _ _ hp => hnone id p hp, fun id p _ hp => hnone id p hp, fun _ _ => rfl⟩,
    by simp⟩
  · rw [hpayments, Finmap.total_empty, Nat.add_zero]
  · rw [hpayments, Finmap.total_empty, Nat.add_zero]

/-- The journal is exactly-once. In every run from an empty journal:
    every account has been debited for each withdrawal of the journal once, and nothing
    has been given back;
    a reputation has been credited once for each confirmed payment of a forfeited bond,
    and a deposit has one payment at most, disburses while it is not confirmed and is
    refunded once it is;
    no payment is submitted too often, and the board is what is stored.
    As the run goes on, a payment stays, and does not change once it is confirmed. -/
theorem journal_exactly_once (hpayments : b₀.payments = ∅) (hs : (journal c b₀).Reachable j) :
    (∀ pk, (j.hub.board.exchangeAccount pk).baseBalance +
        j.hub.board.payments.total (fun _ p => p.debit pk) =
      (b₀.exchangeAccount pk).baseBalance) ∧
    (∀ pk, (j.hub.board.reputationOf pk).totalEarned = (b₀.reputationOf pk).totalEarned +
      j.hub.board.payments.total fun _ p => p.earned pk) ∧
    (∀ id p depositId, j.hub.board.payments.lookup id = some p →
      p.purpose.depositId? = some depositId →
        (∃ d, b₀.pendingDeposits.lookup depositId = some d ∧
          j.hub.board.pendingDeposits.lookup depositId = some { d with
            status := if p.status = .confirmed then .refunded else .disbursing }) ∧
        ∀ id' p', j.hub.board.payments.lookup id' = some p' →
          p'.purpose.depositId? = some depositId → id' = id) ∧
    (∀ depositId, (∀ id p, j.hub.board.payments.lookup id = some p →
        p.purpose.depositId? ≠ some depositId) →
      j.hub.board.pendingDeposits.lookup depositId = b₀.pendingDeposits.lookup depositId) ∧
    (∀ j', (journalFrom c j).Reachable j' → ∀ id p, j.hub.board.payments.lookup id = some p →
      ∃ q, j'.hub.board.payments.lookup id = some q ∧ p.SameAs q ∧
        (p.status = .confirmed → q = p)) ∧
    (∀ id p, j.hub.board.payments.lookup id = some p → p.submissions ≤ maxPayoutSubmissions) ∧
    j.hub.board = j.hub.store := by
  obtain ⟨h, -⟩ := (sound_of_empty hpayments).of_reachable c hkeyed hs
  refine ⟨h.books.base, h.books.earned, fun id p depositId hp hdep =>
    ⟨h.books.deposit id p depositId hp hdep, fun id' p' hp' hdep' => ?_⟩, h.books.untouched,
    fun j' hj' => (h.of_reachable c hkeyed hj').2, h.books.submissions, h.synced⟩
  exact h.books.unique id' p' id p hp' hp (by rw [hdep']; rfl) (hdep'.trans hdep.symm)

end

/-! A withdrawal and a forfeited bond are prepared; the process crashes, the node shows
the bond paid, and the withdrawal is still under way. -/

/-- An account of `5000`, and a bond that is consumed. -/
def sampleBoard : TaskBoard :=
  (TaskBoard.new.restoreExchangeAccount 7 ⟨5000, 0, 0, 0⟩).restorePendingDeposit
    ⟨3, 8, 30, 100, .disputeBond 1 "late", .consumed, 0, 0⟩

def sampleWithdrawal : JournalOp :=
  .prepare 20 0 (.withdrawal 1500) 1 7 500 (some ⟨[⟨101, 0⟩], [⟨500, 1, 7⟩]⟩) 10 true

def sampleDisbursement : JournalOp :=
  .prepare 21 0 (.escrow 3 true .consumed) 30 9 100 (some ⟨[⟨102, 0⟩], [⟨100, 2, 9⟩]⟩) 10 true

/-- The node shows the output of the bond at its recipient. -/
def sampleResolution : JournalOp :=
  .resolve { Payment.new pairingCrypto 21 0 (.escrow 3 true .consumed) 30 9 100
      (some ⟨[⟨102, 0⟩], [⟨100, 2, 9⟩]⟩) with scannedThrough := 6 } (Duration.seconds 60)
    { utxos := fun pubkey => some (if pubkey = 9 then [(false, ⟨100, 2, 9⟩)] else []),
      blocks := fun _ => none, blocks' := fun _ => none } true

/-- The state after some steps. -/
def sampleRun (ops : List JournalOp) : Journal :=
  ops.foldl (JournalOp.after pairingCrypto) ⟨⟨sampleBoard, sampleBoard⟩, []⟩

def sampleSettled : Journal :=
  sampleRun [sampleWithdrawal, sampleDisbursement, .crash, .read, sampleResolution]

theorem sampleSettled_reachable : (journal pairingCrypto sampleBoard).Reachable sampleSettled := by
  have h₁ : (journal pairingCrypto sampleBoard).Reachable (sampleRun [sampleWithdrawal]) :=
    .step (l := sampleWithdrawal) (.init rfl) trivial
      ⟨show 20 ∉ sampleBoard.payments by decide +kernel, rfl⟩
  have h₂ := h₁.step (l := sampleDisbursement) trivial
    ⟨show 21 ∉ (sampleRun [sampleWithdrawal]).hub.board.payments by decide +kernel, rfl⟩
  have h₃ := (h₂.step (l := JournalOp.crash) trivial ⟨trivial, rfl⟩).step (l := JournalOp.read) trivial
    ⟨trivial, rfl⟩
  refine h₃.step (l := sampleResolution) trivial ⟨?_, rfl⟩
  change _ ∈ (sampleRun [sampleWithdrawal, sampleDisbursement, .crash, .read]).copies
  decide +kernel

theorem journal_exactly_once_sample :
    (sampleSettled.hub.board.exchangeAccount 7).baseBalance = 3500 ∧
    (sampleSettled.hub.board.reputationOf 9).totalEarned = 100 ∧
    sampleSettled.hub.board = sampleSettled.hub.store := by
  have hkeyed : ∀ id d, sampleBoard.pendingDeposits.lookup id = some d → d.id = id := by
    intro id d hd
    change ((∅ : Finmap fun _ : Uuid => PendingDeposit).insert 3 _).lookup id = some d at hd
    rw [Finmap.lookup_insert_eq] at hd
    split_ifs at hd with hid
    · rw [← Option.some.inj hd, hid]
    · cases hd
  have h := journal_exactly_once pairingCrypto hkeyed rfl sampleSettled_reachable
  exact ⟨by decide +kernel, by decide +kernel, h.2.2.2.2.2.2⟩

end Itx
