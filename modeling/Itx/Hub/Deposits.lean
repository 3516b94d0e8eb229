import Itx.Hub.Escrow
import Itx.Hub.Journal
import Itx.Hub.TaskRuns

/-!
# A deposit takes one effect

A run over the escrow deposits: they are reserved, confirmed for what they are for, and
disbursed by a payment of the journal, in any order, while other methods move the tasks
on. What a confirmation materialises is recorded as it returns (`Deposits.effects`), and
the board is shown to hold exactly that (`Shown`): the tasks that name a deposit as their
escrow, the disputes that name one as their bond, the credits of the exchange.

The invariant (`Counted`) counts the effects of a deposit by its status and by its
payment: none while it is reserved, one once it is consumed, and, once a payment
disburses it, as many as when the payment was prepared.

A confirmation that panics half-way would consume its deposit for nothing. None does to
the board that is run: what its callers see to keeps the join deadline a time
(`EscrowPurpose.Joinable`, `OnClock`), and a credit is worked out on a staged copy.
-/

namespace Itx

open Call TaskBoard

/-- What a confirmation materialises. -/
inductive EscrowEffect
  | task (taskId : Uuid)
  | dispute (taskId : Uuid)
  | credit (owner : PublicKey) (amount : ℕ)
  deriving DecidableEq

/-- What an effect adds to the balance of a key. -/
def EscrowEffect.credited (effect : EscrowEffect) (pk : PublicKey) : ℕ :=
  match effect with
  | .credit owner amount => if owner = pk then amount else 0
  | _ => 0

/-- The moves of the status of a deposit. -/
def EscrowStatus.Moves : EscrowStatus → EscrowStatus → Prop
  | .reserved, .consumed => True
  | .reserved, .disbursing => True
  | .consumed, .disbursing => True
  | .disbursing, .refunded => True
  | _, _ => False

/-- A purpose whose join window a handler let through (`validate_positive_minutes`). -/
def EscrowPurpose.Joinable : EscrowPurpose → Prop
  | .fundConsensusTask intent => 0 < intent.joinWindowMinutes ∧
      intent.joinWindowMinutes ≤ maxConsensusWindowMinutes
  | _ => True

/-- The deposits of a board were reserved with valid join windows. -/
def TaskBoard.DepositsJoinable (b : TaskBoard) : Prop :=
  ∀ id d, b.pendingDeposits.lookup id = some d → d.purpose.Joinable

/-! ## Runs -/

/-- The state of a run: the board, and what has been materialised, with the deposits it
    was materialised for. -/
structure Deposits where
  board : TaskBoard
  effects : List (Uuid × EscrowEffect)

/-- What a deposit has materialised. -/
def effectsOf (effects : List (Uuid × EscrowEffect)) (id : Uuid) : List (Uuid × EscrowEffect) :=
  effects.filter fun e => e.1 = id

/-- The steps of a run. The store a payment is committed to and whether it commits are
    part of them. -/
inductive DepositOp
  | reserveEscrow (derive : Uuid → PublicKey) (id : Uuid) (createdAt : DateTime)
      (depositor : PublicKey) (requiredAmount : ℕ) (purpose : EscrowPurpose) (expiresAt : DateTime)
  | confirmEscrow (id : Uuid) (observedAmount : ℕ) (now : DateTime) (taskId : Uuid)
      (createdAt : DateTime)
  | confirmDisputeBond (id : Uuid) (observedAmount : ℕ) (now : DateTime)
  | confirmExchangeDeposit (id : Uuid) (observedAmount networkFee : ℕ) (now : DateTime)
  | prepare (chainHeight : ℕ) (commits : Bool) (payment : Payment) (store : TaskBoard)
  | confirm (commits : Bool) (payment : Payment) (store : TaskBoard)
  /-- Another method creates a task, or moves one on. -/
  | moveTask (task : Task)

namespace DepositOp

/-- The state after a step. -/
def after (s : Deposits) : DepositOp → Deposits
  | .reserveEscrow derive id createdAt depositor requiredAmount purpose expiresAt =>
    { s with board := (TaskBoard.reserveEscrow derive id createdAt depositor requiredAmount purpose
        expiresAt s.board).1 }
  | .confirmEscrow id observedAmount now taskId createdAt =>
    match TaskBoard.confirmEscrow id observedAmount now taskId createdAt s.board with
    | (board, .ok task) => ⟨board, (id, .task task.id) :: s.effects⟩
    | (board, _) => ⟨board, s.effects⟩
  | .confirmDisputeBond id observedAmount now =>
    match TaskBoard.confirmDisputeBond id observedAmount now s.board with
    | (board, .ok task) => ⟨board, (id, .dispute task.id) :: s.effects⟩
    | (board, _) => ⟨board, s.effects⟩
  | .confirmExchangeDeposit id observedAmount networkFee now =>
    -- The handler calls it on a staged copy, and takes over what it returns.
    match TaskBoard.confirmExchangeDeposit id observedAmount networkFee now s.board with
    | (board, .ok r) => ⟨board, (id, .credit r.1 r.2) :: s.effects⟩
    | _ => s
  | .prepare chainHeight commits payment store =>
    { s with board := (Itx.prepare chainHeight commits payment ⟨s.board, store⟩).1.board }
  | .confirm commits payment store =>
    { s with board := (Itx.confirm commits payment ⟨s.board, store⟩).1.board }
  | .moveTask task => { s with board := s.board.restoreTask task }

/-- What the callers see to: the ids that are drawn are fresh, windows valid and the clock in
    range, the payments that are prepared disburse deposits, and no other method changes which
    deposits a task names. -/
def Enabled (s : Deposits) : DepositOp → Prop
  | .reserveEscrow _ id _ _ _ purpose _ => id ∉ s.board.pendingDeposits ∧ purpose.Joinable
  | .confirmEscrow _ _ now taskId _ => taskId ∉ s.board.tasks ∧ OnClock now
  | .prepare _ _ payment _ => payment.id ∉ s.board.payments ∧ payment.status = .pending ∧
      payment.purpose.depositId?.isSome
  | .moveTask task => (s.board.tasks.lookup task.id).bind Task.escrowId = task.escrowId ∧
      (s.board.tasks.lookup task.id).bind Task.bondId? = task.bondId?
  | _ => True

end DepositOp

/-- A board before any deposit. -/
structure TaskBoard.Undeposited (b : TaskBoard) : Prop where
  deposits : b.pendingDeposits = ∅
  payments : ∀ id p, b.payments.lookup id = some p → p.id = id ∧ p.purpose.depositId? = none
  tasks : ∀ id t, b.tasks.lookup id = some t → t.id = id ∧ t.escrowId = none ∧ t.bondId? = none

/-- The runs over the deposits from a state. -/
def depositsFrom (s : Deposits) : System Deposits DepositOp where
  init := {s}
  step s op s' := op.Enabled s ∧ s' = op.after s

/-- The runs over the deposits, from a board before any. -/
def deposits (b₀ : TaskBoard) : System Deposits DepositOp := depositsFrom ⟨b₀, []⟩

/-! ## Counting -/

/-- The effects of the deposits are counted by their status and by their payments. -/
structure Counted (b : TaskBoard) (effects : List (Uuid × EscrowEffect)) : Prop where
  keyed : ∀ id d, b.pendingDeposits.lookup id = some d → d.id = id
  payments : ∀ id p, b.payments.lookup id = some p → p.id = id
  unreserved : ∀ id, id ∉ b.pendingDeposits → effectsOf effects id = []
  unpaid : ∀ id d, b.pendingDeposits.lookup id = some d →
    (∀ pid p, b.payments.lookup pid = some p → p.purpose.depositId? ≠ some id) →
    (d.status = .reserved ∧ effectsOf effects id = []) ∨
      (d.status = .consumed ∧ (effectsOf effects id).length = 1)
  paid : ∀ pid p id forfeited previous, b.payments.lookup pid = some p →
    p.purpose = .escrow id forfeited previous →
    (∃ d, b.pendingDeposits.lookup id = some d ∧ d.status = p.depositStatus) ∧
      ((previous = .reserved ∧ effectsOf effects id = []) ∨
        (previous = .consumed ∧ (effectsOf effects id).length = 1))
  unique : ∀ pid p pid' p', b.payments.lookup pid = some p → b.payments.lookup pid' = some p' →
    p.purpose.depositId?.isSome → p.purpose.depositId? = p'.purpose.depositId? → pid = pid'

/-- An effect more of this deposit. -/
theorem effectsOf_cons_self (effects : List (Uuid × EscrowEffect)) (id : Uuid) (e : EscrowEffect) :
    effectsOf ((id, e) :: effects) id = (id, e) :: effectsOf effects id :=
  List.filter_cons_of_pos (decide_eq_true rfl)

/-- An effect of another deposit does not count. -/
theorem effectsOf_cons_of_ne (effects : List (Uuid × EscrowEffect)) {id id' : Uuid} (e : EscrowEffect)
    (hne : id' ≠ id) : effectsOf ((id, e) :: effects) id' = effectsOf effects id' :=
  List.filter_cons_of_neg (by simpa using hne.symm)

/-- Only a payment out of escrow names a deposit. -/
theorem Purpose.depositId?_eq_some {purpose : Purpose} {id : Uuid} :
    purpose.depositId? = some id ↔ ∃ forfeited previous, purpose = .escrow id forfeited previous := by
  cases purpose <;> simp [Purpose.depositId?]

/-- The deposit of a payment is refunded, or being disbursed. -/
theorem Payment.depositStatus_cases (p : Payment) :
    p.depositStatus = .refunded ∨ p.depositStatus = .disbursing := by
  rw [Payment.depositStatus]
  split_ifs
  exacts [.inl rfl, .inr rfl]

/-- What the escrow branch of `prepare` wants of the deposit it reserves. -/
theorem reserve_escrow {payment : Payment} {board : TaskBoard} {account : Option ExchangeAccount}
    {deposit : Option PendingDeposit} (h : reserve payment board = .ok (account, deposit))
    {id : Uuid} {forfeited : Bool} {previous : EscrowStatus}
    (hp : payment.purpose = .escrow id forfeited previous) :
    (∀ pid p, board.payments.lookup pid = some p → p.purpose.depositId? ≠ some id) ∧
      ∃ d, board.pendingDeposits.lookup id = some d ∧ d.status = previous ∧
        (previous = .reserved ∨ previous = .consumed) ∧ deposit = some { d with status := .disbursing } := by
  rw [reserve, hp] at h
  obtain ⟨_, hno, h⟩ := Outcome.bind_eq_ok.1 h
  obtain ⟨d, hd, h⟩ := Outcome.bind_eq_ok.1 h
  obtain ⟨_, hprev, h⟩ := Outcome.bind_eq_ok.1 h
  obtain ⟨_, hstatus, h⟩ := Outcome.bind_eq_ok.1 h
  obtain ⟨-, rfl⟩ := Prod.mk.inj (Outcome.ok.inj h)
  rw [Outcome.ensure_eq_ok] at hno hprev hstatus
  refine ⟨fun pid p hp => hno p (Finmap.mem_values.2 ⟨pid, hp⟩), d, Outcome.okOr_eq_ok.1 hd, hprev,
    ?_, rfl⟩
  rw [← hprev]
  cases hs : d.status with
  | disbursing => exact absurd hs hstatus.2
  | refunded => exact absurd hs hstatus.1
  | reserved => exact .inl rfl
  | consumed => exact .inr rfl

namespace Counted

variable {b b' : TaskBoard} {effects : List (Uuid × EscrowEffect)} {id : Uuid} {d : PendingDeposit}
  {payment current : Payment} {deposit : Option PendingDeposit}

/-- A deposit that is not being disbursed has no payment. -/
theorem no_payment (h : Counted b effects) (hd : b.pendingDeposits.lookup id = some d)
    (hstatus : d.status = .reserved ∨ d.status = .consumed) (pid : Uuid) (p : Payment)
    (hp : b.payments.lookup pid = some p) : p.purpose.depositId? ≠ some id := by
  intro hid
  obtain ⟨forfeited, previous, hpurpose⟩ := Purpose.depositId?_eq_some.1 hid
  obtain ⟨⟨d', hd', hpaid⟩, -⟩ := h.paid pid p id forfeited previous hp hpurpose
  obtain rfl := Option.some.inj (hd.symm.trans hd')
  rcases p.depositStatus_cases with hp' | hp' <;> rw [hpaid, hp'] at hstatus <;> simp at hstatus

/-- What the count depends on. -/
theorem congr (h : Counted b effects) (hdeposits : b'.pendingDeposits = b.pendingDeposits)
    (hpayments : b'.payments = b.payments) : Counted b' effects := by
  obtain ⟨h₁, h₂, h₃, h₄, h₅, h₆⟩ := h
  exact ⟨hdeposits ▸ h₁, hpayments ▸ h₂, hdeposits ▸ h₃, hdeposits ▸ hpayments ▸ h₄,
    hdeposits ▸ hpayments ▸ h₅, hpayments ▸ h₆⟩

/-- A new reservation has no effect yet. -/
theorem reserve (h : Counted b effects) (hfresh : d.id ∉ b.pendingDeposits)
    (hreserved : d.status = .reserved) : Counted (b.restorePendingDeposit d) effects := by
  have hlookup : ∀ x, (b.restorePendingDeposit d).pendingDeposits.lookup x =
      if x = d.id then some d else b.pendingDeposits.lookup x := fun x =>
    Finmap.lookup_insert_eq _ _ _ _
  refine ⟨fun x d' hd' => ?_, h.payments, fun x hx => ?_, fun x d' hd' hunpaid => ?_,
    fun pid p x forfeited previous hp hpurpose => ?_, h.unique⟩
  · rw [hlookup] at hd'
    split_ifs at hd' with hx
    · rw [← Option.some.inj hd', hx]
    · exact h.keyed x d' hd'
  · exact h.unreserved x fun hmem => hx (Finmap.mem_insert.2 (.inr hmem))
  · rw [hlookup] at hd'
    split_ifs at hd' with hx
    · obtain rfl := Option.some.inj hd'
      exact .inl ⟨hreserved, h.unreserved x (hx ▸ hfresh)⟩
    · exact h.unpaid x d' hd' hunpaid
  · obtain ⟨⟨d', hd', hstatus⟩, hcount⟩ := h.paid pid p x forfeited previous hp hpurpose
    refine ⟨⟨d', ?_, hstatus⟩, hcount⟩
    rw [hlookup, if_neg, hd']
    rintro rfl
    exact hfresh (Finmap.mem_iff.2 ⟨d', hd'⟩)

/-- A deposit is consumed with one effect. -/
theorem consume (h : Counted b effects) (hd : b.pendingDeposits.lookup id = some d)
    (hreserved : d.status = .reserved) (e : EscrowEffect)
    (hdeposits : b'.pendingDeposits = b.pendingDeposits.insert id { d with status := .consumed })
    (hpayments : b'.payments = b.payments) : Counted b' ((id, e) :: effects) := by
  have hnone := h.no_payment hd (.inl hreserved)
  have hlookup : ∀ x, b'.pendingDeposits.lookup x =
      if x = id then some { d with status := .consumed } else b.pendingDeposits.lookup x := fun x => by
    rw [hdeposits, Finmap.lookup_insert_eq]
  refine ⟨fun x d' hd' => ?_, hpayments ▸ h.payments, fun x hx => ?_, fun x d' hd' hunpaid => ?_,
    fun pid p x forfeited previous hp hpurpose => ?_, hpayments ▸ h.unique⟩
  · rw [hlookup] at hd'
    split_ifs at hd' with hx
    · rw [← Option.some.inj hd', hx]
      exact h.keyed id d hd
    · exact h.keyed x d' hd'
  · rw [hdeposits, Finmap.mem_insert, not_or] at hx
    rw [effectsOf_cons_of_ne _ _ hx.1]
    exact h.unreserved x hx.2
  · rw [hlookup] at hd'
    split_ifs at hd' with hx
    · -- The only effect of the deposit is the new one.
      subst hx
      obtain rfl := Option.some.inj hd'
      rcases h.unpaid x d hd hnone with ⟨-, hempty⟩ | ⟨hconsumed, -⟩
      · exact .inr ⟨rfl, by rw [effectsOf_cons_self, hempty]; rfl⟩
      · rw [hreserved] at hconsumed
        cases hconsumed
    · rw [effectsOf_cons_of_ne _ _ hx]
      rw [hpayments] at hunpaid
      exact h.unpaid x d' hd' hunpaid
  · rw [hpayments] at hp
    have hx : x ≠ id := by
      rintro rfl
      exact hnone pid p hp (Purpose.depositId?_eq_some.2 ⟨forfeited, previous, hpurpose⟩)
    rw [hlookup, if_neg hx, effectsOf_cons_of_ne _ _ hx]
    exact h.paid pid p x forfeited previous hp hpurpose

/-- Writing a payment, and the deposit it is of with the status it calls for. -/
theorem write {id : Uuid} {forfeited : Bool} {previous : EscrowStatus} (payment : Payment)
    (h : Counted b effects)
    (hpurpose : payment.purpose = .escrow id forfeited previous)
    (hd : b.pendingDeposits.lookup id = some d)
    (hcount : (previous = .reserved ∧ effectsOf effects id = []) ∨
      (previous = .consumed ∧ (effectsOf effects id).length = 1))
    (hsame : ∀ p, b.payments.lookup payment.id = some p → p.purpose = payment.purpose)
    (halone : ∀ pid p, b.payments.lookup pid = some p → p.purpose.depositId? = some id →
      pid = payment.id)
    (hdeposits : b'.pendingDeposits =
      b.pendingDeposits.insert d.id { d with status := payment.depositStatus })
    (hpayments : b'.payments = b.payments.insert payment.id payment) : Counted b' effects := by
  have hkey := h.keyed id d hd
  have hlookup : ∀ x, b'.pendingDeposits.lookup x =
      if x = id then some { d with status := payment.depositStatus }
      else b.pendingDeposits.lookup x := fun x => by
    rw [hdeposits, Finmap.lookup_insert_eq, hkey]
  have hpay : ∀ x, b'.payments.lookup x =
      if x = payment.id then some payment else b.payments.lookup x := fun x => by
    rw [hpayments, Finmap.lookup_insert_eq]
  have hid : payment.purpose.depositId? = some id := Purpose.depositId?_eq_some.2 ⟨_, _, hpurpose⟩
  refine ⟨fun x d' hd' => ?_, fun x p hp => ?_, fun x hx => ?_, fun x d' hd' hunpaid => ?_,
    fun pid p x forfeited' previous' hp hpurpose' => ?_, fun pid p pid' p' hp hp' hsome heq => ?_⟩
  · rw [hlookup] at hd'
    split_ifs at hd' with hx
    · rw [← Option.some.inj hd', hx]
      exact hkey
    · exact h.keyed x d' hd'
  · rw [hpay] at hp
    split_ifs at hp with hx
    · rw [← Option.some.inj hp, hx]
    · exact h.payments x p hp
  · rw [hdeposits, Finmap.mem_insert, not_or] at hx
    exact h.unreserved x hx.2
  · have hx : x ≠ id := by
      rintro rfl
      exact hunpaid payment.id payment (by rw [hpay, if_pos rfl]) hid
    rw [hlookup, if_neg hx] at hd'
    -- A payment of another deposit that was there is there still.
    refine h.unpaid x d' hd' fun pid p hp hp' => ?_
    by_cases hpid : pid = payment.id
    · rw [hsame p (hpid ▸ hp), hid] at hp'
      exact hx (Option.some.inj hp').symm
    · exact hunpaid pid p (by rw [hpay, if_neg hpid, hp]) hp'
  · rw [hpay] at hp
    split_ifs at hp with hpid
    · obtain rfl := Option.some.inj hp
      obtain ⟨rfl, rfl, rfl⟩ := Purpose.escrow.inj (hpurpose.symm.trans hpurpose')
      exact ⟨⟨_, by rw [hlookup, if_pos rfl], rfl⟩, hcount⟩
    · have hx : x ≠ id := by
        rintro rfl
        exact hpid (halone pid p hp (Purpose.depositId?_eq_some.2 ⟨_, _, hpurpose'⟩))
      rw [hlookup, if_neg hx]
      exact h.paid pid p x forfeited' previous' hp hpurpose'
  · rw [hpay] at hp hp'
    split_ifs at hp hp' with hpid hpid' hpid'
    · exact hpid.trans hpid'.symm
    · obtain rfl := Option.some.inj hp
      exact hpid.trans (halone pid' p' hp' (heq.symm.trans hid)).symm
    · obtain rfl := Option.some.inj hp'
      exact (halone pid p hp (heq.trans hid)).trans hpid'.symm
    · exact h.unique pid p pid' p' hp hp' hsome heq

/-- A payment of no deposit is written. -/
theorem write_other (payment : Payment) (h : Counted b effects)
    (hother : payment.purpose.depositId? = none)
    (hsame : ∀ p, b.payments.lookup payment.id = some p → p.purpose = payment.purpose)
    (hdeposits : b'.pendingDeposits = b.pendingDeposits)
    (hpayments : b'.payments = b.payments.insert payment.id payment) : Counted b' effects := by
  have hpay : ∀ x, b'.payments.lookup x =
      if x = payment.id then some payment else b.payments.lookup x := fun x => by
    rw [hpayments, Finmap.lookup_insert_eq]
  refine ⟨hdeposits ▸ h.keyed, fun x p hp => ?_, hdeposits ▸ h.unreserved, fun x d' hd' hunpaid => ?_,
    fun pid p x forfeited previous hp hpurpose => ?_, fun pid p pid' p' hp hp' hsome heq => ?_⟩
  · rw [hpay] at hp
    split_ifs at hp with hx
    · rw [← Option.some.inj hp, hx]
    · exact h.payments x p hp
  · rw [hdeposits] at hd'
    refine h.unpaid x d' hd' fun pid p hp hp' => ?_
    by_cases hpid : pid = payment.id
    · rw [hsame p (hpid ▸ hp), hother] at hp'
      cases hp'
    · exact hunpaid pid p (by rw [hpay, if_neg hpid, hp]) hp'
  · rw [hpay] at hp
    split_ifs at hp with hpid
    · obtain rfl := Option.some.inj hp
      rw [hpurpose] at hother
      cases hother
    · rw [hdeposits]
      exact h.paid pid p x forfeited previous hp hpurpose
  · rw [hpay] at hp hp'
    split_ifs at hp hp' with hpid hpid' hpid'
    · exact hpid.trans hpid'.symm
    · obtain rfl := Option.some.inj hp
      rw [hother] at hsome
      cases hsome
    · obtain rfl := Option.some.inj hp'
      rw [heq, hother] at hsome
      cases hsome
    · exact h.unique pid p pid' p' hp hp' hsome heq

/-- A payment that is prepared sets its deposit apart, and is no effect. -/
theorem prepare (h : Counted b effects) (hfresh : payment.id ∉ b.payments)
    (hpending : payment.status = .pending) (hescrow : payment.purpose.depositId?.isSome)
    {account : Option ExchangeAccount} (hr : Itx.reserve payment b = .ok (account, deposit))
    {accounts : Option (PublicKey × ExchangeAccount)} {faucet : Bool} :
    Counted (savePaymentEffects payment accounts deposit none faucet b) effects := by
  obtain ⟨id, hid⟩ := Option.isSome_iff_exists.1 hescrow
  obtain ⟨forfeited, previous, hpurpose⟩ := Purpose.depositId?_eq_some.1 hid
  obtain ⟨hnone, d, hd, hprev, hstatus, rfl⟩ := reserve_escrow hr hpurpose
  have hcount := h.unpaid id d hd hnone
  rw [hprev] at hcount
  refine h.write payment hpurpose hd hcount (fun p hp => ?_) (fun pid p hp hp' => ?_) ?_ rfl
  · exact absurd (Finmap.mem_iff.2 ⟨p, hp⟩) hfresh
  · exact absurd hp' (hnone pid p hp)
  · rw [Payment.depositStatus, hpending]
    rfl

/-- A payment that is confirmed refunds its deposit, and is no effect. -/
theorem confirm (h : Counted b effects) (hcurrent : b.payments.lookup current.id = some current)
    {reputation : Option Reputation}
    (hr : confirmEffects { current with status := .confirmed } b = .ok (deposit, reputation))
    {reputations : Option (PublicKey × Reputation)} :
    Counted (savePaymentEffects { current with status := .confirmed } none deposit reputations false b)
      effects := by
  have hsame : ∀ p, b.payments.lookup current.id = some p → p.purpose = current.purpose := fun p hp => by
    rw [Option.some.inj (hp.symm.trans hcurrent)]
  rcases confirmEffects_cases hr with ⟨hother, rfl, -⟩ | ⟨id, forfeited, previous, d, hpurpose, hd, rfl, -⟩
  · exact h.write_other { current with status := .confirmed } hother hsame rfl rfl
  · obtain ⟨-, hcount⟩ := h.paid current.id current id forfeited previous hcurrent hpurpose
    refine h.write { current with status := .confirmed } hpurpose hd hcount hsame
      (fun pid p hp hp' => ?_) rfl rfl
    have hid := Purpose.depositId?_eq_some.2 ⟨forfeited, previous, hpurpose⟩
    exact h.unique pid p current.id current hp hcurrent (by rw [hp']; rfl) (hp'.trans hid.symm)

end Counted

/-! ## What the board shows -/

/-- The effects are those the board shows: the tasks that name a deposit, the disputes
    that name one, and the balances. -/
structure Shown (b₀ b : TaskBoard) (effects : List (Uuid × EscrowEffect)) : Prop where
  keyed : ∀ id t, b.tasks.lookup id = some t → t.id = id
  escrow : ∀ taskId id, (b.tasks.lookup taskId).bind Task.escrowId = some id ↔
    (id, EscrowEffect.task taskId) ∈ effects
  bond : ∀ taskId id, (b.tasks.lookup taskId).bind Task.bondId? = some id ↔
    (id, EscrowEffect.dispute taskId) ∈ effects
  base : ∀ pk, (b.exchangeAccount pk).baseBalance =
    (b₀.exchangeAccount pk).baseBalance + (effects.map fun e => e.2.credited pk).sum

namespace Shown

variable {b₀ b b' : TaskBoard} {effects effects' : List (Uuid × EscrowEffect)} {id taskId : Uuid}
  {task : Task}

/-- What the board shows depends on the tasks and on the accounts. -/
theorem congr (h : Shown b₀ b effects) (htasks : b'.tasks = b.tasks)
    (haccounts : b'.exchangeAccounts = b.exchangeAccounts) : Shown b₀ b' effects := by
  refine ⟨htasks ▸ h.keyed, htasks ▸ h.escrow, htasks ▸ h.bond, fun pk => ?_⟩
  rw [TaskBoard.exchangeAccount, haccounts]
  exact h.base pk

/-- A task is written, with the effects that concern it. -/
theorem write (h : Shown b₀ b effects) (hid : task.id = taskId)
    (htasks : b'.tasks = b.tasks.insert taskId task)
    (haccounts : b'.exchangeAccounts = b.exchangeAccounts)
    (hescrow : ∀ id, task.escrowId = some id ↔ (id, EscrowEffect.task taskId) ∈ effects')
    (hbond : ∀ id, task.bondId? = some id ↔ (id, EscrowEffect.dispute taskId) ∈ effects')
    (hother : ∀ x id, x ≠ taskId →
      ((id, EscrowEffect.task x) ∈ effects' ↔ (id, EscrowEffect.task x) ∈ effects) ∧
      ((id, EscrowEffect.dispute x) ∈ effects' ↔ (id, EscrowEffect.dispute x) ∈ effects))
    (hcredits : ∀ pk, (effects'.map fun e => e.2.credited pk).sum =
      (effects.map fun e => e.2.credited pk).sum) : Shown b₀ b' effects' := by
  have hlookup : ∀ x, b'.tasks.lookup x = if x = taskId then some task else b.tasks.lookup x :=
    fun x => by rw [htasks, Finmap.lookup_insert_eq]
  refine ⟨fun x t ht => ?_, fun x id => ?_, fun x id => ?_, fun pk => ?_⟩
  · rw [hlookup] at ht
    split_ifs at ht with hx
    · rw [← Option.some.inj ht, hx, hid]
    · exact h.keyed x t ht
  · rw [hlookup]
    split_ifs with hx
    · rw [hx]
      exact hescrow id
    · rw [(hother x id hx).1]
      exact h.escrow x id
  · rw [hlookup]
    split_ifs with hx
    · rw [hx]
      exact hbond id
    · rw [(hother x id hx).2]
      exact h.bond x id
  · rw [TaskBoard.exchangeAccount, haccounts, hcredits]
    exact h.base pk

/-- A new task names the deposit that funds it. -/
theorem fund (h : Shown b₀ b effects) (hfresh : taskId ∉ b.tasks) (hid : task.id = taskId)
    (hescrow : task.escrowId = some id) (hbond : task.bondId? = none)
    (htasks : b'.tasks = b.tasks.insert taskId task)
    (haccounts : b'.exchangeAccounts = b.exchangeAccounts) :
    Shown b₀ b' ((id, .task taskId) :: effects) := by
  have hnone : b.tasks.lookup taskId = none := Finmap.lookup_eq_none.2 hfresh
  refine h.write hid htasks haccounts (fun id' => ?_) (fun id' => ?_) (fun x id' hx => ?_)
    fun pk => ?_
  · have hold := h.escrow taskId id'
    rw [hnone] at hold
    simp only [Option.bind_none, reduceCtorEq, false_iff] at hold
    rw [hescrow, List.mem_cons, or_iff_left hold]
    simp [eq_comm]
  · have hold := h.bond taskId id'
    rw [hnone] at hold
    simp only [Option.bind_none, reduceCtorEq, false_iff] at hold
    simp [hbond, hold]
  · simp [hx]
  · simp [EscrowEffect.credited]

/-- A task in dispute names the deposit that is its bond. -/
theorem dispute {old : Task} (h : Shown b₀ b effects) (hold : b.tasks.lookup taskId = some old)
    (hid : task.id = old.id) (hescrow : task.escrowId = old.escrowId) (hfree : old.bondId? = none)
    (hbond : task.bondId? = some id) (htasks : b'.tasks = b.tasks.insert taskId task)
    (haccounts : b'.exchangeAccounts = b.exchangeAccounts) :
    Shown b₀ b' ((id, .dispute task.id) :: effects) := by
  rw [hid, h.keyed taskId old hold]
  refine h.write (hid.trans (h.keyed taskId old hold)) htasks haccounts (fun id' => ?_)
    (fun id' => ?_) (fun x id' hx => ?_) fun pk => ?_
  · have := h.escrow taskId id'
    rw [hold, Option.bind_some] at this
    rw [hescrow, this]
    simp
  · have hnew := h.bond taskId id'
    rw [hold, Option.bind_some, hfree] at hnew
    simp only [reduceCtorEq, false_iff] at hnew
    rw [hbond, List.mem_cons, or_iff_left hnew]
    simp [eq_comm]
  · simp [hx]
  · simp [EscrowEffect.credited]

/-- A balance grows by what is credited. -/
theorem credit {owner : PublicKey} {amount : ℕ} (h : Shown b₀ b effects)
    (htasks : b'.tasks = b.tasks)
    (hbase : ∀ pk, (b'.exchangeAccount pk).baseBalance =
      (b.exchangeAccount pk).baseBalance + if owner = pk then amount else 0) :
    Shown b₀ b' ((id, .credit owner amount) :: effects) := by
  refine ⟨htasks ▸ h.keyed, fun x id' => ?_, fun x id' => ?_, fun pk => ?_⟩
  · rw [htasks, h.escrow]
    simp
  · rw [htasks, h.bond]
    simp
  · rw [hbase, h.base, List.map_cons, List.sum_cons, add_assoc, add_comm (List.sum _)]
    rfl

end Shown

/-! ## What a step does -/

/-- The deposits stay, each with its status where it was or moved. -/
def Moved (b b' : TaskBoard) : Prop :=
  ∀ id d, b.pendingDeposits.lookup id = some d →
    ∃ status, b'.pendingDeposits.lookup id = some { d with status } ∧
      (status = d.status ∨ d.status.Moves status)

/-- Deposits that are the same have not moved. -/
theorem Moved.of_eq {b b' : TaskBoard} (h : b'.pendingDeposits = b.pendingDeposits) : Moved b b' :=
  fun _ d hd => ⟨d.status, h ▸ hd, .inl rfl⟩

/-- One deposit moved, as its status allows, and no other. -/
theorem Moved.insert {b b' : TaskBoard} {id : Uuid} {d : PendingDeposit} {status : EscrowStatus}
    (hd : b.pendingDeposits.lookup id = some d) (hmoves : d.status.Moves status)
    (h : b'.pendingDeposits = b.pendingDeposits.insert id { d with status }) : Moved b b' := by
  intro x d' hd'
  rw [h, Finmap.lookup_insert_eq]
  split_ifs with hx
  · subst hx
    obtain rfl := Option.some.inj (hd.symm.trans hd')
    exact ⟨status, rfl, .inr hmoves⟩
  · exact ⟨d'.status, hd', .inl rfl⟩

namespace TaskBoard.DepositsJoinable

variable {b b' : TaskBoard} {id : Uuid} {d : PendingDeposit} {status : EscrowStatus}

/-- A board with a deposit of a joinable purpose more is joinable. -/
theorem restore (h : b.DepositsJoinable) (hd : d.purpose.Joinable) :
    (b.restorePendingDeposit d).DepositsJoinable := by
  intro x d' hd'
  rw [restorePendingDeposit, Finmap.lookup_insert_eq] at hd'
  split_ifs at hd'
  · rw [← Option.some.inj hd']
    exact hd
  · exact h x d' hd'

/-- A deposit changes its status only. -/
theorem restate (h : b.DepositsJoinable) (hd : b.pendingDeposits.lookup id = some d)
    (hdeposits : b'.pendingDeposits = b.pendingDeposits.insert id { d with status }) :
    b'.DepositsJoinable := by
  intro x d' hd'
  rw [hdeposits, Finmap.lookup_insert_eq] at hd'
  split_ifs at hd'
  · rw [← Option.some.inj hd']
    exact h id d hd
  · exact h x d' hd'

end TaskBoard.DepositsJoinable

/-- The state of a run, and what led to it from another. -/
structure Deposits.Proceeds (b₀ : TaskBoard) (s s' : Deposits) : Prop where
  counted : Counted s'.board s'.effects
  joinable : s'.board.DepositsJoinable
  shown : Shown b₀ s'.board s'.effects
  moved : Moved s.board s'.board
  follows : Follows s.board s'.board

section

variable {b₀ : TaskBoard} {s : Deposits} (hc : Counted s.board s.effects)
  (hj : s.board.DepositsJoinable) (hs : Shown b₀ s.board s.effects)
include hc hj hs

omit hs in
/-- A deposit is consumed for what it materialises. -/
theorem proceeds_consume {id : Uuid} {d : PendingDeposit} {observedAmount : ℕ} {now : DateTime}
    {b : TaskBoard} {e : EscrowEffect} (hd : s.board.pendingDeposits.lookup id = some d)
    (hconf : d.Confirmable observedAmount now)
    (hdeposits : b.pendingDeposits = (s.board.consume id d).pendingDeposits)
    (hpayments : b.payments = s.board.payments) (hshown : Shown b₀ b ((id, e) :: s.effects)) :
    Deposits.Proceeds b₀ s ⟨b, (id, e) :: s.effects⟩ where
  counted := hc.consume hd hconf.reserved e hdeposits hpayments
  joinable := hj.restate hd hdeposits
  shown := hshown
  moved := .insert hd (by rw [hconf.reserved]; trivial) hdeposits
  follows := by
    intro pid p hp
    exact ⟨p, by rw [hpayments]; exact hp, .refl p, fun _ => rfl⟩

/-- A run that does nothing proceeds. -/
theorem proceeds_refl : Deposits.Proceeds b₀ s s := ⟨hc, hj, hs, .of_eq rfl, .refl _⟩

/-- Confirming an escrow has an effect at most for a deposit that had none. -/
theorem proceeds_confirmEscrow {id taskId : Uuid} {observedAmount : ℕ} {now createdAt : DateTime}
    (hfresh : taskId ∉ s.board.tasks) (hnow : OnClock now) :
    Deposits.Proceeds b₀ s (DepositOp.after s (.confirmEscrow id observedAmount now taskId createdAt)) := by
  have hend : Ends _ _ _ (TaskBoard.confirmEscrow id observedAmount now taskId createdAt s.board) :=
    TaskBoard.triple_confirmEscrow _ rfl
  rw [DepositOp.after]
  generalize TaskBoard.confirmEscrow id observedAmount now taskId createdAt s.board = r at hend
  obtain ⟨b, task | error | _⟩ := r
  · obtain ⟨d, created, hd, hconf, hcreated, htask, rfl⟩ := hend
    refine proceeds_consume hc hj hd hconf rfl rfl ?_
    have hid : task.id = taskId := by
      rw [htask]
      exact hcreated.id_eq
    rw [hid]
    refine hs.fund hfresh hid ?_ ?_ rfl rfl
    · rw [htask]
    · rw [htask]
      exact hcreated.bondId?_eq
  · obtain rfl : b = s.board := hend
    exact proceeds_refl hc hj hs
  · -- The join deadline of a valid window is a time.
    obtain ⟨d, intent, hd, hintent, -, hnone, -⟩ := hend
    have hjoinable := hj id d hd
    rw [hintent] at hjoinable
    exact absurd hnone (hnow.addMinutes_ne_none hjoinable.1 hjoinable.2)

/-- Confirming a bond has an effect at most for a deposit that had none. -/
theorem proceeds_confirmDisputeBond {id : Uuid} {observedAmount : ℕ} {now : DateTime} :
    Deposits.Proceeds b₀ s (DepositOp.after s (.confirmDisputeBond id observedAmount now)) := by
  have hend : Ends _ _ _ (TaskBoard.confirmDisputeBond id observedAmount now s.board) :=
    TaskBoard.triple_confirmDisputeBond _ rfl
  rw [DepositOp.after]
  generalize TaskBoard.confirmDisputeBond id observedAmount now s.board = r at hend
  obtain ⟨b, task | error | _⟩ := r
  · obtain ⟨d, taskId, old, kind, dispute, hd, hconf, hold, hkind, -, hfree, hbond, rfl, rfl⟩ := hend
    refine proceeds_consume hc hj hd hconf rfl rfl (hs.dispute hold rfl rfl ?_ ?_ rfl rfl)
    · rw [Task.bondId?, hkind]
      exact congrArg (Option.map _) hfree
    · rw [Task.bondId?, ← hbond]
      rfl
  · obtain rfl : b = s.board := hend
    exact proceeds_refl hc hj hs
  · obtain rfl : b = s.board := hend
    exact proceeds_refl hc hj hs

/-- Confirming an exchange deposit has an effect at most for a deposit that had none. -/
theorem proceeds_confirmExchangeDeposit {id : Uuid} {observedAmount networkFee : ℕ} {now : DateTime} :
    Deposits.Proceeds b₀ s
      (DepositOp.after s (.confirmExchangeDeposit id observedAmount networkFee now)) := by
  have hend : Ends _ _ _
      (TaskBoard.confirmExchangeDeposit id observedAmount networkFee now s.board) :=
    TaskBoard.triple_confirmDeposit _ rfl
  rw [DepositOp.after]
  generalize TaskBoard.confirmExchangeDeposit id observedAmount networkFee now s.board = r at hend
  obtain ⟨b, credit | error | _⟩ := r
  · obtain ⟨d, hd, hconf, rfl, rfl⟩ := hend
    refine proceeds_consume hc hj hd hconf rfl rfl (hs.credit rfl fun pk => ?_)
    rw [TaskBoard.exchangeAccount, TaskBoard.restoreExchangeAccount, Finmap.lookup_insert_eq]
    split_ifs with hpk hpk' hpk'
    · rw [hpk]
      rfl
    · exact absurd hpk.symm hpk'
    · exact absurd hpk'.symm hpk
    · rfl
  · exact proceeds_refl hc hj hs
  · exact proceeds_refl hc hj hs

/-- Preparing a payment sets at most its deposit apart. -/
theorem proceeds_prepare {chainHeight : ℕ} {commits : Bool} {payment : Payment} {store : TaskBoard}
    (hop : DepositOp.Enabled s (.prepare chainHeight commits payment store)) :
    Deposits.Proceeds b₀ s (DepositOp.after s (.prepare chainHeight commits payment store)) := by
  obtain ⟨hfresh, hpending, hescrow⟩ := hop
  have hend : Ends _ _ _ (prepare chainHeight commits payment ⟨s.board, store⟩) :=
    triple_prepare chainHeight _ rfl
  rw [DepositOp.after]
  generalize prepare chainHeight commits payment ⟨s.board, store⟩ = r at hend
  obtain ⟨s', p | error | _⟩ := r
  · obtain ⟨hp, -, account, deposit, hr, hboard, -⟩ := hend
    rw [hboard]
    -- The payment that is prepared is the one that was given, but for where its scan starts.
    replace hfresh : p.id ∉ s.board.payments := by
      rw [hp]
      exact hfresh
    replace hpending : p.status = .pending := by
      rw [hp]
      exact hpending
    replace hescrow : p.purpose.depositId?.isSome := by
      rw [hp]
      exact hescrow
    obtain ⟨id, hid⟩ := Option.isSome_iff_exists.1 hescrow
    obtain ⟨forfeited, previous, hpurpose⟩ := Purpose.depositId?_eq_some.1 hid
    obtain ⟨-, d, hd, hprev, hstatus, rfl⟩ := reserve_escrow hr hpurpose
    have haccount : account = none := by
      rcases reserve_cases hr with ⟨-, h, -⟩ | ⟨_, _, h, -⟩ | ⟨_, _, _, _, -, -, -, h, -⟩
      · exact h
      · exact absurd (hpurpose.symm.trans h) nofun
      · exact h
    subst haccount
    have hkey := congrArg (s.board.pendingDeposits.insert · { d with status := .disbursing })
      (hc.keyed id d hd)
    refine ⟨hc.prepare hfresh hpending hescrow hr, hj.restate hd hkey, hs.congr rfl rfl, ?_,
      .insert _ rfl ?_⟩
    · refine .insert hd ?_ hkey
      rw [hprev]
      rcases hstatus with rfl | rfl <;> trivial
    · exact fun p hp => absurd (Finmap.mem_iff.2 ⟨p, hp⟩) hfresh
  · obtain rfl : s' = ⟨s.board, store⟩ := hend
    exact proceeds_refl hc hj hs
  · exact hend.elim

/-- Confirming a payment refunds at most the deposit that was set apart for it. -/
theorem proceeds_confirm {commits : Bool} {payment : Payment} {store : TaskBoard} :
    Deposits.Proceeds b₀ s (DepositOp.after s (.confirm commits payment store)) := by
  have hend : Ends _ _ _ (confirm commits payment ⟨s.board, store⟩) := triple_confirm _ rfl
  rw [DepositOp.after]
  generalize confirm commits payment ⟨s.board, store⟩ = r at hend
  obtain ⟨s', _ | error | _⟩ := r
  · rcases hend with rfl | ⟨current, hcurrent, hstatus, deposit, reputation, hr, hboard, -⟩
    · exact proceeds_refl hc hj hs
    rw [← hc.payments _ current hcurrent] at hcurrent
    rw [hboard]
    refine ⟨hc.confirm hcurrent hr, ?_, hs.congr rfl rfl, ?_, .insert _ rfl fun p hp => ?_⟩
    · rcases confirmEffects_cases hr with ⟨-, rfl, -⟩ | ⟨id, _, _, d, -, hd, rfl, -⟩
      · exact hj
      · exact hj.restate hd (congrArg (s.board.pendingDeposits.insert · _) (hc.keyed id d hd))
    · rcases confirmEffects_cases hr with ⟨-, rfl, -⟩ | ⟨id, _, _, d, hpurpose, hd, rfl, -⟩
      · exact .of_eq rfl
      · refine .insert hd ?_ (congrArg (s.board.pendingDeposits.insert · _) (hc.keyed id d hd))
        -- The deposit of an unconfirmed payment is being disbursed.
        obtain ⟨⟨d', hd', hpaid⟩, -⟩ := hc.paid _ current _ _ _ hcurrent hpurpose
        obtain rfl := Option.some.inj (hd.symm.trans hd')
        rw [hpaid, Payment.depositStatus, if_neg hstatus]
        trivial
    · obtain rfl := Option.some.inj (hp.symm.trans hcurrent)
      exact ⟨⟨_, _, _, _, rfl⟩, hstatus⟩
  · obtain rfl : s' = ⟨s.board, store⟩ := hend
    exact proceeds_refl hc hj hs
  · exact hend.elim

/-- What one step does. -/
theorem proceeds_step {op : DepositOp} (hop : op.Enabled s) :
    Deposits.Proceeds b₀ s (op.after s) := by
  cases op with
  | reserveEscrow derive id createdAt depositor requiredAmount purpose expiresAt =>
    refine ⟨hc.reserve hop.1 rfl, hj.restore hop.2, hs.congr rfl rfl,
      fun x d hd => ⟨d.status, ?_, .inl rfl⟩, .refl _⟩
    refine (Finmap.lookup_insert_of_ne _ ?_).trans hd
    rintro rfl
    exact hop.1 (Finmap.mem_iff.2 ⟨d, hd⟩)
  | confirmEscrow id observedAmount now taskId createdAt =>
    exact proceeds_confirmEscrow hc hj hs hop.1 hop.2
  | confirmDisputeBond id observedAmount now => exact proceeds_confirmDisputeBond hc hj hs
  | confirmExchangeDeposit id observedAmount networkFee now =>
    exact proceeds_confirmExchangeDeposit hc hj hs
  | prepare chainHeight commits payment store => exact proceeds_prepare hc hj hs hop
  | confirm commits payment store => exact proceeds_confirm hc hj hs
  | moveTask task =>
    refine ⟨hc.congr rfl rfl, hj, ?_, .of_eq rfl, .refl _⟩
    refine hs.write rfl rfl rfl (fun id => ?_) (fun id => ?_) (fun x id _ => ⟨.rfl, .rfl⟩) fun _ => rfl
    · rw [← hop.1]
      exact hs.escrow task.id id
    · rw [← hop.2]
      exact hs.bond task.id id

end

/-! ## Whole runs -/

variable {b₀ : TaskBoard} {s s' : Deposits}

/-- Without deposits there is nothing to count. -/
theorem counted_of_undeposited (h : b₀.Undeposited) : Counted b₀ [] where
  keyed id d hd := by
    rw [h.deposits, Finmap.lookup_empty] at hd
    cases hd
  payments id p hp := (h.payments id p hp).1
  unreserved _ _ := rfl
  unpaid id d hd := by
    rw [h.deposits, Finmap.lookup_empty] at hd
    cases hd
  paid pid p id forfeited previous hp hpurpose := by
    have hnone := (h.payments pid p hp).2
    rw [hpurpose] at hnone
    cases hnone
  unique pid p pid' p' hp _ hsome := by
    rw [(h.payments pid p hp).2] at hsome
    cases hsome

/-- Without deposits there is nothing to show. -/
theorem shown_of_undeposited (h : b₀.Undeposited) : Shown b₀ b₀ [] := by
  have hnone : ∀ {f : Task → Option Uuid} taskId id, (∀ x t, b₀.tasks.lookup x = some t → f t = none) →
      ((b₀.tasks.lookup taskId).bind f = some id ↔ False) := by
    intro f taskId id hf
    rw [iff_false]
    intro hsome
    obtain ⟨t, ht, hid⟩ := Option.bind_eq_some_iff.1 hsome
    rw [hf taskId t ht] at hid
    cases hid
  refine ⟨fun id t ht => (h.tasks id t ht).1, fun taskId id => ?_, fun taskId id => ?_, fun pk => rfl⟩
  · rw [hnone taskId id fun x t ht => (h.tasks x t ht).2.1]
    simp
  · rw [hnone taskId id fun x t ht => (h.tasks x t ht).2.2]
    simp

/-- Without deposits none is to be joined. -/
theorem joinable_of_undeposited (h : b₀.Undeposited) : b₀.DepositsJoinable := by
  intro id d hd
  rw [h.deposits, Finmap.lookup_empty] at hd
  cases hd

/-- The invariant holds throughout a run, and the payments stay. -/
theorem invariant_of_reachable (hc : Counted s.board s.effects) (hj : s.board.DepositsJoinable)
    (hs : Shown b₀ s.board s.effects) (hr : (depositsFrom s).Reachable s') :
    Counted s'.board s'.effects ∧ s'.board.DepositsJoinable ∧ Shown b₀ s'.board s'.effects ∧
      Follows s.board s'.board := by
  refine hr.invariant (I := fun t => Counted t.board t.effects ∧ t.board.DepositsJoinable ∧
    Shown b₀ t.board t.effects ∧ Follows s.board t.board) ?_ ?_
  · rintro _ rfl
    exact ⟨hc, hj, hs, .refl _⟩
  · rintro t op _ ⟨hc, hj, hs, hf⟩ - ⟨hop, rfl⟩
    have hp := proceeds_step hc hj hs hop
    exact ⟨hp.counted, hp.joinable, hp.shown, hf.trans hp.follows⟩

/-- A deposit has one effect at most. -/
theorem Counted.length_le {b : TaskBoard} {effects : List (Uuid × EscrowEffect)}
    (h : Counted b effects) (id : Uuid) : (effectsOf effects id).length ≤ 1 := by
  by_cases hid : id ∈ b.pendingDeposits
  · obtain ⟨d, hd⟩ := Finmap.mem_iff.1 hid
    by_cases hpaid : ∀ pid p, b.payments.lookup pid = some p → p.purpose.depositId? ≠ some id
    · rcases h.unpaid id d hd hpaid with ⟨-, hcount⟩ | ⟨-, hcount⟩
      · rw [hcount]
        exact Nat.zero_le _
      · exact hcount.le
    · push Not at hpaid
      obtain ⟨pid, p, hp, hdeposit⟩ := hpaid
      obtain ⟨forfeited, previous, hpurpose⟩ := Purpose.depositId?_eq_some.1 hdeposit
      rcases (h.paid pid p id forfeited previous hp hpurpose).2 with ⟨-, hcount⟩ | ⟨-, hcount⟩
      · rw [hcount]
        exact Nat.zero_le _
      · exact hcount.le
  · rw [h.unreserved id hid]
    exact Nat.zero_le _

/-- A deposit takes one effect, in every run:
    its status only moves on;
    it has one effect at most, and one when it is consumed, and the effects are what the
    board shows;
    it has one payment at most, and when that was prepared while it was reserved, it has
    no effect, then or later.
    A confirmation that returns an error leaves the board as it was. -/
theorem deposit_one_effect (h₀ : b₀.Undeposited)
    (hr : (deposits b₀).Reachable s) :
    (∀ op, DepositOp.Enabled s op → Moved s.board (op.after s).board) ∧
    (∀ id, (effectsOf s.effects id).length ≤ 1) ∧
    (∀ id d, s.board.pendingDeposits.lookup id = some d → d.status = .consumed →
      (effectsOf s.effects id).length = 1) ∧
    Shown b₀ s.board s.effects ∧
    (∀ pid p pid' p' id, s.board.payments.lookup pid = some p →
      s.board.payments.lookup pid' = some p' → p.purpose.depositId? = some id →
      p'.purpose.depositId? = some id → pid = pid') ∧
    (∀ pid p id forfeited, s.board.payments.lookup pid = some p →
      p.purpose = .escrow id forfeited .reserved →
      ∀ s', (depositsFrom s).Reachable s' → effectsOf s'.effects id = []) ∧
    ∀ id observedAmount networkFee now taskId createdAt b e,
      (TaskBoard.confirmEscrow id observedAmount now taskId createdAt s.board = (b, .err e) →
        b = s.board) ∧
      (TaskBoard.confirmDisputeBond id observedAmount now s.board = (b, .err e) → b = s.board) ∧
      (TaskBoard.confirmExchangeDeposit id observedAmount networkFee now s.board = (b, .err e) →
        b = s.board) := by
  obtain ⟨hc, hj, hs, -⟩ := invariant_of_reachable (counted_of_undeposited h₀)
    (joinable_of_undeposited h₀) (shown_of_undeposited h₀) hr
  refine ⟨fun op hop => (proceeds_step hc hj hs hop).moved, hc.length_le,
    fun id d hd hconsumed => ?_, hs, fun pid p pid' p' id hp hp' hid hid' => ?_,
    fun pid p id forfeited hp hpurpose s' hr' => ?_, ?_⟩
  · rcases hc.unpaid id d hd (hc.no_payment hd (.inr hconsumed)) with ⟨hreserved, -⟩ | ⟨-, hcount⟩
    · rw [hconsumed] at hreserved
      cases hreserved
    · exact hcount
  · exact hc.unique pid p pid' p' hp hp' (by rw [hid]; rfl) (hid.trans hid'.symm)
  · -- The payment is still there, and says so of the effects at any later time.
    obtain ⟨hc', -, -, hf⟩ := invariant_of_reachable hc hj hs hr'
    obtain ⟨q, hq, ⟨_, _, _, _, rfl⟩, -⟩ := hf pid p hp
    rcases (hc'.paid pid _ id forfeited .reserved hq hpurpose).2 with ⟨-, hcount⟩ | ⟨hne, -⟩
    · exact hcount
    · cases hne
  · intro id observedAmount networkFee now taskId createdAt b e
    exact ⟨TaskBoard.triple_confirmEscrow.err rfl, TaskBoard.triple_confirmDisputeBond.err rfl,
      TaskBoard.triple_confirmDeposit.err rfl⟩

/-! A task awaits a dispute. One bond is confirmed, another is refunded while it is
reserved. -/

/-- An open-ended task whose answer may be disputed. -/
def sampleTask : Task :=
  { TaskBoard.newTask 5 0 6 "" 1000 (.disputable ⟨some "42", 60, some 100, none, [], none, none⟩) with
    status := .awaitingDispute }

def sampleTasks : TaskBoard := TaskBoard.new.restoreTask sampleTask

def sampleBond (id : Uuid) : DepositOp :=
  .reserveEscrow (fun id => id) id 0 8 500 (.disputeBond 5 "wrong") 100

/-- The refund of the second bond, which has not been paid. -/
def sampleRefund : Payment :=
  Payment.new pairingCrypto 20 0 (.escrow 2 false .reserved) 2 8 0 none

def sampleDeposits (ops : List DepositOp) : Deposits := ops.foldl DepositOp.after ⟨sampleTasks, []⟩

def sampleDisputed : Deposits :=
  sampleDeposits [sampleBond 1, .confirmDisputeBond 1 500 50, sampleBond 2,
    .prepare 0 true sampleRefund sampleTasks, .confirm true sampleRefund sampleTasks]

/-- A step from a reachable state that its conditions allow. -/
theorem deposits_after (op : DepositOp) (hr : (deposits b₀).Reachable s) (hop : op.Enabled s) :
    (deposits b₀).Reachable (op.after s) :=
  .step hr trivial ⟨hop, rfl⟩

theorem sampleDisputed_reachable : (deposits sampleTasks).Reachable sampleDisputed := by
  have h₁ : (deposits sampleTasks).Reachable (sampleDeposits [sampleBond 1]) :=
    deposits_after (sampleBond 1) (.init rfl)
      ⟨show 1 ∉ sampleTasks.pendingDeposits by decide +kernel, trivial⟩
  have h₂ := deposits_after (.confirmDisputeBond 1 500 50) h₁ trivial
  have h₃ := deposits_after (sampleBond 2) h₂
    ⟨show 2 ∉ (DepositOp.after _ _).board.pendingDeposits by decide +kernel, trivial⟩
  have h₄ := deposits_after (.prepare 0 true sampleRefund sampleTasks) h₃
    ⟨show 20 ∉ (DepositOp.after _ _).board.payments by decide +kernel, rfl, rfl⟩
  exact deposits_after (.confirm true sampleRefund sampleTasks) h₄ trivial

theorem sampleTasks_undeposited : sampleTasks.Undeposited where
  deposits := rfl
  payments id p hp := by
    rw [show sampleTasks.payments = ∅ from rfl, Finmap.lookup_empty] at hp
    cases hp
  tasks id t ht := by
    change ((∅ : Finmap fun _ : Uuid => Task).insert 5 sampleTask).lookup id = some t at ht
    rw [Finmap.lookup_insert_eq] at ht
    split_ifs at ht with hid
    · obtain rfl := Option.some.inj ht
      exact ⟨hid.symm, rfl, rfl⟩
    · cases ht

theorem deposit_one_effect_sample :
    (sampleDisputed.board.pendingDeposits.lookup 1).map PendingDeposit.status = some .consumed ∧
    (effectsOf sampleDisputed.effects 1).length = 1 ∧
    (sampleDisputed.board.pendingDeposits.lookup 2).map PendingDeposit.status = some .refunded ∧
    effectsOf sampleDisputed.effects 2 = [] := by
  obtain ⟨-, -, hone, -, -, hnone, -⟩ :=
    deposit_one_effect sampleTasks_undeposited sampleDisputed_reachable
  obtain ⟨d, hd, hstatus⟩ : ∃ d, sampleDisputed.board.pendingDeposits.lookup 1 = some d ∧
      d.status = .consumed := Option.map_eq_some_iff.1 (by decide +kernel)
  obtain ⟨p, hp, hpurpose⟩ : ∃ p, sampleDisputed.board.payments.lookup 20 = some p ∧
      p.purpose = .escrow 2 false .reserved := Option.map_eq_some_iff.1 (by decide +kernel)
  exact ⟨by decide +kernel, hone 1 d hd hstatus, by decide +kernel,
    hnone 20 p 2 false hp hpurpose _ (.init rfl)⟩

end Itx
