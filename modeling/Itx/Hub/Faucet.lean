import Itx.Lib.System
import Itx.Hub.Challenges
import Itx.Hub.Effects

/-!
# The faucet

The faucet gives each key one grant, within a budget for the last day and a share of it for
each block of addresses (`faucet_claim`, `hub/src/handlers.rs`). A claim redeems its
challenge, and is then decided under the payout lock: the key, the budget and the share are
read, the payment is built and prepared, and the network the challenge was priced for is
recorded. The three readings and what is written may be moments apart; between two of them
the clock goes on, and anything else may happen that does not need the lock.

The claims that wait for the lock only know what they redeemed. The one that holds it knows
what it has read (`Claim.Phase`): a count of the grants since a second that is a day before
now, which no other claim can change (`Budgeted`). A grant that is made is dated no earlier,
so whatever span of a day it is in, the others of the span are among those counted.
-/

namespace Itx

open Blockchain Call

/-- `FAUCET_GRANT_AMOUNT`. -/
def faucetGrantAmount : ℕ := 50000000

/-- `FAUCET_BUDGET_WINDOW_SECONDS`. -/
def faucetBudgetWindowSeconds : ℤ := 24 * 60 * 60

/-- The settings of the faucet, and the functions of other modules it uses. -/
structure FaucetConfig where
  /-- `faucet_daily_grants`. -/
  dailyGrants : ℕ
  /-- `faucet_network_share_percent`. -/
  networkSharePercent : ℕ
  /-- The key the grants are paid from. -/
  operator : PublicKey
  /-- `rate_limit::widen_prefix`: the block of addresses a network is in. -/
  widenPrefix : Text → Option Text

/-- `faucet_grant_prefixes`: the network the grant of a key is counted against. -/
abbrev GrantPrefixes := Finmap fun _ : PublicKey => Text

namespace TaskBoard

/-- `TaskBoard::can_claim_faucet`. -/
def canClaimFaucet (s : TaskBoard) (pubkey : PublicKey) : Bool := pubkey ∉ s.faucetGrants

/-- `TaskBoard::faucet_granted_since`. -/
def faucetGrantedSince (s : TaskBoard) (cutoff : ℤ) : ℕ :=
  s.faucetGrants.total fun _ grantedAt => if cutoff ≤ grantedAt then 1 else 0

/-- `TaskBoard::faucet_granted_from_wide_prefix_since`. -/
def faucetGrantedFromWidePrefixSince (s : TaskBoard) (widenPrefix : Text → Option Text)
    (prefixes : GrantPrefixes) (wide : Text) (cutoff : ℤ) : ℕ :=
  prefixes.total fun pubkey network =>
    if widenPrefix network = some wide ∧ ∃ grantedAt ∈ s.faucetGrants.lookup pubkey, cutoff ≤ grantedAt
    then 1 else 0

end TaskBoard

/-- The second a day before now: none when it is out of the range of times. -/
def faucetCutoff (now : DateTime) : Option ℤ :=
  (addDuration now (-Duration.seconds faucetBudgetWindowSeconds)).map timestamp

namespace FaucetConfig

variable (cfg : FaucetConfig)

/-- `faucet_budget_remaining`, none when it panics. -/
def budgetRemaining (now : DateTime) (board : TaskBoard) : Option ℕ := do
  let cutoff ← faucetCutoff now
  some (cfg.dailyGrants - board.faucetGrantedSince cutoff)

/-- `faucet_budget_exhausted`. -/
def budgetExhausted (now : DateTime) (board : TaskBoard) : Option Bool := do
  let remaining ← cfg.budgetRemaining now board
  some (remaining = 0)

/-- The grants a block may take in a day. -/
def allowed : ℕ := max (saturatingMul cfg.dailyGrants cfg.networkSharePercent / 100) 1

/-- `faucet_network_share_exhausted`. -/
def networkShareExhausted (now : DateTime) (board : TaskBoard) (prefixes : GrantPrefixes)
    (network : Option Text) : Option Bool :=
  match network with
  | none => some false
  | some network =>
    if cfg.networkSharePercent ≥ 100 then some false
    else
      match cfg.widenPrefix network with
      | none => some false
      | some wide => do
        let cutoff ← faucetCutoff now
        let taken := board.faucetGrantedFromWidePrefixSince cfg.widenPrefix prefixes wide cutoff
        some (¬taken < cfg.allowed)

end FaucetConfig

/-! ## Claims -/

/-- How far the claim that holds the lock has come. -/
inductive Phase
  | acquired
  | eligible
  | budgeted
  | shared
  | built (payment : Payment)
  | prepared (payment : Payment)

/-- A claim whose challenge is redeemed. -/
structure Claim where
  pubkey : PublicKey
  network : Option Text
  deriving DecidableEq

/-- A grant, with the network it is counted against. -/
structure Grant where
  pubkey : PublicKey
  grantedAt : ℤ
  network : Option Text
  deriving DecidableEq

/-- The hub as the faucet sees it, and the grants it has made. -/
structure Faucet where
  clock : DateTime
  hub : Hub
  prefixes : GrantPrefixes
  storedPrefixes : GrantPrefixes
  /-- The claims that wait for the payout lock. -/
  waiting : List Claim
  /-- The claim that holds it. -/
  holder : Option (Claim × Phase)
  grants : List Grant

/-- What may happen to a faucet. -/
inductive FaucetOp
  /-- Time passes. -/
  | tick (now : DateTime)
  /-- A claim has redeemed its challenge. -/
  | redeemed (claim : Claim)
  /-- A waiting claim takes the lock. -/
  | acquire (claim : Claim)
  /-- The holder reads whether its key has a grant. -/
  | checkKey
  /-- The holder reads the budget. -/
  | checkBudget
  /-- The holder reads the share of its block. -/
  | checkShare
  /-- The holder builds its payment, or fails to. -/
  | build (id : Uuid) (transaction : Option Transaction)
  /-- The holder prepares its payment. -/
  | prepare (chainHeight : ℕ) (commits : Bool)
  /-- The holder records its network, and is done. -/
  | recordNetwork (commits : Bool)
  /-- The rest of the hub goes on, which makes no grants. -/
  | other (hub : Hub)
  /-- The process stops, and starts again from the store. -/
  | crash

namespace Faucet

/-- The holder goes on. -/
def hold (f : Faucet) (claim : Claim) (phase : Phase) : Faucet :=
  { f with holder := some (claim, phase) }

/-- The holder is done, or refused. -/
def release (f : Faucet) : Faucet := { f with holder := none }

/-- The holder goes on if a check, which may panic, says it is not exhausted. -/
def holdUnless (f : Faucet) (exhausted : Option Bool) (claim : Claim) (phase : Phase) : Faucet :=
  if exhausted = some false then f.hold claim phase else f.release

/-- The steps of a faucet: none if a step is not possible. -/
def after (c : Crypto) (cfg : FaucetConfig) (f : Faucet) : FaucetOp → Option Faucet
  | .tick now => if f.clock ≤ now then some { f with clock := now } else none
  | .redeemed claim => some { f with waiting := claim :: f.waiting }
  | .acquire claim =>
    match f.holder with
    | some _ => none
    | none =>
      if claim ∈ f.waiting then
        some { f with waiting := f.waiting.erase claim, holder := some (claim, .acquired) }
      else none
  | .checkKey =>
    match f.holder with
    | some (claim, .acquired) =>
      some (if f.hub.board.canClaimFaucet claim.pubkey then f.hold claim .eligible else f.release)
    | _ => none
  | .checkBudget =>
    match f.holder with
    | some (claim, .eligible) =>
      some (f.holdUnless (cfg.budgetExhausted f.clock f.hub.board) claim .budgeted)
    | _ => none
  | .checkShare =>
    match f.holder with
    | some (claim, .budgeted) =>
      some (f.holdUnless (cfg.networkShareExhausted f.clock f.hub.board f.prefixes claim.network)
        claim .shared)
    | _ => none
  | .build id transaction =>
    match f.holder with
    | some (claim, .shared) =>
      match transaction with
      | none => some f.release
      | some tx => some (f.hold claim (.built (Payment.new c id f.clock .faucet cfg.operator
          claim.pubkey faucetGrantAmount (some tx))))
    | _ => none
  | .prepare chainHeight commits =>
    match f.holder with
    | some (claim, .built payment) =>
      match Itx.prepare chainHeight commits payment f.hub with
      | (hub, .ok payment) => some { f with
          hub
          holder := some (claim, .prepared payment)
          grants := f.grants ++ [⟨payment.recipient, timestamp payment.createdAt, claim.network⟩] }
      | (hub, _) => some { f.release with hub }
    | _ => none
  | .recordNetwork commits =>
    match f.holder with
    | some (claim, .prepared payment) =>
      match claim.network with
      | none => some f.release
      | some network => some { f.release with
          prefixes := f.prefixes.insert payment.recipient network
          storedPrefixes := if commits then f.storedPrefixes.insert payment.recipient network
            else f.storedPrefixes }
    | _ => none
  | .other hub =>
    if hub.board.faucetGrants = f.hub.board.faucetGrants ∧
        hub.store.faucetGrants = f.hub.store.faucetGrants then some { f with hub }
    else none
  | .crash => some { f with
      hub := ⟨f.hub.store, f.hub.store⟩
      prefixes := f.storedPrefixes
      waiting := []
      holder := none }

end Faucet

/-- The runs of a faucet that has made no grants. -/
def faucetRuns (c : Crypto) (cfg : FaucetConfig) : System Faucet FaucetOp where
  init := {f | f.hub.board.faucetGrants = ∅ ∧ f.hub.store.faucetGrants = ∅ ∧ f.prefixes = ∅ ∧
    f.storedPrefixes = ∅ ∧ f.holder = none ∧ f.grants = []}
  step f op f' := f.after c cfg op = some f'

/-! ## Counting -/

/-- The grant is within the span of a day that begins at the second `start`. -/
def Grant.Within (start : ℤ) (g : Grant) : Prop :=
  start ≤ g.grantedAt ∧ g.grantedAt < start + faucetBudgetWindowSeconds

instance (start : ℤ) : DecidablePred (Grant.Within start) := fun _ => inferInstanceAs (Decidable (_ ∧ _))

/-- The grants of a kind in the span that begins at a second. -/
def spanCount (kind : Grant → Bool) (grants : List Grant) (start : ℤ) : ℕ :=
  grants.countP fun g => kind g && decide (g.Within start)

/-- At a time it was known that fewer than `n` grants of a kind had been made since a second
    at least a day before. -/
def Room (kind : Grant → Bool) (n : ℕ) (grants : List Grant) (t : DateTime) : Prop :=
  ∃ cutoff, cutoff + faucetBudgetWindowSeconds ≤ timestamp t ∧
    grants.countP (fun g => kind g && decide (cutoff ≤ g.grantedAt)) < n

section

variable {kind : Grant → Bool} {n : ℕ} {grants : List Grant} {g : Grant} {t t' : DateTime}

theorem timestamp_mono (h : t ≤ t') : timestamp t ≤ timestamp t' :=
  Int.ediv_le_ediv (by decide) h

theorem Room.mono (h : Room kind n grants t) (ht : t ≤ t') : Room kind n grants t' := by
  obtain ⟨cutoff, hcutoff, hcount⟩ := h
  exact ⟨cutoff, hcutoff.trans (timestamp_mono ht), hcount⟩

/-- A grant that is made where there is room leaves no more than `n` of the kind in any span:
    the others of a span it is in are among those that were counted. -/
theorem spanCount_concat_le (hwithin : ∀ start, spanCount kind grants start ≤ n)
    (hroom : kind g = true → Room kind n grants t) (hg : g.grantedAt = timestamp t) (start : ℤ) :
    spanCount kind (grants ++ [g]) start ≤ n := by
  rw [spanCount, List.countP_append, List.countP_singleton]
  split_ifs with hlast
  · rw [Bool.and_eq_true, decide_eq_true_eq] at hlast
    obtain ⟨cutoff, hcutoff, hcount⟩ := hroom hlast.1
    have hle : grants.countP (fun g => kind g && decide (g.Within start)) ≤
        grants.countP fun g => kind g && decide (cutoff ≤ g.grantedAt) := by
      refine List.countP_mono_left fun x _ hx => ?_
      rw [Bool.and_eq_true, decide_eq_true_eq] at hx ⊢
      refine ⟨hx.1, ?_⟩
      have := hlast.2.2
      have := hx.2.1
      omega
    omega
  · exact hwithin start

/-- The grants of a kind are no more than the entries of a map that has one of weight `1` for
    each of them. -/
theorem countP_le_total {β : Type} {m : Finmap fun _ : PublicKey => β} {w : PublicKey → β → ℕ}
    (hnodup : (grants.map Grant.pubkey).Nodup)
    (hw : ∀ g ∈ grants, kind g = true → m.weight w g.pubkey = 1) : grants.countP kind ≤ m.total w := by
  have hkeys : ((grants.filter kind).map Grant.pubkey).Nodup :=
    hnodup.sublist ((List.filter_sublist).map _)
  have hsum : (((grants.filter kind).map Grant.pubkey).map (m.weight w)).sum = grants.countP kind := by
    rw [List.map_map, List.countP_eq_length_filter]
    have hone : ∀ x ∈ (grants.filter kind).map (m.weight w ∘ Grant.pubkey), x = 1 := by
      intro x hx
      obtain ⟨g, hg, rfl⟩ := List.mem_map.1 hx
      obtain ⟨hmem, hkind⟩ := List.mem_filter.1 hg
      exact hw g hmem hkind
    rw [List.eq_replicate_of_mem hone]
    simp
  rw [← hsum]
  exact Finmap.sum_weight_le_total hkeys

end

theorem faucetCutoff_eq_some {now : DateTime} {cutoff : ℤ} (h : faucetCutoff now = some cutoff) :
    cutoff + faucetBudgetWindowSeconds = timestamp now := by
  obtain ⟨t, ht, rfl⟩ := Option.map_eq_some_iff.1 h
  rw [addDuration] at ht
  split_ifs at ht
  rw [← Option.some.inj ht]
  simp only [timestamp, Duration.seconds, faucetBudgetWindowSeconds]
  unfold DateTime Duration at *
  omega

/-! ## One grant for a key, and the budget -/

/-- A kind all grants are of. -/
def Grant.any (_ : Grant) : Bool := true

/-- What the claim that holds the lock has seen of the budget. -/
def Phase.Budgeted (cfg : FaucetConfig) (claim : Claim) (grants : List Grant) (clock : DateTime) :
    Phase → Prop
  | .acquired | .eligible | .prepared _ => True
  | .budgeted | .shared => Room Grant.any cfg.dailyGrants grants clock
  | .built p => p.purpose = .faucet ∧ p.recipient = claim.pubkey ∧
      Room Grant.any cfg.dailyGrants grants p.createdAt

/-- The grants are on the board and in the store, one for a key, and within the budget. -/
structure Faucet.Sound (cfg : FaucetConfig) (f : Faucet) : Prop where
  nodup : (f.grants.map Grant.pubkey).Nodup
  granted : ∀ g ∈ f.grants, f.hub.board.faucetGrants.lookup g.pubkey = some g.grantedAt
  stored : ∀ g ∈ f.grants, f.hub.store.faucetGrants.lookup g.pubkey = some g.grantedAt
  within : ∀ start, spanCount Grant.any f.grants start ≤ cfg.dailyGrants
  holder : ∀ claim phase, f.holder = some (claim, phase) → phase.Budgeted cfg claim f.grants f.clock

section

variable {c : Crypto} {cfg : FaucetConfig} {f f' : Faucet} {claim : Claim} {phase : Phase}

theorem Phase.Budgeted.later {grants : List Grant} {t t' : DateTime} (ht : t ≤ t')
    (h : phase.Budgeted cfg claim grants t) : phase.Budgeted cfg claim grants t' := by
  cases phase with
  | acquired | eligible | prepared => trivial
  | budgeted | shared => exact Room.mono h ht
  | built => exact h

/-- The rows of grants are as they were, and the holder knows what its phase says. -/
theorem Faucet.Sound.of_same (h : f.Sound cfg) (hgrants : f'.grants = f.grants)
    (hboard : f'.hub.board.faucetGrants = f.hub.board.faucetGrants)
    (hstore : f'.hub.store.faucetGrants = f.hub.store.faucetGrants)
    (hholder : ∀ claim phase, f'.holder = some (claim, phase) →
      phase.Budgeted cfg claim f.grants f'.clock) : f'.Sound cfg where
  nodup := hgrants ▸ h.nodup
  granted := by rw [hgrants, hboard]; exact h.granted
  stored := by rw [hgrants, hstore]; exact h.stored
  within := hgrants ▸ h.within
  holder := by rw [hgrants]; exact hholder

/-- Nothing is asked of the holder when there is none. -/
theorem Faucet.forall_holder {P : Claim → Phase → Prop} (h : f.holder = none) :
    ∀ claim phase, f.holder = some (claim, phase) → P claim phase := by
  intro claim phase he
  rw [h] at he
  cases he

theorem Faucet.Sound.release (h : f.Sound cfg) : f.release.Sound cfg :=
  h.of_same rfl rfl rfl (forall_holder rfl)

theorem Faucet.Sound.hold (h : f.Sound cfg) (hphase : phase.Budgeted cfg claim f.grants f.clock) :
    (f.hold claim phase).Sound cfg := by
  refine h.of_same rfl rfl rfl fun claim' phase' he => ?_
  obtain ⟨rfl, rfl⟩ := Prod.mk.inj (Option.some.inj he)
  exact hphase

theorem Faucet.Sound.holdUnless {exhausted : Option Bool} (h : f.Sound cfg)
    (hphase : exhausted = some false → phase.Budgeted cfg claim f.grants f.clock) :
    (f.holdUnless exhausted claim phase).Sound cfg := by
  rw [Faucet.holdUnless]
  split_ifs with he
  · exact h.hold (hphase he)
  · exact h.release

/-- A budget that is not exhausted has room. -/
theorem Faucet.Sound.room (h : f.Sound cfg)
    (hb : cfg.budgetExhausted f.clock f.hub.board = some false) :
    Room Grant.any cfg.dailyGrants f.grants f.clock := by
  rw [FaucetConfig.budgetExhausted, FaucetConfig.budgetRemaining] at hb
  obtain ⟨remaining, hr, hb⟩ := Option.bind_eq_some_iff.1 hb
  obtain ⟨cutoff, hcutoff, hr⟩ := Option.bind_eq_some_iff.1 hr
  have hpos : remaining ≠ 0 := by simpa using hb
  have hcount : f.grants.countP (fun g => g.any && decide (cutoff ≤ g.grantedAt)) ≤
      f.hub.board.faucetGrantedSince cutoff := by
    refine countP_le_total h.nodup fun g hg hk => ?_
    rw [Bool.and_eq_true, decide_eq_true_eq] at hk
    rw [Finmap.weight, h.granted g hg]
    exact if_pos hk.2
  refine ⟨cutoff, (faucetCutoff_eq_some hcutoff).le, ?_⟩
  have hr := Option.some.inj hr
  omega

/-- A grant that is prepared is the first of its key, and is recorded twice. -/
theorem Prepared.grants {p : Payment} {s s' : Hub} (h : Prepared p s s') (hp : p.purpose = .faucet) :
    p.recipient ∉ s.board.faucetGrants ∧
    s'.board.faucetGrants = s.board.faucetGrants.insert p.recipient (timestamp p.createdAt) ∧
    s'.store.faucetGrants = s.store.faucetGrants.insert p.recipient (timestamp p.createdAt) := by
  obtain ⟨-, account, deposit, hr, hboard, hstore⟩ := h
  refine ⟨?_, ?_, ?_⟩
  · rw [reserve, hp] at hr
    obtain ⟨_, hno, -⟩ := Outcome.bind_eq_ok.1 hr
    exact Outcome.ensure_eq_ok.1 hno
  · rw [hboard]
    simp [savePaymentEffects, hp, timestamp]
  · rw [hstore]
    simp [savePaymentEffects, hp, timestamp]

/-- The holder that prepares its payment makes a grant, or lets go of the lock. -/
theorem Faucet.prepare_cases {chainHeight : ℕ} {commits : Bool}
    (h : f.after c cfg (.prepare chainHeight commits) = some f') :
    ∃ claim payment, f.holder = some (claim, .built payment) ∧ (f' = f.release ∨
      ∃ p hub, p = { payment with scannedThrough := chainHeight - evidenceScanLookback } ∧
        Prepared p f.hub hub ∧ f' = { f with
          hub
          holder := some (claim, .prepared p)
          grants := f.grants ++ [⟨p.recipient, timestamp p.createdAt, claim.network⟩] }) := by
  rw [after] at h
  split at h
  · next claim payment hf =>
    refine ⟨claim, payment, hf, ?_⟩
    have hend : Ends _ _ _ (Itx.prepare chainHeight commits payment f.hub) :=
      triple_prepare chainHeight _ rfl
    generalize Itx.prepare chainHeight commits payment f.hub = r at h hend
    obtain ⟨hub, p | e | _⟩ := r
    · obtain ⟨hp, hprep⟩ := hend
      exact .inr ⟨p, hub, hp, hprep, (Option.some.inj h).symm⟩
    · obtain rfl : hub = f.hub := hend
      exact .inl (Option.some.inj h).symm
    · exact hend.elim
  · cases h

theorem Faucet.Sound.prepare {payment p : Payment} {hub : Hub} {chainHeight : ℕ} (h : f.Sound cfg)
    (hf : f.holder = some (claim, .built payment))
    (hp : p = { payment with scannedThrough := chainHeight - evidenceScanLookback })
    (hprep : Prepared p f.hub hub) :
    Sound cfg { f with
      hub
      holder := some (claim, .prepared p)
      grants := f.grants ++ [⟨p.recipient, timestamp p.createdAt, claim.network⟩] } := by
  obtain ⟨hpurpose, hrecipient, hroom⟩ := h.holder _ _ hf
  obtain ⟨hnew, hboard, hstore⟩ := hprep.grants (by rw [hp]; exact hpurpose)
  have hne : ∀ g ∈ f.grants, g.pubkey ≠ p.recipient := by
    intro g hg he
    rw [← Finmap.lookup_eq_none, ← he, h.granted g hg] at hnew
    cases hnew
  have hrecorded : ∀ {m : Finmap fun _ : PublicKey => ℤ},
      (∀ g ∈ f.grants, m.lookup g.pubkey = some g.grantedAt) →
      ∀ g ∈ f.grants ++ [⟨p.recipient, timestamp p.createdAt, claim.network⟩],
        (m.insert p.recipient (timestamp p.createdAt)).lookup g.pubkey = some g.grantedAt := by
    intro m hm g hg
    rcases List.mem_append.1 hg with hg | hg
    · rw [Finmap.lookup_insert_of_ne _ (hne g hg)]
      exact hm g hg
    · rw [List.mem_singleton.1 hg]
      exact Finmap.lookup_insert _
  refine ⟨?_, ?_, ?_, ?_, ?_⟩
  · rw [List.map_append, List.nodup_append]
    refine ⟨h.nodup, List.nodup_singleton _, ?_⟩
    intro k hk k' hk' he
    obtain ⟨g, hg, rfl⟩ := List.mem_map.1 hk
    exact hne g hg (he.trans (List.mem_singleton.1 hk'))
  · dsimp only
    rw [hboard]
    exact hrecorded h.granted
  · dsimp only
    rw [hstore]
    exact hrecorded h.stored
  · refine spanCount_concat_le h.within (fun _ => hroom) ?_
    rw [hp]
  · intro claim' phase he
    obtain ⟨rfl, rfl⟩ := Prod.mk.inj (Option.some.inj he)
    trivial

/-- A step keeps the grants sound. -/
theorem Faucet.Sound.step {op : FaucetOp} (h : f.Sound cfg) (hstep : f.after c cfg op = some f') :
    f'.Sound cfg := by
  cases op with
  | tick now =>
    rw [after] at hstep
    split_ifs at hstep with hnow
    cases hstep
    exact h.of_same rfl rfl rfl fun claim phase hf => (h.holder claim phase hf).later hnow
  | redeemed claim =>
    cases hstep
    exact h.of_same rfl rfl rfl h.holder
  | acquire claim =>
    rw [after] at hstep
    split at hstep
    · cases hstep
    · split_ifs at hstep
      cases hstep
      refine h.of_same rfl rfl rfl fun claim phase hf => ?_
      obtain ⟨rfl, rfl⟩ := Prod.mk.inj (Option.some.inj hf)
      trivial
  | checkKey =>
    rw [after] at hstep
    split at hstep
    · cases hstep
      split_ifs
      · exact h.hold trivial
      · exact h.release
    · cases hstep
  | checkBudget =>
    rw [after] at hstep
    split at hstep
    · cases hstep
      exact h.holdUnless h.room
    · cases hstep
  | checkShare =>
    rw [after] at hstep
    split at hstep
    · next hf =>
      have hroom := h.holder _ _ hf
      cases hstep
      exact h.holdUnless fun _ => hroom
    · cases hstep
  | build id transaction =>
    rw [after] at hstep
    split at hstep
    · next hf =>
      cases transaction with
      | none =>
        cases hstep
        exact h.release
      | some tx =>
        cases hstep
        exact h.hold ⟨rfl, rfl, h.holder _ _ hf⟩
    · cases hstep
  | prepare chainHeight commits =>
    obtain ⟨claim, payment, hf, rfl | ⟨p, hub, hp, hprep, rfl⟩⟩ := prepare_cases hstep
    · exact h.release
    · exact h.prepare hf hp hprep
  | recordNetwork commits =>
    rw [after] at hstep
    split at hstep
    · split at hstep <;> cases hstep <;> exact h.of_same rfl rfl rfl (forall_holder rfl)
    · cases hstep
  | other hub =>
    rw [after] at hstep
    split_ifs at hstep with hsame
    cases hstep
    exact h.of_same rfl hsame.1 hsame.2 h.holder
  -- What is in memory then is what was stored.
  | crash =>
    cases hstep
    exact ⟨h.nodup, h.stored, h.stored, h.within, forall_holder rfl⟩

theorem Faucet.sound_of_reachable (h : (faucetRuns c cfg).Reachable f) : f.Sound cfg := by
  refine h.invariant (fun f hf => ?_) fun _ _ _ hs _ hstep => hs.step hstep
  obtain ⟨-, -, -, -, hholder, hgrants⟩ := hf
  refine ⟨?_, ?_, ?_, ?_, ?_⟩ <;> simp [hgrants, hholder, spanCount]

end

/-! ## The share of a block -/

namespace FaucetConfig

variable (cfg : FaucetConfig)

/-- The block a network is in. -/
def block (network : Option Text) : Option Text := network.bind cfg.widenPrefix

/-- The grants counted against a block. -/
def inBlock (wide : Text) (g : Grant) : Bool := cfg.block g.network = some wide

theorem allowed_le : cfg.allowed ≤ max 1 (cfg.dailyGrants * cfg.networkSharePercent / 100) := by
  have hmul : saturatingMul cfg.dailyGrants cfg.networkSharePercent ≤
      cfg.dailyGrants * cfg.networkSharePercent := Nat.min_le_left _ _
  rw [allowed]
  omega

end FaucetConfig

/-- What the claim that holds the lock has seen of the share of its block. -/
def Phase.Shared (cfg : FaucetConfig) (claim : Claim) (grants : List Grant) (clock : DateTime) :
    Phase → Prop
  | .acquired | .eligible | .budgeted => True
  | .shared => ∀ wide, cfg.block claim.network = some wide →
      Room (cfg.inBlock wide) cfg.allowed grants clock
  | .built p => ∀ wide, cfg.block claim.network = some wide →
      Room (cfg.inBlock wide) cfg.allowed grants p.createdAt
  | .prepared p => ∀ g ∈ grants, g.pubkey = p.recipient → g.network = claim.network

/-- The grant's network is recorded, or about to be by the claim that holds the lock. -/
def Faucet.Attributes (f : Faucet) (g : Grant) : Prop :=
  f.prefixes.lookup g.pubkey = g.network ∨
    ∃ claim p, f.holder = some (claim, .prepared p) ∧ p.recipient = g.pubkey

/-- Every grant is counted against its block, and none has more than its share. -/
structure Faucet.Shares (cfg : FaucetConfig) (f : Faucet) : Prop where
  attributed : ∀ g ∈ f.grants, g.network ≠ none → f.Attributes g
  share : ∀ wide start, spanCount (cfg.inBlock wide) f.grants start ≤ cfg.allowed
  holder : ∀ claim phase, f.holder = some (claim, phase) → phase.Shared cfg claim f.grants f.clock

section

variable {c : Crypto} {cfg : FaucetConfig} {f f' : Faucet} {claim : Claim} {phase : Phase}

theorem Phase.Shared.later {grants : List Grant} {t t' : DateTime} (ht : t ≤ t')
    (h : phase.Shared cfg claim grants t) : phase.Shared cfg claim grants t' := by
  cases phase with
  | acquired | eligible | budgeted => trivial
  | shared => exact fun wide hwide => (h wide hwide).mono ht
  | built | prepared => exact h

/-- A share that is not exhausted has room. -/
theorem Faucet.Shares.room {wide : Text} (hs : f.Sound cfg) (h : f.Shares cfg)
    (hpercent : cfg.networkSharePercent < 100) (hf : f.holder = some (claim, .budgeted))
    (he : cfg.networkShareExhausted f.clock f.hub.board f.prefixes claim.network = some false)
    (hwide : cfg.block claim.network = some wide) :
    Room (cfg.inBlock wide) cfg.allowed f.grants f.clock := by
  obtain ⟨network, hnetwork, hwide⟩ := Option.bind_eq_some_iff.1 hwide
  rw [hnetwork, FaucetConfig.networkShareExhausted, if_neg hpercent.not_ge, hwide] at he
  obtain ⟨cutoff, hcutoff, htaken⟩ := Option.bind_eq_some_iff.1 he
  have htaken : f.hub.board.faucetGrantedFromWidePrefixSince cfg.widenPrefix f.prefixes wide cutoff <
      cfg.allowed := by simpa using htaken
  refine ⟨cutoff, (faucetCutoff_eq_some hcutoff).le, lt_of_le_of_lt ?_ htaken⟩
  refine countP_le_total hs.nodup fun g hg hk => ?_
  rw [Bool.and_eq_true, decide_eq_true_eq, FaucetConfig.inBlock, decide_eq_true_eq,
    FaucetConfig.block] at hk
  obtain ⟨n, hn, hwide⟩ := Option.bind_eq_some_iff.1 hk.1
  have hlookup : f.prefixes.lookup g.pubkey = some n := by
    -- No grant waits for its network to be recorded while the holder is at this point.
    rcases h.attributed g hg (by rw [hn]; nofun) with hg | ⟨_, _, hprepared, -⟩
    · rw [hg, hn]
    · rw [hf] at hprepared
      cases hprepared
  rw [Finmap.weight, hlookup]
  exact if_pos ⟨hwide, g.grantedAt, hs.granted g hg, hk.2⟩

/-- The grants and their networks are as they were, and the holder knows what its phase says. -/
theorem Faucet.Shares.of_same (h : f.Shares cfg) (hgrants : f'.grants = f.grants)
    (hprees : f'.prefixes = f.prefixes) (hf : ∀ claim p, f.holder ≠ some (claim, .prepared p))
    (hholder : ∀ claim phase, f'.holder = some (claim, phase) →
      phase.Shared cfg claim f.grants f'.clock) : f'.Shares cfg where
  attributed g hg hn := by
    rw [hgrants] at hg
    refine .inl ?_
    rw [hprees]
    rcases h.attributed g hg hn with hg | ⟨claim, p, hp, -⟩
    · exact hg
    · exact absurd hp (hf claim p)
  share := hgrants ▸ h.share
  holder := by rw [hgrants]; exact hholder

/-- The holder, and all it is about, is as it was. -/
theorem Faucet.Shares.of_later (h : f.Shares cfg) (hgrants : f'.grants = f.grants)
    (hprees : f'.prefixes = f.prefixes) (hholder : f'.holder = f.holder)
    (hclock : f.clock ≤ f'.clock) : f'.Shares cfg where
  attributed := by
    rw [hgrants]
    intro g hg hn
    rw [Attributes, hprees, hholder]
    exact h.attributed g hg hn
  share := hgrants ▸ h.share
  holder := by
    rw [hgrants, hholder]
    exact fun claim phase hf => (h.holder claim phase hf).later hclock

theorem Faucet.Shares.release (h : f.Shares cfg)
    (hf : ∀ claim p, f.holder ≠ some (claim, .prepared p)) : f.release.Shares cfg :=
  h.of_same rfl rfl hf (forall_holder rfl)

theorem Faucet.Shares.hold (h : f.Shares cfg) (hf : ∀ claim p, f.holder ≠ some (claim, .prepared p))
    (hphase : phase.Shared cfg claim f.grants f.clock) : (f.hold claim phase).Shares cfg := by
  refine h.of_same rfl rfl hf fun claim' phase' he => ?_
  obtain ⟨rfl, rfl⟩ := Prod.mk.inj (Option.some.inj he)
  exact hphase

theorem Faucet.Shares.holdUnless {exhausted : Option Bool} (h : f.Shares cfg)
    (hf : ∀ claim p, f.holder ≠ some (claim, .prepared p))
    (hphase : exhausted = some false → phase.Shared cfg claim f.grants f.clock) :
    (f.holdUnless exhausted claim phase).Shares cfg := by
  rw [Faucet.holdUnless]
  split_ifs with he
  · exact h.hold hf (hphase he)
  · exact h.release hf

theorem Faucet.Shares.prepare {payment p : Payment} {hub : Hub} {chainHeight : ℕ}
    (hs : f.Sound cfg) (h : f.Shares cfg) (hf : f.holder = some (claim, .built payment))
    (hp : p = { payment with scannedThrough := chainHeight - evidenceScanLookback })
    (hprep : Prepared p f.hub hub) :
    Shares cfg { f with
      hub
      holder := some (claim, .prepared p)
      grants := f.grants ++ [⟨p.recipient, timestamp p.createdAt, claim.network⟩] } := by
  obtain ⟨hpurpose, -, -⟩ := hs.holder _ _ hf
  obtain ⟨hnew, -, -⟩ := hprep.grants (by rw [hp]; exact hpurpose)
  refine ⟨?_, ?_, ?_⟩
  · intro g hg hn
    rcases List.mem_append.1 hg with hg | hg
    · rcases h.attributed g hg hn with hg | ⟨_, _, hprepared, -⟩
      · exact .inl hg
      · rw [hf] at hprepared
        cases hprepared
    · rw [List.mem_singleton.1 hg]
      exact .inr ⟨claim, p, rfl, rfl⟩
  · intro wide
    refine spanCount_concat_le (h.share wide) (t := payment.createdAt) (fun hkind => ?_) ?_
    · exact h.holder _ _ hf wide (of_decide_eq_true hkind)
    · rw [hp]
  · intro claim' phase he
    obtain ⟨rfl, rfl⟩ := Prod.mk.inj (Option.some.inj he)
    intro g hg hkey
    rcases List.mem_append.1 hg with hg | hg
    · rw [← Finmap.lookup_eq_none, ← hkey, hs.granted g hg] at hnew
      cases hnew
    · rw [List.mem_singleton.1 hg]

/-- The network of the grant that was just made is recorded. -/
theorem Faucet.Shares.recordNetwork {p : Payment} {prefixes storedPrefixes : GrantPrefixes}
    (h : f.Shares cfg) (hf : f.holder = some (claim, .prepared p))
    (hprees : prefixes = claim.network.elim f.prefixes (f.prefixes.insert p.recipient)) :
    Shares cfg { f.release with prefixes, storedPrefixes } := by
  refine ⟨fun g hg hn => .inl ?_, h.share, forall_holder rfl⟩
  by_cases hkey : g.pubkey = p.recipient
  · have hnetwork := h.holder _ _ hf g hg hkey
    obtain ⟨network, hnetwork'⟩ := Option.ne_none_iff_exists'.1 hn
    dsimp only
    rw [hprees, ← hnetwork, hnetwork', hkey]
    exact Finmap.lookup_insert _
  · have hlookup : prefixes.lookup g.pubkey = f.prefixes.lookup g.pubkey := by
      rw [hprees]
      cases claim.network with
      | none => rfl
      | some network => exact Finmap.lookup_insert_of_ne _ hkey
    rcases h.attributed g hg hn with hg | ⟨claim', p', hprepared, hrecipient⟩
    · exact hlookup.trans hg
    · rw [hf] at hprepared
      cases hprepared
      exact absurd hrecipient.symm hkey

/-- A step keeps the shares, unless the process stops: the networks not yet stored are lost. -/
theorem Faucet.Shares.step {op : FaucetOp} (hs : f.Sound cfg) (h : f.Shares cfg)
    (hpercent : cfg.networkSharePercent < 100) (hop : op ≠ .crash)
    (hstep : f.after c cfg op = some f') : f'.Shares cfg := by
  cases op with
  | tick now =>
    rw [after] at hstep
    split_ifs at hstep with hnow
    cases hstep
    exact h.of_later rfl rfl rfl hnow
  | redeemed claim =>
    cases hstep
    exact h.of_later rfl rfl rfl le_rfl
  | acquire claim =>
    rw [after] at hstep
    split at hstep
    · cases hstep
    · next hf =>
      split_ifs at hstep
      cases hstep
      refine h.of_same rfl rfl (fun _ _ he => ?_) fun claim phase he => ?_
      · rw [hf] at he
        cases he
      · obtain ⟨rfl, rfl⟩ := Prod.mk.inj (Option.some.inj he)
        trivial
  | checkKey =>
    rw [after] at hstep
    split at hstep
    · next hf =>
      have hfree : ∀ claim p, f.holder ≠ some (claim, .prepared p) := by simp [hf]
      cases hstep
      split_ifs
      · exact h.hold hfree trivial
      · exact h.release hfree
    · cases hstep
  | checkBudget =>
    rw [after] at hstep
    split at hstep
    · next hf =>
      cases hstep
      exact h.holdUnless (by simp [hf]) fun _ => trivial
    · cases hstep
  | checkShare =>
    rw [after] at hstep
    split at hstep
    · next hf =>
      cases hstep
      -- The check of the share is what leaves room in it for this grant.
      exact h.holdUnless (by simp [hf]) fun he wide hwide => h.room hs hpercent hf he hwide
    · cases hstep
  | build id transaction =>
    rw [after] at hstep
    split at hstep
    · next hf =>
      have hfree : ∀ claim p, f.holder ≠ some (claim, .prepared p) := by simp [hf]
      have hroom := h.holder _ _ hf
      cases transaction with
      | none =>
        cases hstep
        exact h.release hfree
      | some tx =>
        cases hstep
        exact h.hold hfree hroom
    · cases hstep
  | prepare chainHeight commits =>
    obtain ⟨claim, payment, hf, rfl | ⟨p, hub, hp, hprep, rfl⟩⟩ := prepare_cases hstep
    · exact h.release (by simp [hf])
    · exact h.prepare hs hf hp hprep
  | recordNetwork commits =>
    rw [after] at hstep
    split at hstep
    · next claim p hf =>
      split at hstep
      · next hn =>
        cases hstep
        exact h.recordNetwork hf (by rw [hn]; rfl)
      · next network hn =>
        cases hstep
        exact h.recordNetwork hf (by rw [hn]; rfl)
    · cases hstep
  | other hub =>
    rw [after] at hstep
    split_ifs at hstep with hsame
    cases hstep
    exact h.of_later rfl rfl rfl le_rfl
  | crash => exact absurd rfl hop

/-- No step is a crash. -/
def Faucet.Stays (_ : Faucet) (op : FaucetOp) : Prop := op ≠ .crash

theorem Faucet.shares_of_reachable (hpercent : cfg.networkSharePercent < 100)
    (h : (faucetRuns c cfg).ReachableBy Faucet.Stays f) : f.Shares cfg := by
  refine h.invariant_of (fun f hf => sound_of_reachable hf.reachable) (fun f hf => ?_)
    fun _ _ _ hs h hop hstep => h.step hs hpercent hop hstep
  obtain ⟨-, -, -, -, hholder, hgrants⟩ := hf
  refine ⟨?_, ?_, ?_⟩ <;> simp [hgrants, hholder, spanCount]

/-- However the claims interleave, no span of a day has more grants than the budget, and no
    key has two of them, restarts or not. Without a restart, and with a share below `100`, no
    span has more grants of one block than its share. -/
theorem faucet_within_budget (c : Crypto) (cfg : FaucetConfig) :
    (∀ f, (faucetRuns c cfg).Reachable f →
      (∀ start, spanCount Grant.any f.grants start ≤ cfg.dailyGrants) ∧
      (f.grants.map Grant.pubkey).Nodup) ∧
    (cfg.networkSharePercent < 100 → ∀ f, (faucetRuns c cfg).ReachableBy Faucet.Stays f →
      ∀ wide start, spanCount (cfg.inBlock wide) f.grants start ≤
        max 1 (cfg.dailyGrants * cfg.networkSharePercent / 100)) := by
  refine ⟨fun f hf => ?_, fun hpercent f hf wide start => ?_⟩
  · have hs := Faucet.sound_of_reachable hf
    exact ⟨hs.within, hs.nodup⟩
  · have h := Faucet.shares_of_reachable hpercent hf
    exact (h.share wide start).trans cfg.allowed_le

end

/-! Two claims of one block redeem their challenges. The budget is `4`, of which a block may
take a quarter: the first has a grant, the second is refused. -/

/-- The networks of the sample are all in one block. -/
def sampleFaucetConfig : FaucetConfig := ⟨4, 25, 1, fun _ => some [119]⟩

/-- The hub before any claim. -/
def sampleFaucet : Faucet :=
  ⟨Duration.seconds 200000, ⟨TaskBoard.new, TaskBoard.new⟩, ∅, ∅, [], none, []⟩

/-- The two claims, one after the other. -/
def sampleClaims : List FaucetOp :=
  [.redeemed ⟨7, some [97]⟩, .redeemed ⟨8, some [98]⟩, .acquire ⟨7, some [97]⟩, .checkKey,
    .checkBudget, .checkShare, .build 20 (some ⟨[⟨101, 0⟩], [⟨faucetGrantAmount, 1, 7⟩]⟩),
    .prepare 10 true, .recordNetwork true, .acquire ⟨8, some [98]⟩, .checkKey, .checkBudget,
    .checkShare]

/-- The bounds at the end of the two claims, of which the first has its grant. -/
theorem faucet_within_budget_claims :
    ∃ f, (faucetRuns pairingCrypto sampleFaucetConfig).ReachableBy Faucet.Stays f ∧
      f.grants.map Grant.pubkey = [7] ∧ f.holder.isNone ∧
      (∀ start, spanCount Grant.any f.grants start ≤ 4) ∧
      ∀ start, spanCount (sampleFaucetConfig.inBlock [119]) f.grants start ≤ 1 := by
  have hinit : (faucetRuns pairingCrypto sampleFaucetConfig).ReachableBy Faucet.Stays sampleFaucet :=
    .init ⟨rfl, rfl, rfl, rfl, rfl, rfl⟩
  have hend : (sampleClaims.foldlM (Faucet.after pairingCrypto sampleFaucetConfig) sampleFaucet).map
      (fun f => (f.grants.map Grant.pubkey, f.holder.isNone)) = some ([7], true) := by decide +kernel
  obtain ⟨f, hf, hgrants⟩ := Option.map_eq_some_iff.1 hend
  obtain ⟨hkeys, hholder⟩ := Prod.mk.inj hgrants
  have hstays : ∀ op ∈ sampleClaims, op ≠ .crash := by simp [sampleClaims]
  have hr := hinit.foldlM (fun op hop _ _ hstep => ⟨hstays op hop, hstep⟩) hf
  obtain ⟨hall, hshare⟩ := faucet_within_budget pairingCrypto sampleFaucetConfig
  exact ⟨f, hr, hkeys, hholder, (hall f hr.reachable).1, hshare (by decide) f hr [119]⟩

end Itx
