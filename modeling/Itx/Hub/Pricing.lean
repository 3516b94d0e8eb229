import Itx.Hub.Faucet

/-!
# The price of a grant

The work a challenge asks for grows with the grants its network has taken in the last day
(`expected_hashes_for_prefix`, `hub/src/faucet_pow.rs`). A request for a challenge
(`faucet_challenge`, `hub/src/handlers.rs`) is checked, reads the count and is issued a challenge
with the target for it. A claim is checked, redeems its challenge, and goes on as the claims of
`Itx.Hub.Faucet` do. Its grant is counted once its network is recorded. A claim that could not be
paid has spent its challenge, and gets another with the same target.

The target of a challenge is the one it was issued with, however many grants are recorded before
it is redeemed. So the price of a grant is that for the grants recorded when its challenge was
priced (`faucet_priced`). They are not all the grants before it: two keys of a network may both
ask before either claims (`faucet_price_overtaken`).
-/

namespace Itx

open Blockchain Call

/-! ## The curve -/

/-- `target_for_expected_hashes`. -/
def targetForExpectedHashes (expected : ℕ) : U256 := (2 ^ 256 - 1) / max expected 1

/-- `MAX_PREFIX_DOUBLINGS`. -/
def maxPrefixDoublings : ℕ := 20

/-- `expected_hashes_for_prefix`. -/
def expectedHashesForPrefix (base taken free step : ℕ) : ℕ :=
  if taken < free then base
  else saturatingMul base (2 ^ min (1 + (taken - free) / max step 1) maxPrefixDoublings)

/-- The settings of the faucet and of its curve. -/
structure PricingConfig extends FaucetConfig where
  /-- `faucet_expected_hashes`. -/
  expectedHashes : ℕ
  expectedHashes_lt : expectedHashes < u64Bound
  /-- `faucet_free_grants_per_prefix`. -/
  freeGrantsPerPrefix : ℕ
  /-- `faucet_pow_doubling_grants`. -/
  powDoublingGrants : ℕ

/-- `TaskBoard::faucet_granted_from_prefix_since`. -/
def TaskBoard.faucetGrantedFromPrefixSince (s : TaskBoard) (prefixes : GrantPrefixes) (network : Text)
    (cutoff : ℤ) : ℕ :=
  prefixes.total fun pubkey grantNetwork =>
    if grantNetwork = network ∧ ∃ grantedAt ∈ s.faucetGrants.lookup pubkey, cutoff ≤ grantedAt then 1
    else 0

namespace PricingConfig

variable (cfg : PricingConfig)

/-- What a grant costs a network that has taken some. -/
def expectedFor (taken : ℕ) : ℕ :=
  expectedHashesForPrefix cfg.expectedHashes taken cfg.freeGrantsPerPrefix cfg.powDoublingGrants

/-- `faucet_difficulty_for`, none when it panics. -/
def difficultyFor (now : DateTime) (board : TaskBoard) (prefixes : GrantPrefixes)
    (network : Option Text) : Option ℕ :=
  match network with
  | none => some cfg.expectedHashes
  | some network => do
    let cutoff ← faucetCutoff now
    some (cfg.expectedFor (board.faucetGrantedFromPrefixSince prefixes network cutoff))

end PricingConfig

/-! ## Requests -/

/-- How far a request for a challenge has come. -/
inductive AskPhase
  | verified
  | eligible
  | budgeted
  | shared
  /-- It is priced, when so many grants had been recorded. -/
  | priced (target : U256) (seen : ℕ)
  deriving DecidableEq

/-- A `faucet_challenge` under way. -/
structure Asking where
  pubkey : PublicKey
  network : Option Text
  phase : AskPhase
  deriving DecidableEq

/-- How far a claim has come that has not redeemed its challenge. -/
inductive ClaimPhase
  | verified
  | solved
  | fundable
  | eligible
  | budgeted
  | shared
  deriving DecidableEq

/-- A `faucet_claim` under way. -/
structure Claiming where
  pubkey : PublicKey
  challengeId : Uuid
  solution : ℕ
  phase : ClaimPhase
  deriving DecidableEq

/-- A claim, with the challenge it has redeemed. -/
structure PricedClaim where
  pubkey : PublicKey
  redeemed : Challenge
  deriving DecidableEq

def PricedClaim.claim (claim : PricedClaim) : Claim := ⟨claim.pubkey, claim.redeemed.network⟩

/-- A grant whose network is recorded, and the challenge it was made for. -/
structure RecordedGrant where
  grant : Grant
  redeemed : Challenge
  deriving DecidableEq

/-- A faucet with its challenges, and what has happened to them. -/
structure PricedFaucet where
  faucet : Faucet
  challenges : Challenges
  asking : List Asking
  claiming : List Claiming
  /-- The claims that wait for the payout lock. -/
  waiting : List PricedClaim
  /-- The claim that took it last. -/
  holder : Option PricedClaim
  /-- The grants counted against networks, in order. -/
  recorded : List RecordedGrant
  /-- How many there were when each challenge was priced. -/
  pricedAt : Finmap fun _ : Uuid => ℕ

/-- What may happen. -/
inductive PricedOp
  /-- Time passes. -/
  | tick (now : DateTime)
  /-- The rest of the hub goes on. -/
  | other (hub : Hub)
  /-- The sweep drops old challenges. -/
  | sweep (commits : Bool)
  /-- A request for a challenge arrives. -/
  | ask (pubkey : PublicKey) (network : Option Text)
  /-- It makes its next check, or is priced, with a time it has read. -/
  | askOn (request : Asking) (now : DateTime)
  /-- It is issued a challenge. -/
  | issue (request : Asking) (commits : Bool) (id : Uuid) (nonce : Bytes)
  /-- A claim arrives. -/
  | claim (pubkey : PublicKey) (challengeId : Uuid) (solution : ℕ)
  /-- It makes its next check, with a time it has read and a balance. -/
  | claimOn (request : Claiming) (now : DateTime) (fundable : Bool)
  /-- It redeems its challenge. -/
  | redeem (request : Claiming) (commits : Bool)
  /-- A waiting claim takes the lock. -/
  | acquire (claim : PricedClaim)
  /-- The holder goes on, short of recording its network. -/
  | hold (op : FaucetOp)
  /-- The holder cannot be paid, and is issued another challenge. -/
  | unfunded (commits : Bool) (id : Uuid) (nonce : Bytes)
  /-- The holder records its network, and is done. -/
  | record (commits : Bool)

/-- The steps of the claim that holds the lock, short of the last. -/
def FaucetOp.ofHolder : FaucetOp → Bool
  | .checkKey | .checkBudget | .checkShare | .build .. | .prepare .. => true
  | _ => false

namespace PricedFaucet

variable (c : Crypto) (showUuid : Uuid → Text) (cfg : PricingConfig) (f : PricedFaucet)

/-- The next phase of a request for a challenge: none when it is refused. -/
def nextAsk (now : DateTime) (request : Asking) : Option AskPhase :=
  match request.phase with
  | .verified => if f.faucet.hub.board.canClaimFaucet request.pubkey then some .eligible else none
  | .eligible => if cfg.budgetExhausted now f.faucet.hub.board = some false then some .budgeted else none
  | .budgeted =>
    if cfg.networkShareExhausted now f.faucet.hub.board f.faucet.prefixes request.network = some false then
      some .shared
    else none
  | .shared =>
    (cfg.difficultyFor now f.faucet.hub.board f.faucet.prefixes request.network).map fun expected =>
      .priced (targetForExpectedHashes expected) f.recorded.length
  | .priced target seen => some (.priced target seen)

/-- `ChallengeBook::network_of`. -/
def networkOf (id : Uuid) : Option Text := (f.challenges.book.byId.lookup id).bind Challenge.network

/-- The next phase of a claim: none when it is refused. -/
def nextClaim (now : DateTime) (fundable : Bool) (request : Claiming) : Option ClaimPhase :=
  match request.phase with
  | .verified =>
    if f.challenges.book.check c showUuid request.challengeId request.pubkey request.solution now = .ok ()
    then some .solved
    else none
  | .solved => if fundable then some .fundable else none
  | .fundable => if f.faucet.hub.board.canClaimFaucet request.pubkey then some .eligible else none
  | .eligible => if cfg.budgetExhausted now f.faucet.hub.board = some false then some .budgeted else none
  | .budgeted =>
    if cfg.networkShareExhausted now f.faucet.hub.board f.faucet.prefixes
      (f.networkOf request.challengeId) = some false then some .shared
    else none
  | .shared => some .shared

/-- A challenge is issued, unless it cannot be recorded. -/
def issue (commits : Bool) (id : Uuid) (nonce : Bytes) (pubkey : PublicKey) (target : U256)
    (network : Option Text) (seen : ℕ) : PricedFaucet :=
  match ChallengeBook.issueAtTarget c commits id nonce pubkey target network f.faucet.clock f.challenges with
  | (challenges, .ok _) => { f with challenges, pricedAt := f.pricedAt.insert id seen }
  | (challenges, _) => { f with challenges }

/-- The steps: none if a step is not possible. -/
def after (f : PricedFaucet) : PricedOp → Option PricedFaucet
  | .tick now => do
    let faucet ← f.faucet.after c cfg.toFaucetConfig (.tick now)
    some { f with faucet }
  | .other hub => do
    let faucet ← f.faucet.after c cfg.toFaucetConfig (.other hub)
    some { f with faucet }
  | .sweep commits =>
    some { f with challenges := ChallengeBook.cleanup commits f.faucet.clock f.challenges }
  | .ask pubkey network => some { f with asking := ⟨pubkey, network, .verified⟩ :: f.asking }
  | .askOn request now =>
    if request ∈ f.asking ∧ now ≤ f.faucet.clock then
      let next := (f.nextAsk cfg now request).map fun phase => { request with phase }
      some { f with asking := next.toList ++ f.asking.erase request }
    else none
  | .issue request commits id nonce =>
    match request.phase with
    | .priced target seen =>
      if request ∈ f.asking ∧ id ∉ f.pricedAt then
        some (issue c { f with asking := f.asking.erase request } commits id nonce request.pubkey target
          request.network seen)
      else none
    | _ => none
  | .claim pubkey challengeId solution =>
    some { f with claiming := ⟨pubkey, challengeId, solution, .verified⟩ :: f.claiming }
  | .claimOn request now fundable =>
    if request ∈ f.claiming ∧ now ≤ f.faucet.clock then
      let next := (f.nextClaim c showUuid cfg now fundable request).map fun phase => { request with phase }
      some { f with claiming := next.toList ++ f.claiming.erase request }
    else none
  | .redeem request commits =>
    if request ∈ f.claiming ∧ request.phase = .shared then
      match ChallengeBook.redeem c showUuid commits request.challengeId request.pubkey request.solution
          f.faucet.clock f.challenges with
      | (challenges, .ok redeemed) => do
        let faucet ← f.faucet.after c cfg.toFaucetConfig
          (.redeemed (PricedClaim.claim ⟨request.pubkey, redeemed⟩))
        some { f with
          faucet
          challenges
          claiming := f.claiming.erase request
          waiting := ⟨request.pubkey, redeemed⟩ :: f.waiting }
      | (challenges, _) => some { f with challenges, claiming := f.claiming.erase request }
    else none
  | .acquire claim =>
    if claim ∈ f.waiting then do
      let faucet ← f.faucet.after c cfg.toFaucetConfig (.acquire claim.claim)
      some { f with faucet, waiting := f.waiting.erase claim, holder := some claim }
    else none
  | .hold op =>
    if op.ofHolder then do
      let faucet ← f.faucet.after c cfg.toFaucetConfig op
      some { f with faucet }
    else none
  | .unfunded commits id nonce =>
    match f.faucet.holder, f.holder with
    | some (_, .shared), some claim =>
      if id ∉ f.pricedAt then do
        let faucet ← f.faucet.after c cfg.toFaucetConfig (.build id none)
        let seen ← f.pricedAt.lookup claim.redeemed.id
        some (issue c { f with faucet } commits id nonce claim.pubkey claim.redeemed.target
          claim.redeemed.network seen)
      else none
    | _, _ => none
  | .record commits =>
    match f.faucet.holder, f.holder with
    | some (_, .prepared payment), some claim => do
      let faucet ← f.faucet.after c cfg.toFaucetConfig (.recordNetwork commits)
      let grant : Grant := ⟨payment.recipient, timestamp payment.createdAt, claim.redeemed.network⟩
      some { f with
        faucet
        recorded := f.recorded ++ claim.redeemed.network.toList.map fun _ => ⟨grant, claim.redeemed⟩ }
    | _, _ => none

end PricedFaucet

/-- The runs of a faucet that has issued no challenge and made no grant. The process goes on. -/
def pricedRuns (c : Crypto) (showUuid : Uuid → Text) (cfg : PricingConfig) :
    System PricedFaucet PricedOp where
  init := {f | f.faucet ∈ (faucetRuns c cfg.toFaucetConfig).init ∧ f.challenges = ⟨⟨∅, ∅⟩, ∅⟩ ∧
    f.asking = [] ∧ f.claiming = [] ∧ f.waiting = [] ∧ f.faucet.waiting = [] ∧ f.recorded = [] ∧
    f.pricedAt = ∅}
  step f op f' := f.after c showUuid cfg op = some f'

/-! ## The curve is monotone -/

theorem targetForExpectedHashes_anti {m n : ℕ} (h : m ≤ n) :
    targetForExpectedHashes n ≤ targetForExpectedHashes m :=
  Nat.div_le_div_left (max_le_max_right 1 h) (by omega)

theorem expectedHashesForPrefix_mono {base free step m n : ℕ} (hbase : base < u64Bound) (h : m ≤ n) :
    expectedHashesForPrefix base m free step ≤ expectedHashesForPrefix base n free step := by
  have hle : ∀ k, base ≤ saturatingMul base (2 ^ k) := fun k =>
    le_min (Nat.le_mul_of_pos_right base (Nat.two_pow_pos k)) (by omega)
  rw [expectedHashesForPrefix, expectedHashesForPrefix]
  split_ifs with hm hn hn
  · rfl
  · exact hle _
  · omega
  · refine min_le_min_right _ (Nat.mul_le_mul_left base (Nat.pow_le_pow_right (by decide) ?_))
    exact min_le_min_right _ (Nat.add_le_add_left (Nat.div_le_div_right (by omega)) 1)

namespace PricingConfig

variable {cfg : PricingConfig}

theorem target_anti {m n : ℕ} (h : m ≤ n) :
    targetForExpectedHashes (cfg.expectedFor n) ≤ targetForExpectedHashes (cfg.expectedFor m) :=
  targetForExpectedHashes_anti (expectedHashesForPrefix_mono cfg.expectedHashes_lt h)

end PricingConfig

/-! ## What was known when a challenge was priced -/

/-- The grants counted against a network. -/
def RecordedGrant.inNetwork (network : Text) (g : RecordedGrant) : Bool := g.grant.network = some network

/-- A target is no easier than the price after the first `n` grants recorded, counted from a day
    before the second `t` or earlier. -/
structure Quoted (cfg : PricingConfig) (recorded : List RecordedGrant) (t : ℤ) (network : Option Text)
    (target : U256) (n : ℕ) : Prop where
  le : n ≤ recorded.length
  price : ∀ p, network = some p → ∃ cutoff, cutoff + faucetBudgetWindowSeconds ≤ t ∧
    target ≤ targetForExpectedHashes (cfg.expectedFor ((recorded.take n).countP fun g =>
      g.inNetwork p && decide (cutoff ≤ g.grant.grantedAt)))

section

variable {cfg : PricingConfig} {recorded : List RecordedGrant} {t t' : ℤ} {network : Option Text}
  {target : U256} {n : ℕ}

theorem Quoted.later (h : Quoted cfg recorded t network target n) (ht : t ≤ t') :
    Quoted cfg recorded t' network target n where
  le := h.le
  price p hp := by
    obtain ⟨cutoff, hcutoff, hprice⟩ := h.price p hp
    exact ⟨cutoff, hcutoff.trans ht, hprice⟩

theorem Quoted.append (h : Quoted cfg recorded t network target n) (more : List RecordedGrant) :
    Quoted cfg (recorded ++ more) t network target n where
  le := by
    rw [List.length_append]
    exact h.le.trans (Nat.le_add_right _ _)
  price p hp := by
    rw [List.take_append_of_le_length h.le]
    exact h.price p hp

/-- The price after what of a span of a day had been recorded: it is among what was counted. -/
theorem Quoted.span (h : Quoted cfg recorded t network target n) {p : Text} (hp : network = some p)
    {start : ℤ} (ht : t < start + faucetBudgetWindowSeconds) :
    target ≤ targetForExpectedHashes (cfg.expectedFor ((recorded.take n).countP fun g =>
      g.inNetwork p && decide (g.grant.Within start))) := by
  obtain ⟨cutoff, hcutoff, hprice⟩ := h.price p hp
  refine hprice.trans (PricingConfig.target_anti (List.countP_mono_left fun g _ hg => ?_))
  rw [Bool.and_eq_true, decide_eq_true_eq] at hg ⊢
  refine ⟨hg.1, ?_⟩
  have := hg.2.1
  omega

end

/-! ## What the holder's steps do -/

/-- When the holder's grant is dated: now, as long as its payment is not built. -/
def Phase.moment (clock : DateTime) : Phase → DateTime
  | .built p | .prepared p => p.createdAt
  | _ => clock

theorem Phase.moment_mono {t t' : DateTime} (phase : Phase) (h : t ≤ t') :
    phase.moment t ≤ phase.moment t' := by
  cases phase with
  | built | prepared => exact le_rfl
  | acquired | eligible | budgeted | shared => exact h

/-- The grant of a payment. -/
def Payment.grant (p : Payment) (network : Option Text) : Grant :=
  ⟨p.recipient, timestamp p.createdAt, network⟩

section

variable {c : Crypto} {cfg : FaucetConfig} {f f' : Faucet} {op : FaucetOp}

/-- The holder lets go of the lock, or goes on: to a phase before its grant is made, or to the
    one after, with the first grant of its key. -/
inductive Faucet.HolderStep (f f' : Faucet) : Prop
  | released (holder : f'.holder = none) (grants : f'.grants = f.grants)
  | on (claim : Claim) (phase phase' : Phase) (before : f.holder = some (claim, phase))
      (after : f'.holder = some (claim, phase')) (moment : phase.moment f.clock ≤ phase'.moment f.clock)
      (short : ∀ p, phase' ≠ .prepared p) (grants : f'.grants = f.grants)
  | made (claim : Claim) (p : Payment) (phase : Phase) (before : f.holder = some (claim, phase))
      (after : f'.holder = some (claim, .prepared p)) (moment : phase.moment f.clock ≤ p.createdAt)
      (new : p.recipient ∉ f.hub.board.faucetGrants)
      (grants : f'.grants = f.grants ++ [p.grant claim.network])

theorem Faucet.holdUnless_clock (exhausted : Option Bool) (claim : Claim) (phase : Phase) :
    (f.holdUnless exhausted claim phase).clock = f.clock := by
  rw [holdUnless]
  split_ifs <;> rfl

theorem Faucet.holdUnless_prefixes (exhausted : Option Bool) (claim : Claim) (phase : Phase) :
    (f.holdUnless exhausted claim phase).prefixes = f.prefixes := by
  rw [holdUnless]
  split_ifs <;> rfl

theorem Faucet.HolderStep.holdUnless {claim : Claim} {phase phase' : Phase} {exhausted : Option Bool}
    (hf : f.holder = some (claim, phase)) (hmoment : phase.moment f.clock ≤ phase'.moment f.clock)
    (hshort : ∀ p, phase' ≠ .prepared p) :
    f.HolderStep (f.holdUnless exhausted claim phase') := by
  rw [Faucet.holdUnless]
  split_ifs
  · exact .on claim phase phase' hf rfl hmoment hshort rfl
  · exact .released rfl rfl

theorem Faucet.holderStep (hs : f.Sound cfg) (hop : op.ofHolder = true)
    (h : f.after c cfg op = some f') :
    f'.clock = f.clock ∧ f'.prefixes = f.prefixes ∧ f.HolderStep f' := by
  cases op with
  | tick | redeemed | acquire | recordNetwork | other | crash => cases hop
  | checkKey =>
    rw [after] at h
    split at h
    · next claim hf =>
      -- The check of the key holds the lock on, or releases it.
      cases h
      split_ifs
      · exact ⟨rfl, rfl, .on claim _ .eligible hf rfl le_rfl (fun _ => by simp) rfl⟩
      · exact ⟨rfl, rfl, .released rfl rfl⟩
    · cases h
  | checkBudget =>
    rw [after] at h
    split at h
    · next claim hf =>
      cases h
      exact ⟨holdUnless_clock .., holdUnless_prefixes .., .holdUnless hf le_rfl fun _ => by simp⟩
    · cases h
  | checkShare =>
    rw [after] at h
    split at h
    · next claim hf =>
      cases h
      exact ⟨holdUnless_clock .., holdUnless_prefixes .., .holdUnless hf le_rfl fun _ => by simp⟩
    · cases h
  | build id transaction =>
    rw [after] at h
    split at h
    · next claim hf =>
      cases transaction with
      | none =>
        cases h
        exact ⟨rfl, rfl, .released rfl rfl⟩
      | some tx =>
        cases h
        exact ⟨rfl, rfl, .on claim _ _ hf rfl le_rfl (fun _ => by simp) rfl⟩
    · cases h
  | prepare chainHeight commits =>
    obtain ⟨claim, payment, hf, rfl | ⟨p, hub, hp, hprep, rfl⟩⟩ := prepare_cases h
    · exact ⟨rfl, rfl, .released rfl rfl⟩
    -- The payment that is made is the one that was built, which is a grant.
    · have hpurpose : p.purpose = .faucet := by
        rw [hp]
        exact (hs.holder _ _ hf).1
      have hmoment : payment.createdAt ≤ p.createdAt := by rw [hp]
      exact ⟨rfl, rfl, .made claim p _ hf rfl hmoment (hprep.grants hpurpose).1 rfl⟩

end

/-! ## What is counted -/

/-- The grants recorded are the first of their keys, and each has its network on the board. The
    grant of the holder is not among them. -/
structure PricedFaucet.Counted (f : PricedFaucet) : Prop where
  nodup : (f.recorded.map fun g => g.grant.pubkey).Nodup
  granted : ∀ g ∈ f.recorded, g.grant ∈ f.faucet.grants
  networks : ∀ g ∈ f.recorded, f.faucet.prefixes.lookup g.grant.pubkey = g.grant.network
  holder : ∀ claim p, f.faucet.holder = some (claim, .prepared p) →
    p.grant claim.network ∈ f.faucet.grants ∧ ∀ g ∈ f.recorded, g.grant.pubkey ≠ p.recipient

section

variable {cfg : PricingConfig} {f f' : PricedFaucet}

/-- What the board counts for a network is no less than what is recorded. -/
theorem PricedFaucet.Counted.countP_le (h : f.Counted) (hs : f.faucet.Sound cfg.toFaucetConfig)
    (p : Text) (cutoff : ℤ) :
    (f.recorded.countP fun g => g.inNetwork p && decide (cutoff ≤ g.grant.grantedAt)) ≤
      f.faucet.hub.board.faucetGrantedFromPrefixSince f.faucet.prefixes p cutoff := by
  have hcount : (f.recorded.countP fun g => g.inNetwork p && decide (cutoff ≤ g.grant.grantedAt)) =
      (f.recorded.map RecordedGrant.grant).countP fun g =>
        decide (g.network = some p) && decide (cutoff ≤ g.grantedAt) := by
    rw [List.countP_map]
    rfl
  rw [hcount]
  refine countP_le_total (by rw [List.map_map]; exact h.nodup) fun g hg hk => ?_
  obtain ⟨r, hr, rfl⟩ := List.mem_map.1 hg
  rw [Bool.and_eq_true, decide_eq_true_eq, decide_eq_true_eq] at hk
  rw [Finmap.weight, h.networks r hr, hk.1]
  exact if_pos ⟨rfl, _, hs.granted _ (h.granted r hr), hk.2⟩

/-- Nothing is recorded, and the holder has not made its grant in this step. -/
theorem PricedFaucet.Counted.of_same (h : f.Counted) (hrecorded : f'.recorded = f.recorded)
    (hgrants : f'.faucet.grants = f.faucet.grants) (hprees : f'.faucet.prefixes = f.faucet.prefixes)
    (hholder : ∀ claim p, f'.faucet.holder = some (claim, .prepared p) →
      f.faucet.holder = some (claim, .prepared p)) : f'.Counted where
  nodup := hrecorded ▸ h.nodup
  granted := by rw [hrecorded, hgrants]; exact h.granted
  networks := by rw [hrecorded, hprees]; exact h.networks
  holder claim p hp := by rw [hrecorded, hgrants]; exact h.holder claim p (hholder claim p hp)

/-- A step of the holder keeps the count: its grant is the first of its key. -/
theorem PricedFaucet.Counted.holderStep (h : f.Counted) (hs : f.faucet.Sound cfg.toFaucetConfig)
    (hrecorded : f'.recorded = f.recorded) (hprees : f'.faucet.prefixes = f.faucet.prefixes)
    (hstep : f.faucet.HolderStep f'.faucet) : f'.Counted := by
  cases hstep with
  | released hholder hgrants =>
    refine h.of_same hrecorded hgrants hprees fun claim p hp => ?_
    rw [hholder] at hp
    cases hp
  | on claim phase phase' _ hafter _ hshort hgrants =>
    refine h.of_same hrecorded hgrants hprees fun claim' p hp => ?_
    obtain ⟨-, rfl⟩ := Prod.mk.inj (Option.some.inj (hafter.symm.trans hp))
    exact absurd rfl (hshort p)
  | made claim p phase _ hafter _ hnew hgrants =>
    refine ⟨hrecorded ▸ h.nodup, fun g hg => ?_, ?_, fun claim' p' hp => ?_⟩
    · rw [hgrants]
      exact List.mem_append_left _ (h.granted g (hrecorded ▸ hg))
    · rw [hrecorded, hprees]
      exact h.networks
    · obtain ⟨rfl, he⟩ := Prod.mk.inj (Option.some.inj (hafter.symm.trans hp))
      cases he
      rw [hgrants]
      -- The key of an earlier grant is on record, and this one was not.
      refine ⟨List.mem_append_right _ (List.mem_singleton.2 rfl), fun g hg he => hnew ?_⟩
      rw [← he, Finmap.mem_iff]
      exact ⟨_, hs.granted _ (h.granted g (hrecorded ▸ hg))⟩

/-- The holder's network is recorded. -/
theorem PricedFaucet.Counted.record {claim : Claim} {p : Payment} {redeemed : Challenge} {network : Text}
    (h : f.Counted) (hf : f.faucet.holder = some (claim, .prepared p)) (hnetwork : claim.network = some network)
    (hrecorded : f'.recorded = f.recorded ++ [⟨p.grant claim.network, redeemed⟩])
    (hgrants : f'.faucet.grants = f.faucet.grants) (hholder : f'.faucet.holder = none)
    (hprees : f'.faucet.prefixes = f.faucet.prefixes.insert p.recipient network) : f'.Counted := by
  obtain ⟨hmem, hnew⟩ := h.holder _ _ hf
  refine ⟨?_, fun g hg => ?_, fun g hg => ?_, fun _ _ he => ?_⟩
  · -- The grant is of a key that has none before.
    rw [hrecorded, List.map_append, List.nodup_append]
    refine ⟨h.nodup, List.nodup_singleton _, fun k hk k' hk' => ?_⟩
    obtain ⟨g, hg, rfl⟩ := List.mem_map.1 hk
    rw [List.mem_singleton.1 hk']
    exact hnew g hg
  · rw [hrecorded] at hg
    rw [hgrants]
    rcases List.mem_append.1 hg with hg | hg
    · exact h.granted g hg
    · rw [List.mem_singleton.1 hg]
      exact hmem
  · rw [hrecorded] at hg
    rw [hprees]
    -- The network of an earlier grant is under another key, and stays.
    rcases List.mem_append.1 hg with hg | hg
    · rw [Finmap.lookup_insert_of_ne _ (hnew g hg)]
      exact h.networks g hg
    · rw [List.mem_singleton.1 hg]
      exact (Finmap.lookup_insert _).trans hnetwork.symm
  · rw [hholder] at he
    cases he

end

/-! ## Every challenge at its price -/

namespace PricedFaucet

variable {c : Crypto} {showUuid : Uuid → Text} {cfg : PricingConfig} {f f' : PricedFaucet}

variable (cfg) in
/-- A challenge is no easier than the price when it was priced, which was no later than `t`. -/
def Bought (f : PricedFaucet) (challenge : Challenge) (t : ℤ) : Prop :=
  ∃ n, f.pricedAt.lookup challenge.id = some n ∧
    Quoted cfg f.recorded t challenge.network challenge.target n

variable (cfg) in
/-- So are the challenges that may lead to a grant. -/
structure Priced (f : PricedFaucet) : Prop where
  asking : ∀ a ∈ f.asking, ∀ target n, a.phase = .priced target n →
    Quoted cfg f.recorded (timestamp f.faucet.clock) a.network target n
  book : ∀ id challenge, f.challenges.book.byId.lookup id = some challenge →
    challenge.id = id ∧ f.Bought cfg challenge (timestamp f.faucet.clock)
  waiting : ∀ w ∈ f.waiting, f.Bought cfg w.redeemed (timestamp f.faucet.clock)
  holder : ∀ claim phase, f.faucet.holder = some (claim, phase) → ∃ h, f.holder = some h ∧
    h.claim = claim ∧ f.Bought cfg h.redeemed (timestamp (phase.moment f.faucet.clock))

variable (cfg) in
/-- And so were those of the grants that are recorded, when they were made. -/
def Kept (f : PricedFaucet) : Prop :=
  ∀ before g later, f.recorded = before ++ g :: later → g.grant.network = g.redeemed.network ∧
    ∃ n, f.pricedAt.lookup g.redeemed.id = some n ∧
      Quoted cfg before g.grant.grantedAt g.redeemed.network g.redeemed.target n

/-- Time goes on, and nothing that was priced or recorded is forgotten. -/
structure Follows (f f' : PricedFaucet) : Prop where
  clock : f.faucet.clock ≤ f'.faucet.clock
  priced : ∀ id n, f.pricedAt.lookup id = some n → f'.pricedAt.lookup id = some n
  more : ∃ l, f'.recorded = f.recorded ++ l

theorem Follows.of_same (hclock : f.faucet.clock ≤ f'.faucet.clock) (hpriced : f'.pricedAt = f.pricedAt)
    (hrecorded : f'.recorded = f.recorded) : f.Follows f' :=
  ⟨hclock, fun _ _ h => hpriced ▸ h, [], hrecorded.trans (List.append_nil _).symm⟩

theorem Follows.quoted {t t' : ℤ} {network : Option Text} {target : U256} {n : ℕ} (hf : f.Follows f')
    (h : Quoted cfg f.recorded t network target n) (ht : t ≤ t') :
    Quoted cfg f'.recorded t' network target n := by
  obtain ⟨l, hl⟩ := hf.more
  rw [hl]
  exact (h.later ht).append l

theorem Follows.bought {challenge : Challenge} {t t' : ℤ} (hf : f.Follows f')
    (h : f.Bought cfg challenge t) (ht : t ≤ t') : f'.Bought cfg challenge t' := by
  obtain ⟨n, hn, hquoted⟩ := h
  exact ⟨n, hf.priced _ _ hn, hf.quoted hquoted ht⟩

/-- What there was before is at its price still, so that what is new has to be. -/
theorem Priced.follow (h : f.Priced cfg) (hf : f.Follows f')
    (hasking : ∀ a ∈ f'.asking, a ∈ f.asking ∨ ∀ target n, a.phase = .priced target n →
      Quoted cfg f'.recorded (timestamp f'.faucet.clock) a.network target n)
    (hbook : ∀ id challenge, f'.challenges.book.byId.lookup id = some challenge →
      f.challenges.book.byId.lookup id = some challenge ∨
        challenge.id = id ∧ f'.Bought cfg challenge (timestamp f'.faucet.clock))
    (hwaiting : ∀ w ∈ f'.waiting,
      w ∈ f.waiting ∨ f'.Bought cfg w.redeemed (timestamp f'.faucet.clock))
    (hholder : ∀ claim phase', f'.faucet.holder = some (claim, phase') →
      (∃ phase, f.faucet.holder = some (claim, phase) ∧ f'.holder = f.holder ∧
        phase.moment f.faucet.clock ≤ phase'.moment f'.faucet.clock) ∨
      ∃ h, f'.holder = some h ∧ h.claim = claim ∧
        f'.Bought cfg h.redeemed (timestamp (phase'.moment f'.faucet.clock))) : f'.Priced cfg := by
  have hclock := timestamp_mono hf.clock
  refine ⟨fun a ha => ?_, fun id challenge hid => ?_, fun w hw => ?_, fun claim phase' hp => ?_⟩
  · rcases hasking a ha with ha | ha
    · -- A quote is good for later too, since no more than then is asked for.
      exact fun target n hn => hf.quoted (h.asking a ha target n hn) hclock
    · exact ha
  · rcases hbook id challenge hid with hid | hid
    · exact ⟨(h.book id challenge hid).1, hf.bought (h.book id challenge hid).2 hclock⟩
    · exact hid
  · rcases hwaiting w hw with hw | hw
    · exact hf.bought (h.waiting w hw) hclock
    · exact hw
  · rcases hholder claim phase' hp with ⟨phase, hphase, hsame, hmoment⟩ | hnew
    · obtain ⟨b, hb, hclaim, hbought⟩ := h.holder claim phase hphase
      exact ⟨b, hsame.trans hb, hclaim, hf.bought hbought (timestamp_mono hmoment)⟩
    · exact hnew

theorem Kept.follow (h : f.Kept cfg) (hf : f.Follows f') (hrecorded : f'.recorded = f.recorded) :
    f'.Kept cfg := by
  intro before g later hg
  obtain ⟨hnetwork, n, hn, hquoted⟩ := h before g later (hrecorded ▸ hg)
  exact ⟨hnetwork, n, hf.priced _ _ hn, hquoted⟩

/-- A grant is recorded after the others. -/
theorem Kept.record (h : f.Kept cfg) {g : RecordedGrant} (hpriced : f'.pricedAt = f.pricedAt)
    (hrecorded : f'.recorded = f.recorded ++ [g]) (hnetwork : g.grant.network = g.redeemed.network)
    (hg : f.Bought cfg g.redeemed g.grant.grantedAt) : f'.Kept cfg := by
  intro before g' later hg'
  rw [hpriced]
  rw [hrecorded] at hg'
  rcases List.eq_nil_or_concat later with rfl | ⟨later, last, rfl⟩
  · obtain ⟨rfl, hlast⟩ := List.append_inj' hg' rfl
    obtain rfl := List.head_eq_of_cons_eq hlast
    exact ⟨hnetwork, hg⟩
  · rw [List.concat_eq_append, ← List.cons_append, ← List.append_assoc] at hg'
    exact h before g' later (List.append_inj' hg' rfl).1

/-! ## The steps -/

/-- A request that is priced is priced by what is recorded, if not by more. -/
theorem quoted_of_nextAsk {request : Asking} {now : DateTime} {target : U256} {n : ℕ}
    (hs : f.faucet.Sound cfg.toFaucetConfig) (h : f.Counted) (hp : f.Priced cfg)
    (hmem : request ∈ f.asking) (hnow : now ≤ f.faucet.clock)
    (hnext : f.nextAsk cfg now request = some (.priced target n)) :
    Quoted cfg f.recorded (timestamp f.faucet.clock) request.network target n := by
  rw [nextAsk] at hnext
  split at hnext
  · split_ifs at hnext
    cases hnext
  · split_ifs at hnext
    cases hnext
  · split_ifs at hnext
    cases hnext
  · -- The count is of the grants in the window by now, which are no fewer than those recorded.
    obtain ⟨expected, hexpected, hnext⟩ := Option.map_eq_some_iff.1 hnext
    cases hnext
    refine ⟨le_rfl, fun p hnetwork => ?_⟩
    rw [hnetwork] at hexpected
    obtain ⟨cutoff, hcutoff, hexpected⟩ := Option.bind_eq_some_iff.1 hexpected
    obtain rfl := Option.some.inj hexpected
    refine ⟨cutoff, (faucetCutoff_eq_some hcutoff).le.trans (timestamp_mono hnow), ?_⟩
    rw [List.take_length]
    exact PricingConfig.target_anti (h.countP_le hs p cutoff)
  · next target' n' hphase =>
    cases hnext
    exact hp.asking request hmem _ _ hphase

/-- A challenge that is issued at a target that was quoted is at its price. -/
theorem Priced.issue {id : Uuid} {nonce : Bytes} {pubkey : PublicKey} {target : U256}
    {network : Option Text} {seen : ℕ} (h : f.Priced cfg) (commits : Bool) (hfresh : id ∉ f.pricedAt)
    (hquoted : Quoted cfg f.recorded (timestamp f.faucet.clock) network target seen) :
    (f.issue c commits id nonce pubkey target network seen).Priced cfg ∧
      f.Follows (f.issue c commits id nonce pubkey target network seen) ∧
      (f.issue c commits id nonce pubkey target network seen).faucet = f.faucet ∧
      (f.issue c commits id nonce pubkey target network seen).recorded = f.recorded := by
  have hend : Ends _ _ _ (ChallengeBook.issueAtTarget c commits id nonce pubkey target network
      f.faucet.clock f.challenges) := triple_issueAtTarget _ rfl
  rw [PricedFaucet.issue]
  generalize ChallengeBook.issueAtTarget c commits id nonce pubkey target network f.faucet.clock
    f.challenges = o at hend
  obtain ⟨challenges, challenge | e | _⟩ := o
  · obtain ⟨hissue, rfl⟩ := hend
    obtain ⟨expiry, -, hchallenge⟩ := Option.bind_eq_some_iff.1 hissue
    have hf : f.Follows { f with
        challenges := f.challenges.issue challenge, pricedAt := f.pricedAt.insert id seen } := by
      refine ⟨le_rfl, fun id' n hn => ?_, [], (List.append_nil _).symm⟩
      -- The price goes under a fresh id, so no other price is changed.
      refine (Finmap.lookup_insert_of_ne _ fun he => hfresh ?_).trans hn
      exact he ▸ Finmap.mem_iff.2 ⟨n, hn⟩
    refine ⟨h.follow hf (fun _ => .inl) (fun id' challenge' hid => ?_) (fun _ => .inl)
      fun claim phase hp => .inl ⟨phase, hp, rfl, le_rfl⟩, hf, rfl, rfl⟩
    have hid' : challenge.id = id := by rw [← Option.some.inj hchallenge]
    rw [Challenges.issue, Finmap.lookup_insert_eq] at hid
    split_ifs at hid with he
    · -- The challenge that is issued is the one at the price quoted.
      obtain rfl := Option.some.inj hid
      refine .inr ⟨he.symm, seen, ?_, ?_⟩
      · rw [hid']
        exact Finmap.lookup_insert _
      · rw [← Option.some.inj hchallenge]
        exact hquoted
    · -- The challenge that was outstanding is dropped.
      cases hprevious : f.challenges.book.outstanding.lookup challenge.pubkey with
      | none =>
        rw [hprevious] at hid
        exact .inl hid
      | some previous =>
        rw [hprevious, Option.elim_some, Finmap.lookup_erase_eq] at hid
        split_ifs at hid
        exact .inl hid
  · obtain rfl : challenges = f.challenges := hend
    exact ⟨h, .of_same le_rfl rfl rfl, rfl, rfl⟩
  · obtain rfl : challenges = f.challenges := hend
    exact ⟨h, .of_same le_rfl rfl rfl, rfl, rfl⟩

variable (cfg) in
/-- What holds throughout a run. -/
structure Sound (f : PricedFaucet) : Prop where
  faucet : f.faucet.Sound cfg.toFaucetConfig
  counted : f.Counted
  priced : f.Priced cfg
  kept : f.Kept cfg

/-- A step that records nothing. -/
theorem Sound.follow (h : f.Sound cfg) (hf : f.Follows f') (hrecorded : f'.recorded = f.recorded)
    (hfaucet : f'.faucet.Sound cfg.toFaucetConfig) (hcounted : f'.Counted) (hpriced : f'.Priced cfg) :
    f'.Sound cfg :=
  ⟨hfaucet, hcounted, hpriced, h.kept.follow hf hrecorded⟩

/-- A step of requests that have redeemed nothing. -/
theorem Sound.of_requests (h : f.Sound cfg) (hfaucet : f'.faucet = f.faucet) (hholder : f'.holder = f.holder)
    (hwaiting : f'.waiting = f.waiting) (hrecorded : f'.recorded = f.recorded)
    (hpricedAt : f'.pricedAt = f.pricedAt)
    (hasking : ∀ a ∈ f'.asking, a ∈ f.asking ∨ ∀ target n, a.phase = .priced target n →
      Quoted cfg f.recorded (timestamp f.faucet.clock) a.network target n)
    (hbook : ∀ id challenge, f'.challenges.book.byId.lookup id = some challenge →
      f.challenges.book.byId.lookup id = some challenge) : f'.Sound cfg := by
  have hf : f.Follows f' := .of_same (by rw [hfaucet]) hpricedAt hrecorded
  refine h.follow hf hrecorded (hfaucet ▸ h.faucet) ?_ ?_
  · exact h.counted.of_same hrecorded (by rw [hfaucet]) (by rw [hfaucet]) fun _ _ hp => hfaucet ▸ hp
  · refine h.priced.follow hf ?_ (fun id challenge he => .inl (hbook id challenge he)) ?_ ?_
    · rw [hrecorded, hfaucet]
      exact hasking
    · rw [hwaiting]
      exact fun _ => .inl
    · rw [hfaucet]
      exact fun _ phase he => .inl ⟨phase, he, hholder, le_rfl⟩

/-- A challenge is issued, or not. -/
theorem Sound.issue {commits : Bool} {id : Uuid} {nonce : Bytes} {pubkey : PublicKey} {target : U256}
    {network : Option Text} {seen : ℕ} (h : f.Sound cfg) (hfresh : id ∉ f.pricedAt)
    (hquoted : Quoted cfg f.recorded (timestamp f.faucet.clock) network target seen) :
    (f.issue c commits id nonce pubkey target network seen).Sound cfg := by
  obtain ⟨hpriced, hf, hfaucet, hrecorded⟩ := h.priced.issue (c := c) commits hfresh hquoted
  refine h.follow hf hrecorded (hfaucet ▸ h.faucet) ?_ hpriced
  exact h.counted.of_same hrecorded (by rw [hfaucet]) (by rw [hfaucet]) fun _ _ he => hfaucet ▸ he

/-- A claim that redeems its challenge has one at its price. -/
theorem Sound.redeem {redeemed challenge : Challenge} {request : Claiming} (h : f.Sound cfg)
    (hlookup : f.challenges.book.byId.lookup request.challengeId = some challenge)
    (hredeemed : redeemed = { challenge with redeemedAt := some (timestamp f.faucet.clock) })
    {waiting : List Claim} {claiming : List Claiming} :
    Sound cfg { f with
      faucet := { f.faucet with waiting }
      challenges := f.challenges.spend request.challengeId redeemed
      claiming
      waiting := ⟨request.pubkey, redeemed⟩ :: f.waiting } := by
  obtain ⟨hid, hbought⟩ := h.priced.book _ _ hlookup
  have hid' : redeemed.id = request.challengeId := by rw [hredeemed, ← hid]
  have hbought' : f.Bought cfg redeemed (timestamp f.faucet.clock) := by
    rw [hredeemed]
    exact hbought
  refine h.follow (.of_same le_rfl rfl rfl) rfl (h.faucet.of_same rfl rfl rfl h.faucet.holder)
    (h.counted.of_same rfl rfl rfl fun _ _ => id) ?_
  refine h.priced.follow (.of_same le_rfl rfl rfl) (fun _ => .inl) (fun id challenge' he => ?_)
    (fun w hw => ?_) fun claim phase hp => .inl ⟨phase, hp, rfl, le_rfl⟩
  · rw [Challenges.spend, Finmap.lookup_insert_eq] at he
    -- The challenge is put back as redeemed, with its price.
    split_ifs at he with hsame
    · obtain rfl := Option.some.inj he
      exact .inr ⟨hid'.trans hsame.symm, hbought'⟩
    · exact .inl he
  · -- And the claim that waits goes by the same one.
    rcases List.mem_cons.1 hw with rfl | hw
    · exact .inr hbought'
    · exact .inl hw

/-- The claim that takes the lock is one of those that waited. -/
theorem Sound.acquire {claim : PricedClaim} {faucet : Faucet} (h : f.Sound cfg) (hmem : claim ∈ f.waiting)
    (hfaucet : f.faucet.after c cfg.toFaucetConfig (.acquire claim.claim) = some faucet) :
    Sound cfg { f with faucet, waiting := f.waiting.erase claim, holder := some claim } := by
  have hs := h.faucet.step hfaucet
  rw [Faucet.after] at hfaucet
  split at hfaucet
  · cases hfaucet
  split_ifs at hfaucet
  cases hfaucet
  have hf : f.Follows { f with
      faucet := { f.faucet with
        waiting := f.faucet.waiting.erase claim.claim, holder := some (claim.claim, .acquired) }
      waiting := f.waiting.erase claim
      holder := some claim } := .of_same le_rfl rfl rfl
  refine h.follow hf rfl hs (h.counted.of_same rfl rfl rfl fun _ _ he => ?_) ?_
  · cases he
  · refine h.priced.follow hf (fun _ => .inl) (fun _ _ => .inl) (fun w hw => .inl (List.mem_of_mem_erase hw))
      fun claim' phase he => ?_
    obtain ⟨rfl, rfl⟩ := Prod.mk.inj (Option.some.inj he)
    exact .inr ⟨claim, rfl, rfl, h.priced.waiting claim hmem⟩

/-- The claim that holds the lock goes on. -/
theorem Sound.hold {op : FaucetOp} {faucet : Faucet} (h : f.Sound cfg) (hop : op.ofHolder = true)
    (hfaucet : f.faucet.after c cfg.toFaucetConfig op = some faucet) : Sound cfg { f with faucet } := by
  obtain ⟨hclock, hprees, hstep⟩ := Faucet.holderStep h.faucet hop hfaucet
  have hf : f.Follows { f with faucet } := .of_same hclock.ge rfl rfl
  refine h.follow hf rfl (h.faucet.step hfaucet) (h.counted.holderStep h.faucet rfl hprees hstep) ?_
  refine h.priced.follow hf (fun _ => .inl) (fun _ _ => .inl) (fun _ => .inl) fun claim phase' he => ?_
  cases hstep with
  | released hholder _ =>
    rw [hholder] at he
    cases he
  | on claim' phase phase'' hbefore hafter hmoment _ _ =>
    obtain ⟨rfl, rfl⟩ := Prod.mk.inj (Option.some.inj (hafter.symm.trans he))
    refine .inl ⟨phase, hbefore, rfl, ?_⟩
    rw [hclock]
    exact hmoment
  | made claim' p phase hbefore hafter hmoment _ _ =>
    obtain ⟨rfl, rfl⟩ := Prod.mk.inj (Option.some.inj (hafter.symm.trans he))
    exact .inl ⟨phase, hbefore, rfl, hmoment⟩

/-- The claim that holds the lock is done, and its grant is counted if it has a network. -/
theorem Sound.record {commits : Bool} {cl : Claim} {p : Payment} {claim : PricedClaim} {faucet : Faucet}
    (h : f.Sound cfg) (hp : f.faucet.holder = some (cl, .prepared p)) (hclaim : f.holder = some claim)
    (hfaucet : f.faucet.after c cfg.toFaucetConfig (.recordNetwork commits) = some faucet) :
    Sound cfg { f with
      faucet
      recorded := f.recorded ++ claim.redeemed.network.toList.map fun _ =>
        ⟨p.grant claim.redeemed.network, claim.redeemed⟩ } := by
  have hs := h.faucet.step hfaucet
  obtain ⟨claim', hclaim', rfl, hbought⟩ := h.priced.holder _ _ hp
  obtain rfl := Option.some.inj (hclaim.symm.trans hclaim')
  rw [Faucet.after, hp] at hfaucet
  -- Nobody holds the lock any more, and the clock has not moved.
  have hpriced : ∀ {more faucet}, faucet.holder = none → faucet.clock = f.faucet.clock →
      Priced cfg { f with faucet, recorded := f.recorded ++ more } := by
    intro more faucet hholder hclock
    have hf : f.Follows { f with faucet, recorded := f.recorded ++ more } :=
      ⟨hclock.ge, fun _ _ => id, more, rfl⟩
    refine h.priced.follow hf (fun _ => .inl) (fun _ _ => .inl) (fun _ => .inl) fun _ _ he => ?_
    rw [hholder] at he
    cases he
  cases hnetwork : claim.redeemed.network with
  | none =>
    -- Without a network nothing is recorded.
    simp only [PricedClaim.claim, hnetwork] at hfaucet
    cases hfaucet
    refine ⟨hs, ?_, hpriced rfl rfl, ?_⟩
    · exact h.counted.of_same (List.append_nil _) rfl rfl fun _ _ => by
        simp [Faucet.release]
    · exact h.kept.follow (.of_same le_rfl rfl (List.append_nil _)) (List.append_nil _)
  | some network =>
    simp only [PricedClaim.claim, hnetwork] at hfaucet
    cases hfaucet
    refine ⟨hs, ?_, hpriced rfl rfl, ?_⟩
    · exact h.counted.record hp hnetwork (by rw [PricedClaim.claim, hnetwork]; rfl) rfl rfl rfl
    · exact h.kept.record rfl rfl hnetwork.symm hbought

/-- A step keeps every challenge at its price. -/
theorem Sound.step {op : PricedOp} (h : f.Sound cfg) (hstep : f.after c showUuid cfg op = some f') :
    f'.Sound cfg := by
  cases op with
  | tick now =>
    obtain ⟨faucet, hfaucet, hstep⟩ := Option.bind_eq_some_iff.1 hstep
    cases hstep
    have hs := h.faucet.step hfaucet
    rw [Faucet.after] at hfaucet
    split_ifs at hfaucet with hnow
    cases hfaucet
    have hf : f.Follows { f with faucet := { f.faucet with clock := now } } := .of_same hnow rfl rfl
    refine h.follow hf rfl hs (h.counted.of_same rfl rfl rfl fun _ _ => id) ?_
    exact h.priced.follow hf (fun _ => .inl) (fun _ _ => .inl) (fun _ => .inl)
      fun _ phase he => .inl ⟨phase, he, rfl, phase.moment_mono hnow⟩
  | other hub =>
    obtain ⟨faucet, hfaucet, hstep⟩ := Option.bind_eq_some_iff.1 hstep
    cases hstep
    have hs := h.faucet.step hfaucet
    rw [Faucet.after] at hfaucet
    split_ifs at hfaucet
    cases hfaucet
    have hf : f.Follows { f with faucet := { f.faucet with hub } } := .of_same le_rfl rfl rfl
    refine h.follow hf rfl hs (h.counted.of_same rfl rfl rfl fun _ _ => id) ?_
    exact h.priced.follow hf (fun _ => .inl) (fun _ _ => .inl) (fun _ => .inl)
      fun _ phase he => .inl ⟨phase, he, rfl, le_rfl⟩
  | sweep commits =>
    cases hstep
    refine h.of_requests rfl rfl rfl rfl rfl (fun _ => .inl) fun id challenge he => ?_
    rw [ChallengeBook.cleanup, Finmap.lookup_filterMap] at he
    obtain ⟨challenge', hlookup, hkeep⟩ := Option.bind_eq_some_iff.1 he
    split_ifs at hkeep
    rw [← Option.some.inj hkeep]
    exact hlookup
  | ask pubkey network =>
    cases hstep
    refine h.of_requests rfl rfl rfl rfl rfl (fun a ha => ?_) fun _ _ he => he
    rcases List.mem_cons.1 ha with rfl | ha
    · exact .inr fun _ => by simp
    · exact .inl ha
  | askOn request now =>
    rw [PricedFaucet.after] at hstep
    split_ifs at hstep with hmem
    cases hstep
    refine h.of_requests rfl rfl rfl rfl rfl (fun a ha => ?_) fun _ _ he => he
    rcases List.mem_append.1 ha with ha | ha
    · obtain ⟨phase, hphase, rfl⟩ := Option.map_eq_some_iff.1 (Option.mem_toList.1 ha)
      refine .inr fun target n he => ?_
      obtain rfl : phase = _ := he
      have hquoted := quoted_of_nextAsk h.faucet h.counted h.priced hmem.1 hmem.2 hphase
      exact hquoted
    · exact .inl (List.mem_of_mem_erase ha)
  | issue request commits id nonce =>
    rw [PricedFaucet.after] at hstep
    split at hstep
    · next target seen hphase =>
      split_ifs at hstep with hmem
      cases hstep
      have h' : Sound cfg { f with asking := f.asking.erase request } :=
        h.of_requests rfl rfl rfl rfl rfl (fun a ha => .inl (List.mem_of_mem_erase ha)) fun _ _ he => he
      exact h'.issue hmem.2 (h.priced.asking request hmem.1 target seen hphase)
    · cases hstep
  | claim pubkey challengeId solution =>
    cases hstep
    exact h.of_requests rfl rfl rfl rfl rfl (fun _ => .inl) fun _ _ he => he
  | claimOn request now fundable =>
    rw [PricedFaucet.after] at hstep
    split_ifs at hstep
    cases hstep
    exact h.of_requests rfl rfl rfl rfl rfl (fun _ => .inl) fun _ _ he => he
  | redeem request commits =>
    rw [PricedFaucet.after] at hstep
    split_ifs at hstep
    have hend : Ends _ _ _ (ChallengeBook.redeem c showUuid commits request.challengeId request.pubkey
        request.solution f.faucet.clock f.challenges) := triple_redeem _ rfl
    generalize ChallengeBook.redeem c showUuid commits request.challengeId request.pubkey
      request.solution f.faucet.clock f.challenges = o at hend hstep
    obtain ⟨challenges, redeemed | e | _⟩ := o
    · obtain ⟨challenge, hlookup, -, hredeemed, rfl⟩ := hend
      cases hstep
      exact h.redeem hlookup hredeemed
    · obtain rfl : challenges = f.challenges := hend
      cases hstep
      exact h.of_requests rfl rfl rfl rfl rfl (fun _ => .inl) fun _ _ he => he
    · exact hend.elim
  | acquire claim =>
    rw [PricedFaucet.after] at hstep
    split_ifs at hstep with hmem
    obtain ⟨faucet, hfaucet, hstep⟩ := Option.bind_eq_some_iff.1 hstep
    cases hstep
    exact h.acquire hmem hfaucet
  | hold op =>
    rw [PricedFaucet.after] at hstep
    split_ifs at hstep with hop
    obtain ⟨faucet, hfaucet, hstep⟩ := Option.bind_eq_some_iff.1 hstep
    cases hstep
    exact h.hold hop hfaucet
  | unfunded commits id nonce =>
    rw [PricedFaucet.after] at hstep
    split at hstep
    · next cl claim hp hclaim =>
      split_ifs at hstep with hfresh
      obtain ⟨faucet, hfaucet, hstep⟩ := Option.bind_eq_some_iff.1 hstep
      obtain ⟨seen, hseen, hstep⟩ := Option.bind_eq_some_iff.1 hstep
      cases hstep
      -- What is spent had been bought at its price, and the other is at the same.
      obtain ⟨claim', hclaim', -, n, hn, hquoted⟩ := h.priced.holder _ _ hp
      obtain rfl := Option.some.inj (hclaim.symm.trans hclaim')
      obtain rfl := Option.some.inj (hseen.symm.trans hn)
      have hclock := (Faucet.holderStep h.faucet rfl hfaucet).1
      refine (h.hold rfl hfaucet).issue hfresh ?_
      rw [hclock]
      exact hquoted
    · cases hstep
  | record commits =>
    rw [PricedFaucet.after] at hstep
    split at hstep
    · next cl p claim hp hclaim =>
      obtain ⟨faucet, hfaucet, hstep⟩ := Option.bind_eq_some_iff.1 hstep
      cases hstep
      exact h.record hp hclaim hfaucet
    · cases hstep

theorem sound_of_reachable (h : (pricedRuns c showUuid cfg).Reachable f) : f.Sound cfg := by
  refine h.invariant (fun f hf => ?_) fun _ _ _ hs _ hstep => hs.step hstep
  obtain ⟨hfaucet, hchallenges, hasking, -, hwaiting, -, hrecorded, -⟩ := hf
  have hholder : f.faucet.holder = none := hfaucet.2.2.2.2.1
  refine ⟨Faucet.sound_of_reachable (.init hfaucet), ?_, ?_, fun before g later he => ?_⟩
  · refine ⟨?_, ?_, ?_, ?_⟩ <;> simp [hrecorded, hholder]
  · refine ⟨?_, ?_, ?_, ?_⟩ <;> simp [hasking, hwaiting, hholder, hchallenges]
  · rw [hrecorded] at he
    exact absurd he.symm (List.append_ne_nil_of_right_ne_nil _ (List.cons_ne_nil _ _))

end PricedFaucet

/-- **The price of a grant.** In every run, the challenge redeemed for a grant that is counted
    against a network had a target no easier than the price after those of the earlier grants of
    the network in a span of a day that had been recorded when the challenge was priced, for any
    span the grant is in. -/
theorem faucet_priced {c : Crypto} {showUuid : Uuid → Text} {cfg : PricingConfig} {f : PricedFaucet}
    (h : (pricedRuns c showUuid cfg).Reachable f) {before later : List RecordedGrant} {g : RecordedGrant}
    (hg : f.recorded = before ++ g :: later) :
    ∃ n, f.pricedAt.lookup g.redeemed.id = some n ∧ n ≤ before.length ∧
      ∀ p start, g.grant.network = some p → g.grant.Within start →
        g.redeemed.target ≤ targetForExpectedHashes (expectedHashesForPrefix cfg.expectedHashes
          ((before.take n).countP fun r => r.inNetwork p && decide (r.grant.Within start))
          cfg.freeGrantsPerPrefix cfg.powDoublingGrants) := by
  obtain ⟨hnetwork, n, hn, hquoted⟩ := (PricedFaucet.sound_of_reachable h).kept before g later hg
  exact ⟨n, hn, hquoted.le, fun p start hp hwithin => hquoted.span (hnetwork ▸ hp) hwithin.2⟩

/-! Two keys of a network are issued challenges, and then claim. A network has one grant at the
base price, of `1000` hashes. -/

namespace PricingSample

def cfg : PricingConfig where
  dailyGrants := 4
  networkSharePercent := 100
  operator := 1
  widenPrefix _ := none
  expectedHashes := 1000
  expectedHashes_lt := by decide
  freeGrantsPerPrefix := 1
  powDoublingGrants := 1

def network : Option Text := some [97]

def now : DateTime := Duration.seconds 200000

def start : PricedFaucet where
  faucet := ⟨now, ⟨TaskBoard.new, TaskBoard.new⟩, ∅, ∅, [], none, []⟩
  challenges := ⟨⟨∅, ∅⟩, ∅⟩
  asking := []
  claiming := []
  waiting := []
  holder := none
  recorded := []
  pricedAt := ∅

/-- A request for a challenge that is priced when no grant is recorded. -/
def asks (pubkey : PublicKey) (id : Uuid) (target : U256) : List PricedOp :=
  .ask pubkey network ::
    [.verified, .eligible, .budgeted, .shared].map (fun phase => .askOn ⟨pubkey, network, phase⟩ now) ++
    [.issue ⟨pubkey, network, .priced target 0⟩ true id []]

/-- The challenge, once it is redeemed. -/
def redeemed (pubkey : PublicKey) (id : Uuid) (target : U256) : Challenge where
  id
  pubkey := keyText sampleKeys pubkey
  serverNonce := []
  action := faucetAction
  target
  issuedAt := 200000
  expiresAt := 200600
  network
  redeemedAt := some 200000

/-- A claim that goes through. -/
def claims (pubkey : PublicKey) (id : Uuid) (target : U256) : List PricedOp :=
  .claim pubkey id 0 ::
    [.verified, .solved, .fundable, .eligible, .budgeted].map
      (fun phase => .claimOn ⟨pubkey, id, 0, phase⟩ now true) ++
    [.redeem ⟨pubkey, id, 0, .shared⟩ true, .acquire ⟨pubkey, redeemed pubkey id target⟩,
      .hold .checkKey, .hold .checkBudget, .hold .checkShare,
      .hold (.build id (some ⟨[⟨100 + id, 0⟩], [⟨faucetGrantAmount, id, pubkey⟩]⟩)),
      .hold (.prepare 10 true), .record true]

def basePrice : U256 := targetForExpectedHashes 1000

/-- Both ask, and then both claim. -/
def ops : List PricedOp :=
  asks 7 1 basePrice ++ asks 8 2 basePrice ++ claims 7 1 basePrice ++ claims 8 2 basePrice

def firstGrant : RecordedGrant := ⟨⟨7, 200000, network⟩, redeemed 7 1 basePrice⟩

/-- The second grant is made for a challenge at the base price, too. -/
def secondGrant : RecordedGrant := ⟨⟨8, 200000, network⟩, redeemed 8 2 basePrice⟩

theorem exists_recorded : ∃ f, (pricedRuns sampleKeys (fun _ => []) cfg).Reachable f ∧
    f.recorded = [firstGrant, secondGrant] := by
  have hend : (ops.foldlM (PricedFaucet.after sampleKeys (fun _ => []) cfg) start).map
      PricedFaucet.recorded = some [firstGrant, secondGrant] := by decide +kernel
  obtain ⟨f, hf, hrecorded⟩ := Option.map_eq_some_iff.1 hend
  have hinit : (pricedRuns sampleKeys (fun _ => []) cfg).Reachable start :=
    .init ⟨⟨rfl, rfl, rfl, rfl, rfl, rfl⟩, rfl, rfl, rfl, rfl, rfl, rfl, rfl⟩
  exact ⟨f, hinit.foldlM (fun _ _ _ _ hstep => ⟨trivial, hstep⟩) hf, hrecorded⟩

end PricingSample

open PricingSample in
/-- The price the second of the grants was made at. -/
theorem faucet_priced_sample : ∃ n ≤ 1, basePrice ≤ targetForExpectedHashes (expectedHashesForPrefix 1000
    (([firstGrant].take n).countP fun r => r.inNetwork [97] && decide (r.grant.Within 200000)) 1 1) := by
  obtain ⟨f, hf, hrecorded⟩ := exists_recorded
  obtain ⟨n, -, hn, hprice⟩ := @faucet_priced _ _ _ f hf [firstGrant] [] secondGrant hrecorded
  exact ⟨n, hn, hprice [97] 200000 rfl (by decide)⟩

open PricingSample in
/-- A grant may be the second of its network in a span, and made at the price of the first. -/
theorem faucet_price_overtaken : ¬ ∀ (c : Crypto) (showUuid : Uuid → Text) (cfg : PricingConfig)
    (f : PricedFaucet), (pricedRuns c showUuid cfg).Reachable f →
    ∀ (before later : List RecordedGrant) (g : RecordedGrant), f.recorded = before ++ g :: later →
    ∀ p start, g.grant.network = some p → g.grant.Within start →
      g.redeemed.target ≤ targetForExpectedHashes (expectedHashesForPrefix cfg.expectedHashes
        (before.countP fun r => r.inNetwork p && decide (r.grant.Within start))
        cfg.freeGrantsPerPrefix cfg.powDoublingGrants) := by
  intro h
  obtain ⟨f, hf, hrecorded⟩ := exists_recorded
  have hprice := h _ _ _ f hf [firstGrant] [] secondGrant hrecorded [97] 200000 rfl (by decide)
  revert hprice
  decide +kernel

end Itx
