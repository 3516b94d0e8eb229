import Itx.Chain.Mempool
import Itx.Chain.Work

/-!
# Adding a block does not panic, but for one kind of block

What `add_block` expects to be there is there, from every state of a run: the
blocks of the chains it replays and traces (`Tree`), the outputs spent by the
transactions of the mempool (`Admitted`), targets whose work and whose next
adjustment are in range (`Limits`, `TargetOn`).

The exception is a block without transactions. Its Merkle root is computed before
the check that it has any (`checkMerkleRoot`), and is that of an empty layer: such
a block panics if it passes the checks made before, which its sender can arrange
(`addBlock_panics`). Where no block taken up is one of these, no call panics
(`addBlock_ne_panic`).
-/

namespace Itx

open Blockchain

variable {c : Crypto} {u : Utxos} {block : Block}

/-! ## Merkle roots -/

/-- A layer over some hashes has some. -/
theorem merkleLayer_ne_nil {layer : List Hash} (h : layer ≠ []) : merkleLayer c layer ≠ [] := by
  cases layer with
  | nil => exact absurd rfl h
  | cons left layer => cases layer <;> simp [merkleLayer]

/-- So there is a root over any hashes. -/
theorem merkleFold_ne_nil {n : ℕ} {layer : List Hash} (h : layer ≠ []) : merkleFold c n layer ≠ [] := by
  induction n generalizing layer with
  | zero => exact h
  | succ n ih =>
    rw [merkleFold]
    split
    · exact ih (merkleLayer_ne_nil h)
    · exact h

/-- Only a list without transactions has no Merkle root. -/
theorem merkleRoot_eq_none {transactions : List Transaction} :
    merkleRoot c transactions = none ↔ transactions = [] := by
  refine ⟨fun h => ?_, fun h => by subst h; rfl⟩
  by_contra hne
  have hlen := List.getElem?_eq_none_iff.1 h
  have hlayer : transactions.map c.hashTransaction ≠ [] := by simpa using hne
  exact merkleFold_ne_nil hlayer (List.eq_nil_of_length_eq_zero (Nat.le_zero.1 hlen))

/-! ## Verifying transactions -/

/-- The inputs are summed with checks. -/
theorem calculateInputValue_ne_panic {inputs : List TransactionInput} {acc : ℕ} :
    calculateInputValue u inputs acc ≠ .panic := by
  induction inputs generalizing acc with
  | nil => simp [calculateInputValue]
  | cons input inputs ih =>
    exact Outcome.bind_ne_panic Outcome.okOr_ne_panic fun _ _ =>
      Outcome.bind_ne_panic Outcome.okOr_ne_panic fun _ _ => ih

/-- So are the fees. -/
theorem calculateMinerFeesFrom_ne_panic {txs : List Transaction} {acc : ℕ} :
    calculateMinerFeesFrom u txs acc ≠ .panic := by
  induction txs generalizing acc with
  | nil => simp [calculateMinerFeesFrom]
  | cons tx txs ih =>
    refine Outcome.bind_ne_panic calculateInputValue_ne_panic fun _ _ => ?_
    refine Outcome.bind_ne_panic outputValue_ne_panic fun _ _ => ?_
    exact Outcome.bind_ne_panic Outcome.ensure_ne_panic fun _ _ =>
      Outcome.bind_ne_panic Outcome.okOr_ne_panic fun _ _ => ih

/-- The inputs of a transaction are verified one by one, with checks. -/
theorem Block.verifyInputs_ne_panic {outputs : List TransactionOutput}
    {inputs : List TransactionInput} {spent : List Hash} {acc : ℕ} :
    Block.verifyInputs c u outputs inputs spent acc ≠ .panic := by
  induction inputs generalizing spent acc with
  | nil => simp [Block.verifyInputs]
  | cons input inputs ih =>
    refine Outcome.bind_ne_panic Outcome.okOr_ne_panic fun _ _ => ?_
    refine Outcome.bind_ne_panic Outcome.ensure_ne_panic fun _ _ => ?_
    exact Outcome.bind_ne_panic Outcome.ensure_ne_panic fun _ _ =>
      Outcome.bind_ne_panic Outcome.okOr_ne_panic fun _ _ => ih

/-- So are the transactions of a block. -/
theorem Block.verifySpends_ne_panic {txs : List Transaction} {spent : List Hash} :
    Block.verifySpends c u txs spent ≠ .panic := by
  induction txs generalizing spent with
  | nil => simp [Block.verifySpends]
  | cons tx txs ih =>
    refine Outcome.bind_ne_panic Block.verifyInputs_ne_panic fun _ _ => ?_
    exact Outcome.bind_ne_panic outputValue_ne_panic fun _ _ =>
      Outcome.bind_ne_panic Outcome.ensure_ne_panic fun _ _ => ih

/-- The coinbase is only looked for in a block that has transactions. -/
theorem Block.verifyTransactions_ne_panic {height : ℕ} :
    block.verifyTransactions c height u ≠ .panic := by
  refine Outcome.bind_ne_panic Outcome.ensure_ne_panic fun _ hne => ?_
  refine Outcome.bind_ne_panic ?_ fun _ _ => Block.verifySpends_ne_panic
  refine Outcome.bind_ne_panic ?_ fun coinbase _ => ?_
  · rw [Ne, Outcome.expect_eq_panic, List.getElem?_eq_none_iff]
    exact fun h => Outcome.ensure_eq_ok.1 hne (List.eq_nil_of_length_eq_zero (by omega))
  · refine Outcome.bind_ne_panic Outcome.ensure_ne_panic fun _ _ => ?_
    refine Outcome.bind_ne_panic calculateMinerFeesFrom_ne_panic fun _ _ => ?_
    refine Outcome.bind_ne_panic outputValue_ne_panic fun _ _ => ?_
    exact Outcome.bind_ne_panic Outcome.okOr_ne_panic fun _ _ => Outcome.ensure_ne_panic

/-! ## Work and targets -/

namespace Blockchain

open Call

variable {s : Blockchain} {blocks : Finmap fun _ : Hash => Block} {chain : List Hash} {amb : Ambient}

/-- A block has a target whose work is in range. -/
def TargetOn (_ : Finmap fun _ : Hash => Block) (_ : List Hash) (block : Block) : Prop :=
  1 ≤ block.header.target ∧ block.header.target ≤ minTarget

/-- The work of known blocks is that of their targets, none of which is zero. -/
theorem workOfChain_ne_none
    (h : ∀ x ∈ chain, ∃ b, blocks.lookup x = some b ∧ 1 ≤ b.header.target ∧
      b.header.target ≤ minTarget) :
    workOfChain blocks chain ≠ none := by
  rcases chain with _ | ⟨y, chain⟩
  · exact Option.some_ne_none _
  · have : Nonempty Block := ⟨(h y List.mem_cons_self).choose⟩
    choose! block hlookup h₁ h₂ using h
    have hmin : minTarget ≤ 2 ^ 256 - 2 := by decide
    rw [workOfChain_eq fun x hx => ⟨hlookup x hx, h₁ x hx, (h₂ x hx).trans hmin⟩]
    exact Option.some_ne_none _

/-- Each known block has a way to the active chain, so its fork is found. -/
theorem Tree.prunableAmong_ne_panic (h : Tree c s) (hne : ∀ block, c.hashBlock block ≠ Hash.zero)
    {keepDepth : ℕ} {hs : List Hash} (hhs : ∀ x ∈ hs, x ∈ s.blocks) :
    prunableAmong s keepDepth hs ≠ .panic := by
  induction hs with
  | nil => simp [prunableAmong]
  | cons x hs ih =>
    refine Outcome.bind_ne_panic (ih fun y hy => hhs y (List.mem_cons_of_mem _ hy)) fun _ _ => ?_
    dsimp only
    split
    · simp
    · obtain ⟨chain, hchain⟩ := h.rooted x (hhs x List.mem_cons_self)
      rw [(traceBranchWithIndex_eq (h.zero_notMem hne) h.active hchain).1]
      simp

/-! ## What is received -/

/-- The offset `time_sync` applies: less than a minute over `70`. -/
def maxTimeOffset : Duration := Duration.seconds (71 * 60)

/-- The clock is not within a few hours of the ends of the range of `DateTime`. -/
def ClockInRange (now : DateTime) : Prop :=
  minDateTime + maxTimeOffset ≤ now ∧
    now + maxTimeOffset + Duration.seconds maxFutureBlockDriftSeconds ≤ maxDateTime

instance (now : DateTime) : Decidable (ClockInRange now) :=
  inferInstanceAs (Decidable (_ ∧ _))

/-- A block that fits in memory. -/
def Sized (c : Crypto) (block : Block) : Prop :=
  (block.transactions.tail.map c.serializedSize).sum < u64Bound

instance (c : Crypto) (block : Block) : Decidable (Sized c block) :=
  inferInstanceAs (Decidable (_ < _))

/-- What the calls of a node are given: the clock reads a time in range, the
    offset is that of `time_sync`, and a block is one that fits in memory. -/
def Received (c : Crypto) : Blockchain → Op → Prop
  | _, .addBlock amb block => ClockInRange amb.now ∧ Sized c block
  | _, .setTimeOffset offset => -maxTimeOffset ≤ offset ∧ offset ≤ maxTimeOffset
  | _, _ => True

/-- The running target, the offset and the orphans are within limits. -/
structure Limits (c : Crypto) (s : Blockchain) : Prop where
  target : s.target ≤ minTarget
  offset : -maxTimeOffset ≤ s.timeOffset ∧ s.timeOffset ≤ maxTimeOffset
  orphans : ∀ h block, s.orphans.lookup h = some block → Sized c block

/-- The limits are of the chain and its target. -/
theorem Limits.of_sameChain {s₀ : Blockchain} (h : SameChain s₀ s) (hl : Limits c s₀) :
    Limits c s := by
  refine ⟨?_, ?_, ?_⟩
  · rw [h.target]
    exact hl.target
  · rw [h.timeOffset]
    exact hl.offset
  · rw [h.orphans]
    exact hl.orphans

/-- An offer to the mempool leaves them alone. -/
theorem limits_addToMempool (now : DateTime) (tx : Transaction) :
    Preserves (Limits c) (addToMempool c now tx) := by
  intro s hs
  refine (sameChain_addToMempool s tx s (.refl s)).imp ?_ ?_ ?_
  exacts [fun _ _ h => hs.of_sameChain h, fun _ _ h => hs.of_sameChain h,
    fun _ h => hs.of_sameChain h]

/-- A target is never adjusted beyond the easiest one. -/
theorem adjustTarget_le {target target' : U256} {startTime endTime : DateTime}
    (h : adjustTarget target startTime endTime = some target') : target' ≤ minTarget := by
  obtain ⟨t, -, rfl⟩ := Option.map_eq_some_iff.1 h
  exact min_le_left _ _

/-- Nor is it when it is recomputed along a chain. -/
theorem recomputeTargetForChain_le {target : U256}
    (h : recomputeTargetForChain blocks chain = some target) : target ≤ minTarget := by
  rw [recomputeTargetForChain] at h
  cases hw : chain.length / difficultyUpdateInterval with
  | zero =>
    rw [hw] at h
    obtain rfl := Option.some.inj h
    exact le_rfl
  | succ windows =>
    rw [hw, recomputeTargetAfter] at h
    obtain ⟨t, -, h⟩ := Option.bind_eq_some_iff.1 h
    obtain ⟨a, -, h⟩ := Option.bind_eq_some_iff.1 h
    obtain ⟨b, -, h⟩ := Option.bind_eq_some_iff.1 h
    exact adjustTarget_le h

/-- The calls that take up blocks keep the limits. -/
theorem moves_limits (amb : Ambient) {P : Blockchain → Block → Prop}
    (hP : ∀ s block, P s block → Sized c block) : Moves c amb P (Limits c) (Limits c) where
  push _ _ hs _ _ := ⟨hs.target, hs.offset, hs.orphans⟩
  adjust _ _ _ _ hs _ _ _ _ ht := ⟨adjustTarget_le ht, hs.offset, hs.orphans⟩
  prune _ _ hs _ := ⟨hs.target, hs.offset, hs.orphans⟩
  store _ _ _ _ hs _ _ := ⟨hs.target, hs.offset, hs.orphans⟩
  switch _ _ _ _ _ _ _ hs _ _ ht _ _ := ⟨recomputeTargetForChain_le ht, hs.offset, hs.orphans⟩
  pool tx _ := limits_addToMempool amb.now tx
  keep s block hs hp _ := by
    rw [keepOrphan]
    split
    · exact hs
    · refine ⟨hs.target, hs.offset, fun h b hb => ?_⟩
      rw [Finmap.lookup_insert_eq] at hb
      split_ifs at hb
      · rw [← Option.some.inj hb]
        exact hP s block hp
      · exact hs.orphans h b hb
  take s block hs := by
    refine ⟨hs.target, hs.offset, fun h b hb => ?_⟩
    rw [takeOrphan, Finmap.lookup_erase_eq] at hb
    split_ifs at hb
    exact hs.orphans h b hb

/-! ## Running states -/

/-- A sound state within limits, whose blocks have targets in range. -/
structure Running (c : Crypto) (s : Blockchain) : Prop extends Sound c s where
  limits : Limits c s
  targets : Each TargetOn s

/-- What a chain runs on is that it is sound, within its limits, and has each block at its
    target. -/
theorem running_iff : (Sound c s ∧ Limits c s) ∧ Each TargetOn s ↔ Running c s :=
  ⟨fun h => ⟨h.1.1, h.1.2, h.2⟩, fun h => ⟨⟨h.toSound, h.limits⟩, h.targets⟩⟩

/-- The targets of its blocks are neither zero nor easier than the easiest. -/
theorem Running.target_mem (h : Running c s) {x : Hash} (hx : x ∈ s.blocks) :
    ∃ b, s.blocks.lookup x = some b ∧ 1 ≤ b.header.target ∧ b.header.target ≤ minTarget := by
  obtain ⟨b, hb⟩ := Finmap.mem_iff.1 hx
  obtain ⟨chain, hchain⟩ := h.rooted x hx
  exact ⟨b, hb, h.targets chain x b hchain hb⟩

/-- An offer to the mempool keeps it running. -/
theorem running_addToMempool {N : Blockchain → Prop} (now : DateTime) (tx : Transaction) :
    Triple (Running c) (addToMempool c now tx) (fun _ => Running c) (fun _ => Running c) N :=
  (((sound_addToMempool (N := fun _ => False) now tx).and (limits_addToMempool now tx)).and
    (ofChain_each.addToMempool now tx)).conseq (fun _ => running_iff.2) (fun _ _ => running_iff.1)
    (fun _ _ => running_iff.1) fun _ hs => hs.1.1.elim

section

variable (hinj : Function.Injective c.hashBlock) (hne : ∀ block, c.hashBlock block ≠ Hash.zero)
  (hheader : ∀ header, c.hashHeader header ≠ 0) (hgenesis : (genesisBlock c).isSome)

include hinj hne hheader in
/-- So do the calls that take up blocks. -/
theorem moves_running (amb : Ambient) {P : Blockchain → Block → Prop}
    (hP : ∀ s block, P s block → Sized c block) {N : Blockchain → Prop} :
    Moves c amb P (Running c) N := by
  have h := (moves_sound hinj hne amb P (N := fun _ => False)).and (moves_limits (c := c) amb hP)
  -- A header meeting a target makes it positive.
  have hpos : ∀ {block : Block}, c.hashHeader block.header ≤ block.header.target →
      1 ≤ block.header.target := fun {block} hle =>
    (Nat.one_le_iff_ne_zero.2 (hheader block.header)).trans hle
  refine (h.each hinj hne (fun _ hs => hs.1.toTree) (Φ := TargetOn)
    (fun _ _ _ _ _ hb => hb) ?_ ?_).congr (fun _ => running_iff) fun _ hs => hs.1.1.elim
  · intro s block hs _ htip
    obtain ⟨-, ht, hpow, -⟩ := checkExtendingTip_eq_ok.1 htip.checked
    exact ⟨hpos hpow, ht ▸ hs.2.target⟩
  · intro s block forkIndex branch hs _ hoff
    obtain ⟨ht, hpow, -⟩ := checkOffTip_eq_ok.1 hoff.checked
    exact ⟨hpos hpow, recomputeTargetForChain_le ht⟩

/-- A new chain is. -/
theorem running_new : Running c new where
  toSound := sound_new
  limits := ⟨le_rfl, by decide, fun _ _ hb => nomatch hb⟩
  targets := each_new

end

/-! ## The checks -/

/-- The checks made before the Merkle root of a block is computed pass, on the
    path the block goes by. -/
def ReachesMerkleRoot (c : Crypto) (now : DateTime) (s : Blockchain) (block : Block) : Prop :=
  c.hashHeader block.header ≤ block.header.target ∧
    checkTimestamp now s block.header.timestamp = .ok () ∧
    ((block.header.prevBlockHash = s.tipHash ∧ checkGenesis c s block = .ok () ∧
        block.header.target = s.target) ∨
      ∃ forkIndex branch, BranchesOff s block forkIndex branch ∧
        recomputeTargetForChain s.blocks (s.candidateChain forkIndex branch) =
          some block.header.target)

/-- A block has transactions, or fails a check made before its Merkle root is
    computed. -/
def Rooted (c : Crypto) (amb : Ambient) (s : Blockchain) (block : Block) : Prop :=
  block.transactions = [] → ¬ ReachesMerkleRoot c amb.now s block

/-- The sizes of the transactions are summed in range. -/
theorem checkBlockSize_ne_panic (h : Sized c block) : checkBlockSize c block ≠ .panic := by
  refine Outcome.bind_ne_panic ?_ fun _ _ => Outcome.ensure_ne_panic
  rw [Ne, Outcome.expect_eq_panic]
  intro hn
  rw [checkedSum_eq_some.2 ⟨rfl, h⟩] at hn
  cases hn

/-- The times of the check are in range. -/
theorem checkTimestamp_eq (h : Limits c s) {now : DateTime} (hnow : ClockInRange now)
    (timestamp : DateTime) : checkTimestamp now s timestamp = Outcome.ensure
      (timestamp ≤ now + s.timeOffset + Duration.seconds maxFutureBlockDriftSeconds)
      .invalidBlock := by
  obtain ⟨h₁, h₂⟩ := h.offset
  obtain ⟨h₃, h₄⟩ := hnow
  have hdrift : 0 ≤ Duration.seconds maxFutureBlockDriftSeconds := by decide
  have hadd : addDuration now s.timeOffset = some (now + s.timeOffset) := if_pos ⟨by linarith, by linarith⟩
  have hadd' : addDuration (now + s.timeOffset) (Duration.seconds maxFutureBlockDriftSeconds) =
      some (now + s.timeOffset + Duration.seconds maxFutureBlockDriftSeconds) :=
    if_pos ⟨by linarith, by linarith⟩
  rw [checkTimestamp, hadd, Outcome.expect_eq_ok.2 rfl, Outcome.ok_bind, hadd',
    Outcome.expect_eq_ok.2 rfl, Outcome.ok_bind]

/-- The clock and its offset are added in range. -/
theorem checkTimestamp_ne_panic (h : Limits c s) {now : DateTime} (hnow : ClockInRange now)
    (timestamp : DateTime) : checkTimestamp now s timestamp ≠ .panic := by
  rw [checkTimestamp_eq h hnow]
  exact Outcome.ensure_ne_panic

/-- The Merkle root cannot be computed of no transactions, and only of these. -/
theorem checkMerkleRoot_eq_panic : checkMerkleRoot c block = .panic ↔ block.transactions = [] := by
  rw [checkMerkleRoot, Outcome.bind_eq_panic, Outcome.expect_eq_panic, merkleRoot_eq_none]
  simp

/-- The block is compared with a genesis that can be made. -/
theorem checkGenesis_ne_panic (hgenesis : (genesisBlock c).isSome) :
    checkGenesis c s block ≠ .panic := by
  rw [checkGenesis]
  split
  · obtain ⟨genesis, hg⟩ := Option.isSome_iff_exists.1 hgenesis
    rw [hg]
    exact Outcome.bind_ne_panic (by simp [Outcome.expect]) fun _ _ => Outcome.ensure_ne_panic
  · simp

/-- On the tip a check panics at the Merkle root, when all before it have passed. -/
theorem checkExtendingTip_eq_panic (hgenesis : (genesisBlock c).isSome) (h : Running c s)
    (hnow : ClockInRange amb.now) (hsized : Sized c block) :
    checkExtendingTip c amb.now s block = .panic ↔
      checkGenesis c s block = .ok () ∧ block.header.target = s.target ∧
        c.hashHeader block.header ≤ block.header.target ∧ checkBlockSize c block = .ok () ∧
        checkTimestamp amb.now s block.header.timestamp = .ok () ∧ block.transactions = [] := by
  rw [checkExtendingTip, Outcome.check_bind_eq_panic (checkGenesis_ne_panic hgenesis),
    Outcome.check_bind_eq_panic Outcome.ensure_ne_panic, Outcome.ensure_eq_ok,
    Outcome.check_bind_eq_panic Outcome.ensure_ne_panic, Outcome.ensure_eq_ok,
    Outcome.check_bind_eq_panic (checkBlockSize_ne_panic hsized),
    Outcome.check_bind_eq_panic (checkTimestamp_ne_panic h.limits hnow _), Outcome.bind_eq_panic,
    checkMerkleRoot_eq_panic, or_iff_left]
  -- After the Merkle root, nothing panics: the tip is known.
  rintro ⟨_, -, hrest⟩
  cases htip : s.activeChain.getLast? with
  | none =>
    rw [htip] at hrest
    exact Block.verifyTransactions_ne_panic hrest
  | some tip =>
    obtain ⟨b, hb⟩ := Finmap.mem_iff.1 (h.known tip (List.mem_of_getLast? htip))
    rw [htip] at hrest
    refine Outcome.bind_ne_panic (by rw [hb]; simp [Outcome.expect]) (fun _ _ => ?_) hrest
    exact Outcome.bind_ne_panic Outcome.ensure_ne_panic fun _ _ => Block.verifyTransactions_ne_panic

/-- Beside the tip it is the same. -/
theorem checkOffTip_eq_panic (h : Running c s) (hnow : ClockInRange amb.now)
    (hsized : Sized c block) (hne : chain ≠ []) (hchain : ∀ x ∈ chain, x ∈ s.blocks) :
    checkOffTip c amb.now s chain block = .panic ↔
      recomputeTargetForChain s.blocks chain = some block.header.target ∧
        c.hashHeader block.header ≤ block.header.target ∧ checkBlockSize c block = .ok () ∧
        checkTimestamp amb.now s block.header.timestamp = .ok () ∧ block.transactions = [] := by
  obtain ⟨target, ht, -⟩ := exists_recomputeTargetForChain hchain
  obtain ⟨utxos, hu⟩ := exists_replayUtxos (c := c) hchain
  obtain ⟨b, hb⟩ := Finmap.mem_iff.1 (hchain _ (List.getLast_mem hne))
  rw [checkOffTip, ht, hu, List.getLast?_eq_some_getLast hne, Option.some.injEq,
    eq_comm (a := target), Outcome.expect_eq_ok.2 rfl, Outcome.ok_bind,
    Outcome.check_bind_eq_panic Outcome.ensure_ne_panic, Outcome.ensure_eq_ok,
    Outcome.check_bind_eq_panic Outcome.ensure_ne_panic, Outcome.ensure_eq_ok,
    Outcome.check_bind_eq_panic (checkBlockSize_ne_panic hsized),
    Outcome.check_bind_eq_panic (checkTimestamp_ne_panic h.limits hnow _)]
  dsimp only
  rw [hb, Outcome.expect_eq_ok.2 rfl, Outcome.ok_bind, Outcome.bind_eq_panic,
    checkMerkleRoot_eq_panic, or_iff_left]
  rintro ⟨_, -, hrest⟩
  exact Outcome.bind_ne_panic Outcome.ensure_ne_panic
    (fun _ _ => Block.verifyTransactions_ne_panic) hrest

section

variable (hinj : Function.Injective c.hashBlock) (hne : ∀ block, c.hashBlock block ≠ Hash.zero)
  (hheader : ∀ header, c.hashHeader header ≠ 0) (hgenesis : (genesisBlock c).isSome)

include hne in
/-- A branch is of some block. -/
theorem Tree.candidateChain_ne_nil (h : Tree c s) {forkIndex : ℕ} {branch : List Hash}
    (hb : BranchesOff s block forkIndex branch) : s.candidateChain forkIndex branch ≠ [] := by
  intro hnil
  have hparent := (h.linked_candidateChain hne hb).2
  rw [hnil, tipOf_nil] at hparent
  exact hb.parent_ne_zero hparent

include hne hgenesis in
/-- Blocks with transactions do not panic, in a running state. -/
theorem panics_running (hnow : ClockInRange amb.now) :
    Panics c amb (fun s block => Sized c block ∧ Rooted c amb s block) (Running c)
      fun _ => False where
  checkTip s block hs hP hparent hpanic := by
    obtain ⟨hg, ht, hpow, -, htime, hnil⟩ :=
      (checkExtendingTip_eq_panic hgenesis hs hnow hP.1).1 hpanic
    exact hP.2 hnil ⟨hpow, htime, .inl ⟨hparent, hg, ht⟩⟩
  adjust s startTime endTime hs hn := by
    obtain ⟨t, ht, -⟩ := exists_adjustTarget hs.limits.target startTime endTime
    rw [ht] at hn
    cases hn
  prune s hs := hs.toTree.prunableAmong_ne_panic hne fun x hx =>
    Finmap.mem_keys.1 ((amb.order.mem_keys _ _).1 hx)
  trace s h hs _ hmem hnone := by
    obtain ⟨chain, hchain⟩ := hs.rooted h hmem
    obtain ⟨ht, -, hle⟩ := traceBranchWithIndex_eq (hs.toTree.zero_notMem hne) hs.active hchain
    exact hnone _ _ hle ht
  checkOff s block forkIndex branch hs hP hb hpanic := by
    obtain ⟨ht, hpow, -, htime, hnil⟩ := (checkOffTip_eq_panic hs hnow hP.1
      (hs.toTree.candidateChain_ne_nil hne hb) (hb.mem_candidateChain hs.known)).1 hpanic
    exact hP.2 hnil ⟨hpow, htime, .inr ⟨forkIndex, branch, hb, ht⟩⟩
  work s chain hs hmem := workOfChain_ne_none fun x hx => hs.target_mem (hmem x hx)

include hne hgenesis in
/-- A block without transactions whose checks pass up to its Merkle root panics. -/
theorem acceptBlock_eq_panic (hs : Running c s) (hnow : ClockInRange amb.now)
    (hP : ¬ Rooted c amb s block) : (acceptBlock c amb block s).2 = .panic := by
  obtain ⟨hnil, hreach⟩ := Classical.not_imp.1 hP
  obtain ⟨hpow, htime, hpath⟩ := not_not.1 hreach
  have hsized : Sized c block := by
    rw [Sized, hnil]
    exact Nat.two_pow_pos 64
  have hsize : checkBlockSize c block = .ok () := by
    rw [checkBlockSize, hnil]
    rfl
  have key : Triple (· = s) (acceptBlock c amb block) (fun _ _ => False) (fun _ _ => False)
      fun _ => True := by
    refine .get_bind fun s' hs' => ?_
    subst hs'
    rcases hpath with ⟨hparent, hg, ht⟩ | ⟨forkIndex, branch, hb, ht⟩
    · rw [if_pos hparent]
      refine .get_bind fun s hs' => ?_
      subst hs'
      have hpanic := (checkExtendingTip_eq_panic hgenesis hs hnow hsized).2
        ⟨hg, ht, hpow, hsize, htime, hnil⟩
      exact .lift_known (fun _ hok => nomatch hpanic.symm.trans hok)
        (fun _ herr => nomatch hpanic.symm.trans herr) fun _ => trivial
    · rw [if_neg hb.parent_ne_tip]
      refine .lift_bind (Outcome.ensure_of hb.parent_ne_zero) (.get_bind fun s hs' => ?_)
      subst hs'
      rw [if_neg (not_not.2 hb.parent_known)]
      refine .lift_bind hb.traced (.lift_bind rfl (.lift_bind (Outcome.expect_eq_ok.2
        (if_pos hb.forkIndex_le)) ?_))
      have hpanic := (checkOffTip_eq_panic hs hnow hsized (hs.toTree.candidateChain_ne_nil hne hb)
        (hb.mem_candidateChain hs.known)).2 ⟨ht, hpow, hsize, htime, hnil⟩
      exact .lift_known (fun _ hok => nomatch hpanic.symm.trans hok)
        (fun _ herr => nomatch hpanic.symm.trans herr) fun _ => trivial
  have hend := key s rfl
  generalize acceptBlock c amb block s = r at hend
  obtain ⟨s', a | e | _⟩ := r
  exacts [hend.elim, hend.elim, rfl]

/-! ## Adding a block -/

include hinj hne hheader in
/-- A call of a node leaves a running state, even after a panic. -/
theorem Running.step (op : Op) (hI : Running c s) (hop : Received c s op) :
    Running c (op.call c s).1 := by
  cases op with
  | addBlock amb block =>
    exact (preserves_addBlockWithin (moves_running hinj hne hheader amb fun _ _ => id)
      (fun _ h => h.toKeyed) (fun _ h => h.limits.orphans) (fun _ _ => id) hop.2).apply hI
  | addToMempool now tx => exact Preserves.apply (running_addToMempool now tx) hI
  | cleanupMempool now =>
    have hsame := (SameChain.refl s).cleanupMempool now
    exact ⟨⟨ofChain_validTree.1 _ _ hsame hI.toValidTree, hI.toAdmitted.cleanupMempool now⟩,
      hI.limits.of_sameChain hsame, ofChain_each.1 _ _ hsame hI.targets⟩
  | setTimeOffset offset =>
    exact ⟨⟨ofChain_validTree.2 s offset hI.toValidTree, ⟨hI.nodup, hI.present⟩⟩,
      ⟨hI.limits.target, hop, hI.limits.orphans⟩, ofChain_each.2 s offset hI.targets⟩

include hinj hne hheader in
/-- The states reached by the calls of a node are running states. -/
theorem running_of_reachable (hs : (chainSystem c).ReachableBy (Received c) s) : Running c s := by
  refine hs.invariant (fun s hs => ?_) fun s op s' hI hop hst => ?_
  · rw [Set.mem_singleton_iff.1 hs]
    exact running_new
  · rw [show s' = (op.call c s).1 from hst]
    exact hI.step hinj hne hheader _ hop

include hinj hne hheader hgenesis in
/-- A block taken up that is not `Rooted` panics, whatever was taken up before. -/
theorem addBlockWithin_eq_panic (hnow : ClockInRange amb.now) {depth : ℕ} (hs : Running c s)
    (hsized : Sized c block) (h : ¬ Takes c amb (Rooted c amb) depth block s) :
    (addBlockWithin c amb depth block s).2 = .panic := by
  have hmoves := moves_running hinj hne hheader amb (N := Running c) (P := fun _ => Sized c)
    fun _ _ => id
  have hkeyed : ∀ s, Running c s → Keyed c s := fun _ h => h.toKeyed
  induction depth generalizing block s with
  | zero => exact absurd trivial h
  | succ depth ih =>
    change (Call.bind (acceptBlock c amb block) _ s).2 = _
    rw [Call.bind]
    by_cases hP : Rooted c amb s block
    · -- The block is accepted, and the loop over the orphans panics.
      obtain ⟨s', hash, he, halong⟩ : ∃ s' hash, acceptBlock c amb block s = (s', .ok hash) ∧
          ¬ Along _ _ (readyOrphans amb.order s' hash) s' := by
        by_contra hn
        push Not at hn
        exact h ⟨hP, hn⟩
      have hs' : Running c s' := by
        have := triple_acceptBlock hmoves hkeyed (.of_imp fun _ => id) hs hsized s rfl
        rwa [he] at this
      rw [he]
      refine forEach_eq_panic (I := Running c) (fun orphan ho => ?_) (fun orphan _ t e => ?_)
        (fun orphan ho t ht hR => ?_) hs' halong
      · obtain ⟨x, hx⟩ := mem_readyOrphans ho
        exact .bind (.modify fun t ht => hmoves.take t orphan ht) fun _ =>
          .ignore (preserves_addBlockWithin hmoves hkeyed (fun _ h => h.limits.orphans)
            (fun _ _ => id) (hs'.limits.orphans x orphan hx))
      · exact ignore_ne_err _ (takeOrphan c orphan t) e
      · obtain ⟨x, hx⟩ := mem_readyOrphans ho
        exact ignore_eq_panic.2 (ih (hmoves.take t orphan ht) (hs'.limits.orphans x orphan hx) hR)
    · have hpanic := acceptBlock_eq_panic hne hgenesis hs hnow hP
      generalize acceptBlock c amb block s = r at hpanic
      obtain ⟨s', a | e | _⟩ := r
      · cases hpanic
      · cases hpanic
      · rfl

include hinj hne hheader hgenesis in
/-- The call returns exactly if no block it takes up panics. -/
theorem Running.returns_iff (hs : Running c s) (hnow : ClockInRange amb.now)
    (hsized : Sized c block) :
    (addBlock c amb block s).2 ≠ .panic ↔ TakesUp c amb (Rooted c amb) block s := by
  refine ⟨fun h => ?_, fun htakes => ?_⟩
  · by_contra hn
    exact h (addBlockWithin_eq_panic hinj hne hheader hgenesis hnow hs hsized hn)
  · exact ((triple_addBlock_of (moves_running hinj hne hheader amb fun _ _ h => h.1)
      (fun _ h => h.toKeyed) (panics_running hne hgenesis hnow) (fun _ h => h.limits.orphans)
      (fun _ _ hQ hP => ⟨hQ, hP⟩) hsized).apply ⟨hs, htakes⟩).2

include hinj hne hheader hgenesis in
/-- From every state of a run, adding a block returns, if and only if each block
    taken up, the block itself and the orphans attached after it, has transactions
    or fails a check made before its Merkle root is computed. -/
theorem addBlock_ne_panic (hs : (chainSystem c).ReachableBy (Received c) s)
    (hnow : ClockInRange amb.now) (hsized : Sized c block) :
    (addBlock c amb block s).2 ≠ .panic ↔ TakesUp c amb (Rooted c amb) block s :=
  (running_of_reachable hinj hne hheader hs).returns_iff hinj hne hheader hgenesis hnow hsized

end

/-! ## A block without transactions -/

/-- A block on top of the genesis, without transactions. -/
def emptyBlock : Block := Sample.block 1 1 2 []

noncomputable def emptyCrypto : Crypto := Sample.crypto [] [emptyBlock]

/-- The state when the genesis has been delivered. -/
noncomputable def afterGenesis : Blockchain := run emptyCrypto (Sample.delivering [Sample.genesis])

/-- The genesis has been delivered. -/
theorem reachableBy_afterGenesis :
    (chainSystem emptyCrypto).ReachableBy (Received emptyCrypto) afterGenesis :=
  reachableBy_run_concat [] reachableBy_run_nil ⟨by decide, by decide +kernel⟩

/-- A block without transactions follows it, and the call panics. -/
theorem addBlock_panics :
    (chainSystem emptyCrypto).ReachableBy (Received emptyCrypto) afterGenesis ∧
      ClockInRange Sample.ambient.now ∧ Sized emptyCrypto emptyBlock ∧
      (addBlock emptyCrypto Sample.ambient emptyBlock afterGenesis).2 = .panic :=
  ⟨reachableBy_afterGenesis, by decide, by decide +kernel, by decide +kernel⟩

/-- The state when two branches of one block each have been delivered. -/
noncomputable def beforeSwitch : Blockchain :=
  run Sample.forkCrypto
    (Sample.delivering [Sample.genesis] ++ Sample.delivering [Sample.left] ++ Sample.delivering [Sample.right])

/-- The second branch grows, and the active chain is switched to it. -/
theorem addBlock_ne_panic_switch :
    (addBlock Sample.forkCrypto Sample.ambient Sample.rightNext beforeSwitch).2 ≠ .panic := by
  have hreach : (chainSystem Sample.forkCrypto).ReachableBy (Received Sample.forkCrypto) beforeSwitch := by
    refine reachableBy_run_concat _ (reachableBy_run_concat _ ?_ ⟨by decide, by decide +kernel⟩)
      ⟨by decide, by decide +kernel⟩
    exact reachableBy_run_concat [] reachableBy_run_nil ⟨by decide, by decide +kernel⟩
  refine (addBlock_ne_panic (tableHash_injective _) (tableHash_ne_zero _) (tableHash_ne_zero _)
    (by decide +kernel) hreach (by decide) (by decide +kernel)).2 ?_
  exact takesUp_of_orphans_eq_empty (by decide +kernel) nofun

end Blockchain

end Itx
