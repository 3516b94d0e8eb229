import Itx.Chain.Accept

/-!
# Both paths of an acceptance agree

A block extending the tip is checked against the running target and the unspent
outputs, which are kept up to date; one off the tip against what a replay of the
chain to its parent gives. Both check the same thing (`PassesOn`): a property of
the block and of the chain to its parent, which does not depend on what else the
node knows.

* `retargeted_of_reachable`: the running target is that of the active chain;
* `checkExtendingTip_iff`, `checkOffTip_iff`: either path is `PassesOn`, and the
  clock;
* `passes_of_reachable`: every known block passes on the chain to its parent;
* `acceptance_agrees`: a chain has the same next blocks, active or not.
-/

namespace Itx

open Blockchain Utxos

variable {c : Crypto} {u v : Utxos}

/-! ## Marks do not matter -/

theorem Utxos.SameOutputs.bind_lookup {ε β : Type} {e : ε} (h : SameOutputs u v) (x : Hash)
    (f : TransactionOutput → Outcome ε β) :
    (Outcome.okOr e (u.lookup x) >>= fun p => f p.2) =
      Outcome.okOr e (v.lookup x) >>= fun p => f p.2 := by
  have hx := h x
  cases hu : u.lookup x with
  | none => rw [h.lookup_none hu]
  | some p =>
    obtain ⟨m, hm⟩ := h.lookup hu
    rw [hm]
    rfl

theorem calculateInputValue_congr (h : SameOutputs u v) (inputs : List TransactionInput) (acc : ℕ) :
    calculateInputValue u inputs acc = calculateInputValue v inputs acc := by
  induction inputs generalizing acc with
  | nil => rfl
  | cons input inputs ih =>
    simp only [calculateInputValue, ih]
    exact h.bind_lookup _ fun o => (Outcome.okOr _ (checkedAdd acc o.value)).bind fun acc =>
      calculateInputValue v inputs acc

theorem calculateMinerFeesFrom_congr (h : SameOutputs u v) (txs : List Transaction) (acc : ℕ) :
    calculateMinerFeesFrom u txs acc = calculateMinerFeesFrom v txs acc := by
  induction txs generalizing acc with
  | nil => rfl
  | cons tx txs ih => simp only [calculateMinerFeesFrom, ih, calculateInputValue_congr h]

theorem Block.verifyInputs_congr (h : SameOutputs u v) (outputs : List TransactionOutput)
    (inputs : List TransactionInput) (spent : List Hash) (acc : ℕ) :
    Block.verifyInputs c u outputs inputs spent acc =
      Block.verifyInputs c v outputs inputs spent acc := by
  induction inputs generalizing spent acc with
  | nil => rfl
  | cons input inputs ih =>
    simp only [Block.verifyInputs, ih]
    exact h.bind_lookup input.prevTransactionOutputHash fun o => do
      Outcome.ensure (input.prevTransactionOutputHash ∉ spent) .invalidTransaction
      Outcome.ensure (input.verifies c outputs o.pubkey = true) .invalidSignature
      let acc ← .okOr .invalidTransaction (checkedAdd acc o.value)
      Block.verifyInputs c v outputs inputs (input.prevTransactionOutputHash :: spent) acc

theorem Block.verifySpends_congr (h : SameOutputs u v) (txs : List Transaction) (spent : List Hash) :
    Block.verifySpends c u txs spent = Block.verifySpends c v txs spent := by
  induction txs generalizing spent with
  | nil => rfl
  | cons tx txs ih => simp only [Block.verifySpends, ih, Block.verifyInputs_congr h]

/-- A block is verified the same against the same outputs, whatever the marks. -/
theorem Block.verifyTransactions_congr (h : SameOutputs u v) (block : Block) (height : ℕ) :
    block.verifyTransactions c height u = block.verifyTransactions c height v := by
  simp only [Block.verifyTransactions, Block.verifyCoinbaseTransaction,
    calculateMinerFeesForTransactions, calculateMinerFeesFrom_congr h, Block.verifySpends_congr h]

namespace Blockchain

variable {s : Blockchain} {block : Block} {now : DateTime} {amb : Ambient}
  {blocks blocks' : Finmap fun _ : Hash => Block} {chain : List Hash} {x : Hash}

/-! ## The running target -/

theorem timestampAt_congr (h : ∀ x ∈ chain, blocks.lookup x = blocks'.lookup x) (i : ℕ) :
    timestampAt blocks chain i = timestampAt blocks' chain i := by
  rw [timestampAt, timestampAt]
  cases hi : chain[i]? with
  | none => rfl
  | some x =>
    change (blocks.lookup x).bind _ = (blocks'.lookup x).bind _
    rw [h x (List.mem_of_getElem? hi)]

/-- The target of a chain depends on the blocks of that chain only. -/
theorem recomputeTargetForChain_congr (h : ∀ x ∈ chain, blocks.lookup x = blocks'.lookup x) :
    recomputeTargetForChain blocks chain = recomputeTargetForChain blocks' chain := by
  rw [recomputeTargetForChain, recomputeTargetForChain]
  induction chain.length / difficultyUpdateInterval with
  | zero => rfl
  | succ windows ih => simp only [recomputeTargetAfter, ih, timestampAt_congr h]

theorem timestampAt_concat {i : ℕ} (hi : i < chain.length) :
    timestampAt blocks (chain ++ [x]) i = timestampAt blocks chain i := by
  rw [timestampAt, timestampAt, List.getElem?_append_left hi]

/-- The target after some windows depends on the blocks of these windows only. -/
theorem recomputeTargetAfter_concat {windows : ℕ}
    (hw : windows * difficultyUpdateInterval ≤ chain.length) :
    recomputeTargetAfter blocks (chain ++ [x]) windows = recomputeTargetAfter blocks chain windows := by
  induction windows with
  | zero => rfl
  | succ windows ih =>
    have hpos : 0 < difficultyUpdateInterval := by decide
    rw [Nat.succ_mul] at hw
    simp only [recomputeTargetAfter, ih (by omega), Nat.succ_mul]
    rw [timestampAt_concat (by omega), timestampAt_concat (by omega)]

/-- The running target is that of the active chain. -/
def Retargeted (s : Blockchain) : Prop :=
  recomputeTargetForChain s.blocks s.activeChain = some s.target

theorem ofChain_retargeted : OfChain Retargeted := by
  refine ⟨fun s₀ s h hs => ?_, fun _ _ hs => hs⟩
  rw [Retargeted, h.blocks, h.activeChain, h.target]
  exact hs

/-- Pushing a block, then retargeting. -/
theorem Retargeted.retarget (h : Retargeted s) {target : U256} {x : Hash}
    (hsame : ∀ y ∈ s.activeChain, blocks.lookup y = s.blocks.lookup y)
    (ht : Blockchain.retarget { s with blocks, activeChain := s.activeChain ++ [x] } = some target) :
    recomputeTargetForChain blocks (s.activeChain ++ [x]) = some target := by
  have hs : recomputeTargetForChain blocks s.activeChain = some s.target :=
    (recomputeTargetForChain_congr hsame).trans h
  rw [recomputeTargetForChain] at hs ⊢
  rw [Blockchain.retarget] at ht
  have hdiv := Nat.div_add_mod s.activeChain.length difficultyUpdateInterval
  have hle := Nat.div_mul_le_self s.activeChain.length difficultyUpdateInterval
  simp only [List.length_append, List.length_singleton] at ht ⊢
  split at ht
  · next hmod =>
    -- The block ends a window: one more adjustment.
    have hwindow : (s.activeChain.length + 1) / difficultyUpdateInterval =
        s.activeChain.length / difficultyUpdateInterval + 1 := by
      simp only [difficultyUpdateInterval] at *
      omega
    have hheight : (s.activeChain.length / difficultyUpdateInterval + 1) * difficultyUpdateInterval =
        s.activeChain.length + 1 := by
      simp only [difficultyUpdateInterval] at *
      omega
    rw [hwindow, recomputeTargetAfter, recomputeTargetAfter_concat hle, hs]
    simp only [Option.bind_eq_bind, Option.bind_some, hheight]
    exact ht
  · next hmod =>
    have hwindow : (s.activeChain.length + 1) / difficultyUpdateInterval =
        s.activeChain.length / difficultyUpdateInterval := by
      simp only [difficultyUpdateInterval] at *
      omega
    rw [hwindow, recomputeTargetAfter_concat hle, hs]
    exact ht

/-- What is outdated is not on the active chain. -/
theorem lookup_forgetBlocks_outdated {order : MapOrder} {prunable : List Hash}
    (h : outdated order s = .ok prunable) (hx : x ∈ s.activeChain) :
    (s.forgetBlocks prunable).blocks.lookup x = s.blocks.lookup x := by
  rw [outdated] at h
  split at h
  · exact lookup_forgetBlocks_of_active h hx
  · obtain rfl := Outcome.ok.inj h
    rw [forgetBlocks_nil]

section

variable (hinj : Function.Injective c.hashBlock) (hne : ∀ block, c.hashBlock block ≠ Hash.zero)

include hinj in
theorem accepting_retargeted : Accepting c Retargeted where
  take _ _ hs := hs
  accept amb s block s' o hsteady hs h := by
    have hstore : ∀ y ∈ s.activeChain,
        (s.storeBlock c block).blocks.lookup y = s.blocks.lookup y := fun y hy =>
      hsteady.toKeyed.lookup_storeBlock hinj (hsteady.known y hy)
    cases h with
    | refused _ _ _ => exact hs
    | buffered _ _ _ =>
      rw [keepOrphan]
      split
      exacts [hs, hs]
    | extended htip ht hp =>
      -- What is forgotten is not on the active chain.
      refine (recomputeTargetForChain_congr fun y hy => ?_).trans (hs.retarget hstore ht)
      exact lookup_forgetBlocks_outdated hp hy
    | stored hoff _ _ => exact (recomputeTargetForChain_congr hstore).trans hs
    | switched _ _ _ _ ht _ hsame => exact ofChain_retargeted.1 _ _ hsame ht

include hinj hne in
/-- In every run the running target is that of the active chain. -/
theorem retargeted_of_reachable (hs : (chainSystem c).Reachable s) : Retargeted s :=
  (accepting_retargeted hinj).invariant hinj hne ofChain_retargeted rfl hs

end

/-! ## Blocks that pass -/

/-- A block passes on the chain to its parent, the clock apart: it is checked
    against a replay of that chain. -/
structure PassesOn (c : Crypto) (blocks : Finmap fun _ : Hash => Block) (chain : List Hash)
    (block : Block) : Prop where
  genesis : chain = [] → ∃ genesis, genesisBlock c = some genesis ∧
    c.hashBlock block = c.hashBlock genesis
  target : recomputeTargetForChain blocks chain = some block.header.target
  work : c.hashHeader block.header ≤ block.header.target
  size : checkBlockSize c block = .ok ()
  merkleRoot : checkMerkleRoot c block = .ok ()
  after : ∀ h, chain.getLast? = some h → ∃ parentBlock, blocks.lookup h = some parentBlock ∧
    parentBlock.header.timestamp < block.header.timestamp
  transactions : ∃ utxos, replayUtxos c blocks chain = some utxos ∧
    block.verifyTransactions c chain.length utxos = .ok ()

theorem onChain_passesOn : OnChain (PassesOn c) := by
  intro blocks blocks' chain block hsame h
  refine ⟨h.genesis, ?_, h.work, h.size, h.merkleRoot, fun x hx => ?_, ?_⟩
  · rw [← recomputeTargetForChain_congr hsame, h.target]
  · rw [← hsame x (List.mem_of_getLast? hx)]
    exact h.after x hx
  · rw [← replayUtxos_congr hsame]
    exact h.transactions

theorem checkGenesis_eq_ok : checkGenesis c s block = .ok () ↔
    (s.activeChain = [] → ∃ genesis, genesisBlock c = some genesis ∧
      c.hashBlock block = c.hashBlock genesis) := by
  rw [checkGenesis]
  split
  · next hnil => simp [Outcome.bind_eq_ok, hnil]
  · next hnil => simp [hnil]

/-- The checks of a block extending the tip, where the running target and the
    unspent outputs are those of the active chain. -/
theorem checkExtendingTip_iff (hr : Replayed c s) (ht : Retargeted s) :
    checkExtendingTip c now s block = .ok () ↔
      PassesOn c s.blocks s.activeChain block ∧
        checkTimestamp now s block.header.timestamp = .ok () := by
  obtain ⟨utxos, hu, hsame⟩ := hr.replay
  rw [checkExtendingTip_eq_ok, checkGenesis_eq_ok, Block.verifyTransactions_congr hsame]
  constructor
  · rintro ⟨hg, htarget, hwork, hsize, htime, hroot, hafter, htx⟩
    exact ⟨⟨hg, htarget ▸ ht, hwork, hsize, hroot, hafter, utxos, hu, htx⟩, htime⟩
  · rintro ⟨⟨hg, htarget, hwork, hsize, hroot, hafter, utxos', hu', htx⟩, htime⟩
    obtain rfl := Option.some.inj (hu.symm.trans hu')
    exact ⟨hg, Option.some.inj (htarget.symm.trans ht), hwork, hsize, htime, hroot, hafter, htx⟩

/-- The checks of a block off the tip. -/
theorem checkOffTip_iff (hne : chain ≠ []) :
    checkOffTip c now s chain block = .ok () ↔
      PassesOn c s.blocks chain block ∧ checkTimestamp now s block.header.timestamp = .ok () := by
  rw [checkOffTip_eq_ok]
  constructor
  · rintro ⟨htarget, hwork, hsize, htime, hafter, htx⟩
    obtain ⟨-, -, hroot, -⟩ := hafter _ (List.getLast?_eq_some_getLast hne)
    refine ⟨⟨fun hnil => absurd hnil hne, htarget, hwork, hsize, hroot, fun x hx => ?_, htx⟩, htime⟩
    obtain ⟨parentBlock, hb, -, hlt⟩ := hafter x hx
    exact ⟨parentBlock, hb, hlt⟩
  · rintro ⟨h, htime⟩
    refine ⟨h.target, h.work, h.size, htime, fun x hx => ?_, h.transactions⟩
    obtain ⟨parentBlock, hb, hlt⟩ := h.after x hx
    exact ⟨parentBlock, hb, h.merkleRoot, hlt⟩

theorem ofChain_passes : OfChain fun s => Retargeted s ∧ Each (PassesOn c) s :=
  ofChain_retargeted.and ofChain_each

section

variable (hinj : Function.Injective c.hashBlock) (hne : ∀ block, c.hashBlock block ≠ Hash.zero)

include hinj hne in
/-- If the blocks that are accepted have a property on the chain to their parent,
    every known block keeps having it. -/
theorem Accepting.each {I : Blockchain → Prop}
    {Φ : (Finmap fun _ : Hash => Block) → List Hash → Block → Prop} (h : Accepting c I)
    (hΦ : OnChain Φ)
    (htip : ∀ (amb : Ambient) s block, Steady c s → I s → ExtendsTip c amb.now s block →
      Φ s.blocks s.activeChain block)
    (hoff : ∀ (amb : Ambient) s block forkIndex branch, Steady c s → I s →
      OffTip c amb.now s block forkIndex branch →
      Φ s.blocks (s.candidateChain forkIndex branch) block) :
    Accepting c fun s => I s ∧ Each Φ s where
  take s block hs := ⟨h.take s block hs.1, hs.2⟩
  accept amb s block s' o hsteady hs ha := by
    refine ⟨h.accept amb s block s' o hsteady hs.1 ha, ?_⟩
    have hstored : ∀ {forkIndex branch}, OffTip c amb.now s block forkIndex branch →
        Each Φ (s.storeBlock c block) := fun ho => by
      obtain ⟨hc, hp⟩ := hsteady.toTree.linked_candidateChain hne ho.toBranchesOff
      exact hs.2.storeBlock hinj hne hΦ hsteady.toTree hc hp (hoff amb s block _ _ hsteady hs.1 ho)
    cases ha with
    | refused _ _ _ => exact hs.2
    | buffered _ _ _ =>
      rw [keepOrphan]
      split
      exacts [hs.2, hs.2]
    | extended hext _ _ =>
      have hpushed : Each Φ (s.storeBlock c block) := hs.2.storeBlock hinj hne hΦ hsteady.toTree
        hsteady.active hext.parent (htip amb s block hsteady hs.1 hext)
      exact Each.forgetBlocks hΦ hpushed _
    | stored ho _ _ => exact hstored ho
    | switched ho _ _ _ _ _ hsame => exact ofChain_each.1 _ _ hsame (hstored ho)

include hinj hne in
theorem accepting_passes : Accepting c fun s => Retargeted s ∧ Each (PassesOn c) s :=
  (accepting_retargeted hinj).each hinj hne onChain_passesOn
    (fun _ _ _ hsteady ht hext => ((checkExtendingTip_iff hsteady.toReplayed ht).1 hext.checked).1)
    fun _ _ _ _ _ hsteady _ ho =>
      ((checkOffTip_iff (hsteady.toTree.candidateChain_ne_nil hne ho.toBranchesOff)).1 ho.checked).1

include hinj hne in
/-- In every run every known block passes on the chain to its parent. -/
theorem passes_of_reachable (hs : (chainSystem c).Reachable s) :
    Retargeted s ∧ Each (PassesOn c) s :=
  (accepting_passes hinj hne).invariant hinj hne ofChain_passes ⟨rfl, each_new⟩ hs

include hne in
/-- A block on a known chain other than the active one branches off at it. -/
theorem Tree.branchesOff (h : Tree c s) (hchain : Linked s.blocks chain) (hnil : chain ≠ [])
    (hactive : s.activeChain ≠ chain) (hp : block.header.prevBlockHash = tipOf chain) :
    ∃ forkIndex branch, s.candidateChain forkIndex branch = chain ∧
      BranchesOff s block forkIndex branch := by
  have h₀ := h.zero_notMem hne
  obtain ⟨l, x, rfl⟩ := (List.eq_nil_or_concat' chain).resolve_left hnil
  obtain ⟨ht, he, hle⟩ := traceBranchWithIndex_eq h₀ h.active hchain
  rw [tipOf_concat] at hp
  refine ⟨_, _, he, ?_, ?_, ?_, ?_, hle⟩
  · exact fun hzero => h₀ (hzero ▸ hp ▸ hchain.mem x (by simp))
  · intro htip
    refine hactive (h.active.unique h₀ hchain ?_)
    rw [← tipHash_eq, ← htip, hp, tipOf_concat]
  · rw [hp]
    exact hchain.mem x (by simp)
  · rw [hp, ht]

include hinj hne in
/-- In every run the running target is that of the active chain, and a block passes
    the checks on top of a chain where it is the active one exactly when it passes
    them where another chain is, the clock, the offset and the blocks of the chain
    being the same. -/
theorem acceptance_agrees {s₁ s₂ : Blockchain} (h₁ : (chainSystem c).Reachable s₁)
    (h₂ : (chainSystem c).Reachable s₂) :
    recomputeTargetForChain s₁.blocks s₁.activeChain = some s₁.target ∧
      ∀ now block, s₁.activeChain ≠ [] → s₂.activeChain ≠ s₁.activeChain →
        (∀ x ∈ s₁.activeChain, s₁.blocks.lookup x = s₂.blocks.lookup x) →
        s₁.timeOffset = s₂.timeOffset → block.header.prevBlockHash = tipOf s₁.activeChain →
        (ExtendsTip c now s₁ block ↔ ∃ forkIndex branch,
          s₂.candidateChain forkIndex branch = s₁.activeChain ∧
            OffTip c now s₂ block forkIndex branch) := by
  have ht := retargeted_of_reachable hinj hne h₁
  refine ⟨ht, fun now block hnil hactive hsame htime hp => ?_⟩
  have hs₁ := steady_of_reachable hinj hne h₁
  have hs₂ := steady_of_reachable hinj hne h₂
  have hclock : checkTimestamp now s₁ block.header.timestamp =
      checkTimestamp now s₂ block.header.timestamp := by
    rw [checkTimestamp, checkTimestamp, htime]
  have hpasses : PassesOn c s₁.blocks s₁.activeChain block ↔
      PassesOn c s₂.blocks s₁.activeChain block :=
    ⟨onChain_passesOn _ _ _ _ hsame, onChain_passesOn _ _ _ _ fun x hx => (hsame x hx).symm⟩
  have hiff : ExtendsTip c now s₁ block ↔ PassesOn c s₂.blocks s₁.activeChain block ∧
      checkTimestamp now s₂ block.header.timestamp = .ok () := by
    rw [← hpasses, ← hclock, ← checkExtendingTip_iff hs₁.toReplayed ht]
    exact ⟨fun h => h.checked, fun h => ⟨hp, h⟩⟩
  rw [hiff, ← checkOffTip_iff hnil]
  constructor
  · intro hcheck
    obtain ⟨forkIndex, branch, he, hb⟩ := hs₂.toTree.branchesOff hne
      (hs₁.active.congr hsame) hnil hactive hp
    exact ⟨forkIndex, branch, he, hb, he ▸ hcheck⟩
  · rintro ⟨forkIndex, branch, he, hoff⟩
    exact he ▸ hoff.checked

end

/-- A block on top of the first branch, once the second one has become active. -/
def leftNext : Block := Sample.block 4 2 5 [Sample.payment [] 4 (50 * 10 ^ 8) 8]

noncomputable def leftNextCrypto : Crypto :=
  Sample.crypto (Sample.left.transactions ++ Sample.right.transactions ++
    Sample.rightNext.transactions ++ leftNext.transactions)
    [Sample.left, Sample.right, Sample.rightNext, leftNext]

/-- Where the first branch is the active chain, and where the second is. -/
noncomputable def onLeft : Blockchain :=
  run leftNextCrypto (Sample.delivering [Sample.genesis, Sample.left])

noncomputable def onRight : Blockchain :=
  run leftNextCrypto (Sample.delivering [Sample.genesis, Sample.left, Sample.right, Sample.rightNext])

/-- The block passes on the first branch, hence off the second one. -/
theorem acceptance_agrees_leftNext :
    ExtendsTip leftNextCrypto Sample.ambient.now onLeft leftNext ∧
      ∃ forkIndex branch, onRight.candidateChain forkIndex branch = onLeft.activeChain ∧
        OffTip leftNextCrypto Sample.ambient.now onRight leftNext forkIndex branch := by
  have hext : ExtendsTip leftNextCrypto Sample.ambient.now onLeft leftNext :=
    ⟨by decide +kernel, by decide +kernel⟩
  refine ⟨hext, ((acceptance_agrees (tableHash_injective _) (tableHash_ne_zero _)
    (reachable_run _) (reachable_run _)).2 _ leftNext (by decide +kernel) (by decide +kernel) ?_
    (by decide +kernel) (by decide +kernel)).1 hext⟩
  decide +kernel

end Blockchain

end Itx
