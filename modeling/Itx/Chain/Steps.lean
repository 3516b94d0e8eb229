import Itx.Chain.Utxos

/-!
# What the operations of the chain can do

The steps a call is made of, stated once, so that an invariant of the chain is
proved from what each of them does to it.

* The mempool operations leave the chain alone: they change the mempool and the
  marks of the unspent outputs (`SameChain`).
* A block is accepted by extending the tip, or off the tip, possibly with a
  reorganisation; then the orphans waiting for it are taken up in turn
  (`Moves`, `triple_addBlock`).
-/

namespace Itx.Blockchain

open Utxos Call

variable {c : Crypto} {now : DateTime}

/-! ## The mempool -/

/-- `s` is `s₀` but for the mempool and the marks. -/
structure SameChain (s₀ s : Blockchain) : Prop where
  outputs : SameOutputs s.utxos s₀.utxos
  target : s.target = s₀.target
  blocks : s.blocks = s₀.blocks
  activeChain : s.activeChain = s₀.activeChain
  orphans : s.orphans = s₀.orphans
  pendingPrunes : s.pendingPrunes = s₀.pendingPrunes
  timeOffset : s.timeOffset = s₀.timeOffset

namespace SameChain

variable {s₀ s : Blockchain}

/-- A chain is the same as itself. -/
theorem refl (s : Blockchain) : SameChain s s := ⟨.refl _, rfl, rfl, rfl, rfl, rfl, rfl⟩

/-- And the same as one that is the same as another. -/
theorem trans {s₁ s₂ : Blockchain} (h : SameChain s₀ s₁) (h' : SameChain s₁ s₂) :
    SameChain s₀ s₂ :=
  ⟨h'.outputs.trans h.outputs, h'.target.trans h.target, h'.blocks.trans h.blocks,
    h'.activeChain.trans h.activeChain, h'.orphans.trans h.orphans,
    h'.pendingPrunes.trans h.pendingPrunes, h'.timeOffset.trans h.timeOffset⟩

/-- A change of the marks and of the mempool. -/
theorem update (h : SameChain s₀ s) {utxos : Utxos} (mempool : List (DateTime × Transaction))
    (hu : SameOutputs utxos s.utxos) : SameChain s₀ { s with utxos, mempool } :=
  ⟨hu.trans h.outputs, h.target, h.blocks, h.activeChain, h.orphans, h.pendingPrunes,
    h.timeOffset⟩

/-- Marks and the mempool are not of the chain. -/
theorem setMarks (h : SameChain s₀ s) (marked : Bool) (hs : List Hash)
    (mempool : List (DateTime × Transaction)) :
    SameChain s₀ { s with utxos := s.utxos.setMarks marked hs, mempool } :=
  h.update mempool (sameOutputs_setMarks _ _ _)

/-- Entries of the mempool run out beside the chain. -/
theorem cleanupMempool (h : SameChain s₀ s) (now : DateTime) :
    SameChain s₀ (s.cleanupMempool now) :=
  h.setMarks _ _ _

/-- So are those evicted that a block confirms. -/
theorem evictStaleMempoolEntries (h : SameChain s₀ s) (now : DateTime) (confirmed : List Hash) :
    SameChain s₀ (s.evictStaleMempoolEntries c now confirmed) :=
  (h.cleanupMempool now).update _ (.refl _)

/-- The mempool marks what it spends. -/
theorem markPending (h : SameChain s₀ s) : SameChain s₀ s.markPending := by
  refine h.update _ ?_
  generalize s.mempool = entries
  induction entries using List.reverseRecOn with
  | nil => exact .refl _
  | append_singleton entries entry ih =>
    rw [List.foldl_append]
    exact (sameOutputs_setMarks _ _ _).trans ih

end SameChain

/-- Conflicts are looked up. -/
theorem sameChain_conflictingIndices (s₀ : Blockchain) (newFee : ℕ) (inputs : List TransactionInput)
    (indices : List ℕ) : Preserves (SameChain s₀) (conflictingIndices newFee inputs indices) := by
  induction inputs generalizing indices with
  | nil => exact .pure _
  | cons input inputs ih =>
    refine .bind .get fun s => ?_
    split
    · split
      · exact .bind (.lift _) fun _ => .bind (.lift _) fun _ => .bind (.lift _) fun _ => ih _
      · exact .bind (.modify fun _ hs => hs.setMarks _ _ _) fun _ => ih _
    · exact ih _

/-- What is displaced leaves the mempool, and its marks. -/
theorem sameChain_removeFromMempool (s₀ : Blockchain) (idx : ℕ) :
    Preserves (SameChain s₀) (removeFromMempool idx) :=
  .bind .get fun _ => .bind (.lift _) fun _ => .modify fun _ hs => hs.setMarks _ _ _

/-- Sorting is of the mempool. -/
theorem sameChain_sortMempool (s₀ : Blockchain) : Preserves (SameChain s₀) sortMempool :=
  .bind .get fun _ => .bind (.lift _) fun _ => .modify fun _ hs => hs.update _ (.refl _)

/-- Offering a transaction to the mempool leaves the chain alone. -/
theorem sameChain_addToMempool (s₀ : Blockchain) (tx : Transaction) :
    Preserves (SameChain s₀) (addToMempool c now tx) := by
  refine .bind (.modify fun _ hs => hs.cleanupMempool now) fun _ => .bind .get fun s => ?_
  refine .bind (.lift _) fun _ => .bind (.lift _) fun newFee => ?_
  refine .bind (sameChain_conflictingIndices s₀ newFee _ _) fun indices => ?_
  refine .bind (.forEach fun idx _ => sameChain_removeFromMempool s₀ idx) fun _ => ?_
  refine .bind .get fun s => .bind (.lift _) fun _ => .bind (.lift _) fun _ => ?_
  refine .bind (.lift _) fun _ => .bind (.modify fun _ hs => hs.setMarks _ _ _) fun _ => ?_
  exact sameChain_sortMempool s₀

/-! ## Reorganisations -/

/-- The state after the active chain is switched, before the displaced
    transactions are offered to the mempool. -/
def switchTo (c : Crypto) (now : DateTime) (newChain : List Hash) (target : U256) (utxos : Utxos)
    (confirmed : List Hash) (s : Blockchain) : Blockchain :=
  markPending (evictStaleMempoolEntries c now confirmed
    { s with activeChain := newChain, target, utxos })

/-- A target that has been adjusted is at most the easiest one, so that the next
    adjustment stays in range. -/
theorem exists_adjustTarget {target : U256} (h : target ≤ minTarget) (startTime endTime : DateTime) :
    ∃ t, adjustTarget target startTime endTime = some t ∧ t ≤ minTarget := by
  unfold adjustTarget
  simp only [idealBlockTime, difficultyUpdateInterval]
  generalize (max 1 (Duration.numSeconds (endTime - startTime))).toNat = secs
  have hle : max (16 * 50 / 4) (min secs (16 * 50 * 4)) ≤ 3200 := by omega
  have hlt : target * max (16 * 50 / 4) (min secs (16 * 50 * 4)) / (16 * 50) < u256Bound := by
    calc target * max (16 * 50 / 4) (min secs (16 * 50 * 4)) / (16 * 50)
        ≤ target * 3200 / (16 * 50) := Nat.div_le_div_right (Nat.mul_le_mul_left _ hle)
      _ ≤ minTarget * 3200 / (16 * 50) := Nat.div_le_div_right (Nat.mul_le_mul_right _ h)
      _ < u256Bound := by decide
  refine ⟨_, by rw [checked_eq_some.2 ⟨rfl, hlt⟩]; rfl, min_le_left _ _⟩

variable {blocks : Finmap fun _ : Hash => Block} {chain : List Hash}

/-- Each block of a known chain has its time. -/
theorem exists_timestampAt (h : ∀ x ∈ chain, x ∈ blocks) {i : ℕ} (hi : i < chain.length) :
    ∃ t, timestampAt blocks chain i = some t := by
  obtain ⟨b, hb⟩ := Finmap.mem_iff.1 (h _ (List.getElem_mem hi))
  exact ⟨b.header.timestamp, by simp [timestampAt, List.getElem?_eq_getElem hi, hb]⟩

/-- A target is recomputed from as many windows as the chain has, and is within the easiest one.
    -/
theorem exists_recomputeTargetAfter (h : ∀ x ∈ chain, x ∈ blocks) {windows : ℕ}
    (hw : windows * difficultyUpdateInterval ≤ chain.length) :
    ∃ t, recomputeTargetAfter blocks chain windows = some t ∧ t ≤ minTarget := by
  induction windows with
  | zero => exact ⟨minTarget, rfl, le_rfl⟩
  | succ windows ih =>
    rw [Nat.succ_mul] at hw
    obtain ⟨t, ht, hle⟩ := ih (by omega)
    have hpos : 0 < difficultyUpdateInterval := by decide
    obtain ⟨a, ha⟩ := exists_timestampAt h
      (i := (windows + 1) * difficultyUpdateInterval - difficultyUpdateInterval)
      (by rw [Nat.succ_mul]; omega)
    obtain ⟨b, hb⟩ := exists_timestampAt h (i := (windows + 1) * difficultyUpdateInterval - 1)
      (by rw [Nat.succ_mul]; omega)
    obtain ⟨t', ht', hle'⟩ := exists_adjustTarget hle a b
    exact ⟨t', by simp only [recomputeTargetAfter, ht, ha, hb, Option.bind_eq_bind,
      Option.bind_some, ht'], hle'⟩

/-- The target of a chain of known blocks can be recomputed. -/
theorem exists_recomputeTargetForChain (h : ∀ x ∈ chain, x ∈ blocks) :
    ∃ t, recomputeTargetForChain blocks chain = some t ∧ t ≤ minTarget :=
  exists_recomputeTargetAfter h (Nat.div_mul_le_self _ _)

/-- The contents of the first block come in front. -/
theorem collectFrom_cons {α : Type} (contents : Block → List α) (h : Hash) (chain : List Hash) :
    collectFrom blocks contents (h :: chain) = (collectFrom blocks contents chain).bind fun l =>
      (blocks.lookup h).map fun block => contents block ++ l := by
  rw [collectFrom, List.foldrM_cons, ← collectFrom]
  rfl

/-- The contents of known blocks can be collected. -/
theorem exists_collectFrom {α : Type} (h : ∀ x ∈ chain, x ∈ blocks) (contents : Block → List α) :
    ∃ l, collectFrom blocks contents chain = some l := by
  induction chain with
  | nil => exact ⟨[], rfl⟩
  | cons x chain ih =>
    obtain ⟨l, hl⟩ := ih fun y hy => h y (List.mem_cons_of_mem _ hy)
    obtain ⟨b, hb⟩ := Finmap.mem_iff.1 (h x List.mem_cons_self)
    exact ⟨contents b ++ l, by rw [collectFrom_cons, hl, hb]; rfl⟩

/-- What is collected is of one of the blocks. -/
theorem mem_collectFrom {α : Type} {contents : Block → List α} {l : List α}
    (h : collectFrom blocks contents chain = some l) {a : α} :
    a ∈ l ↔ ∃ y ∈ chain, ∃ b, blocks.lookup y = some b ∧ a ∈ contents b := by
  induction chain generalizing l with
  | nil =>
    obtain rfl := Option.some.inj h
    simp
  | cons y chain ih =>
    rw [collectFrom_cons] at h
    obtain ⟨l', hl', h⟩ := Option.bind_eq_some_iff.1 h
    obtain ⟨b, hb, rfl⟩ := Option.map_eq_some_iff.1 h
    rw [List.mem_append, ih hl', List.exists_mem_cons_iff, hb]
    simp

/-- A reorganisation to a chain of known blocks switches the active chain, then
    offers the displaced transactions to the mempool. It does not panic before
    that. -/
theorem triple_reorgTo {s : Blockchain} {I N : Blockchain → Prop} {E : BtcError → Blockchain → Prop}
    {forkIndex : ℕ} {newChain : List Hash}
    (hfork : forkIndex ≤ s.activeChain.length) (hactive : ∀ x ∈ s.activeChain, x ∈ s.blocks)
    (hnew : ∀ x ∈ newChain, x ∈ s.blocks)
    (hswitch : ∀ target utxos confirmed, recomputeTargetForChain s.blocks newChain = some target →
      replayUtxos c s.blocks newChain = some utxos →
      confirmedBy c s.blocks newChain = some confirmed →
      I (s.switchTo c now newChain target utxos confirmed))
    (hpool : ∀ tx, (∃ x block, s.blocks.lookup x = some block ∧ tx ∈ block.transactions.tail) →
      Triple I (addToMempool c now tx) (fun _ => I) (fun _ => I) N) :
    Triple (· = s) (reorgTo c now forkIndex newChain) (fun _ => I) E N := by
  have hdropped : ∀ x ∈ s.activeChain.drop forkIndex, x ∈ s.blocks := fun x hx =>
    hactive x (List.mem_of_mem_drop hx)
  obtain ⟨txs, htxs⟩ := exists_collectFrom hdropped fun block => block.transactions.tail
  obtain ⟨target, ht, -⟩ := exists_recomputeTargetForChain hnew
  obtain ⟨utxos, hu⟩ := exists_replayUtxos (c := c) hnew
  obtain ⟨confirmed, hc⟩ := exists_collectFrom hnew
    fun block => block.transactions.map c.hashTransaction
  have hd : s.activeFrom forkIndex = some (s.activeChain.drop forkIndex) := if_pos hfork
  refine .get_bind fun s' hs' => ?_
  subst hs'
  refine .lift_bind (Outcome.expect_eq_ok.2 hd) (.lift_bind (Outcome.expect_eq_ok.2 htxs) ?_)
  refine .modify_bind (.get_bind fun s' hs' => ?_)
  subst hs'
  refine .lift_bind (Outcome.expect_eq_ok.2 ht) (.modify_bind ?_)
  refine .bind (R := fun _ => I) (.get_bind fun s' hs' => ?_) fun _ =>
    .forEach fun tx htx => .ignore (hpool tx ?_)
  swap
  · obtain ⟨x, -, block, hblock, hmem⟩ := (mem_collectFrom htxs).1 htx
    exact ⟨x, block, hblock, hmem⟩
  subst hs'
  refine .lift_bind (Outcome.expect_eq_ok.2 hc) (.lift_bind (Outcome.expect_eq_ok.2 hu) ?_)
  refine .modify_bind (.modify_bind (.modify ?_))
  rintro _ rfl
  exact hswitch _ _ _ ht hu hc

/-! ## Acceptance -/

/-- A block extending the tip passes its checks. -/
structure ExtendsTip (c : Crypto) (now : DateTime) (s : Blockchain) (block : Block) : Prop where
  parent : block.header.prevBlockHash = s.tipHash
  checked : checkExtendingTip c now s block = .ok ()

/-- The parent of a block is known and is not the tip. Its branch leaves the
    active chain at `forkIndex`, and `branch` is the rest of it. -/
structure BranchesOff (s : Blockchain) (block : Block) (forkIndex : ℕ) (branch : List Hash) :
    Prop where
  parent_ne_zero : block.header.prevBlockHash ≠ Hash.zero
  parent_ne_tip : block.header.prevBlockHash ≠ s.tipHash
  parent_known : block.header.prevBlockHash ∈ s.blocks
  traced : traceBranchWithIndex s.blocks (activeChainIndex s.activeChain)
    block.header.prevBlockHash = .ok (some (forkIndex, branch))
  forkIndex_le : forkIndex ≤ s.activeChain.length

/-- The chain ending with the parent of a block off the tip. -/
def candidateChain (s : Blockchain) (forkIndex : ℕ) (branch : List Hash) : List Hash :=
  s.activeChain.take forkIndex ++ branch

/-- A block off the tip passes its checks. -/
structure OffTip (c : Crypto) (now : DateTime) (s : Blockchain) (block : Block) (forkIndex : ℕ)
    (branch : List Hash) : Prop extends BranchesOff s block forkIndex branch where
  checked : checkOffTip c now s (s.candidateChain forkIndex branch) block = .ok ()

/-- Blocks are stored under their hash, and those of the active chain are known. -/
structure Keyed (c : Crypto) (s : Blockchain) : Prop where
  blocks : ∀ h block, s.blocks.lookup h = some block → c.hashBlock block = h
  orphans : ∀ h block, s.orphans.lookup h = some block → c.hashBlock block = h
  known : ∀ h ∈ s.activeChain, h ∈ s.blocks

/-- A transaction that a reorganisation may offer to the mempool: one of a block that is
    known in some state satisfying `I`. -/
def Displaced (I : Blockchain → Prop) (tx : Transaction) : Prop :=
  ∃ s x block, I s ∧ s.blocks.lookup x = some block ∧ tx ∈ block.transactions.tail

/-- A transaction is displaced from any larger set of states. -/
theorem Displaced.imp {I J : Blockchain → Prop} {tx : Transaction} (h : Displaced I tx)
    (hIJ : ∀ s, I s → J s) : Displaced J tx := by
  obtain ⟨s, x, block, hs, hblock, hmem⟩ := h
  exact ⟨s, x, block, hIJ s hs, hblock, hmem⟩

/-- What the steps of the acceptance of a block do to an invariant `I`, for
    blocks meeting `P` in the state they are taken up in. -/
structure Moves (c : Crypto) (amb : Ambient) (P : Blockchain → Block → Prop)
    (I N : Blockchain → Prop) : Prop where
  /-- A block is pushed on the tip. -/
  push : ∀ s block, I s → P s block → ExtendsTip c amb.now s block →
    I (s.pushBlock c amb.now block)
  /-- The running target is adjusted, at the end of a window. -/
  adjust : ∀ s startTime endTime target, I s →
    s.activeChain ≠ [] → s.activeChain.length % difficultyUpdateInterval = 0 →
    timestampAt s.blocks s.activeChain (s.activeChain.length - difficultyUpdateInterval) =
      some startTime →
    timestampAt s.blocks s.activeChain (s.activeChain.length - 1) = some endTime →
    adjustTarget s.target startTime endTime = some target → I { s with target }
  /-- Deep side branches are forgotten. -/
  prune : ∀ s prunable, I s →
    prunableAmong s sideBranchPruneDepth (amb.order.keys s.blocks.keys) = .ok prunable →
    I (s.forgetBlocks prunable)
  /-- A block off the tip is stored. -/
  store : ∀ s block forkIndex branch, I s → P s block → OffTip c amb.now s block forkIndex branch →
    I (s.storeBlock c block)
  /-- Its branch becomes the active chain. -/
  switch : ∀ s block forkIndex branch target utxos confirmed, I s → P s block →
    OffTip c amb.now s block forkIndex branch →
    recomputeTargetForChain (s.storeBlock c block).blocks
      (s.candidateChain forkIndex branch ++ [c.hashBlock block]) = some target →
    replayUtxos c (s.storeBlock c block).blocks
      (s.candidateChain forkIndex branch ++ [c.hashBlock block]) = some utxos →
    confirmedBy c (s.storeBlock c block).blocks
      (s.candidateChain forkIndex branch ++ [c.hashBlock block]) = some confirmed →
    I ((s.storeBlock c block).switchTo c amb.now
      (s.candidateChain forkIndex branch ++ [c.hashBlock block]) target utxos confirmed)
  /-- A displaced transaction is offered to the mempool. -/
  pool : ∀ tx, Displaced I tx → Triple I (addToMempool c amb.now tx) (fun _ => I) (fun _ => I) N
  /-- An orphan is kept. -/
  keep : ∀ s block, I s → P s block → block.header.prevBlockHash ∉ s.blocks →
    I (s.keepOrphan c block)
  /-- An orphan is taken. -/
  take : ∀ s block, I s → I (s.takeOrphan c block)

namespace Moves

variable {amb : Ambient} {P : Blockchain → Block → Prop} {I J N N' : Blockchain → Prop}

/-- Two invariants hold together. -/
theorem and (h : Moves c amb P I N) (h' : Moves c amb P J N') :
    Moves c amb P (fun s => I s ∧ J s) fun s => N s ∧ N' s where
  push s block hs hP htip := ⟨h.push s block hs.1 hP htip, h'.push s block hs.2 hP htip⟩
  adjust s _ _ target hs h₁ h₂ h₃ h₄ h₅ :=
    ⟨h.adjust s _ _ target hs.1 h₁ h₂ h₃ h₄ h₅, h'.adjust s _ _ target hs.2 h₁ h₂ h₃ h₄ h₅⟩
  prune s prunable hs hp := ⟨h.prune s prunable hs.1 hp, h'.prune s prunable hs.2 hp⟩
  store s block _ _ hs hP hoff :=
    ⟨h.store s block _ _ hs.1 hP hoff, h'.store s block _ _ hs.2 hP hoff⟩
  switch s block _ _ target utxos confirmed hs hP hoff h₁ h₂ h₃ :=
    ⟨h.switch s block _ _ target utxos confirmed hs.1 hP hoff h₁ h₂ h₃,
      h'.switch s block _ _ target utxos confirmed hs.2 hP hoff h₁ h₂ h₃⟩
  pool tx htx := (h.pool tx (htx.imp fun _ hs => hs.1)).and (h'.pool tx (htx.imp fun _ hs => hs.2))
  keep s block hs hP hmem := ⟨h.keep s block hs.1 hP hmem, h'.keep s block hs.2 hP hmem⟩
  take s block hs := ⟨h.take s block hs.1, h'.take s block hs.2⟩

/-- The same invariant, stated otherwise. -/
theorem congr (h : Moves c amb P I N) (hI : ∀ s, I s ↔ J s) (hN : ∀ s, N s → N' s) :
    Moves c amb P J N' := by
  obtain rfl : I = J := funext fun s => propext (hI s)
  exact { h with
    pool := fun tx htx => (h.pool tx htx).conseq (fun _ => id) (fun _ _ => id) (fun _ _ => id) hN }

end Moves

/-- Where the acceptance of a block may panic, from a state satisfying `I`. -/
structure Panics (c : Crypto) (amb : Ambient) (P : Blockchain → Block → Prop)
    (I N : Blockchain → Prop) : Prop where
  checkTip : ∀ s block, I s → P s block → block.header.prevBlockHash = s.tipHash →
    checkExtendingTip c amb.now s block = .panic → N s
  adjust : ∀ s startTime endTime, I s → adjustTarget s.target startTime endTime = none → N s
  prune : ∀ s, I s →
    prunableAmong s sideBranchPruneDepth (amb.order.keys s.blocks.keys) = .panic → N s
  trace : ∀ s h, I s → h ≠ Hash.zero → h ∈ s.blocks →
    (∀ forkIndex branch, forkIndex ≤ s.activeChain.length →
      traceBranchWithIndex s.blocks (activeChainIndex s.activeChain) h ≠
        .ok (some (forkIndex, branch))) → N s
  checkOff : ∀ s block forkIndex branch, I s → P s block → BranchesOff s block forkIndex branch →
    checkOffTip c amb.now s (s.candidateChain forkIndex branch) block = .panic → N s
  work : ∀ s chain, I s → (∀ x ∈ chain, x ∈ s.blocks) → workOfChain s.blocks chain = none → N s

/-- An invariant that survives panics. -/
theorem Panics.of_imp {amb : Ambient} {P : Blockchain → Block → Prop} {I N : Blockchain → Prop}
    (h : ∀ s, I s → N s) : Panics c amb P I N where
  checkTip s _ hs _ _ _ := h s hs
  adjust s _ _ hs _ := h s hs
  prune s hs _ := h s hs
  trace s _ hs _ _ _ := h s hs
  checkOff s _ _ _ hs _ _ _ := h s hs
  work s _ hs _ _ := h s hs

section

variable {amb : Ambient} {P : Blockchain → Block → Prop} {I N : Blockchain → Prop} {block : Block}

/-- The blocks of a traced branch are known. -/
theorem mem_of_traceFrom {activeIndex : Finmap fun _ : Hash => ℕ} {steps : ℕ} {h : Hash}
    {branch branch' : List Hash} {i : ℕ}
    (ht : traceFrom blocks activeIndex steps h branch = some (i, branch')) {x : Hash}
    (hx : x ∈ branch') : x ∈ branch ∨ x ∈ blocks := by
  induction steps generalizing h branch with
  | zero => cases ht
  | succ steps ih =>
    rw [traceFrom] at ht
    split at ht
    · obtain ⟨-, rfl⟩ := Prod.mk.injEq .. ▸ Option.some.inj ht
      exact .inl hx
    · obtain ⟨b, hb, ht⟩ := Option.bind_eq_some_iff.1 ht
      have hmem : x ∈ h :: branch → x ∈ branch ∨ x ∈ blocks := fun hx =>
        (List.mem_cons.1 hx).elim (fun e => .inr (e ▸ Finmap.mem_iff.2 ⟨b, hb⟩)) .inl
      split at ht
      · obtain ⟨-, rfl⟩ := Prod.mk.injEq .. ▸ Option.some.inj ht
        exact hmem hx
      · exact (ih ht).elim hmem .inr

/-- A candidate chain is of known blocks. -/
theorem BranchesOff.mem_candidateChain {s : Blockchain} {forkIndex : ℕ} {branch : List Hash}
    (h : BranchesOff s block forkIndex branch) (hk : ∀ x ∈ s.activeChain, x ∈ s.blocks) :
    ∀ x ∈ s.candidateChain forkIndex branch, x ∈ s.blocks := by
  intro x hx
  rcases List.mem_append.1 hx with hx | hx
  · exact hk x (List.mem_of_mem_take hx)
  · have ht := h.traced
    rw [traceBranchWithIndex, if_neg h.parent_ne_zero] at ht
    obtain ⟨traced, htraced, he⟩ := Outcome.bind_eq_ok.1 ht
    obtain rfl := Option.some.inj (Outcome.ok.inj he)
    exact (mem_of_traceFrom (Outcome.expect_eq_ok.1 htraced) hx).resolve_left List.not_mem_nil

/-- A stored block is known, beside the others. -/
theorem mem_storeBlock {s : Blockchain} {x : Hash} :
    x ∈ (s.storeBlock c block).blocks ↔ x = c.hashBlock block ∨ x ∈ s.blocks := Finmap.mem_insert

/-- The target is adjusted from the blocks of the chain. -/
theorem triple_tryAdjustTarget (h : Moves c amb P I N) (hk : ∀ s, I s → Keyed c s)
    (hp : Panics c amb P I N) :
    Triple I tryAdjustTarget (fun _ => I) (fun _ => I) N := by
  refine .get_bind fun s hs => ?_
  split
  · exact .pure fun _ e => e ▸ hs
  · next hwindow =>
    obtain ⟨hne, hmod⟩ := not_or.1 hwindow
    rw [not_not] at hmod
    have hpos : 0 < s.activeChain.length := List.length_pos_of_ne_nil hne
    obtain ⟨startTime, hstart⟩ := exists_timestampAt (hk s hs).known
      (i := s.activeChain.length - difficultyUpdateInterval)
      (Nat.sub_lt hpos (by decide))
    obtain ⟨endTime, hend⟩ := exists_timestampAt (hk s hs).known
      (i := s.activeChain.length - 1) (Nat.sub_lt hpos Nat.one_pos)
    refine .lift_bind (Outcome.expect_eq_ok.2 hstart) (.lift_bind (Outcome.expect_eq_ok.2 hend) ?_)
    refine .lift_known (fun target ht => .modify fun s' hs' => ?_) (fun _ _ => hs)
      fun hn => hp.adjust s _ _ hs (Outcome.expect_eq_panic.1 hn)
    subst hs'
    exact h.adjust s' _ _ target hs hne hmod hstart hend (Outcome.expect_eq_ok.1 ht)

/-- Side blocks are pruned once they are found. -/
theorem triple_pruneSideBlocks (h : Moves c amb P I N) (hp : Panics c amb P I N) :
    Triple I (pruneSideBlocks amb.order sideBranchPruneDepth) (fun _ => I) (fun _ => I) N := by
  refine .get_bind fun s hs => .lift_known (fun prunable hok => .modify fun s' hs' => ?_)
    (fun _ _ => hs) (hp.prune s hs)
  subst hs'
  exact h.prune s' prunable hs hok

/-- A block on the tip is checked, pushed, and what follows from it is done. -/
theorem triple_addBlockExtendingTip (h : Moves c amb P I N) (hk : ∀ s, I s → Keyed c s)
    (hp : Panics c amb P I N) {s : Blockchain} (hs : I s) (hP : P s block)
    (hparent : block.header.prevBlockHash = s.tipHash) :
    Triple (· = s) (addBlockExtendingTip c amb block) (fun _ => I) (fun _ => I) N := by
  refine .get_bind fun s' hs' => ?_
  subst hs'
  refine .lift_known (fun _ hok => .modify_bind ?_) (fun _ _ => hs) (hp.checkTip s' block hs hP hparent)
  have hpush : I (s'.pushBlock c amb.now block) := h.push s' block hs hP ⟨hparent, hok⟩
  refine .bind (R := fun _ => I) ((triple_tryAdjustTarget h hk hp).conseq (fun _ e => e ▸ hpush)
    (fun _ _ => id) (fun _ _ => id) fun _ => id) fun _ => .get_bind fun s hs => ?_
  dsimp only
  split
  · refine .bind (R := fun _ => I) ?_ fun _ => .pure fun _ hs => hs
    exact (triple_pruneSideBlocks h hp).conseq (fun _ e => e ▸ hs) (fun _ _ => id) (fun _ _ => id)
      fun _ => id
  · exact .pure fun _ e => e ▸ hs

/-- A block beside the tip is checked on its own chain, stored, and the chain may be switched to
    it. -/
theorem triple_addBlockOffTip (h : Moves c amb P I N) (hk : ∀ s, I s → Keyed c s)
    (hp : Panics c amb P I N) {s : Blockchain} (hs : I s) (hP : P s block)
    (hparent : block.header.prevBlockHash ≠ s.tipHash) :
    Triple (· = s) (addBlockOffTip c amb block) (fun _ => I) (fun _ => I) N := by
  refine .lift_known (fun _ hzero => .get_bind fun s' hs' => ?_) (fun _ _ => hs)
    fun hpanic => absurd hpanic Outcome.ensure_ne_panic
  subst hs'
  have hzero := Outcome.ensure_eq_ok.1 hzero
  split
  · next hmem =>
    refine .bind (R := fun _ => I) (.modify fun s hs' => ?_) fun _ => .lift (fun _ _ hs _ => hs)
      (fun _ _ hs _ => hs) fun _ _ he => by cases he
    subst hs'
    exact h.keep s block hs hP hmem
  · next hmem =>
    have htrace := hp.trace s' _ hs hzero (not_not.1 hmem)
    refine .lift_known (fun traced ht => ?_) (fun _ _ => hs) fun hn => htrace (by simp [hn])
    refine .lift_known (fun p hsome => ?_) (fun _ _ => hs) fun hn => htrace ?_
    swap
    · rw [ht, Outcome.expect_eq_panic.1 hn]
      simp
    obtain ⟨forkIndex, branch⟩ := p
    rw [Outcome.expect_eq_ok.1 hsome] at ht
    refine .lift_known (fun shared hup => ?_) (fun _ _ => hs) fun hn => htrace ?_
    swap
    · rintro i br hi he
      rw [ht] at he
      obtain ⟨rfl, rfl⟩ := Prod.mk.injEq .. ▸ Option.some.inj (Outcome.ok.inj he)
      rw [Outcome.expect_eq_panic, activeUpTo, if_pos hi] at hn
      cases hn
    -- The fork is found: the candidate chain is the active one up to it, then the branch.
    obtain ⟨hle, hshared⟩ := Option.ite_none_right_eq_some.1 (Outcome.expect_eq_ok.1 hup)
    obtain rfl := Option.some.inj hshared
    have hbr : BranchesOff s' block forkIndex branch := ⟨hzero, hparent, not_not.1 hmem, ht, hle⟩
    refine .lift_known (fun _ hok => .modify_bind (.get_bind fun s hs' => ?_)) (fun _ _ => hs)
      (hp.checkOff s' block forkIndex branch hs hP hbr)
    subst hs'
    have hoff : OffTip c amb.now s' block forkIndex branch := ⟨hbr, hok⟩
    have hstore := h.store s' block forkIndex branch hs hP hoff
    have hnew : ∀ x ∈ s'.candidateChain forkIndex branch ++ [c.hashBlock block],
        x ∈ (s'.storeBlock c block).blocks := by
      intro x hx
      rw [mem_storeBlock]
      rcases List.mem_append.1 hx with hx | hx
      · exact .inr (hbr.mem_candidateChain (hk s' hs).known x hx)
      · exact .inl (List.mem_singleton.1 hx)
    -- The block is known from here on. The chain is switched if it is the heavier one.
    refine .lift_known (fun newWork _ => .lift_known (fun chainWork _ => ?_)
      (fun _ _ => hstore) fun hn => ?_) (fun _ _ => hstore) fun hn => ?_
    · dsimp only
      split
      · refine .bind (R := fun _ => I) ?_ fun _ => .pure fun _ hs => hs
        exact triple_reorgTo hle (hk _ hstore).known hnew
          (fun target utxos confirmed h₁ h₂ h₃ =>
            h.switch s' block forkIndex branch target utxos confirmed hs hP hoff h₁ h₂ h₃)
          fun tx ⟨x, b, hb, htx⟩ => h.pool tx ⟨_, x, b, hstore, hb, htx⟩
      · exact .pure fun _ e => e ▸ hstore
    · exact hp.work _ _ hstore (hk _ hstore).known (Outcome.expect_eq_panic.1 hn)
    · exact hp.work _ _ hstore hnew (Outcome.expect_eq_panic.1 hn)

/-- The acceptance of a block. -/
theorem triple_acceptBlock (h : Moves c amb P I N) (hk : ∀ s, I s → Keyed c s)
    (hp : Panics c amb P I N) {s : Blockchain} (hs : I s) (hP : P s block) :
    Triple (· = s) (acceptBlock c amb block) (fun _ => I) (fun _ => I) N := by
  refine .get_bind fun s' hs' => ?_
  subst hs'
  split
  · next hparent => exact triple_addBlockExtendingTip h hk hp hs hP hparent
  · next hparent => exact triple_addBlockOffTip h hk hp hs hP hparent

end

/-! ## Orphans -/

variable {amb : Ambient} {block : Block} {O : Finmap fun _ : Hash => Block}

/-- An offer to the mempool leaves the orphans alone. -/
theorem orphans_addToMempool (tx : Transaction) :
    Preserves (fun s => s.orphans = O) (addToMempool c now tx) := by
  intro s hs
  refine (sameChain_addToMempool s tx s (.refl s)).imp ?_ ?_ ?_
  exacts [fun _ s' h => h.orphans.trans hs, fun _ s' h => h.orphans.trans hs,
    fun s' h => h.orphans.trans hs]

/-- So does a switch of the chain. -/
theorem orphans_reorgTo (forkIndex : ℕ) (newChain : List Hash) :
    Preserves (fun s => s.orphans = O) (reorgTo c now forkIndex newChain) := by
  refine .bind .get fun s => .bind (.lift _) fun _ => .bind (.lift _) fun displaced => ?_
  refine .bind (.modify fun _ => id) fun _ => .bind .get fun s => .bind (.lift _) fun target => ?_
  refine .bind (.modify fun _ => id) fun _ => .bind ?_ fun _ =>
    .forEach fun tx _ => .ignore (orphans_addToMempool tx)
  refine .bind .get fun s => .bind (.lift _) fun _ => .bind (.lift _) fun utxos => ?_
  exact .bind (.modify fun _ => id) fun _ => .bind (.modify fun _ => id) fun _ => .modify fun _ => id

/-- The target does not depend on orphans. -/
theorem orphans_tryAdjustTarget : Preserves (fun s => s.orphans = O) tryAdjustTarget := by
  refine .bind .get fun s => ?_
  split
  · exact .pure _
  · exact .bind (.lift _) fun _ => .bind (.lift _) fun _ => .bind (.lift _) fun _ =>
      .modify fun _ => id

/-- Pruning is of known blocks. -/
theorem orphans_pruneSideBlocks (order : MapOrder) (keepDepth : ℕ) :
    Preserves (fun s => s.orphans = O) (pruneSideBlocks order keepDepth) :=
  .bind .get fun _ => .bind (.lift _) fun _ => .modify fun _ => id

/-- A block that is pushed leaves the orphans to the loop after it. -/
theorem orphans_addBlockExtendingTip :
    Preserves (fun s => s.orphans = O) (addBlockExtendingTip c amb block) := by
  refine .bind .get fun s => .bind (.lift _) fun _ => .bind (.modify fun _ => id) fun _ => ?_
  refine .bind orphans_tryAdjustTarget fun _ => .bind .get fun s => ?_
  dsimp only
  split
  · exact .bind (orphans_pruneSideBlocks _ _) fun _ => .pure _
  · exact .pure _

/-- An accepted block leaves the orphans alone; a refused one may have become one. -/
theorem orphans_acceptBlock (amb : Ambient) (block : Block) (O : Finmap fun _ : Hash => Block) :
    Triple (fun s => s.orphans = O) (acceptBlock c amb block) (fun _ s => s.orphans = O)
      (fun _ s => s.orphans.keys ⊆ insert (c.hashBlock block) O.keys) fun _ => True := by
  -- Away from `keepOrphan`, nothing touches the orphans.
  have weaken : ∀ {α : Type} {x : ChainCall α}, Preserves (fun s => s.orphans = O) x →
      Triple (fun s => s.orphans = O) x (fun _ s => s.orphans = O)
        (fun _ s => s.orphans.keys ⊆ insert (c.hashBlock block) O.keys) fun _ => True :=
    fun h => h.conseq (fun _ => id) (fun _ _ => id)
      (fun _ s hs => by rw [hs]; exact Finset.subset_insert _ _) fun _ _ => trivial
  refine .bind (R := fun _ s => s.orphans = O) (weaken .get) fun s => ?_
  split
  · exact weaken orphans_addBlockExtendingTip
  refine .bind (weaken (.lift _)) fun _ => .bind (weaken .get) fun s => ?_
  split
  · refine .bind (R := fun _ s => s.orphans.keys ⊆ insert (c.hashBlock block) O.keys)
      (.modify fun s hs => ?_) fun _ => .lift (fun _ _ _ he => by cases he) (fun _ _ hs _ => hs)
      fun _ _ _ => trivial
    rw [keepOrphan]
    split
    · rw [hs]
      exact Finset.subset_insert _ _
    · intro x hx
      rw [Finmap.mem_keys, Finmap.mem_insert, hs] at hx
      rw [Finset.mem_insert, Finmap.mem_keys]
      exact hx
  refine .bind (weaken (.lift _)) fun _ => .bind (weaken (.lift _)) fun p => ?_
  refine .bind (weaken (.lift _)) fun _ => .bind (weaken (.lift _)) fun _ => ?_
  refine .bind (weaken (.modify fun _ => id)) fun _ => .bind (weaken .get) fun s => ?_
  refine .bind (weaken (.lift _)) fun _ => .bind (weaken (.lift _)) fun _ => ?_
  dsimp only
  split
  · exact .bind (weaken (orphans_reorgTo _ _)) fun _ => weaken (.pure _)
  · exact weaken (.pure _)

/-- Each block taken up within `addBlockWithin`, the block itself and the orphans
    attached after it, meets `P` in the state it is taken up in. -/
def Takes (c : Crypto) (amb : Ambient) (P : Blockchain → Block → Prop) :
    ℕ → Block → Blockchain → Prop
  | 0, _, _ => True
  | depth + 1, block, s => P s block ∧
      ∀ s' hash, acceptBlock c amb block s = (s', .ok hash) →
        Along (fun orphan s => Takes c amb P depth orphan (takeOrphan c orphan s))
          (fun orphan => do
            Call.modify (takeOrphan c orphan)
            Call.ignore (addBlockWithin c amb depth orphan))
          (readyOrphans amb.order s' hash) s'

/-- What holds of any block in any state holds of what is taken up. -/
theorem takes_of_forall {P : Blockchain → Block → Prop} (h : ∀ s block, P s block) (depth : ℕ)
    (block : Block) (s : Blockchain) : Takes c amb P depth block s := by
  induction depth generalizing block s with
  | zero => trivial
  | succ depth ih => exact ⟨h s block, fun s' hash _ => along_of_forall (fun orphan s => ih _ _) s'⟩

/-- A weaker condition holds of it too. -/
theorem Takes.mono {P P' : Blockchain → Block → Prop} (h : ∀ s block, P s block → P' s block)
    {depth : ℕ} {block : Block} {s : Blockchain} (htakes : Takes c amb P depth block s) :
    Takes c amb P' depth block s := by
  induction depth generalizing block s with
  | zero => trivial
  | succ depth ih =>
    exact ⟨h s block htakes.1, fun s' hash he => (htakes.2 s' hash he).mono fun _ _ => ih⟩

/-- An orphan that is ready is one of the orphans. -/
theorem mem_readyOrphans {order : MapOrder} {s : Blockchain} {hash : Hash} {orphan : Block}
    (h : orphan ∈ readyOrphans order s hash) : ∃ x, s.orphans.lookup x = some orphan := by
  obtain ⟨x, -, hx⟩ := List.mem_filterMap.1 (List.mem_filter.1 h).1
  exact ⟨x, hx⟩

/-! ## Adding a block -/

section

variable {P P' : Blockchain → Block → Prop} {Q : Block → Prop} {I N : Blockchain → Prop}

/-- `add_block` from a bounded depth, for blocks meeting `P` when they are taken
    up, the block itself and every orphan meeting `Q` besides. Each attached orphan
    is taken out before it is attached, so the calls below it start with fewer
    orphans: the depth is never used up. -/
theorem triple_addBlockWithin (h : Moves c amb P' I N) (hk : ∀ s, I s → Keyed c s)
    (hp : Panics c amb P' I N) (hQ : ∀ s, I s → ∀ x b, s.orphans.lookup x = some b → Q b)
    (hP' : ∀ s b, Q b → P s b → P' s b) {depth : ℕ} {K : Finset Hash} (hK : K.card < depth)
    {block : Block} (hblock : Q block) :
    Triple (fun s => (I s ∧ s.orphans.keys ⊆ K) ∧ Takes c amb P depth block s)
      (addBlockWithin c amb depth block)
      (fun _ s => I s ∧ s.orphans.keys ⊆ insert (c.hashBlock block) K)
      (fun _ s => I s ∧ s.orphans.keys ⊆ insert (c.hashBlock block) K) N := by
  induction depth generalizing K block with
  | zero => exact absurd hK (Nat.not_lt_zero _)
  | succ depth ih =>
    rintro s ⟨⟨hs, hsK⟩, hP, htakes⟩
    have haccept := ((triple_acceptBlock h hk hp hs (hP' s block hblock hP)).and
      ((orphans_acceptBlock (c := c) amb block s.orphans).conseq
        (fun _ (e : _ = s) => e ▸ rfl) (fun _ _ => id) (fun _ _ => id) fun _ => id)).and
      (Triple.self s (acceptBlock c amb block))
    refine (haccept.conseq (P := (· = s)) (fun _ e => ⟨⟨e, e⟩, e⟩) (fun _ _ => id)
      (E := fun _ s => I s ∧ s.orphans.keys ⊆ insert (c.hashBlock block) K)
      (fun _ s' he => ⟨he.1.1, he.1.2.trans (Finset.insert_subset_insert _ hsK)⟩)
      fun _ hN => hN.1.1).bind (fun hash => .get_bind fun s' hs' => ?_) s rfl
    obtain ⟨⟨hI, hO⟩, he⟩ := hs'
    refine (Triple.forEach_along (I := fun t => I t ∧ t.orphans.keys ⊆ s.orphans.keys)
      (R := fun orphan t => Takes c amb P depth orphan (takeOrphan c orphan t))
      fun orphan ho => ?_).conseq (fun t ht => ?_)
      (fun _ t ht => ⟨ht.1, ht.2.trans (hsK.trans (Finset.subset_insert _ _))⟩) (fun _ _ => id)
      fun _ => id
    · obtain ⟨x, hx⟩ := mem_readyOrphans ho
      have hmem : c.hashBlock orphan ∈ s.orphans.keys := by
        rw [(hk s' hI).orphans x orphan hx, Finmap.mem_keys, ← hO]
        exact Finmap.mem_iff.2 ⟨orphan, hx⟩
      -- The orphan is taken out first, so a depth less is enough for those that are left.
      have hcard : (s.orphans.keys.erase (c.hashBlock orphan)).card < depth := by
        have := Finset.card_erase_lt_of_mem hmem
        have := Finset.card_le_card hsK
        omega
      refine .bind (R := fun _ t => (I t ∧ t.orphans.keys ⊆ s.orphans.keys.erase (c.hashBlock orphan)) ∧
        Takes c amb P depth orphan t) (.modify fun t ht => ⟨⟨h.take t orphan ht.1.1, ?_⟩, ht.2⟩)
        fun _ => .ignore ((ih hcard (hQ s' hI x orphan hx)).conseq (fun _ => id) ?_ ?_ fun _ => id)
      · intro y hy
        rw [Finmap.mem_keys, takeOrphan, Finmap.mem_erase] at hy
        exact Finset.mem_erase.2 ⟨hy.1, ht.1.2 (Finmap.mem_keys.2 hy.2)⟩
      all_goals
        rintro _ t ⟨hI, hsub⟩
        rw [Finset.insert_erase hmem] at hsub
        exact ⟨hI, hsub⟩
    · subst ht
      exact ⟨⟨hI, by rw [hO]⟩, htakes t hash he⟩

/-- What the steps preserve, whatever the outcome, is preserved from any depth. -/
theorem preserves_addBlockWithin (h : Moves c amb P' I I) (hk : ∀ s, I s → Keyed c s)
    (hQ : ∀ s, I s → ∀ x b, s.orphans.lookup x = some b → Q b) (hP' : ∀ s b, Q b → P' s b)
    {depth : ℕ} {block : Block} (hblock : Q block) :
    Preserves I (addBlockWithin c amb depth block) := by
  induction depth generalizing block with
  | zero => exact .lift _
  | succ depth ih =>
    refine .bind (Triple.of_state fun s hs =>
      triple_acceptBlock h hk (.of_imp fun _ => id) hs (hP' s block hblock)) fun hash => ?_
    refine Triple.get_bind fun s hs => (Preserves.forEach fun orphan ho => ?_).conseq
      (fun _ e => e ▸ hs) (fun _ _ => id) (fun _ _ => id) fun _ => id
    obtain ⟨x, hx⟩ := mem_readyOrphans ho
    exact .bind (.modify fun t ht => h.take t orphan ht) fun _ => .ignore (ih (hQ s hs x orphan hx))

/-- The blocks taken up by `add_block` meet `P`. -/
def TakesUp (c : Crypto) (amb : Ambient) (P : Blockchain → Block → Prop) (block : Block)
    (s : Blockchain) : Prop :=
  Takes c amb P (s.orphans.keys.card + 1) block s

/-- `add_block`, for blocks meeting `P` when they are taken up and `Q` besides. -/
theorem triple_addBlock_of (h : Moves c amb P' I N) (hk : ∀ s, I s → Keyed c s)
    (hp : Panics c amb P' I N) (hQ : ∀ s, I s → ∀ x b, s.orphans.lookup x = some b → Q b)
    (hP' : ∀ s b, Q b → P s b → P' s b) {block : Block} (hblock : Q block) :
    Triple (fun s => I s ∧ TakesUp c amb P block s) (addBlock c amb block) (fun _ => I)
      (fun _ => I) N := by
  refine .get_bind fun s hs => ?_
  refine (triple_addBlockWithin h hk hp hQ hP' (Nat.lt_succ_self s.orphans.keys.card)
    hblock).conseq (fun t ht => ?_) (fun _ _ ht => ht.1) (fun _ _ ht => ht.1) fun _ => id
  subst ht
  exact ⟨⟨hs.1, Finset.Subset.refl _⟩, hs.2⟩

/-- `add_block`, from what its steps do. -/
theorem triple_addBlock (h : Moves c amb P I N) (hk : ∀ s, I s → Keyed c s)
    (hp : Panics c amb P I N) (block : Block) :
    Triple (fun s => I s ∧ TakesUp c amb P block s) (addBlock c amb block) (fun _ => I)
      (fun _ => I) N :=
  triple_addBlock_of (Q := fun _ => True) h hk hp (fun _ _ _ _ _ => trivial) (fun _ _ _ hP => hP)
    trivial

end

end Itx.Blockchain
