import Itx.Chain.Agreement
import Itx.Chain.Supply

/-!
# Block templates

A miner asks for a template (`Blockchain::create_block_template`), a block on the tip
with the transactions of the mempool that fit, and looks for a nonce. What a
transaction of the mempool spends is the same in every state it exists in: outputs
are known by their hash (`Funded`). So each of the transactions of a template is
covered by the unspent outputs, and its fees are in range with the reward.

Two checks of the block are not anticipated by its template: it is dated by the
clock, even if the tip is dated later; and the transactions of the mempool may
conflict with each other. The block is accepted exactly when neither matters, and
when no orphan attached after it panics (`template_mined_iff`).
-/

namespace Itx

open Blockchain Utxos Call

/-- The same block with another nonce. -/
def Block.withNonce (nonce : ℕ) (block : Block) : Block :=
  { block with header := { block.header with nonce } }

namespace Blockchain

variable (c : Crypto)

/-- The transactions of a template: those of the mempool, in order, that still fit.
    The size of a transaction is that of a vector, so that the sum is in range. -/
def fillBlock : List (DateTime × Transaction) → ℕ → List Transaction
  | [], _ => []
  | (_, tx) :: mempool, totalBytes =>
    if totalBytes + c.serializedSize tx > blockByteCap then fillBlock mempool totalBytes
    else tx :: fillBlock mempool (totalBytes + c.serializedSize tx)

/-- `Blockchain::create_block_template`, at the time `now` and for a fresh `uniqueId`. -/
def createBlockTemplate (now : DateTime) (uniqueId : Uuid) (pubkey : PublicKey) (s : Blockchain) :
    Outcome BtcError Block := do
  let transactions := fillBlock c s.mempool 0
  let minerFees ← calculateMinerFeesForTransactions transactions s.utxos
  let reward := blockRewardAtHeight s.activeChain.length
  let value ← .expect (checkedAdd reward minerFees)
  let transactions := { inputs := [], outputs := [{ value, uniqueId, pubkey }] } :: transactions
  let merkleRoot ← .expect (merkleRoot c transactions)
  .ok
    { header := { timestamp := now, nonce := 0, prevBlockHash := s.tipHash, merkleRoot, target := s.target }
      transactions }

end Blockchain

variable {c : Crypto} {u : Utxos} {tx : Transaction} {s : Blockchain}

/-! ## Outputs by their hash -/

/-- Each output is under its hash. -/
def Utxos.Keyed (c : Crypto) (u : Utxos) : Prop :=
  ∀ x p, u.lookup x = some p → c.hashOutput p.2 = x

theorem Utxos.Keyed.congr {v : Utxos} (h : u.Keyed c) (hs : SameOutputs u v) : v.Keyed c := by
  intro x p hp
  obtain ⟨m, hm⟩ := hs.symm.lookup hp
  exact h x (m, p.2) hm

theorem Utxos.Keyed.applyTransaction (h : u.Keyed c) (tx : Transaction) :
    (applyTransaction c u tx).Keyed c := by
  rw [Blockchain.applyTransaction]
  have herase : Keyed c (u.eraseAll tx.spends) := fun x p hp => by
    rw [Finmap.lookup_eraseAll] at hp
    split_ifs at hp
    exact h x p hp
  generalize u.eraseAll tx.spends = v at herase
  induction tx.outputs generalizing v with
  | nil => exact herase
  | cons output outputs ih =>
    refine ih _ fun x p hp => ?_
    rw [Finmap.lookup_insert_eq] at hp
    split_ifs at hp with hx
    · rw [← Option.some.inj hp, hx]
    · exact herase x p hp

theorem Utxos.Keyed.applyTransactions (h : u.Keyed c) (block : Block) :
    (applyTransactions c u block).Keyed c := by
  rw [Blockchain.applyTransactions]
  induction block.transactions generalizing u with
  | nil => exact h
  | cons tx txs ih => exact ih (h.applyTransaction tx)

theorem keyed_replayUtxos {blocks : Finmap fun _ : Hash => Block} {chain : List Hash}
    (h : replayUtxos c blocks chain = some u) : u.Keyed c := by
  induction chain using List.reverseRecOn generalizing u with
  | nil =>
    obtain rfl := Option.some.inj h
    intro x p hp
    rw [Finmap.lookup_empty] at hp
    cases hp
  | append_singleton chain x ih =>
    rw [replayUtxos_concat] at h
    obtain ⟨v, hv, h⟩ := Option.bind_eq_some_iff.1 h
    obtain ⟨block, -, rfl⟩ := Option.map_eq_some_iff.1 h
    exact (ih hv).applyTransactions block

/-! ## Funded transactions -/

/-- A transaction is covered by some outputs, each under its hash. -/
def Transaction.Funded (c : Crypto) (tx : Transaction) : Prop :=
  ∃ u : Utxos, u.Keyed c ∧ tx.Covered c u

/-- A funded transaction is covered wherever what it spends exists. -/
theorem Transaction.Funded.covered (houtput : Function.Injective c.hashOutput) (h : tx.Funded c)
    (hu : u.Keyed c) (hmem : ∀ x ∈ tx.spends, x ∈ u) : tx.Covered c u := by
  obtain ⟨v, hv, hcovered⟩ := h
  -- The outputs under the hashes it spends are the same.
  have hsame : ∀ x ∈ tx.spends, ∃ p q, u.lookup x = some p ∧ v.lookup x = some q ∧ p.2 = q.2 :=
    fun x hx => by
      obtain ⟨p, hp⟩ := Finmap.mem_iff.1 (hmem x hx)
      obtain ⟨q, hq⟩ := Finmap.mem_iff.1 (hcovered.mem_of_mem_spends hx)
      exact ⟨p, q, hp, hq, houtput ((hu x p hp).trans (hv x q hq).symm)⟩
  refine ⟨fun input hinput => ?_, ?_⟩
  · obtain ⟨p, q, hp, hq, he⟩ := hsame _ (List.mem_map_of_mem hinput)
    obtain ⟨q', hq', hsig⟩ := hcovered.signed input hinput
    obtain rfl := Option.some.inj (hq.symm.trans hq')
    exact ⟨p, hp, by rwa [he]⟩
  · have hsum : tx.inputSum u = tx.inputSum v := by
      rw [Transaction.inputSum, Transaction.inputSum]
      refine congrArg List.sum (List.map_congr_left fun x hx => ?_)
      obtain ⟨p, q, hp, hq, he⟩ := hsame x hx
      rw [valueAt_of_lookup hp, valueAt_of_lookup hq, he]
    rw [hsum]
    exact hcovered.outputSum_le

namespace Blockchain

/-- The transactions of the mempool are funded. -/
def Funds (c : Crypto) (s : Blockchain) : Prop := ∀ entry ∈ s.mempool, entry.2.Funded c

theorem Sound.keyed (h : Sound c s) : s.utxos.Keyed c := by
  obtain ⟨u, hu, hsame⟩ := h.replay
  exact (keyed_replayUtxos hu).congr hsame.symm

theorem funds_addToMempool (now : DateTime) (tx : Transaction) {N : Blockchain → Prop} :
    Triple (fun s => Sound c s ∧ Funds c s) (addToMempool c now tx)
      (fun _ s => Sound c s ∧ Funds c s) (fun _ s => Sound c s ∧ Funds c s) N := by
  refine .of_state fun s hs => ?_
  refine ((sound_addToMempool (N := N) now tx).and (triple_offer hs.1.toAdmitted now tx)).conseq
    (fun t (e : t = s) => ⟨e ▸ hs.1, e⟩) (fun _ t ht => ⟨ht.1, fun entry he => ?_⟩)
    (fun _ t ht => ⟨ht.1, fun entry he => hs.2 entry (ht.2.2 entry he)⟩) fun _ ht => ht.1
  rcases ht.2.2.2 entry he with he | rfl
  · exact hs.2 entry he
  · exact ⟨s.utxos, hs.1.keyed, ht.2.2.1.2⟩

section

variable (hinj : Function.Injective c.hashBlock) (hne : ∀ block, c.hashBlock block ≠ Hash.zero)

include hinj hne

theorem moves_funds (amb : Ambient) (P : Blockchain → Block → Prop) :
    Moves c amb P (fun s => Sound c s ∧ Funds c s) fun s => Sound c s ∧ Funds c s := by
  have h := moves_sound hinj hne amb P (N := Sound c)
  exact
    { push := fun s block hs hP hext => ⟨h.push s block hs.1 hP hext, fun entry he =>
        hs.2 entry (List.mem_filter.1 (List.mem_filter.1 he).1).1⟩
      adjust := fun s a b target hs h₁ h₂ h₃ h₄ h₅ =>
        ⟨h.adjust s a b target hs.1 h₁ h₂ h₃ h₄ h₅, hs.2⟩
      prune := fun s prunable hs hp => ⟨h.prune s prunable hs.1 hp, hs.2⟩
      store := fun s block i l hs hP hoff => ⟨h.store s block i l hs.1 hP hoff, hs.2⟩
      switch := fun s block i l target utxos confirmed hs hP hoff h₁ h₂ h₃ =>
        ⟨h.switch s block i l target utxos confirmed hs.1 hP hoff h₁ h₂ h₃, fun entry he =>
          hs.2 entry (List.mem_filter.1 (List.mem_filter.1 he).1).1⟩
      pool := fun tx _ => funds_addToMempool amb.now tx
      keep := fun s block hs h₁ h₂ => by
        refine ⟨h.keep s block hs.1 h₁ h₂, ?_⟩
        rw [keepOrphan]
        split
        exacts [hs.2, hs.2]
      take := fun s block hs => ⟨h.take s block hs.1, hs.2⟩ }

/-- In every run the transactions of the mempool are funded. -/
theorem funds_of_reachable (hs : (chainSystem c).Reachable s) : Funds c s := by
  have h : Sound c s ∧ Funds c s := by
    refine invariant_of_moves (P := fun _ _ _ => True) ⟨sound_new, nofun⟩
      (fun amb => moves_funds hinj hne amb _) (fun _ hs => hs.1.toKeyed)
      (fun now tx => funds_addToMempool now tx)
      (fun now s hs => ?_) (fun offset s hs => ?_)
      (hs.mono fun s op _ => taking_of_forall (fun _ _ _ => trivial) s op)
    · exact ⟨⟨ofChain_validTree.1 _ _ ((SameChain.refl s).cleanupMempool now) hs.1.toValidTree,
        hs.1.toAdmitted.cleanupMempool now⟩, fun entry he => hs.2 entry (List.mem_filter.1 he).1⟩
    · exact ⟨⟨ofChain_validTree.2 s offset hs.1.toValidTree, hs.1.nodup, hs.1.present⟩, hs.2⟩
  exact h.2

end

/-! ## The transactions of a template -/

theorem mem_fillBlock {mempool : List (DateTime × Transaction)} {totalBytes : ℕ}
    (h : tx ∈ fillBlock c mempool totalBytes) : ∃ entry ∈ mempool, entry.2 = tx := by
  induction mempool generalizing totalBytes with
  | nil => cases h
  | cons entry mempool ih =>
    rw [fillBlock] at h
    split at h
    · obtain ⟨e, he, rfl⟩ := ih h
      exact ⟨e, List.mem_cons_of_mem _ he, rfl⟩
    · rcases List.mem_cons.1 h with rfl | h
      · exact ⟨entry, List.mem_cons_self, rfl⟩
      · obtain ⟨e, he, rfl⟩ := ih h
        exact ⟨e, List.mem_cons_of_mem _ he, rfl⟩

theorem sum_fillBlock_le (mempool : List (DateTime × Transaction)) {totalBytes : ℕ}
    (h : totalBytes ≤ blockByteCap) :
    totalBytes + ((fillBlock c mempool totalBytes).map c.serializedSize).sum ≤ blockByteCap := by
  induction mempool generalizing totalBytes with
  | nil => simpa [fillBlock] using h
  | cons entry mempool ih =>
    rw [fillBlock]
    split
    · exact ih h
    · next hfits =>
      rw [List.map_cons, List.sum_cons, ← add_assoc]
      exact ih (not_lt.1 hfits)

/-- Covered transactions that spend distinct outputs, all in range, pass together. -/
theorem verifySpends_of_covered {txs : List Transaction} (spent : List Hash)
    (hcovered : ∀ tx ∈ txs, tx.Covered c u) (hnodup : (txs.flatMap Transaction.spends).Nodup)
    (hspent : ∀ x ∈ txs.flatMap Transaction.spends, x ∉ spent) (hsupply : u.supply < u64Bound) :
    Block.verifySpends c u txs spent = .ok () := by
  induction txs generalizing spent with
  | nil => rfl
  | cons tx txs ih =>
    rw [List.flatMap_cons] at hnodup hspent
    obtain ⟨htx, hrest, hdisjoint⟩ := List.nodup_append.1 hnodup
    have hcov := hcovered tx List.mem_cons_self
    have hin : tx.inputSum u < u64Bound := (sum_valueAt_le htx).trans_lt hsupply
    have hout : tx.outputValue = .ok tx.outputSum :=
      Transaction.outputValue_eq_ok.2 ⟨rfl, hcov.outputSum_le.trans_lt hin⟩
    rw [Transaction.inputSum_eq] at hin
    rw [Block.verifySpends, Block.verifyInputs_of_lt hcov.signed htx
      (fun i hi => hspent _ (List.mem_append_left _ (List.mem_map_of_mem hi))) (by simpa using hin),
      Outcome.ok_bind]
    dsimp only
    rw [zero_add, ← Transaction.inputSum_eq, hout, Outcome.ok_bind,
      Outcome.ensure_of hcov.outputSum_le, Outcome.ok_bind]
    refine ih _ (fun t ht => hcovered t (List.mem_cons_of_mem _ ht)) hrest fun x hx hmem => ?_
    rcases List.mem_append.1 hmem with hmem | hmem
    · exact hdisjoint x (List.mem_reverse.1 hmem) x hx rfl
    · exact hspent x (List.mem_append_right _ hx) hmem

theorem sum_inputSum_le {txs : List Transaction} (hnodup : (txs.flatMap Transaction.spends).Nodup) :
    (txs.map fun tx => tx.inputSum u).sum ≤ u.supply := by
  have hsum : (txs.map fun tx => tx.inputSum u).sum =
      ((txs.flatMap Transaction.spends).map u.valueAt).sum := by
    clear hnodup
    induction txs with
    | nil => rfl
    | cons tx txs ih =>
      rw [List.map_cons, List.sum_cons, ih, List.flatMap_cons, List.map_append, List.sum_append]
      rfl
  rw [hsum]
  exact sum_valueAt_le hnodup

/-! ## Templates -/

section

variable {now : DateTime} {uniqueId : Uuid} {pubkey : PublicKey} {template : Block}

/-- What a template is. -/
theorem createBlockTemplate_eq_ok :
    createBlockTemplate c now uniqueId pubkey s = .ok template ↔
      ∃ minerFees root,
        calculateMinerFeesForTransactions (fillBlock c s.mempool 0) s.utxos = .ok minerFees ∧
        blockRewardAtHeight s.activeChain.length + minerFees < u64Bound ∧
        merkleRoot c template.transactions = some root ∧
        template.transactions =
          { inputs := []
            outputs := [⟨blockRewardAtHeight s.activeChain.length + minerFees, uniqueId, pubkey⟩] } ::
            fillBlock c s.mempool 0 ∧
        template.header = ⟨now, 0, s.tipHash, root, s.target⟩ := by
  rw [createBlockTemplate, Outcome.bind_eq_ok]
  constructor
  · rintro ⟨minerFees, hfees, h⟩
    obtain ⟨value, hvalue, h⟩ := Outcome.bind_eq_ok.1 h
    obtain ⟨root, hroot, h⟩ := Outcome.bind_eq_ok.1 h
    obtain ⟨rfl, hlt⟩ := checkedAdd_eq_some.1 (Outcome.expect_eq_ok.1 hvalue)
    obtain rfl := Outcome.ok.inj h
    exact ⟨minerFees, root, hfees, hlt, Outcome.expect_eq_ok.1 hroot, rfl, rfl⟩
  · rintro ⟨minerFees, root, hfees, hlt, hroot, htxs, hheader⟩
    refine ⟨minerFees, hfees, Outcome.bind_eq_ok.2 ⟨_, Outcome.expect_eq_ok.2
      (checkedAdd_eq_some.2 ⟨rfl, hlt⟩), Outcome.bind_eq_ok.2 ⟨root, ?_, ?_⟩⟩⟩
    · rw [← htxs]
      exact Outcome.expect_eq_ok.2 hroot
    · rw [← htxs, ← hheader]

/-- The transactions chosen in a sound state with a funded mempool are covered. -/
theorem Sound.covered_fillBlock (houtput : Function.Injective c.hashOutput) (hs : Sound c s)
    (hfunds : Funds c s) (htx : tx ∈ fillBlock c s.mempool 0) : tx.Covered c s.utxos := by
  obtain ⟨entry, he, rfl⟩ := mem_fillBlock htx
  exact (hfunds entry he).covered houtput hs.keyed (hs.present entry he)

theorem reward_add_supply_lt (hs : Sound c s) :
    blockRewardAtHeight s.activeChain.length + s.utxos.supply < u64Bound := by
  have hmax : maxSupply < u64Bound := by decide
  have hle := hs.toValidTree.supply_le
  have hnext := sum_rewards_le_maxSupply (s.activeChain.length + 1)
  rw [Finset.sum_range_succ] at hnext
  omega

/-- A template can be made when the transactions chosen spend distinct outputs. -/
theorem exists_template (houtput : Function.Injective c.hashOutput) (hs : Sound c s)
    (hfunds : Funds c s) (hnodup : ((fillBlock c s.mempool 0).flatMap Transaction.spends).Nodup) :
    ∃ template, createBlockTemplate c now uniqueId pubkey s = .ok template := by
  have hlt := reward_add_supply_lt hs
  have hin := sum_inputSum_le (u := s.utxos) hnodup
  have hcov : ∀ tx ∈ fillBlock c s.mempool 0, tx.Covered c s.utxos := fun tx htx =>
    hs.covered_fillBlock houtput hfunds htx
  have hfees := calculateMinerFeesFrom_of_lt 0 (u := s.utxos)
    (fun tx htx => ⟨fun x hx => (hcov tx htx).mem_of_mem_spends hx, (hcov tx htx).outputSum_le⟩)
    (by omega)
  have hle : ((fillBlock c s.mempool 0).map fun tx => tx.inputSum s.utxos - tx.outputSum).sum ≤
      ((fillBlock c s.mempool 0).map fun tx => tx.inputSum s.utxos).sum :=
    List.sum_le_sum fun tx _ => Nat.sub_le _ _
  rw [zero_add] at hfees
  set fees := ((fillBlock c s.mempool 0).map fun tx => tx.inputSum s.utxos - tx.outputSum).sum
  set coinbase : Transaction :=
    ⟨[], [⟨blockRewardAtHeight s.activeChain.length + fees, uniqueId, pubkey⟩]⟩
  obtain ⟨root, hroot⟩ : ∃ root, merkleRoot c (coinbase :: fillBlock c s.mempool 0) = some root := by
    rw [← Option.ne_none_iff_exists', Ne, merkleRoot_eq_none]
    exact List.cons_ne_nil _ _
  exact ⟨⟨_, coinbase :: fillBlock c s.mempool 0⟩, createBlockTemplate_eq_ok.2
    ⟨fees, root, hfees, by omega, hroot, rfl, rfl⟩⟩

variable {amb : Ambient} {nonce : ℕ}

/-- The block of a template passes on the tip, if and only if it is dated after it
    and the transactions chosen spend distinct outputs. -/
theorem extendsTip_template (houtput : Function.Injective c.hashOutput) (hs : Sound c s)
    (hlimits : Limits c s) (hfunds : Funds c s) (hchain : s.activeChain ≠ [])
    (hclock : ClockInRange amb.now) (hnow : now ≤ amb.now)
    (hcreate : createBlockTemplate c now uniqueId pubkey s = .ok template)
    (hwork : c.hashHeader (template.withNonce nonce).header ≤ template.header.target) :
    ExtendsTip c amb.now s (template.withNonce nonce) ↔
      (∀ tip, s.blocks.lookup s.tipHash = some tip → tip.header.timestamp < now) ∧
        ((fillBlock c s.mempool 0).flatMap Transaction.spends).Nodup := by
  obtain ⟨fees, root, hfees, hlt, hroot, htxs, hheader⟩ := createBlockTemplate_eq_ok.1 hcreate
  obtain ⟨l, x, hl⟩ := (List.eq_nil_or_concat' s.activeChain).resolve_left hchain
  have hlast : s.activeChain.getLast? = some s.tipHash := by
    rw [tipHash_eq, hl, tipOf_concat, List.getLast?_concat]
  constructor
  · intro hext
    have hchecks := checkExtendingTip_eq_ok.1 hext.checked
    obtain ⟨-, -, -, -, -, -, hafter, htransactions⟩ := hchecks
    refine ⟨fun tip htip => ?_, ?_⟩
    · obtain ⟨b, hb, hltime⟩ := hafter _ hlast
      obtain rfl := Option.some.inj (htip.symm.trans hb)
      rw [Block.withNonce, hheader] at hltime
      exact hltime
    · have hnodup := (Block.valid_of_verifyTransactions htransactions).spends_nodup
      rw [Block.spends, Block.withNonce, htxs, List.flatMap_cons] at hnodup
      exact hnodup
  · rintro ⟨hafter, hnodup⟩
    refine ⟨by rw [Block.withNonce, hheader], checkExtendingTip_eq_ok.2
      ⟨if_neg hchain, by rw [Block.withNonce, hheader], hwork, ?_, ?_, ?_, ?_, ?_⟩⟩
    · -- The size is what the transactions were chosen by.
      have hsize := sum_fillBlock_le s.mempool (c := c) (Nat.zero_le blockByteCap)
      rw [zero_add] at hsize
      rw [checkBlockSize, Block.withNonce, htxs, List.tail_cons, Outcome.bind_eq_ok]
      exact ⟨_, Outcome.expect_eq_ok.2 (checkedSum_eq_some.2 ⟨rfl, hsize.trans_lt (by decide)⟩),
        Outcome.ensure_of hsize⟩
    · -- The clock of the network is not two hours behind that of the machine.
      have hoffset : maxTimeOffset ≤ Duration.seconds maxFutureBlockDriftSeconds := by decide
      have hle := hlimits.offset.1
      rw [checkTimestamp_eq hlimits hclock, Block.withNonce, hheader]
      exact Outcome.ensure_of (by dsimp only; linarith)
    · rw [checkMerkleRoot, Block.withNonce, hroot, hheader]
      exact Outcome.ensure_of rfl
    · intro y hy
      obtain rfl := Option.some.inj (hlast.symm.trans hy)
      obtain ⟨tip, htip⟩ := Finmap.mem_iff.1 (hs.known _ (List.mem_of_getLast? hlast))
      refine ⟨tip, htip, ?_⟩
      rw [Block.withNonce, hheader]
      exact hafter tip htip
    · -- The fees are computed again, against the same outputs.
      have hsupply : s.utxos.supply < u64Bound := by
        have := reward_add_supply_lt hs
        omega
      have hspends := verifySpends_of_covered []
        (fun tx htx => hs.covered_fillBlock houtput hfunds htx) hnodup (fun _ _ => List.not_mem_nil)
        hsupply
      have hvalue : ∀ tx : Transaction, tx.outputs =
          [⟨blockRewardAtHeight s.activeChain.length + fees, uniqueId, pubkey⟩] →
          tx.outputValue = .ok (blockRewardAtHeight s.activeChain.length + fees) := fun tx htx => by
        rw [Transaction.outputValue_eq_ok, Transaction.outputSum, htx]
        simpa using hlt
      rw [Block.verifyTransactions, Block.verifyCoinbaseTransaction, Block.withNonce, htxs]
      dsimp only
      rw [List.tail_cons, Outcome.ensure_of (List.cons_ne_nil _ _), Outcome.ok_bind]
      refine Outcome.bind_eq_ok.2 ⟨(), Outcome.bind_eq_ok.2 ⟨_, rfl, ?_⟩, hspends⟩
      rw [Outcome.ensure_of rfl, Outcome.ok_bind, hfees, Outcome.ok_bind, hvalue _ rfl,
        Outcome.ok_bind, checkedAdd_eq_some.2 ⟨rfl, hlt⟩, Outcome.okOr_eq_ok.2 rfl, Outcome.ok_bind]
      exact Outcome.ensure_of rfl

/-- In every state of a run whose active chain has blocks, a template can be made and
    its block, with a nonce that meets the target, is accepted, if and only if the
    clock is after the tip, no two of the transactions of the mempool that fit spend
    the same output, and no block taken up after it panics. -/
theorem template_mined_iff (hinj : Function.Injective c.hashBlock)
    (hne : ∀ block, c.hashBlock block ≠ Hash.zero) (hheader : ∀ header, c.hashHeader header ≠ 0)
    (hgenesis : (genesisBlock c).isSome) (houtput : Function.Injective c.hashOutput)
    (hs : (chainSystem c).ReachableBy (Received c) s) (hchain : s.activeChain ≠ [])
    (hclock : ClockInRange amb.now) (hnow : now ≤ amb.now)
    (hwork : ∀ template, createBlockTemplate c now uniqueId pubkey s = .ok template →
      c.hashHeader (template.withNonce nonce).header ≤ template.header.target) :
    (∃ template, createBlockTemplate c now uniqueId pubkey s = .ok template ∧
      (addBlock c amb (template.withNonce nonce) s).2 = .ok ()) ↔
    (∀ tip, s.blocks.lookup s.tipHash = some tip → tip.header.timestamp < now) ∧
      ((fillBlock c s.mempool 0).flatMap Transaction.spends).Nodup ∧
      ∀ template, createBlockTemplate c now uniqueId pubkey s = .ok template →
        TakesUp c amb (Rooted c amb) (template.withNonce nonce) s := by
  have hsteady := steady_of_reachable hinj hne hs.reachable
  have hrun := running_of_reachable hinj hne hheader hs
  have hfunds := funds_of_reachable hinj hne hs.reachable
  -- What the acceptance of the block of a template comes down to.
  have hmined : ∀ template, createBlockTemplate c now uniqueId pubkey s = .ok template →
      ((addBlock c amb (template.withNonce nonce) s).2 = .ok () ↔
        ((∀ tip, s.blocks.lookup s.tipHash = some tip → tip.header.timestamp < now) ∧
          ((fillBlock c s.mempool 0).flatMap Transaction.spends).Nodup) ∧
        TakesUp c amb (Rooted c amb) (template.withNonce nonce) s) := fun template hcreate => by
    obtain ⟨fees, root, -, -, -, htxs, hhead⟩ := createBlockTemplate_eq_ok.1 hcreate
    have hparent : (template.withNonce nonce).header.prevBlockHash = s.tipHash := by
      rw [Block.withNonce, hhead]
    have hsized : Sized c (template.withNonce nonce) := by
      have hsize := sum_fillBlock_le s.mempool (c := c) (Nat.zero_le blockByteCap)
      rw [zero_add] at hsize
      rw [Sized, Block.withNonce, htxs, List.tail_cons]
      exact hsize.trans_lt (by decide)
    rw [addBlock_eq_ok, hsteady.accepted_iff hinj hne hparent,
      extendsTip_template houtput hsteady.toSound hrun.limits hfunds hchain hclock hnow hcreate
        (hwork template hcreate), hrun.returns_iff hinj hne hheader hgenesis hclock hsized]
  constructor
  · rintro ⟨template, hcreate, hadd⟩
    obtain ⟨⟨hafter, hnodup⟩, htakes⟩ := (hmined template hcreate).1 hadd
    refine ⟨hafter, hnodup, fun template' hcreate' => ?_⟩
    obtain rfl := Outcome.ok.inj (hcreate.symm.trans hcreate')
    exact htakes
  · rintro ⟨hafter, hnodup, htakes⟩
    obtain ⟨template, hcreate⟩ := exists_template houtput hsteady.toSound hfunds hnodup
    exact ⟨template, hcreate, (hmined template hcreate).2 ⟨⟨hafter, hnodup⟩, htakes template hcreate⟩⟩

end

/-! ## A tip dated in the future -/

/-- A block on the genesis, dated an hour after the clock. -/
def future : Block := Sample.block (Duration.seconds 7200) 1 2 [Sample.payment [] 1 (50 * 10 ^ 8) 8]

/-- The template on a block of the same transaction, by the clock. -/
def minedNext : Block := Sample.block (Duration.seconds 3600) 2 3 [Sample.payment [] 2 (50 * 10 ^ 8) 9]

noncomputable def templateCrypto (tip : Block) : Crypto :=
  Sample.crypto (tip.transactions ++ minedNext.transactions) [tip, minedNext]

/-- The state when `tip` has been delivered after the genesis. -/
noncomputable def withTip (tip : Block) : Blockchain :=
  run (templateCrypto tip) (Sample.delivering [Sample.genesis] ++ Sample.delivering [tip])

/-- The block of the template is dated before the tip, and refused. -/
theorem template_refused :
    (chainSystem (templateCrypto future)).ReachableBy (Received (templateCrypto future))
        (withTip future) ∧
      (withTip future).activeChain = [1, 2] ∧
      createBlockTemplate (templateCrypto future) Sample.ambient.now 2 9 (withTip future) =
        .ok minedNext ∧
      (templateCrypto future).hashHeader (minedNext.withNonce 0).header ≤
        minedNext.header.target ∧
      (addBlock (templateCrypto future) Sample.ambient (minedNext.withNonce 0) (withTip future)).2 =
        .err .invalidBlock := by
  refine ⟨?_, by decide +kernel, by decide +kernel, by decide +kernel, by decide +kernel⟩
  refine reachableBy_run_concat _ ?_ ⟨by decide, by decide +kernel⟩
  exact reachableBy_run_concat [] reachableBy_run_nil ⟨by decide, by decide +kernel⟩

/-- A transaction that spends what the first block pays, for a fee of a hundred. -/
def spendLeft : Transaction := Sample.payment [⟨2, 8⟩] 4 (50 * 10 ^ 8 - 100) 11

/-- The template with it, by the clock. -/
def minedWaiting : Block :=
  Sample.block (Duration.seconds 3600) 2 20 [Sample.payment [] 2 (50 * 10 ^ 8 + 100) 9, spendLeft]

noncomputable def waitingCrypto : Crypto :=
  Sample.crypto (Sample.left.transactions ++ minedWaiting.transactions) [Sample.left, minedWaiting]

/-- The state when the transaction has been offered, after two blocks. -/
noncomputable def withWaiting : Blockchain :=
  run waitingCrypto (Sample.delivering [Sample.genesis] ++ Sample.delivering [Sample.left] ++
    [.addToMempool Sample.ambient.now spendLeft])

/-- On a tip dated before the clock the template is accepted, with the transaction that waits. -/
theorem template_mined_iff_waiting :
    ∃ template, createBlockTemplate waitingCrypto Sample.ambient.now 2 9 withWaiting = .ok template ∧
      template.transactions.tail = [spendLeft] ∧
      (addBlock waitingCrypto Sample.ambient (template.withNonce 0) withWaiting).2 = .ok () := by
  have hcreate : createBlockTemplate waitingCrypto Sample.ambient.now 2 9 withWaiting =
      .ok minedWaiting := by decide +kernel
  have hreach : (chainSystem waitingCrypto).ReachableBy (Received waitingCrypto) withWaiting := by
    refine reachableBy_run_concat _ (reachableBy_run_concat _ ?_ ⟨by decide, by decide +kernel⟩) trivial
    exact reachableBy_run_concat [] reachableBy_run_nil ⟨by decide, by decide +kernel⟩
  have htip : ∀ tip ∈ withWaiting.blocks.lookup withWaiting.tipHash,
      tip.header.timestamp < Sample.ambient.now := by decide +kernel
  have hmined : ∃ template,
      createBlockTemplate waitingCrypto Sample.ambient.now 2 9 withWaiting = .ok template ∧
        (addBlock waitingCrypto Sample.ambient (template.withNonce 0) withWaiting).2 = .ok () := by
    refine (template_mined_iff (tableHash_injective _) (tableHash_ne_zero _) (tableHash_ne_zero _)
      (by decide +kernel) (tableHash_injective _) hreach (by decide +kernel) (by decide) le_rfl
      fun template h => ?_).2 ⟨fun tip h => htip tip h, by decide +kernel, fun template h => ?_⟩
    · obtain rfl := Outcome.ok.inj (hcreate.symm.trans h)
      decide +kernel
    · obtain rfl := Outcome.ok.inj (hcreate.symm.trans h)
      exact takesUp_of_orphans_eq_empty (by decide +kernel) nofun
  obtain ⟨template, htemplate, hadd⟩ := hmined
  obtain rfl := Outcome.ok.inj (hcreate.symm.trans htemplate)
  exact ⟨minedWaiting, htemplate, rfl, hadd⟩

end Blockchain

end Itx
