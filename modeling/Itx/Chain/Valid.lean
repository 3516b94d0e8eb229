import Itx.Chain.Tree

/-!
# What validation establishes

The checks of a block against the outputs unspent before it, as what they
establish (`Block.Valid`): the coinbase spends nothing and pays the reward and
the fees, every other transaction pays at most what it spends, and the block
spends existing outputs, each once and with the consent of its owner. None of it
depends on the marks.

Every known block is valid against the replay of the chain to its parent
(`ValidTree`), since it has been checked against it, or against the unspent
outputs of the active chain, which are the same.
-/

namespace Itx

open Blockchain Utxos

variable {c : Crypto} {u v : Utxos}

/-! ## Values -/

/-- The value of an output, `0` if it is not in the set. -/
def Utxos.valueAt (u : Utxos) (h : Hash) : ℕ := u.weight (fun _ p => p.2.value) h

/-- The value of all the outputs. -/
def Utxos.supply (u : Utxos) : ℕ := u.total fun _ p => p.2.value

/-- The value of what a transaction spends. -/
def Transaction.inputSum (u : Utxos) (tx : Transaction) : ℕ := (tx.spends.map u.valueAt).sum

/-- The value of what a transaction pays. -/
def Transaction.outputSum (tx : Transaction) : ℕ := (tx.outputs.map TransactionOutput.value).sum

theorem Utxos.valueAt_of_lookup {h : Hash} {p : Bool × TransactionOutput} (hp : u.lookup h = some p) :
    u.valueAt h = p.2.value := Finmap.weight_of_lookup hp

theorem Utxos.SameOutputs.valueAt (hs : SameOutputs u v) (h : Hash) : u.valueAt h = v.valueAt h := by
  have key : ∀ w : Utxos, w.valueAt h = ((w.lookup h).map Prod.snd).elim 0 TransactionOutput.value := by
    intro w
    rw [Utxos.valueAt, Finmap.weight]
    cases w.lookup h <;> rfl
  rw [key, key, hs h]

theorem Utxos.SameOutputs.inputSum (hs : SameOutputs u v) (tx : Transaction) :
    tx.inputSum u = tx.inputSum v := by
  rw [Transaction.inputSum, Transaction.inputSum, List.map_congr_left fun h _ => hs.valueAt h]

theorem Transaction.outputValue_eq_ok {tx : Transaction} {n : ℕ} :
    tx.outputValue = .ok n ↔ tx.outputSum = n ∧ tx.outputSum < u64Bound := by
  rw [outputValue, Outcome.okOr_eq_ok, checkedSum_eq_some, outputSum]

/-! ## The checks -/

/-- The inputs of a transaction of a block sum to what they are worth. -/
theorem calculateInputValue_eq_ok {inputs : List TransactionInput} {acc n : ℕ}
    (h : calculateInputValue u inputs acc = .ok n) :
    n = acc + (inputs.map fun input => u.valueAt input.prevTransactionOutputHash).sum := by
  induction inputs generalizing acc with
  | nil =>
    obtain rfl := Outcome.ok.inj h
    simp
  | cons input inputs ih =>
    obtain ⟨p, hp, h⟩ := Outcome.bind_eq_ok.1 h
    obtain ⟨acc', hacc, h⟩ := Outcome.bind_eq_ok.1 h
    obtain ⟨rfl, -⟩ := checkedAdd_eq_some.1 (Outcome.okOr_eq_ok.1 hacc)
    rw [ih h, List.map_cons, List.sum_cons, valueAt_of_lookup (Outcome.okOr_eq_ok.1 hp), add_assoc]

/-- The fees are what the transactions spend and do not pay. -/
theorem calculateMinerFeesFrom_eq_ok {txs : List Transaction} {acc n : ℕ}
    (h : calculateMinerFeesFrom u txs acc = .ok n) :
    n = acc + (txs.map fun tx => tx.inputSum u - tx.outputSum).sum := by
  induction txs generalizing acc with
  | nil =>
    obtain rfl := Outcome.ok.inj h
    simp
  | cons tx txs ih =>
    obtain ⟨i, hi, h⟩ := Outcome.bind_eq_ok.1 h
    obtain ⟨o, ho, h⟩ := Outcome.bind_eq_ok.1 h
    obtain ⟨-, -, h⟩ := Outcome.bind_eq_ok.1 h
    obtain ⟨acc', hacc, h⟩ := Outcome.bind_eq_ok.1 h
    obtain ⟨rfl, -⟩ := checkedAdd_eq_some.1 (Outcome.okOr_eq_ok.1 hacc)
    have hi : i = tx.inputSum u := by
      rw [calculateInputValue_eq_ok hi, zero_add, Transaction.inputSum, Transaction.spends,
        List.map_map]
      rfl
    rw [ih h, List.map_cons, List.sum_cons, hi, (Transaction.outputValue_eq_ok.1 ho).1, add_assoc]

/-- The inputs pass: they exist, are distinct and not spent before, and are
    signed for. -/
theorem Block.verifyInputs_eq_ok {outputs : List TransactionOutput} {inputs : List TransactionInput}
    {spent spent' : List Hash} {acc n : ℕ}
    (h : Block.verifyInputs c u outputs inputs spent acc = .ok (spent', n))
    (hspent : spent.Nodup) :
    spent' = (inputs.map TransactionInput.prevTransactionOutputHash).reverse ++ spent ∧
      spent'.Nodup ∧
      n = acc + (inputs.map fun input => u.valueAt input.prevTransactionOutputHash).sum ∧
      ∀ input ∈ inputs, ∃ p, u.lookup input.prevTransactionOutputHash = some p ∧
        input.verifies c outputs p.2.pubkey = true := by
  induction inputs generalizing spent acc with
  | nil =>
    obtain ⟨rfl, rfl⟩ := Prod.mk.inj (Outcome.ok.inj h)
    exact ⟨rfl, hspent, by simp, by simp⟩
  | cons input inputs ih =>
    obtain ⟨p, hp, h⟩ := Outcome.bind_eq_ok.1 h
    obtain ⟨_, hnew, h⟩ := Outcome.bind_eq_ok.1 h
    obtain ⟨_, hsig, h⟩ := Outcome.bind_eq_ok.1 h
    obtain ⟨acc', hacc, h⟩ := Outcome.bind_eq_ok.1 h
    obtain ⟨rfl, -⟩ := checkedAdd_eq_some.1 (Outcome.okOr_eq_ok.1 hacc)
    have hp := Outcome.okOr_eq_ok.1 hp
    obtain ⟨he, hnodup, hn, hall⟩ := ih h
      (List.nodup_cons.2 ⟨Outcome.ensure_eq_ok.1 hnew, hspent⟩)
    refine ⟨by rw [he]; simp, hnodup, ?_, ?_⟩
    · rw [hn, List.map_cons, List.sum_cons, valueAt_of_lookup hp, add_assoc]
    · rintro i hi
      rcases List.mem_cons.1 hi with rfl | hi
      exacts [⟨p, hp, Outcome.ensure_eq_ok.1 hsig⟩, hall i hi]

/-- A transaction of a block spends existing outputs with the consent of their
    owners, and pays at most what they are worth. -/
structure Transaction.Covered (c : Crypto) (u : Utxos) (tx : Transaction) : Prop where
  signed : ∀ input ∈ tx.inputs, ∃ p, u.lookup input.prevTransactionOutputHash = some p ∧
    input.verifies c tx.outputs p.2.pubkey = true
  outputSum_le : tx.outputSum ≤ tx.inputSum u

/-- What a covered transaction spends exists. -/
theorem Transaction.Covered.mem_of_mem_spends {tx : Transaction} (h : tx.Covered c u) {x : Hash}
    (hx : x ∈ tx.spends) : x ∈ u := by
  obtain ⟨input, hinput, rfl⟩ := List.mem_map.1 hx
  obtain ⟨p, hp, -⟩ := h.signed input hinput
  exact Finmap.mem_iff.2 ⟨p, hp⟩

/-- It does not depend on the marks. -/
theorem Transaction.Covered.congr {tx : Transaction} (h : tx.Covered c u) (hs : SameOutputs u v) :
    tx.Covered c v := by
  refine ⟨fun input hinput => ?_, ?_⟩
  · obtain ⟨p, hp, hsig⟩ := h.signed input hinput
    obtain ⟨m, hm⟩ := hs.lookup hp
    exact ⟨(m, p.2), hm, hsig⟩
  · rw [← hs.inputSum tx]
    exact h.outputSum_le

/-- The transactions after the coinbase pass. -/
theorem Block.verifySpends_eq_ok {txs : List Transaction} {spent : List Hash} {o : Unit}
    (h : Block.verifySpends c u txs spent = .ok o) (hspent : spent.Nodup) :
    (spent.reverse ++ txs.flatMap Transaction.spends).Nodup ∧ ∀ tx ∈ txs, tx.Covered c u := by
  induction txs generalizing spent with
  | nil => simpa using hspent
  | cons tx txs ih =>
    obtain ⟨⟨spent', i⟩, hi, h⟩ := Outcome.bind_eq_ok.1 h
    obtain ⟨o', ho, h⟩ := Outcome.bind_eq_ok.1 h
    obtain ⟨_, hle, h⟩ := Outcome.bind_eq_ok.1 h
    obtain ⟨rfl, hnodup, hn, hall⟩ := Block.verifyInputs_eq_ok hi hspent
    obtain ⟨hrest, hcovered⟩ := ih h hnodup
    refine ⟨?_, ?_⟩
    · rw [List.reverse_append, List.reverse_reverse, List.append_assoc] at hrest
      rwa [List.flatMap_cons]
    · intro t ht
      rcases List.mem_cons.1 ht with rfl | ht
      · refine ⟨hall, ?_⟩
        have hle := Outcome.ensure_eq_ok.1 hle
        rw [(Transaction.outputValue_eq_ok.1 ho).1.symm, hn, zero_add] at hle
        rw [Transaction.inputSum, Transaction.spends, List.map_map]
        exact hle
      · exact hcovered t ht

/-- What validation establishes of a block at a height, against the outputs
    unspent before it. -/
structure Block.Valid (c : Crypto) (height : ℕ) (u : Utxos) (block : Block) : Prop where
  coinbase : ∃ coinbase txs, block.transactions = coinbase :: txs ∧ coinbase.inputs = [] ∧
    coinbase.outputSum = blockRewardAtHeight height +
      (txs.map fun tx => tx.inputSum u - tx.outputSum).sum
  covered : ∀ tx ∈ block.transactions.tail, tx.Covered c u
  spends_nodup : block.spends.Nodup

/-- A block that passes is valid. -/
theorem Block.valid_of_verifyTransactions {block : Block} {height : ℕ} {o : Unit}
    (h : block.verifyTransactions c height u = .ok o) : block.Valid c height u := by
  obtain ⟨-, -, h⟩ := Outcome.bind_eq_ok.1 h
  obtain ⟨_, hcoinbase, hspends⟩ := Outcome.bind_eq_ok.1 h
  obtain ⟨coinbase, hcb, h⟩ := Outcome.bind_eq_ok.1 hcoinbase
  obtain ⟨_, hinputs, h⟩ := Outcome.bind_eq_ok.1 h
  obtain ⟨fees, hfees, h⟩ := Outcome.bind_eq_ok.1 h
  obtain ⟨total, htotal, h⟩ := Outcome.bind_eq_ok.1 h
  obtain ⟨owed, howed, h⟩ := Outcome.bind_eq_ok.1 h
  have hinputs := Outcome.ensure_eq_ok.1 hinputs
  obtain ⟨txs, htxs⟩ : ∃ txs, block.transactions = coinbase :: txs := by
    have hcb := Outcome.expect_eq_ok.1 hcb
    cases hl : block.transactions with
    | nil =>
      rw [hl] at hcb
      cases hcb
    | cons tx txs =>
      rw [hl] at hcb
      exact ⟨txs, by rw [← Option.some.inj hcb]⟩
  obtain ⟨hnodup, hcovered⟩ := Block.verifySpends_eq_ok hspends List.nodup_nil
  refine ⟨⟨coinbase, txs, htxs, hinputs, ?_⟩, hcovered, ?_⟩
  · rw [(Transaction.outputValue_eq_ok.1 htotal).1, Outcome.ensure_eq_ok.1 h,
      ← (checkedAdd_eq_some.1 (Outcome.okOr_eq_ok.1 howed)).1, calculateMinerFeesFrom_eq_ok hfees,
      htxs, List.tail_cons, zero_add]
  · rw [List.reverse_nil, List.nil_append, htxs, List.tail_cons] at hnodup
    rw [Block.spends, htxs, List.flatMap_cons, Transaction.spends, hinputs]
    exact hnodup

/-- What a valid block spends exists. -/
theorem Block.Valid.mem_of_mem_spends {block : Block} {height : ℕ} (h : block.Valid c height u)
    {x : Hash} (hx : x ∈ block.spends) : x ∈ u := by
  obtain ⟨coinbase, txs, htxs, hinputs, -⟩ := h.coinbase
  obtain ⟨tx, htx, hx⟩ := Block.mem_spends.1 hx
  rw [htxs, List.mem_cons] at htx
  rcases htx with rfl | htx
  · rw [Transaction.spends, hinputs] at hx
    exact absurd hx List.not_mem_nil
  · exact (h.covered tx (by rwa [htxs])).mem_of_mem_spends hx

/-- Validity does not depend on the marks. -/
theorem Block.Valid.congr {block : Block} {height : ℕ} (h : block.Valid c height u)
    (hs : SameOutputs u v) : block.Valid c height v := by
  obtain ⟨coinbase, txs, htxs, hinputs, hsum⟩ := h.coinbase
  refine ⟨⟨coinbase, txs, htxs, hinputs, ?_⟩, fun tx htx => (h.covered tx htx).congr hs,
    h.spends_nodup⟩
  rw [hsum, List.map_congr_left fun tx _ => by rw [hs.inputSum tx]]

/-! ## Every known block is valid -/

namespace Blockchain

open Call

variable {s : Blockchain} {block : Block}

/-- The checks of a block extending the tip. -/
theorem checkExtendingTip_eq_ok {now : DateTime} :
    checkExtendingTip c now s block = .ok () ↔
      checkGenesis c s block = .ok () ∧ block.header.target = s.target ∧
      c.hashHeader block.header ≤ block.header.target ∧ checkBlockSize c block = .ok () ∧
      checkTimestamp now s block.header.timestamp = .ok () ∧ checkMerkleRoot c block = .ok () ∧
      (∀ h, s.activeChain.getLast? = some h → ∃ lastBlock, s.blocks.lookup h = some lastBlock ∧
        lastBlock.header.timestamp < block.header.timestamp) ∧
      block.verifyTransactions c s.activeChain.length s.utxos = .ok () := by
  rw [checkExtendingTip]
  cases s.activeChain.getLast? with
  | none => simp [Outcome.bind_eq_ok]
  | some h => simp [Outcome.bind_eq_ok, checkAfter, ← and_assoc (b := _ < _)]

/-- The checks of a block off the tip. -/
theorem checkOffTip_eq_ok {now : DateTime} {chain : List Hash} :
    checkOffTip c now s chain block = .ok () ↔
      recomputeTargetForChain s.blocks chain = some block.header.target ∧
      c.hashHeader block.header ≤ block.header.target ∧ checkBlockSize c block = .ok () ∧
      checkTimestamp now s block.header.timestamp = .ok () ∧
      (∀ h, chain.getLast? = some h → ∃ parentBlock, s.blocks.lookup h = some parentBlock ∧
        checkMerkleRoot c block = .ok () ∧
        parentBlock.header.timestamp < block.header.timestamp) ∧
      ∃ utxos, replayUtxos c s.blocks chain = some utxos ∧
        block.verifyTransactions c chain.length utxos = .ok () := by
  rw [checkOffTip]
  cases chain.getLast? with
  | none => simp [Outcome.bind_eq_ok]
  | some h =>
    simp only [Outcome.bind_eq_ok, Outcome.ensure_eq_ok, Outcome.expect_eq_ok, checkAfter,
      Option.some.injEq, forall_eq']
    constructor
    · rintro ⟨_, ht, _, rfl, _, hpow, _, hsize, _, htime, b, hb, _, hroot, _, hlt, u, hu, hv⟩
      exact ⟨ht, hpow, hsize, htime, ⟨b, hb, hroot, hlt⟩, u, hu, hv⟩
    · rintro ⟨ht, hpow, hsize, htime, ⟨b, hb, hroot, hlt⟩, u, hu, hv⟩
      exact ⟨_, ht, (), rfl, (), hpow, (), hsize, (), htime, b, hb, (), hroot, (), hlt, u, hu, hv⟩

theorem ExtendsTip.valid {now : DateTime} (h : ExtendsTip c now s block) :
    block.Valid c s.activeChain.length s.utxos := by
  obtain ⟨-, -, -, -, -, -, -, hv⟩ := checkExtendingTip_eq_ok.1 h.checked
  exact Block.valid_of_verifyTransactions hv

theorem OffTip.valid {now : DateTime} {forkIndex : ℕ} {branch : List Hash}
    (h : OffTip c now s block forkIndex branch) {utxos : Utxos}
    (hu : replayUtxos c s.blocks (s.candidateChain forkIndex branch) = some utxos) :
    block.Valid c (s.candidateChain forkIndex branch).length utxos := by
  obtain ⟨-, -, -, -, -, u, hu', hv⟩ := checkOffTip_eq_ok.1 h.checked
  obtain rfl := Option.some.inj (hu.symm.trans hu')
  exact Block.valid_of_verifyTransactions hv

/-- A block is valid against the replay of a chain. -/
def ValidOn (c : Crypto) (blocks : Finmap fun _ : Hash => Block) (chain : List Hash) (block : Block) :
    Prop :=
  ∀ utxos, replayUtxos c blocks chain = some utxos → block.Valid c chain.length utxos

theorem onChain_validOn : OnChain (ValidOn c) := by
  intro blocks blocks' chain block hsame h utxos hu
  rw [← replayUtxos_congr hsame] at hu
  exact h utxos hu

/-- The blocks form a tree, the unspent outputs are a replay of the active chain,
    and every block is valid against the replay of the chain to its parent. -/
structure ValidTree (c : Crypto) (s : Blockchain) : Prop extends Tree c s, Replayed c s where
  valid : Each (ValidOn c) s

theorem validTree_iff :
    (Tree c s ∧ Replayed c s) ∧ Each (ValidOn c) s ↔ ValidTree c s :=
  ⟨fun h => ⟨h.1.1, h.1.2.replay, h.2⟩, fun h => ⟨⟨h.toTree, h.toReplayed⟩, h.valid⟩⟩

theorem ofChain_validTree : OfChain (ValidTree c) := by
  have h := ((ofChain_tree (c := c)).and (ofChain_replayed (c := c))).and (ofChain_each (Φ := ValidOn c))
  exact ⟨fun s₀ s hs ht => validTree_iff.1 (h.1 s₀ s hs (validTree_iff.2 ht)),
    fun s offset ht => validTree_iff.1 (h.2 s offset (validTree_iff.2 ht))⟩

theorem validTree_new : ValidTree c new := ⟨tree_new, replayed_new.replay, each_new⟩

/-- What the steps of an acceptance do to the validity of the blocks. -/
theorem moves_validTree (hinj : Function.Injective c.hashBlock)
    (hne : ∀ block, c.hashBlock block ≠ Hash.zero) (amb : Ambient)
    (P : Blockchain → Block → Prop) : Moves c amb P (ValidTree c) (ValidTree c) := by
  have h := (moves_tree hinj hne amb P).and (moves_replayed hinj amb P)
  refine (h.each hinj hne (fun _ hs => hs.1) onChain_validOn ?_ ?_).congr
    (fun _ => validTree_iff) fun _ => validTree_iff.1
  · intro s block hs _ htip utxos hu
    -- The unspent outputs are those of the replay.
    obtain ⟨utxos', hu', hsame⟩ := hs.2.replay
    obtain rfl := Option.some.inj (hu.symm.trans hu')
    exact htip.valid.congr hsame
  · exact fun s block _ _ _ _ hoff utxos hu => hoff.valid hu

/-- In every run the blocks form a tree of valid blocks. -/
theorem validTree_of_reachable (hinj : Function.Injective c.hashBlock)
    (hne : ∀ block, c.hashBlock block ≠ Hash.zero) {s : Blockchain}
    (hs : (chainSystem c).Reachable s) : ValidTree c s :=
  ofChain_validTree.invariant (P := fun _ _ _ => True) validTree_new
    (fun amb => moves_validTree hinj hne amb _) (fun _ hs => hs.toKeyed)
    (hs.mono fun s op _ => taking_of_forall (fun _ _ _ => trivial) s op)

end Blockchain

end Itx
