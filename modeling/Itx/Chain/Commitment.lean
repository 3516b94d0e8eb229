import Itx.Lib.Merkle
import Itx.Chain.Replay
import Itx.Chain.Valid

/-!
# What a header fixes

A header has the Merkle root of the transactions of its block (`MerkleRoot::calculate`,
`lib/src/util.rs`), in which the last ones may be repeated without a change of the root. A
transaction that spends something cannot be repeated in a block that passes, but one that spends and
pays nothing can.

* `header_fixes_body_iff`: of two blocks with the same header, wherever they have been accepted, the
  transactions are the same iff there are as many of them.
-/

namespace Itx

open Merkle

/-- `Hash::hash` is injective on what is hashed in a Merkle tree: transactions and pairs of hashes. -/
structure Crypto.HashesApart (c : Crypto) : Prop where
  transaction : Function.Injective c.hashTransaction
  pair : Function.Injective2 c.hashPair
  apart : ∀ tx left right, c.hashTransaction tx ≠ c.hashPair left right

variable {c : Crypto} {txs txs' : List Transaction} {root : Hash}

/-! ## The root -/

theorem merkleLayer_eq (c : Crypto) : merkleLayer c = layer c.hashPair := by
  funext l
  induction l using layer.induct with
  | case1 => simp [merkleLayer, layer]
  | case2 => simp [merkleLayer, layer]
  | case3 left right l ih => rw [merkleLayer, layer, ih]

/-- As many passes as there are elements are enough. -/
theorem root_merkleFold {n : ℕ} {l : List Hash} (hl : l ≠ []) (hn : l.length ≤ n + 1) :
    ∃ d x, merkleFold c n l = [x] ∧ Root c.hashPair d l x := by
  induction n generalizing l with
  | zero =>
    obtain ⟨x, rfl⟩ := List.length_eq_one_iff.1 (le_antisymm hn (List.length_pos_iff.2 hl))
    exact ⟨0, x, rfl, .single x⟩
  | succ n ih =>
    rw [merkleFold, merkleLayer_eq]
    split_ifs with hlong
    · have hlength : (layer c.hashPair l).length = (l.length + 1) / 2 := length_layer l
      obtain ⟨d, x, hfold, hroot⟩ := ih (l := layer c.hashPair l)
        (List.length_pos_iff.1 (by omega)) (by omega)
      exact ⟨d + 1, x, hfold, .pass hlong hroot⟩
    · obtain ⟨x, rfl⟩ := List.length_eq_one_iff.1 (le_antisymm (not_lt.1 hlong) (List.length_pos_iff.2 hl))
      exact ⟨0, x, rfl, .single x⟩

theorem root_of_merkleRoot (hroot : merkleRoot c txs = some root) :
    ∃ d, Root c.hashPair d (txs.map c.hashTransaction) root := by
  have hne : txs.map c.hashTransaction ≠ [] := by
    rintro hnil
    rw [List.map_eq_nil_iff.1 hnil] at hroot
    cases hroot
  obtain ⟨d, x, hfold, hx⟩ := root_merkleFold (c := c) (n := txs.length) hne (by simp)
  rw [merkleRoot, hfold] at hroot
  obtain rfl := Option.some.inj hroot
  exact ⟨d, hx⟩

theorem exists_merkleRoot (h : txs ≠ []) : ∃ root, merkleRoot c txs = some root := by
  obtain ⟨d, x, hfold, -⟩ := root_merkleFold (c := c) (n := txs.length) (List.map_eq_nil_iff.not.2 h) (by simp)
  exact ⟨x, by rw [merkleRoot, hfold]; rfl⟩

/-- What is hashed of a transaction is not a pair, so it can be the leaves of the tree. -/
theorem Crypto.HashesApart.leaf (hc : c.HashesApart) (left right : Hash) :
    ¬ ∃ tx, c.hashTransaction tx = c.hashPair left right :=
  fun ⟨tx, htx⟩ => hc.apart tx left right htx

theorem leaf_of_mem : ∀ a ∈ txs.map c.hashTransaction, ∃ tx, c.hashTransaction tx = a :=
  fun _ ha => (List.mem_map.1 ha).imp fun _ h => h.2

/-- Of two lists of transactions with the same root, one is a prefix of the other, and there is nothing
    else in either. -/
theorem comparable_of_merkleRoot (hc : c.HashesApart) (hroot : merkleRoot c txs = some root)
    (hroot' : merkleRoot c txs' = some root) : (txs <+: txs' ∨ txs' <+: txs) ∧ ∀ tx, tx ∈ txs ↔ tx ∈ txs' := by
  obtain ⟨d, hd⟩ := root_of_merkleRoot hroot
  obtain ⟨d', hd'⟩ := root_of_merkleRoot hroot'
  obtain ⟨hpre, hmem⟩ := hd.comparable hc.pair hc.leaf leaf_of_mem leaf_of_mem hd'
  refine ⟨?_, fun tx => ?_⟩
  · exact hpre.imp (List.prefix_map_iff_of_injective hc.transaction).1
      (List.prefix_map_iff_of_injective hc.transaction).1
  · rw [← List.mem_map_of_injective hc.transaction, hmem, List.mem_map_of_injective hc.transaction]

/-- The root fixes a list of transactions among those of its length. -/
theorem eq_iff_length_eq_of_merkleRoot (hc : c.HashesApart) (hroot : merkleRoot c txs = some root)
    (hroot' : merkleRoot c txs' = some root) : txs = txs' ↔ txs.length = txs'.length := by
  obtain ⟨d, hd⟩ := root_of_merkleRoot hroot
  obtain ⟨d', hd'⟩ := root_of_merkleRoot hroot'
  have hiff := hd.eq_iff_length_eq hc.pair hc.leaf leaf_of_mem leaf_of_mem hd'
  rw [List.length_map, List.length_map] at hiff
  exact (List.map_injective_iff.2 hc.transaction).eq_iff.symm.trans hiff

/-! ## Blocks that pass -/

/-- In a block that passes, the last transactions are not a repetition of others, unless some spend
    nothing. -/
theorem Block.Valid.eq_of_prefix {block : Block} {height : ℕ} {u : Utxos} (hv : block.Valid c height u)
    (hpre : txs <+: block.transactions) (hmem : ∀ tx ∈ block.transactions, tx ∈ txs)
    (hnodup : (block.transactions.filter fun tx => tx.inputs = []).Nodup) : txs = block.transactions := by
  obtain ⟨rest, hrest⟩ := hpre
  rcases rest with _ | ⟨tx, rest⟩
  · rw [← hrest, List.append_nil]
  have htx : tx ∈ txs := hmem tx (by simp [← hrest])
  -- The first of the rest is repeated: if it spends nothing, it occurs twice among those.
  by_cases hinputs : tx.inputs = []
  · rw [← hrest, List.filter_append] at hnodup
    have hbefore : tx ∈ txs.filter fun tx => tx.inputs = [] := List.mem_filter.2 ⟨htx, decide_eq_true hinputs⟩
    have hafter : tx ∈ (tx :: rest).filter fun tx => tx.inputs = [] :=
      List.mem_filter.2 ⟨List.mem_cons_self, decide_eq_true hinputs⟩
    exact absurd rfl ((List.nodup_append.1 hnodup).2.2 tx hbefore tx hafter)
  -- Otherwise what it spends is spent twice in the block.
  · obtain ⟨input, hinput⟩ := List.exists_mem_of_ne_nil _ hinputs
    have hspends : input.prevTransactionOutputHash ∈ tx.spends := List.mem_map_of_mem hinput
    have hdisjoint := hv.spends_nodup
    rw [Block.spends, ← hrest, List.flatMap_append, List.flatMap_cons] at hdisjoint
    exact absurd rfl ((List.nodup_append.1 hdisjoint).2.2 _ (List.mem_flatMap.2 ⟨tx, htx, hspends⟩) _
      (List.mem_append_left _ hspends))

namespace Blockchain

variable {s s' : Blockchain} {amb : Ambient}

/-- A block has passed: it has the root of its transactions, and they were verified against some
    outputs. -/
structure Passed (c : Crypto) (block : Block) : Prop where
  root : merkleRoot c block.transactions = some block.header.merkleRoot
  valid : ∃ height utxos, block.verifyTransactions c height utxos = .ok ()

/-- All known blocks have. -/
structure AllPassed (c : Crypto) (s : Blockchain) : Prop where
  blocks : ∀ x block, s.blocks.lookup x = some block → Passed c block

theorem root_of_checkMerkleRoot {block : Block} (h : checkMerkleRoot c block = .ok ()) :
    merkleRoot c block.transactions = some block.header.merkleRoot := by
  obtain ⟨root, hroot, h⟩ := Outcome.bind_eq_ok.1 h
  rw [Outcome.expect_eq_ok.1 hroot, Outcome.ensure_eq_ok.1 h]

/-- The walk from the parent of a block ends on the active chain, or goes through some blocks. -/
theorem traceFrom_ne_nil {blocks : Finmap fun _ : Hash => Block} {chain : List Hash} {steps k : ℕ} {x : Hash}
    {branch branch' : List Hash}
    (h : traceFrom blocks (activeChainIndex chain) steps x branch = some (k, branch')) :
    chain.take k ++ branch' ≠ [] := by
  induction steps generalizing x branch with
  | zero => cases h
  | succ steps ih =>
    rw [traceFrom] at h
    split at h
    · next i hi =>
      obtain ⟨rfl, rfl⟩ := Prod.mk.inj (Option.some.inj h)
      have hx : x ∈ chain := mem_activeChainIndex.1 (Finmap.mem_iff.2 ⟨i, hi⟩)
      have hpos := List.length_pos_of_mem hx
      refine List.append_ne_nil_of_left_ne_nil (List.length_pos_iff.1 ?_) _
      rw [List.length_take]
      omega
    · obtain ⟨block, -, h⟩ := Option.bind_eq_some_iff.1 h
      split_ifs at h
      · obtain ⟨rfl, rfl⟩ := Prod.mk.inj (Option.some.inj h)
        exact List.append_ne_nil_of_right_ne_nil _ (List.cons_ne_nil _ _)
      · exact ih h

theorem BranchesOff.candidateChain_ne_nil {block : Block} {forkIndex : ℕ} {branch : List Hash}
    (h : BranchesOff s block forkIndex branch) : s.candidateChain forkIndex branch ≠ [] := by
  have htraced := h.traced
  rw [traceBranchWithIndex, if_neg h.parent_ne_zero] at htraced
  obtain ⟨traced, hfrom, htraced⟩ := Outcome.bind_eq_ok.1 htraced
  obtain rfl := Option.some.inj (Outcome.ok.inj htraced)
  exact traceFrom_ne_nil (Outcome.expect_eq_ok.1 hfrom)

theorem ExtendsTip.passed {now : DateTime} {block : Block} (h : ExtendsTip c now s block) : Passed c block := by
  obtain ⟨-, -, -, -, -, hroot, -, hvalid⟩ := checkExtendingTip_eq_ok.1 h.checked
  exact ⟨root_of_checkMerkleRoot hroot, _, _, hvalid⟩

theorem OffTip.passed {now : DateTime} {block : Block} {forkIndex : ℕ} {branch : List Hash}
    (h : OffTip c now s block forkIndex branch) : Passed c block := by
  obtain ⟨-, -, -, -, hafter, utxos, -, hvalid⟩ := checkOffTip_eq_ok.1 h.checked
  obtain ⟨-, -, hroot, -⟩ := hafter _ (List.getLast?_eq_some_getLast h.candidateChain_ne_nil)
  exact ⟨root_of_checkMerkleRoot hroot, _, _, hvalid⟩

theorem AllPassed.storeBlock (h : AllPassed c s) {block : Block} (hpassed : Passed c block)
    (hblocks : s'.blocks = (s.storeBlock c block).blocks) : AllPassed c s' where
  blocks x b hb := by
    rw [hblocks, Blockchain.storeBlock, Finmap.lookup_insert_eq] at hb
    split_ifs at hb
    · obtain rfl := Option.some.inj hb
      exact hpassed
    · exact h.blocks x b hb

theorem ofChain_allPassed : OfChain (AllPassed c) := by
  refine ⟨fun s₀ s hsame hs => ⟨fun x b hb => hs.blocks x b ?_⟩, fun s offset hs => ⟨hs.blocks⟩⟩
  rwa [hsame.blocks] at hb

theorem moves_allPassed (amb : Ambient) (P : Blockchain → Block → Prop) :
    Moves c amb P (AllPassed c) (AllPassed c) where
  push s block hs _ hext := hs.storeBlock hext.passed rfl
  adjust s _ _ _ hs _ _ _ _ _ := ⟨hs.blocks⟩
  prune s prunable hs _ := by
    refine ⟨fun x b hb => hs.blocks x b ?_⟩
    rw [lookup_forgetBlocks] at hb
    split_ifs at hb
    exact hb
  store s block _ _ hs _ hoff := hs.storeBlock hoff.passed rfl
  switch s block _ _ _ _ _ hs _ hoff _ _ _ := hs.storeBlock hoff.passed rfl
  pool tx _ := ofChain_allPassed.addToMempool amb.now tx
  keep s block hs _ _ := by
    rw [keepOrphan]
    split
    exacts [hs, ⟨hs.blocks⟩]
  take s block hs := ⟨hs.blocks⟩

theorem allPassed_of_reachable (hs : (chainSystem c).Reachable s) : AllPassed c s := by
  have hinv : Keyed c s ∧ AllPassed c s := by
    refine invariant_of_moves (P := fun _ _ _ => True) (I := fun s => Keyed c s ∧ AllPassed c s)
      ⟨keyed_new, ⟨by simp [new]⟩⟩ (fun amb => (moves_keyed amb _).and (moves_allPassed amb _))
        (fun _ hs => hs.1)
      (fun now tx => (ofChain_keyed.and ofChain_allPassed).addToMempool now tx) (fun now s hs => ?_)
      (fun offset s hs => (ofChain_keyed.and ofChain_allPassed).2 s offset hs)
      (hs.mono fun s op _ => taking_of_forall (fun _ _ _ => trivial) s op)
    exact (ofChain_keyed.and ofChain_allPassed).1 _ _ ((SameChain.refl s).cleanupMempool now) hs
  exact hinv.2

end Blockchain

/-! ## Headers and bodies -/

/-- A transaction that spends nothing occurs twice in a block. -/
def Block.Repeats (block : Block) : Prop := ¬ (block.transactions.filter fun tx => tx.inputs = []).Nodup

/-- The root fixes the transactions of blocks that are verified, among as many. -/
theorem transactions_eq_iff (hc : c.HashesApart) {block block' : Block} {height height' : ℕ} {u u' : Utxos}
    (hv : block.verifyTransactions c height u = .ok ()) (hv' : block'.verifyTransactions c height' u' = .ok ())
    (hroot : merkleRoot c block.transactions = merkleRoot c block'.transactions) :
    (block.transactions = block'.transactions ↔ block.transactions.length = block'.transactions.length) ∧
      (¬ block.Repeats → ¬ block'.Repeats → block.transactions = block'.transactions) := by
  have hv := Block.valid_of_verifyTransactions hv
  have hv' := Block.valid_of_verifyTransactions hv'
  obtain ⟨coinbase, txs, htxs, -⟩ := hv.coinbase
  have hne : block.transactions ≠ [] := by
    rw [htxs]
    exact List.cons_ne_nil coinbase txs
  obtain ⟨root, hsome⟩ := exists_merkleRoot (c := c) hne
  have hsome' := hroot.symm.trans hsome
  refine ⟨eq_iff_length_eq_of_merkleRoot hc hsome hsome', fun honce honce' => ?_⟩
  obtain ⟨hpre, hmem⟩ := comparable_of_merkleRoot hc hsome hsome'
  rcases hpre with hpre | hpre
  · exact hv'.eq_of_prefix hpre (fun tx => (hmem tx).2) (not_not.1 honce')
  · exact (hv.eq_of_prefix hpre (fun tx => (hmem tx).1) (not_not.1 honce)).symm

/-- A header does not fix its body, but nearly so. Of two blocks with the same header, accepted in any
    two runs, the transactions are the same if and only if there are as many of them, and they are if
    no transaction that spends nothing occurs twice in either. So it is for the Merkle root and any two
    lists of transactions that are verified. -/
theorem header_fixes_body_iff (hc : c.HashesApart) :
    (∀ s s', (Blockchain.chainSystem c).Reachable s → (Blockchain.chainSystem c).Reachable s' →
      ∀ x x' block block', s.blocks.lookup x = some block → s'.blocks.lookup x' = some block' →
      block.header = block'.header →
      (block.transactions = block'.transactions ↔ block.transactions.length = block'.transactions.length) ∧
      (¬ block.Repeats → ¬ block'.Repeats → block.transactions = block'.transactions)) ∧
    ∀ (block block' : Block) (height height' : ℕ) (u u' : Utxos),
      block.verifyTransactions c height u = .ok () → block'.verifyTransactions c height' u' = .ok () →
      merkleRoot c block.transactions = merkleRoot c block'.transactions →
      (block.transactions = block'.transactions ↔ block.transactions.length = block'.transactions.length) ∧
      (¬ block.Repeats → ¬ block'.Repeats → block.transactions = block'.transactions) := by
  constructor
  · intro s s' hs hs' x x' block block' hb hb' hheader
    have hpassed := (Blockchain.allPassed_of_reachable hs).blocks x block hb
    have hpassed' := (Blockchain.allPassed_of_reachable hs').blocks x' block' hb'
    obtain ⟨height, u, hv⟩ := hpassed.valid
    obtain ⟨height', u', hv'⟩ := hpassed'.valid
    exact transactions_eq_iff hc hv hv' (by rw [hpassed.root, hpassed'.root, hheader])
  · intro block block' height height' u u' hv hv' hroot
    exact transactions_eq_iff hc hv hv' hroot

namespace BodySample

open Blockchain

def reward : Transaction := Sample.payment [] 30 (50 * 10 ^ 8) 9

/-- It spends nothing and pays nothing. -/
def idle : Transaction := Sample.payment [] 31 0 9

/-- The hash of two hashes: odd, and at least 3. -/
def above (left right : ℕ) : ℕ := 2 * Nat.pair left right + 3

/-- One, or even. -/
def below (n : ℕ) : ℕ := if n = 1 then 1 else 2 * n

/-- A block whose last transaction is paired with itself, and one in which it is repeated. -/
def odd : Block := Sample.block 1 1 (above (above 4 6) (above 6 6)) [reward, idle, idle]
def even : Block := Sample.block 1 1 (above (above 4 6) (above 6 6)) [reward, idle, idle, idle]

noncomputable def crypto : Crypto :=
  { Sample.crypto [reward, idle] [odd, even] with
    hashTransaction := fun tx => below ((Sample.crypto [reward, idle] [odd, even]).hashTransaction tx)
    hashPair := above }

theorem below_injective : Function.Injective below := by
  intro n m h
  rw [below, below] at h
  split_ifs at h <;> omega

theorem hashesApart : crypto.HashesApart where
  transaction := below_injective.comp (tableHash_injective _)
  pair left left' right right' h := by
    have hpair : Nat.pair left right = Nat.pair left' right' := by
      have h : 2 * Nat.pair left right + 3 = 2 * Nat.pair left' right' + 3 := h
      omega
    exact Nat.pair_eq_pair.1 hpair
  apart tx left right h := by
    have h : below (tableHash _ tx) = 2 * Nat.pair left right + 3 := h
    rw [below] at h
    split_ifs at h <;> omega

noncomputable def afterOdd : Blockchain := run crypto (Sample.delivering [Sample.genesis, odd])
noncomputable def afterEven : Blockchain := run crypto (Sample.delivering [Sample.genesis, even])

theorem lookup_odd : afterOdd.blocks.lookup 2 = some odd := by decide +kernel

theorem lookup_even : afterEven.blocks.lookup 3 = some even := by decide +kernel

end BodySample

open BodySample Blockchain in
/-- The two blocks have as many transactions as they have, so they are not the same, and one of them
    repeats one that spends nothing. -/
theorem header_fixes_body_iff_odd : odd.transactions ≠ even.transactions ∧ (odd.Repeats ∨ even.Repeats) := by
  obtain ⟨hbodies, -⟩ := header_fixes_body_iff hashesApart
  obtain ⟨hiff, honce⟩ := hbodies afterOdd afterEven (reachable_run _) (reachable_run _) 2 3 odd even lookup_odd
    lookup_even rfl
  have hne : odd.transactions ≠ even.transactions := fun h => absurd (hiff.1 h) (by decide)
  refine ⟨hne, ?_⟩
  by_contra hrepeats
  obtain ⟨hodd, heven⟩ := not_or.1 hrepeats
  exact hne (honce hodd heven)

open BodySample Blockchain in
/-- They have the same header, and each is accepted. -/
theorem same_header_two_bodies : crypto.HashesApart ∧
    (chainSystem crypto).Reachable afterOdd ∧ afterOdd.blocks.lookup 2 = some odd ∧
    (chainSystem crypto).Reachable afterEven ∧ afterEven.blocks.lookup 3 = some even ∧
    odd.header = even.header ∧ odd.transactions ≠ even.transactions ∧
    merkleRoot crypto odd.transactions = merkleRoot crypto even.transactions :=
  ⟨hashesApart, reachable_run _, lookup_odd, reachable_run _, lookup_even, rfl, by decide, by decide +kernel⟩

end Itx
