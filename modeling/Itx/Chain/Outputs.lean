import Itx.Chain.Valid

/-!
# Output identifiers along a chain

An unspent output is known by its hash, that of its value, its unique id and its
owner. Nothing in validation compares the hashes of the outputs a block creates
with those created before it, so a block may create an output again: spent or
not, it is then unspent (`outputs_created_twice`).

Where the blocks that are accepted create new outputs only (`FreshOn`), on the
chain to their parent, every output hash on the active chain is created once
(`outputs_unique`). Hence it is spent once, no transaction that spends something
is confirmed twice, and applying a block never replaces an unspent output.
-/

namespace Itx.Blockchain

open Utxos Call

variable {c : Crypto} {u : Utxos} {s : Blockchain} {block : Block} {x : Hash}
  {blocks : Finmap fun _ : Hash => Block} {chain : List Hash}

/-! ## Along a chain -/

theorem collectFrom_concat {α : Type} (contents : Block → List α) (h : Hash) :
    collectFrom blocks contents (chain ++ [h]) = (collectFrom blocks contents chain).bind fun l =>
      (blocks.lookup h).map fun block => l ++ contents block := by
  induction chain with
  | nil =>
    rw [List.nil_append, collectFrom_cons, collectFrom]
    cases blocks.lookup h <;> simp
  | cons y chain ih =>
    rw [List.cons_append, collectFrom_cons, ih, collectFrom_cons]
    rcases collectFrom blocks contents chain with _ | l
    · rfl
    · cases blocks.lookup h <;> cases blocks.lookup y <;> simp

/-- The hashes of the outputs created on a chain, position by position. -/
def createdOn (c : Crypto) (blocks : Finmap fun _ : Hash => Block) (chain : List Hash) :
    Option (List Hash) :=
  collectFrom blocks (Block.creates c) chain

/-- The hashes of the outputs spent on a chain, input by input. -/
def spentOn (blocks : Finmap fun _ : Hash => Block) (chain : List Hash) : Option (List Hash) :=
  collectFrom blocks Block.spends chain

/-- The transactions confirmed on a chain that spend something. -/
def spendingOn (blocks : Finmap fun _ : Hash => Block) (chain : List Hash) :
    Option (List Transaction) :=
  collectFrom blocks (fun block => block.transactions.filter fun tx => tx.inputs ≠ []) chain

/-- A block creates outputs none of which is created twice by it, or before on the
    chain. -/
def FreshOn (c : Crypto) (blocks : Finmap fun _ : Hash => Block) (chain : List Hash)
    (block : Block) : Prop :=
  (block.creates c).Nodup ∧
    ∀ x ∈ chain, ∀ b ∈ blocks.lookup x, ∀ h ∈ b.creates c, h ∉ block.creates c

instance : Decidable (FreshOn c blocks chain block) := inferInstanceAs (Decidable (_ ∧ _))

theorem onChain_freshOn : OnChain (FreshOn c) := by
  rintro blocks blocks' chain block hsame ⟨hnodup, hdisj⟩
  refine ⟨hnodup, fun x hx b hb => hdisj x hx b ?_⟩
  rw [hsame x hx]
  exact hb

/-- What is unspent, created and spent after a chain whose outputs are all new: an
    output is created once, and spent once, if it is. -/
structure Ledger (u : Utxos) (created spent : List Hash) : Prop where
  created_nodup : created.Nodup
  spent_nodup : spent.Nodup
  spent_created : ∀ x ∈ spent, x ∈ created
  unspent : ∀ x ∈ u, x ∈ created ∧ x ∉ spent

/-- One more block, valid and creating new outputs only. -/
theorem Ledger.concat {created spent : List Hash} (h : Ledger u created spent) {height : ℕ}
    (hv : block.Valid c height u) (hnodup : (block.creates c).Nodup)
    (hdisj : created.Disjoint (block.creates c)) :
    Ledger (applyTransactions c u block) (created ++ block.creates c) (spent ++ block.spends) := by
  -- What the block spends is unspent before it.
  have hspends : ∀ x ∈ block.spends, x ∈ created ∧ x ∉ spent := fun x hx =>
    h.unspent x (hv.mem_of_mem_spends hx)
  refine ⟨?_, ?_, ?_, ?_⟩
  · exact h.created_nodup.append hnodup hdisj
  · exact h.spent_nodup.append hv.spends_nodup fun x hx hx' => (hspends x hx').2 hx
  · intro x hx
    rcases List.mem_append.1 hx with hx | hx
    · exact List.mem_append_left _ (h.spent_created x hx)
    · exact List.mem_append_left _ (hspends x hx).1
  · intro x hx
    by_cases hc : x ∈ block.creates c
    · -- It is new, so neither the chain nor the block has spent it.
      refine ⟨List.mem_append_right _ hc, fun hs => ?_⟩
      rcases List.mem_append.1 hs with hs | hs
      · exact hdisj (h.spent_created x hs) hc
      · exact hdisj (hspends x hs).1 hc
    · obtain ⟨p, hp⟩ := Finmap.mem_iff.1 hx
      rw [lookup_applyTransactions_of_notMem hc] at hp
      split_ifs at hp with hs
      obtain ⟨hcreated, hspent⟩ := h.unspent x (Finmap.mem_iff.2 ⟨p, hp⟩)
      refine ⟨List.mem_append_left _ hcreated, fun hx => ?_⟩
      exact (List.mem_append.1 hx).elim hspent hs

/-- The blocks form a tree of valid blocks that create new outputs only. -/
structure FreshTree (c : Crypto) (s : Blockchain) : Prop extends ValidTree c s where
  fresh : Each (FreshOn c) s

/-- The ledger of a chain of valid blocks that creates each output once. -/
theorem ValidTree.ledger (h : ValidTree c s) (hc : Linked s.blocks chain) {created : List Hash}
    (hcreated : createdOn c s.blocks chain = some created) (hnodup : created.Nodup) :
    ∃ u spent, replayUtxos c s.blocks chain = some u ∧ spentOn s.blocks chain = some spent ∧
      Ledger u created spent := by
  induction hc generalizing created with
  | nil =>
    obtain rfl := Option.some.inj hcreated
    exact ⟨∅, [], rfl, rfl, List.nodup_nil, List.nodup_nil,
      fun x hx => absurd hx List.not_mem_nil, fun x hx => absurd hx Finmap.notMem_empty⟩
  | @concat chain x b hc hb hp ih =>
    rw [createdOn, collectFrom_concat] at hcreated
    obtain ⟨before, hbefore, hcreated⟩ := Option.bind_eq_some_iff.1 hcreated
    rw [hb] at hcreated
    obtain rfl := Option.some.inj hcreated
    obtain ⟨hnodup, hnodup', hdisj⟩ := List.nodup_append.1 hnodup
    obtain ⟨u, spent, hu, hsp, hl⟩ := ih hbefore hnodup
    refine ⟨applyTransactions c u b, spent ++ b.spends, ?_, ?_,
      hl.concat (h.valid chain x b (hc.concat hb hp) hb u hu) hnodup' fun y hy hy' => hdisj y hy y hy' rfl⟩
    · rw [replayUtxos_concat, hu, hb]
      rfl
    · rw [spentOn] at hsp ⊢
      rw [collectFrom_concat, hsp, hb]
      rfl

theorem FreshTree.created_nodup (h : FreshTree c s) (hc : Linked s.blocks chain) :
    ∃ created, createdOn c s.blocks chain = some created ∧ created.Nodup := by
  induction hc with
  | nil => exact ⟨[], rfl, List.nodup_nil⟩
  | @concat chain x b hc hb hp ih =>
    obtain ⟨created, hcr, hnodup⟩ := ih
    obtain ⟨hnodup', hdisj⟩ := h.fresh chain x b (hc.concat hb hp) hb
    refine ⟨created ++ b.creates c, ?_, hnodup.append hnodup' fun y hy hy' => ?_⟩
    · rw [createdOn] at hcr ⊢
      rw [collectFrom_concat, hcr, hb]
      rfl
    · obtain ⟨z, hz, a, ha, hya⟩ := (mem_collectFrom hcr).1 hy
      exact hdisj z hz a ha y hya hy'

/-! ## Transactions that spend something -/

theorem Block.spends_eq_flatMap_filter (block : Block) :
    block.spends = (block.transactions.filter fun tx => tx.inputs ≠ []).flatMap Transaction.spends := by
  rw [Block.spends]
  induction block.transactions with
  | nil => rfl
  | cons tx txs ih =>
    rw [List.flatMap_cons, ih]
    by_cases htx : tx.inputs = []
    · simp [htx, Transaction.spends]
    · simp [htx]

theorem spentOn_eq {txs : List Transaction} (h : spendingOn blocks chain = some txs) :
    spentOn blocks chain = some (txs.flatMap Transaction.spends) := by
  induction chain using List.reverseRecOn generalizing txs with
  | nil =>
    obtain rfl := Option.some.inj h
    rfl
  | append_singleton chain y ih =>
    rw [spendingOn, collectFrom_concat] at h
    obtain ⟨l, hl, h⟩ := Option.bind_eq_some_iff.1 h
    obtain ⟨b, hb, rfl⟩ := Option.map_eq_some_iff.1 h
    have hs := ih hl
    rw [spentOn] at hs ⊢
    rw [collectFrom_concat, hs, hb, List.flatMap_append, ← Block.spends_eq_flatMap_filter]
    rfl

/-- Transactions that each spend something, all of it once, are distinct. -/
theorem nodup_of_nodup_flatMap_spends {txs : List Transaction} (hne : ∀ tx ∈ txs, tx.inputs ≠ [])
    (h : (txs.flatMap Transaction.spends).Nodup) : txs.Nodup := by
  refine (List.nodup_flatMap.1 h).2.imp_of_mem fun {a b} ha _ hdisj he => ?_
  subst he
  obtain ⟨input, hinput⟩ := List.exists_mem_of_ne_nil _ (hne a ha)
  exact hdisj (List.mem_map_of_mem hinput) (List.mem_map_of_mem hinput)

theorem ne_nil_of_mem_spendingOn {txs : List Transaction} (h : spendingOn blocks chain = some txs)
    {tx : Transaction} (htx : tx ∈ txs) : tx.inputs ≠ [] := by
  obtain ⟨_, _, b, _, hb⟩ := (mem_collectFrom h).1 htx
  exact of_decide_eq_true (List.mem_filter.1 hb).2

/-! ## Applying a block -/

/-- Wherever an output is inserted as a block is applied, none is there yet. -/
def ReplacesNone (c : Crypto) (u : Utxos) (block : Block) : Prop :=
  ∀ txs tx txs' outputs output outputs', block.transactions = txs ++ tx :: txs' →
    tx.outputs = outputs ++ output :: outputs' →
    c.hashOutput output ∉ outputs.foldl (fun u o => u.insert (c.hashOutput o) (false, o))
      ((txs.foldl (applyTransaction c) u).eraseAll tx.spends)

theorem mem_insertOutputs {outputs : List TransactionOutput}
    (hx : x ∈ outputs.foldl (fun u o => u.insert (c.hashOutput o) (false, o)) u) :
    x ∈ outputs.map c.hashOutput ∨ x ∈ u := by
  by_cases h : x ∈ outputs.map c.hashOutput
  · exact .inl h
  · rw [← Finmap.lookup_isSome, lookup_insertOutputs_of_notMem h, Finmap.lookup_isSome] at hx
    exact .inr hx

theorem mem_of_mem_applyAll {txs : List Transaction} (hx : x ∈ txs.foldl (applyTransaction c) u) :
    (∃ tx ∈ txs, x ∈ tx.creates c) ∨ x ∈ u := by
  by_cases h : ∃ tx ∈ txs, x ∈ tx.creates c
  · exact .inl h
  · push Not at h
    obtain ⟨p, hp⟩ := Finmap.mem_iff.1 hx
    rw [lookup_applyAll_of_notMem h] at hp
    split_ifs at hp
    exact .inr (Finmap.mem_iff.2 ⟨p, hp⟩)

/-- A block creating distinct outputs, none of them unspent, replaces none. -/
theorem replacesNone (hnodup : (block.creates c).Nodup) (hnew : ∀ x ∈ block.creates c, x ∉ u) :
    ReplacesNone c u block := by
  intro txs tx txs' outputs output outputs' htxs houts hmem
  have hcreates : block.creates c = (txs.flatMap fun t => t.creates c) ++
      ((outputs.map c.hashOutput ++ c.hashOutput output :: outputs'.map c.hashOutput) ++
        txs'.flatMap fun t => t.creates c) := by
    have hflat : block.creates c = block.transactions.flatMap fun t => t.creates c := by
      rw [Block.creates, Block.outputs, List.map_flatMap]
      rfl
    rw [hflat, htxs, List.flatMap_append, List.flatMap_cons, Transaction.creates, houts,
      List.map_append, List.map_cons]
  have hout : c.hashOutput output ∈ block.creates c := by
    rw [hcreates]
    simp
  rw [hcreates] at hnodup
  obtain ⟨-, hrest, hdisj⟩ := List.nodup_append.1 hnodup
  rcases mem_insertOutputs hmem with hm | hm
  · -- An earlier output of the transaction.
    obtain ⟨-, -, hd⟩ := List.nodup_append.1 (List.nodup_append.1 hrest).1
    exact hd _ hm _ List.mem_cons_self rfl
  · obtain ⟨p, hp⟩ := Finmap.mem_iff.1 hm
    rw [Finmap.lookup_eraseAll] at hp
    split_ifs at hp
    rcases mem_of_mem_applyAll (Finmap.mem_iff.2 ⟨p, hp⟩) with ⟨t, ht, hx⟩ | hm
    · -- An output of an earlier transaction.
      refine hdisj _ (List.mem_flatMap.2 ⟨t, ht, hx⟩) _ ?_ rfl
      simp
    · exact hnew _ hout hm

/-! ## Runs of fresh blocks -/

/-- A block that passes its checks creates new outputs only, on the chain to its
    parent. -/
def Fresh (c : Crypto) (amb : Ambient) (s : Blockchain) (block : Block) : Prop :=
  (ExtendsTip c amb.now s block → FreshOn c s.blocks s.activeChain block) ∧
    ∀ forkIndex branch, OffTip c amb.now s block forkIndex branch →
      FreshOn c s.blocks (s.candidateChain forkIndex branch) block

theorem fresh_of_tip {amb : Ambient} (hp : block.header.prevBlockHash = s.tipHash)
    (h : FreshOn c s.blocks s.activeChain block) : Fresh c amb s block :=
  ⟨fun _ => h, fun _ _ hoff => absurd hp hoff.parent_ne_tip⟩

theorem freshTree_iff : ValidTree c s ∧ Each (FreshOn c) s ↔ FreshTree c s :=
  ⟨fun h => ⟨h.1, h.2⟩, fun h => ⟨h.toValidTree, h.fresh⟩⟩

theorem ofChain_freshTree : OfChain (FreshTree c) := by
  have h := (ofChain_validTree (c := c)).and (ofChain_each (Φ := FreshOn c))
  exact ⟨fun s₀ s hs ht => freshTree_iff.1 (h.1 s₀ s hs (freshTree_iff.2 ht)),
    fun s offset ht => freshTree_iff.1 (h.2 s offset (freshTree_iff.2 ht))⟩

theorem moves_freshTree (hinj : Function.Injective c.hashBlock)
    (hne : ∀ block, c.hashBlock block ≠ Hash.zero) (amb : Ambient) :
    Moves c amb (Fresh c amb) (FreshTree c) (FreshTree c) :=
  ((moves_validTree hinj hne amb _).each hinj hne (fun _ hs => hs.toTree) onChain_freshOn
    (fun _ _ _ hP htip => hP.1 htip) fun _ _ _ _ _ hP hoff => hP.2 _ _ hoff).congr
    (fun _ => freshTree_iff) fun _ => freshTree_iff.1

/-- In every run whose blocks, when they are accepted, create new outputs only:
    the output hashes created on the active chain are distinct, position by
    position; so are the hashes spent, input by input, and the confirmed
    transactions that spend something; and a block extending the tip replaces no
    unspent output. -/
theorem outputs_unique (hinj : Function.Injective c.hashBlock)
    (hne : ∀ block, c.hashBlock block ≠ Hash.zero) {s : Blockchain}
    (hs : (chainSystem c).ReachableBy (Taking c (Fresh c)) s) :
    (∃ created, createdOn c s.blocks s.activeChain = some created ∧ created.Nodup) ∧
    (∃ spent, spentOn s.blocks s.activeChain = some spent ∧ spent.Nodup) ∧
    (∃ txs, spendingOn s.blocks s.activeChain = some txs ∧ txs.Nodup) ∧
    ∀ amb block, Fresh c amb s block → ExtendsTip c amb.now s block →
      ReplacesNone c s.utxos block := by
  have htree : FreshTree c s := ofChain_freshTree.invariant ⟨validTree_new, each_new⟩
    (fun amb => moves_freshTree hinj hne amb) (fun _ hs => hs.toKeyed) hs
  obtain ⟨created, hcr, hnodup⟩ := htree.created_nodup htree.active
  obtain ⟨u, spent, hu, hsp, hl⟩ := htree.toValidTree.ledger htree.active hcr hnodup
  refine ⟨⟨created, hcr, hl.created_nodup⟩, ⟨spent, hsp, hl.spent_nodup⟩, ?_, ?_⟩
  · obtain ⟨txs, htxs⟩ := exists_collectFrom htree.known
      fun block => block.transactions.filter fun tx => tx.inputs ≠ []
    refine ⟨txs, htxs, nodup_of_nodup_flatMap_spends (fun tx => ne_nil_of_mem_spendingOn htxs) ?_⟩
    rw [← Option.some.inj (hsp.symm.trans (spentOn_eq htxs))]
    exact hl.spent_nodup
  · intro amb block hfresh htip
    obtain ⟨hnodup, hdisj⟩ := hfresh.1 htip
    refine replacesNone hnodup fun x hx hmem => ?_
    obtain ⟨u', hu', hsame⟩ := htree.replay
    obtain rfl := Option.some.inj (hu.symm.trans hu')
    obtain ⟨y, hy, b, hb, hxb⟩ := (mem_collectFrom hcr).1 (hl.unspent x (hsame.mem_iff.1 hmem)).1
    exact hdisj y hy b hb x hxb hx

/-! ## An output created twice -/

/-- Four blocks after the genesis. The coinbase of the first is spent in the
    second, and is that of the third again; the fourth spends it again, by the
    same transaction. -/
def coinbase₁ : Transaction := Sample.payment [] 1 (50 * 10 ^ 8) 8
def coinbase₂ : Transaction := Sample.payment [] 2 (50 * 10 ^ 8) 9
def coinbase₄ : Transaction := Sample.payment [] 4 (50 * 10 ^ 8) 9
def spend₁ : Transaction := Sample.payment [⟨2, 8⟩] 3 (50 * 10 ^ 8) 9

def block₁ : Block := Sample.block 1 1 2 [coinbase₁]
def block₂ : Block := Sample.block 2 2 (Nat.pair 3 4 + 1) [coinbase₂, spend₁]
def block₃ : Block := Sample.block 3 3 2 [coinbase₁]
def block₄ : Block := Sample.block 4 4 (Nat.pair 5 4 + 1) [coinbase₄, spend₁]

noncomputable def repeatingCrypto : Crypto :=
  Sample.crypto [coinbase₁, coinbase₂, spend₁, coinbase₄] [block₁, block₂, block₃, block₄]

theorem outputs_created_twice :
    (Function.Injective repeatingCrypto.hashOutput ∧
      Function.Injective repeatingCrypto.hashTransaction ∧
      Function.Injective repeatingCrypto.hashHeader ∧ Function.Injective repeatingCrypto.hashBlock) ∧
    ∃ s, (chainSystem repeatingCrypto).Reachable s ∧
      createdOn repeatingCrypto s.blocks s.activeChain = some [1, 2, 3, 4, 2, 5, 4] ∧
      ¬ [1, 2, 3, 4, 2, 5, 4].Nodup ∧
      spentOn s.blocks s.activeChain = some [2, 2] ∧
      spendingOn s.blocks s.activeChain = some [spend₁, spend₁] := by
  refine ⟨⟨tableHash_injective _, tableHash_injective _, tableHash_injective _,
    tableHash_injective _⟩, _, reachable_run (Sample.delivering [Sample.genesis, block₁, block₂,
      block₃, block₄]), ?_⟩
  decide +kernel

theorem outputs_unique_sample :
    (run repeatingCrypto (Sample.delivering [Sample.genesis, block₁, block₂])).activeChain =
        [1, 2, 3] ∧
      ∃ created, createdOn repeatingCrypto
        (run repeatingCrypto (Sample.delivering [Sample.genesis, block₁, block₂])).blocks
        (run repeatingCrypto (Sample.delivering [Sample.genesis, block₁, block₂])).activeChain =
          some created ∧ created.Nodup := by
  refine ⟨by decide +kernel, (outputs_unique (tableHash_injective _) (tableHash_ne_zero _) ?_).1⟩
  -- Each block extends the tip, and its outputs are new.
  refine Sample.reachableBy_concat [Sample.genesis, block₁] ?_ (by decide +kernel)
    (fresh_of_tip (by decide +kernel) (by decide +kernel))
  refine Sample.reachableBy_concat [Sample.genesis] ?_ (by decide +kernel)
    (fresh_of_tip (by decide +kernel) (by decide +kernel))
  exact Sample.reachableBy_concat [] reachableBy_run_nil (by decide +kernel)
    (fresh_of_tip (by decide +kernel) (by decide +kernel))

end Itx.Blockchain
