import Itx.Chain.Ideal

/-!
# The unspent outputs are those of a replay

The unspent outputs of the blockchain are kept up to date block by block
(`applyBlock`), rebuilt when the active chain is switched, and marked and
unmarked by the mempool. Whatever the run, they are, but for the marks, what a
replay of the active chain from the start gives (`utxos_replay`).

Blocks are known by their hash (`Keyed`). Without collisions, storing a block
never replaces another one (`Keyed.lookup_storeBlock`), and pruning forgets no
block of the active chain (`lookup_forgetBlocks_of_active`), so that the replay
does not change unless the active chain does.
-/

namespace Itx.Blockchain

open Utxos Call

variable {c : Crypto} {s : Blockchain} {block : Block} {x : Hash}

/-! ## Known blocks -/

/-- A known block stays the same when a block is stored. -/
theorem Keyed.lookup_storeBlock (h : Keyed c s) (hinj : Function.Injective c.hashBlock)
    (hx : x ∈ s.blocks) : (s.storeBlock c block).blocks.lookup x = s.blocks.lookup x := by
  obtain ⟨b, hb⟩ := Finmap.mem_iff.1 hx
  rw [storeBlock, Finmap.lookup_insert_eq]
  split_ifs with he
  · rw [hb, hinj ((h.blocks x b hb).trans he)]
  · rfl

/-- A block that is stored does not change what the known blocks replay to. -/
theorem Keyed.replayUtxos_storeBlock (h : Keyed c s) (block : Block) (hinj : Function.Injective c.hashBlock)
    {chain : List Hash} (hc : ∀ x ∈ chain, x ∈ s.blocks) :
    replayUtxos c (s.storeBlock c block).blocks chain = replayUtxos c s.blocks chain :=
  replayUtxos_congr fun x hx => h.lookup_storeBlock hinj (hc x hx)

@[simp] theorem pushBlock_blocks {now : DateTime} :
    (s.pushBlock c now block).blocks = (s.storeBlock c block).blocks := rfl

@[simp] theorem pushBlock_activeChain {now : DateTime} :
    (s.pushBlock c now block).activeChain = s.activeChain ++ [c.hashBlock block] := rfl

/-- A block that is stored is found under its hash. -/
theorem lookup_storeBlock_self : (s.storeBlock c block).blocks.lookup (c.hashBlock block) = some block :=
  Finmap.lookup_insert _

/-- The index has the blocks of the chain. -/
theorem mem_activeChainIndex {chain : List Hash} : x ∈ activeChainIndex chain ↔ x ∈ chain := by
  have key : ∀ (l : List (Hash × ℕ)) (m : Finmap fun _ : Hash => ℕ),
      x ∈ l.foldl (fun index p => index.insert p.1 p.2) m ↔ x ∈ l.map Prod.fst ∨ x ∈ m := by
    intro l
    induction l with
    | nil => simp
    | cons p l ih =>
      intro m
      rw [List.foldl_cons, ih, Finmap.mem_insert, List.map_cons, List.mem_cons]
      tauto
  rw [activeChainIndex, key, List.zipIdx_map_fst]
  simp [Finmap.notMem_empty]

/-- What is prunable is not on the active chain. -/
theorem notMem_active_of_prunable {keepDepth : ℕ} {hs prunable : List Hash}
    (h : prunableAmong s keepDepth hs = .ok prunable) (hx : x ∈ prunable) : x ∉ s.activeChain := by
  induction hs generalizing prunable with
  | nil =>
    obtain rfl := Outcome.ok.inj h
    exact absurd hx List.not_mem_nil
  | cons y hs ih =>
    obtain ⟨rest, hrest, h⟩ := Outcome.bind_eq_ok.1 h
    dsimp only at h
    split at h
    · obtain rfl := Outcome.ok.inj h
      exact ih hrest hx
    · next hy =>
      rw [mem_activeChainIndex] at hy
      obtain ⟨traced, -, h⟩ := Outcome.bind_eq_ok.1 h
      rcases traced with _ | ⟨forkIndex, branch⟩
      · obtain rfl := Outcome.ok.inj h
        exact ih hrest hx
      · dsimp only at h
        obtain rfl := Outcome.ok.inj h
        split at hx
        · rcases List.mem_cons.1 hx with rfl | hx
          exacts [hy, ih hrest hx]
        · exact ih hrest hx

/-- The pruned blocks are forgotten, and no others. -/
theorem lookup_forgetBlocks {prunable : List Hash} :
    (s.forgetBlocks prunable).blocks.lookup x = if x ∈ prunable then none else s.blocks.lookup x :=
  Finmap.lookup_eraseAll _ _ _

/-- What is left of the blocks is as before. -/
theorem lookup_forgetBlocks_of_mem {prunable : List Hash}
    (hx : x ∈ (s.forgetBlocks prunable).blocks) :
    (s.forgetBlocks prunable).blocks.lookup x = s.blocks.lookup x := by
  obtain ⟨b, hb⟩ := Finmap.mem_iff.1 hx
  rw [lookup_forgetBlocks] at hb ⊢
  split_ifs at hb ⊢
  rfl

/-- Pruning forgets no block of the active chain. -/
theorem lookup_forgetBlocks_of_active {keepDepth : ℕ} {hs prunable : List Hash}
    (h : prunableAmong s keepDepth hs = .ok prunable) (hx : x ∈ s.activeChain) :
    (s.forgetBlocks prunable).blocks.lookup x = s.blocks.lookup x := by
  rw [lookup_forgetBlocks, if_neg fun hp => notMem_active_of_prunable h hp hx]

/-- The chain switched to consists of known blocks, and of the block itself. -/
theorem OffTip.mem_newChain {now : DateTime} {forkIndex : ℕ} {branch : List Hash}
    (h : OffTip c now s block forkIndex branch) (hk : Keyed c s) :
    ∀ x ∈ s.candidateChain forkIndex branch ++ [c.hashBlock block],
      x ∈ (s.storeBlock c block).blocks := by
  intro x hx
  rw [mem_storeBlock]
  rcases List.mem_append.1 hx with hx | hx
  · exact .inr (h.mem_candidateChain hk.known x hx)
  · exact .inl (List.mem_singleton.1 hx)

namespace Keyed

/-- A block is stored under its hash. -/
theorem storeBlock (h : Keyed c s) (block : Block) : Keyed c (s.storeBlock c block) where
  blocks x b hb := by
    rw [Blockchain.storeBlock, Finmap.lookup_insert_eq] at hb
    split_ifs at hb with he
    · rw [← Option.some.inj hb, he]
    · exact h.blocks x b hb
  orphans := h.orphans
  known x hx := mem_storeBlock.2 (.inr (h.known x hx))

/-- It is known when it is pushed. -/
theorem pushBlock (h : Keyed c s) (now : DateTime) (block : Block) :
    Keyed c (s.pushBlock c now block) where
  blocks := (h.storeBlock block).blocks
  orphans := h.orphans
  known x hx := by
    refine mem_storeBlock.2 ?_
    rcases List.mem_append.1 hx with hx | hx
    · exact .inr (h.known x hx)
    · exact .inl (List.mem_singleton.1 hx)

/-- What is pruned is not on the chain. -/
theorem forgetBlocks (h : Keyed c s) {keepDepth : ℕ} {hs prunable : List Hash}
    (hp : prunableAmong s keepDepth hs = .ok prunable) : Keyed c (s.forgetBlocks prunable) where
  blocks x b hb := by
    rw [lookup_forgetBlocks] at hb
    split_ifs at hb
    exact h.blocks x b hb
  orphans := h.orphans
  known x hx := by
    obtain ⟨b, hb⟩ := Finmap.mem_iff.1 (h.known x hx)
    exact Finmap.mem_iff.2 ⟨b, (lookup_forgetBlocks_of_active hp hx).trans hb⟩

/-- The chain is switched to known blocks. -/
theorem switchTo (h : Keyed c s) {newChain : List Hash} (hnew : ∀ x ∈ newChain, x ∈ s.blocks)
    (now : DateTime) (target : U256) (utxos : Utxos) (confirmed : List Hash) :
    Keyed c (s.switchTo c now newChain target utxos confirmed) :=
  ⟨h.blocks, h.orphans, hnew⟩

/-- An orphan is kept beside the blocks. -/
theorem keepOrphan (h : Keyed c s) (block : Block) : Keyed c (s.keepOrphan c block) := by
  rw [Blockchain.keepOrphan]
  split
  · exact h
  · refine ⟨h.blocks, fun x b hb => ?_, h.known⟩
    rw [Finmap.lookup_insert_eq] at hb
    split_ifs at hb with he
    · rw [← Option.some.inj hb, he]
    · exact h.orphans x b hb

/-- It is taken out again. -/
theorem takeOrphan (h : Keyed c s) (block : Block) : Keyed c (s.takeOrphan c block) := by
  refine ⟨h.blocks, fun x b hb => ?_, h.known⟩
  rw [Blockchain.takeOrphan, Finmap.lookup_erase_eq] at hb
  split_ifs at hb
  exact h.orphans x b hb

/-- The chain is the same, and the blocks are. -/
theorem of_sameChain {s₀ : Blockchain} (h : SameChain s₀ s) (hk : Keyed c s₀) : Keyed c s := by
  refine ⟨?_, ?_, ?_⟩
  · rw [h.blocks]
    exact hk.blocks
  · rw [h.orphans]
    exact hk.orphans
  · rw [h.activeChain, h.blocks]
    exact hk.known

end Keyed

/-- A new chain has no blocks. -/
theorem keyed_new : Keyed c new where
  blocks h b hb := by simp [new] at hb
  orphans h b hb := by simp [new] at hb
  known h hh := absurd hh List.not_mem_nil

/-- It is a property of the blocks and the chain. -/
theorem ofChain_keyed : OfChain (Keyed c) :=
  ⟨fun _ _ => Keyed.of_sameChain, fun _ _ hs => ⟨hs.blocks, hs.orphans, hs.known⟩⟩

/-- What the steps of an acceptance do to the stored blocks. -/
theorem moves_keyed (amb : Ambient) (P : Blockchain → Block → Prop) :
    Moves c amb P (Keyed c) (Keyed c) where
  push s block hs _ _ := hs.pushBlock amb.now block
  adjust s _ _ _ hs _ _ _ _ _ := ⟨hs.blocks, hs.orphans, hs.known⟩
  prune s prunable hs hp := hs.forgetBlocks hp
  store s block _ _ hs _ _ := hs.storeBlock block
  switch s block _ _ _ _ _ hs _ hoff _ _ _ :=
    (hs.storeBlock block).switchTo (hoff.mem_newChain hs) _ _ _ _
  pool tx _ := ofChain_keyed.addToMempool amb.now tx
  keep s block hs _ _ := hs.keepOrphan block
  take s block hs := hs.takeOrphan block

/-! ## Replaying the active chain -/

/-- The unspent outputs are those of a replay of the active chain. -/
structure Replayed (c : Crypto) (s : Blockchain) : Prop extends Keyed c s where
  replay : ∃ utxos, replayUtxos c s.blocks s.activeChain = some utxos ∧ SameOutputs s.utxos utxos

/-- Pushing a block applies it, up to marks. -/
theorem sameOutputs_pushBlock (now : DateTime) :
    SameOutputs (s.pushBlock c now block).utxos (applyTransactions c s.utxos block) :=
  ((SameChain.refl { s with utxos := applyTransactions c s.utxos block }).evictStaleMempoolEntries
    (c := c) now (block.transactions.map c.hashTransaction)).outputs

/-- Switching takes the outputs that were computed, up to marks. -/
theorem sameOutputs_switchTo {now : DateTime} {newChain confirmed : List Hash} {target : U256}
    {utxos : Utxos} :
    SameOutputs (s.switchTo c now newChain target utxos confirmed).utxos utxos :=
  ((SameChain.refl { s with activeChain := newChain, target, utxos }).evictStaleMempoolEntries
    (c := c) now confirmed).markPending.outputs

/-- What the chain replays to is the same on the same chain. -/
theorem Replayed.of_sameChain {s₀ : Blockchain} (h : SameChain s₀ s) (hr : Replayed c s₀) :
    Replayed c s := by
  obtain ⟨utxos, hu, hsame⟩ := hr.replay
  refine ⟨hr.toKeyed.of_sameChain h, utxos, ?_, h.outputs.trans hsame⟩
  rw [h.blocks, h.activeChain]
  exact hu

/-- It is a property of the chain and the outputs. -/
theorem ofChain_replayed : OfChain (Replayed c) :=
  ⟨fun _ _ => Replayed.of_sameChain, fun _ _ hs =>
    ⟨⟨hs.blocks, hs.orphans, hs.known⟩, hs.replay⟩⟩

/-- What the steps of an acceptance do to the replay. -/
theorem moves_replayed (hinj : Function.Injective c.hashBlock) (amb : Ambient)
    (P : Blockchain → Block → Prop) : Moves c amb P (Replayed c) (Replayed c) where
  push s block hs hP htip := by
    obtain ⟨utxos, hu, hsame⟩ := hs.replay
    refine ⟨(moves_keyed amb P).push s block hs.toKeyed hP htip, applyTransactions c utxos block,
      ?_, ?_⟩
    · -- The chain before the block replays as before, then the block is applied.
      have hbefore := (hs.toKeyed.replayUtxos_storeBlock block hinj hs.known).trans hu
      rw [pushBlock_blocks, pushBlock_activeChain, replayUtxos_concat, hbefore,
        lookup_storeBlock_self]
      rfl
    · exact (sameOutputs_pushBlock amb.now).trans (hsame.applyTransactions block)
  adjust s _ _ target hs h₁ h₂ h₃ h₄ h₅ :=
    ⟨(moves_keyed amb P).adjust s _ _ target hs.toKeyed h₁ h₂ h₃ h₄ h₅, hs.replay⟩
  prune s prunable hs hp := by
    obtain ⟨utxos, hu, hsame⟩ := hs.replay
    refine ⟨hs.toKeyed.forgetBlocks hp, utxos, ?_, hsame⟩
    exact (replayUtxos_congr fun x hx => lookup_forgetBlocks_of_active hp hx).trans hu
  store s block _ _ hs _ _ := by
    obtain ⟨utxos, hu, hsame⟩ := hs.replay
    exact ⟨hs.toKeyed.storeBlock block, utxos,
      (hs.toKeyed.replayUtxos_storeBlock _ hinj hs.known).trans hu, hsame⟩
  switch s block _ _ target utxos confirmed hs hP hoff h₁ hu h₃ :=
    ⟨(moves_keyed amb P).switch s block _ _ target utxos confirmed hs.toKeyed hP hoff h₁ hu h₃,
      utxos, hu, sameOutputs_switchTo⟩
  pool tx _ := ofChain_replayed.addToMempool amb.now tx
  keep s block hs hP hmem := by
    refine ⟨(moves_keyed amb P).keep s block hs.toKeyed hP hmem, ?_⟩
    rw [keepOrphan]
    split
    exacts [hs.replay, hs.replay]
  take s block hs := ⟨hs.toKeyed.takeOrphan block, hs.replay⟩

/-- A chain without blocks replays to no outputs. -/
theorem replayed_new : Replayed c new := ⟨keyed_new, ∅, rfl, .refl _⟩

/-- In every run the unspent outputs are, but for their marks, those of a replay
    of the active chain, which consists of known blocks. -/
theorem utxos_replay (hinj : Function.Injective c.hashBlock) {s : Blockchain}
    (hs : (chainSystem c).Reachable s) :
    ∃ utxos, replayUtxos c s.blocks s.activeChain = some utxos ∧
      ∀ h, (s.utxos.lookup h).map Prod.snd = (utxos.lookup h).map Prod.snd :=
  (ofChain_replayed.invariant (P := fun _ _ _ => True) replayed_new
    (fun amb => moves_replayed hinj amb _) (fun _ hs => hs.toKeyed)
    (hs.mono fun s op _ => taking_of_forall (fun _ _ _ => trivial) s op)).replay

/-- The theorem after a reorganisation. -/
theorem utxos_replay_forked : Sample.forked.activeChain = [1, 3, 4] ∧
    ∃ utxos, replayUtxos Sample.forkCrypto Sample.forked.blocks Sample.forked.activeChain =
      some utxos ∧
      ∀ h, (Sample.forked.utxos.lookup h).map Prod.snd = (utxos.lookup h).map Prod.snd :=
  ⟨by decide +kernel, utxos_replay (tableHash_injective _) (reachable_run _)⟩

end Itx.Blockchain
