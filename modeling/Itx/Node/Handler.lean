import Itx.Node.Sync
import Itx.Node.Wire

/-!
# What a node answers

A node answers requests for blocks and for unspent outputs from its chain
(`handle_connection`, `node/src/handler.rs`), each in one message. Nothing bounds what a
coinbase pays, so a block may be far longer than `BLOCK_BYTE_CAP` lets its other
transactions be. But it came in a message itself, and an answer of that block alone is no
longer than the message (`serializedSize_le_of_carries`); an answer of more blocks is within
`maxFetchBatchBytes` (`batchWithin_fits`). So whatever is asked for, the blocks answered are
received (`fetchBlocks_received`).
-/

namespace Itx

open Blockchain Cbor

variable {c : Crypto} {e : Encoding} {s : Blockchain} {block : Block}

/-! ## The blocks of a node -/

/-- The blocks a message carries. -/
def Message.carried : Message → List Block
  | .utxos _ => []
  | .submitTemplate b => [b]
  | .blocks bs => bs
  | .newBlock b => [b]

/-- A block is the genesis, or came in a message of at most `maxMessageSize` bytes. -/
def Arrived (c : Crypto) (e : Encoding) (block : Block) : Prop :=
  genesisBlock c = some block ∨ ∃ m : Message, block ∈ m.carried ∧ (e.encode m).length ≤ maxMessageSize

/-- The steps whose block arrived. -/
def Arriving (c : Crypto) (e : Encoding) : Blockchain → Op → Prop
  | _, .addBlock _ block => Arrived c e block
  | _, _ => True

/-- Every block of a node, and every orphan, meets `Q`. -/
structure Stores (Q : Block → Prop) (s : Blockchain) : Prop where
  blocks : ∀ h block, s.blocks.lookup h = some block → Q block
  orphans : ∀ h block, s.orphans.lookup h = some block → Q block

namespace Stores

variable {Q : Block → Prop}

theorem storeBlock (h : Stores Q s) (hblock : Q block) : Stores Q (s.storeBlock c block) where
  blocks x b hb := by
    rw [Blockchain.storeBlock, Finmap.lookup_insert_eq] at hb
    split_ifs at hb
    · rw [← Option.some.inj hb]
      exact hblock
    · exact h.blocks x b hb
  orphans := h.orphans

theorem of_sameChain {s₀ : Blockchain} (h : SameChain s₀ s) (hs : Stores Q s₀) : Stores Q s := by
  refine ⟨?_, ?_⟩
  · rw [h.blocks]
    exact hs.blocks
  · rw [h.orphans]
    exact hs.orphans

end Stores

theorem stores_new {Q : Block → Prop} : Stores Q new where
  blocks h b hb := by simp [new] at hb
  orphans h b hb := by simp [new] at hb

theorem ofChain_stores {Q : Block → Prop} : OfChain (Stores Q) :=
  ⟨fun _ _ => Stores.of_sameChain, fun _ _ hs => ⟨hs.blocks, hs.orphans⟩⟩

theorem moves_stores {Q : Block → Prop} (amb : Ambient) : Moves c amb (fun _ => Q) (Stores Q) (Stores Q) where
  push s block hs hQ _ := ⟨(hs.storeBlock (c := c) hQ).blocks, hs.orphans⟩
  adjust _ _ _ _ hs _ _ _ _ _ := ⟨hs.blocks, hs.orphans⟩
  prune s prunable hs _ := by
    refine ⟨fun x b hb => ?_, hs.orphans⟩
    rw [lookup_forgetBlocks] at hb
    split_ifs at hb
    exact hs.blocks x b hb
  store s block _ _ hs hQ _ := hs.storeBlock hQ
  switch s block _ _ _ _ _ hs hQ _ _ _ _ := ⟨(hs.storeBlock (c := c) hQ).blocks, hs.orphans⟩
  pool tx _ := ofChain_stores.addToMempool amb.now tx
  keep s block hs hQ _ := by
    rw [keepOrphan]
    split
    · exact hs
    · refine ⟨hs.blocks, fun x b hb => ?_⟩
      rw [Finmap.lookup_insert_eq] at hb
      split_ifs at hb
      · rw [← Option.some.inj hb]
        exact hQ
      · exact hs.orphans x b hb
  take s block hs := by
    refine ⟨hs.blocks, fun x b hb => ?_⟩
    rw [takeOrphan, Finmap.lookup_erase_eq] at hb
    split_ifs at hb
    exact hs.orphans x b hb

/-- A node that is only sent blocks meeting `Q` has no others. -/
theorem stores_of_reachable {Q : Block → Prop} {C : Blockchain → Op → Prop}
    (hC : ∀ s amb block, C s (.addBlock amb block) → Q block) (hs : (chainSystem c).ReachableBy C s) :
    Keyed c s ∧ Stores Q s := by
  have hchain : OfChain fun s => Keyed c s ∧ Stores Q s := ofChain_keyed.and ofChain_stores
  refine hs.invariant (I := fun s => Keyed c s ∧ Stores Q s) (fun s hs => ?_) fun s op s' hI hop hst => ?_
  · rw [Set.mem_singleton_iff.1 hs]
    exact ⟨keyed_new, stores_new⟩
  · rw [show s' = (op.call c s).1 from hst]
    cases op with
    | addBlock amb block =>
      exact (preserves_addBlockWithin ((moves_keyed amb _).and (moves_stores amb)) (fun _ h => h.1)
        (fun _ h => h.2.orphans) (fun _ _ => id) (hC s amb block hop)).apply hI
    | addToMempool now tx => exact (hchain.addToMempool now tx).apply hI
    | cleanupMempool now => exact hchain.1 _ _ ((SameChain.refl s).cleanupMempool now) hI
    | setTimeOffset offset => exact hchain.2 s offset hI

/-! ## Blocks that fit -/

/-- A block that fits in an answer of its own. -/
def Fits (e : Encoding) (block : Block) : Prop := 9 + e.serializedSize block ≤ maxMessageSize

theorem fits_of_carried {m : Message} (hm : block ∈ m.carried) (h : (e.encode m).length ≤ maxMessageSize) :
    Fits e block := by
  rw [Fits]
  cases m with
  | utxos outputs => cases hm
  | submitTemplate b =>
    rw [List.mem_singleton.1 hm]
    rw [e.length_encode_submitTemplate] at h
    omega
  | blocks bs =>
    have hle : e.serializedSize block ≤ (bs.map e.serializedSize).sum :=
      List.le_sum_of_mem (List.mem_map_of_mem hm)
    have hhead := one_le_headSize bs.length
    rw [e.length_encode_blocks] at h
    omega
  | newBlock b =>
    rw [List.mem_singleton.1 hm]
    rw [e.length_encode_newBlock] at h
    omega

/-- The genesis pays one key, once. -/
theorem fits_genesis (he : e.Short) (h : genesisBlock c = some block) : Fits e block := by
  rw [genesisBlock] at h
  obtain ⟨root, -, h⟩ := Option.bind_eq_some_iff.1 h
  obtain ⟨header, -, h⟩ := Option.bind_eq_some_iff.1 h
  obtain rfl := Option.some.inj h
  have hheader := Encoding.length_header_le he header
  have hkey := he.publicKey c.genesisPubkey
  have hvalue := headSize_le (initialReward * 10 ^ 8)
  have hcoinbase : (e.transaction (genesisCoinbase c)).length =
      59 + headSize (initialReward * 10 ^ 8) + (e.publicKey c.genesisPubkey).length := by
    rw [Encoding.transaction, length_struct (n := 15) rfl]
    simp [genesisCoinbase, length_array, Encoding.length_output, headSize_of_lt]
    omega
  have hsize : e.serializedSize { header, transactions := [genesisCoinbase c] } =
      22 + (e.header header).length + (e.transaction (genesisCoinbase c)).length := by
    rw [Encoding.serializedSize, Encoding.block, length_struct (n := 20) rfl]
    simp [length_array, headSize_of_lt]
    omega
  rw [Fits, hsize, hcoinbase, maxMessageSize]
  omega

theorem fits_of_arrived (he : e.Short) (h : Arrived c e block) : Fits e block := by
  rcases h with h | ⟨m, hm, h⟩
  · exact fits_genesis he h
  · exact fits_of_carried hm h

/-! ## Answers -/

theorem Named.exists_lookup {blocks : Finmap fun _ : Hash => Block} {l : List Hash} {bs : List Block}
    (h : Named blocks l bs) (hb : block ∈ bs) : ∃ x, blocks.lookup x = some block := by
  induction h with
  | nil => cases hb
  | cons hx _ ih =>
    rcases List.mem_cons.1 hb with rfl | hb
    · exact ⟨_, hx⟩
    · exact ih hb

/-- A batch of at most eight blocks, each of which fits, is received. -/
theorem received_of_fitsBatch {batch : List Block} (hlength : batch.length ≤ blocksPerFetchBatch)
    (h : FitsBatch e.serializedSize batch) (hfits : ∀ b ∈ batch, Fits e b) :
    (e.encode (.blocks batch)).length ≤ maxMessageSize := by
  rw [blocksPerFetchBatch] at hlength
  rw [e.length_encode_blocks, headSize_of_lt (by omega)]
  rcases h with h | h
  · cases batch with
    | nil => simp [maxMessageSize]
    | cons b rest =>
      obtain rfl : rest = [] := List.eq_nil_of_length_eq_zero (by simpa using h)
      simpa [Fits] using hfits b List.mem_cons_self
  · rw [maxFetchBatchBytes] at h
    rw [maxMessageSize]
    omega

/-- Whatever is asked for, the answer is the run of blocks of the active chain from `start`
    on, of at most as many blocks as are asked for and a batch may have, with at least one
    if there is one to give; and its message is received. -/
theorem fetchBlocks_received (he : e.Short) (hs : (chainSystem c).ReachableBy (Arriving c e) s)
    (start count : ℕ) :
    ∃ bs, fetchBlocks e.serializedSize start count s = some bs ∧
      Named s.blocks ((s.activeChain.drop start).take bs.length) bs ∧
      bs.length ≤ min count blocksPerFetchBatch ∧
      (bs ≠ [] ↔ start < s.blockHeight ∧ 0 < count) ∧
      (e.encode (.blocks bs)).length ≤ maxMessageSize ∧ e.Receives (.blocks bs) := by
  obtain ⟨hk, hstores⟩ := stores_of_reachable (Q := Fits e)
    (fun _ _ _ h => fits_of_arrived he h) hs
  obtain ⟨bs, hbs, hnamed, hlength, hbatch, hne⟩ := exists_fetchBlocks hk.known e.serializedSize start count
  have hfits : ∀ b ∈ bs, Fits e b := by
    intro b hb
    obtain ⟨x, hx⟩ := hnamed.exists_lookup hb
    exact hstores.blocks x b hx
  have hle := received_of_fitsBatch (hlength.trans (min_le_right _ _)) hbatch hfits
  exact ⟨bs, hbs, hnamed, hlength, hne, hle, receives_iff.2 hle⟩

/-- The blocks after the genesis of a chain that forked. -/
theorem fetchBlocks_received_forked : Sample.encoding.Short ∧
    (chainSystem Sample.forkCrypto).ReachableBy (Arriving Sample.forkCrypto Sample.encoding) Sample.forked ∧
    ∃ bs, fetchBlocks Sample.encoding.serializedSize 1 5 Sample.forked = some bs ∧ bs ≠ [] ∧
      Sample.encoding.Receives (.blocks bs) := by
  have hreach : (chainSystem Sample.forkCrypto).ReachableBy (Arriving Sample.forkCrypto Sample.encoding)
      Sample.forked := by
    refine reachableBy_run fun op hop s => ?_
    have hall : ∀ b ∈ [Sample.genesis, Sample.left, Sample.right, Sample.rightNext],
        (Sample.encoding.encode (.newBlock b)).length ≤ maxMessageSize := by decide +kernel
    obtain ⟨b, hb, rfl⟩ := List.mem_map.1 hop
    exact .inr ⟨.newBlock b, List.mem_singleton.2 rfl, hall b hb⟩
  obtain ⟨bs, hbs, -, -, hne, -, hreceives⟩ := fetchBlocks_received Sample.encoding_short hreach 1 5
  exact ⟨Sample.encoding_short, hreach, bs, hbs, hne.2 (by decide +kernel), hreceives⟩

end Itx
