import Itx.Node.Handler

/-!
# Asking for the unspent outputs of a key

A node answers `FetchUTXOs` with every unspent output of the key, in one message
(`handle_connection`, `node/src/handler.rs`). Unlike an answer of blocks nothing bounds it:
its length is that of the outputs the active chain leaves to the key (`length_fetchUtxos`),
and it is received exactly when this is within `maxMessageSize` (`fetchUtxos_received_iff`).

Whoever mines a block decides how many outputs its coinbase has, of no value if they like.
An output takes two more bytes in the answer than in the block that creates it, so the
outputs of one block that arrives can be too many already (`fetchUtxos_oversized`).
-/

namespace Itx

open Blockchain Cbor

variable {c : Crypto} {e : Encoding} {s : Blockchain} {key : PublicKey}

/-- The answer to `FetchUTXOs`. -/
def Blockchain.fetchUtxos (order : MapOrder) (key : PublicKey) (s : Blockchain) :
    List (TransactionOutput × Bool) :=
  (((order.keys s.utxos.keys).filterMap s.utxos.lookup).filter fun p => p.2.pubkey = key).map
    fun p => (p.2, p.1)

/-! ## The length of the answer -/

namespace Utxos

/-- The outputs of a key. -/
def owned (key : PublicKey) (u : Utxos) : Finset Hash :=
  u.keys.filter fun h => ∃ p ∈ u.lookup h, p.2.pubkey = key

/-- An output is of the key that it pays. -/
theorem mem_owned {u : Utxos} {h : Hash} : h ∈ owned key u ↔ ∃ p, u.lookup h = some p ∧ p.2.pubkey = key := by
  simp only [owned, Finset.mem_filter, Finmap.mem_keys, Option.mem_def, and_iff_right_iff_imp]
  rintro ⟨p, hp, -⟩
  exact Finmap.mem_iff.2 ⟨p, hp⟩

/-- Marks do not matter to whose an output is. -/
theorem SameOutputs.owned_eq {u v : Utxos} (h : SameOutputs u v) : owned key u = owned key v := by
  ext x
  have hx := h x
  rw [mem_owned, mem_owned]
  constructor
  · rintro ⟨p, hp, hkey⟩
    obtain ⟨q, hq, he⟩ := Option.map_eq_some_iff.1 (hx.symm.trans (by rw [hp, Option.map_some]))
    exact ⟨q, hq, by rw [he, hkey]⟩
  · rintro ⟨p, hp, hkey⟩
    obtain ⟨q, hq, he⟩ := Option.map_eq_some_iff.1 (hx.trans (by rw [hp, Option.map_some]))
    exact ⟨q, hq, by rw [he, hkey]⟩

end Utxos

/-- The length of a message of the outputs of a key. -/
def Encoding.ownedSize (e : Encoding) (key : PublicKey) (u : Utxos) : ℕ :=
  7 + headSize (u.owned key).card +
    ∑ h ∈ u.owned key, (43 + headSize (u.valueAt h) + (e.publicKey key).length)

/-- Nor do they to the size of the reply. -/
theorem Encoding.ownedSize_congr {u v : Utxos} (h : u.SameOutputs v) :
    e.ownedSize key u = e.ownedSize key v := by
  rw [Encoding.ownedSize, Encoding.ownedSize, h.owned_eq]
  simp only [h.valueAt]

/-- What is listed of some outputs, one entry for each of the key. -/
theorem sum_entries (u : Utxos) (f : ℕ → ℕ) (hs : List Hash) :
    (((hs.filterMap u.lookup).filter fun p => p.2.pubkey = key).map fun p => f p.2.value).sum =
      ((hs.filter (· ∈ u.owned key)).map fun h => f (u.valueAt h)).sum := by
  induction hs with
  | nil => rfl
  | cons h hs ih =>
    cases hp : u.lookup h with
    | none =>
      -- A hash without an output adds to neither sum.
      have hmem : h ∉ u.owned key := by
        rw [Utxos.mem_owned, hp]
        simp
      simp [hp, hmem, ih]
    | some p =>
      have hmem : h ∈ u.owned key ↔ p.2.pubkey = key := by
        rw [Utxos.mem_owned, hp]
        simp
      -- An output counts on both sides if it is of the key, and on neither if not.
      by_cases hkey : p.2.pubkey = key
      · simp [hp, hmem.2 hkey, hkey, ih, Utxos.valueAt_of_lookup hp]
      · have hn : h ∉ u.owned key := fun hm => hkey (hmem.1 hm)
        simp [hp, hn, hkey, ih]

/-- A sum over the reply is one over the outputs of the key, in whatever order they come. -/
theorem sum_fetchUtxos (order : MapOrder) (key : PublicKey) (s : Blockchain) (f : ℕ → ℕ) :
    ((s.fetchUtxos order key).map fun p => f p.1.value).sum =
      ∑ h ∈ s.utxos.owned key, f (s.utxos.valueAt h) := by
  have hnodup := (order.nodup_keys s.utxos.keys).filter (· ∈ s.utxos.owned key)
  have hset : ((order.keys s.utxos.keys).filter (· ∈ s.utxos.owned key)).toFinset = s.utxos.owned key := by
    ext h
    simp only [List.mem_toFinset, List.mem_filter, decide_eq_true_eq, order.mem_keys, and_iff_right_iff_imp]
    exact fun hh => (Finset.mem_filter.1 hh).1
  rw [fetchUtxos, List.map_map, ← hset, List.sum_toFinset _ hnodup]
  exact sum_entries s.utxos f _

/-- The reply has each of them once. -/
theorem length_fetchUtxos (order : MapOrder) (key : PublicKey) (s : Blockchain) :
    (s.fetchUtxos order key).length = (s.utxos.owned key).card := by
  have h := sum_fetchUtxos order key s fun _ => 1
  simpa using h

/-- The answer takes as many bytes as the outputs of the key. -/
theorem length_encode_fetchUtxos (order : MapOrder) (key : PublicKey) (s : Blockchain) :
    (e.encode (.utxos (s.fetchUtxos order key))).length = e.ownedSize key s.utxos := by
  have hkeys :
      (s.fetchUtxos order key).map (fun p => 43 + headSize p.1.value + (e.publicKey p.1.pubkey).length) =
      (s.fetchUtxos order key).map fun p => 43 + headSize p.1.value + (e.publicKey key).length := by
    refine List.map_congr_left fun p hp => ?_
    obtain ⟨q, hq, rfl⟩ := List.mem_map.1 hp
    rw [show q.2.pubkey = key by simpa using (List.mem_filter.1 hq).2]
  rw [e.length_encode_utxos, length_fetchUtxos, hkeys, Encoding.ownedSize,
    sum_fetchUtxos order key s fun value => 43 + headSize value + (e.publicKey key).length]

/-- In every state that is reached, the answer for a key is received exactly when what the
    active chain leaves to the key fits in a message. -/
theorem fetchUtxos_received_iff (hinj : Function.Injective c.hashBlock)
    (hne : ∀ block, c.hashBlock block ≠ Hash.zero) (hs : (chainSystem c).Reachable s)
    (order : MapOrder) (key : PublicKey) :
    ∃ utxos, replayUtxos c s.blocks s.activeChain = some utxos ∧
      (e.Receives (.utxos (s.fetchUtxos order key)) ↔ e.ownedSize key utxos ≤ maxMessageSize) := by
  obtain ⟨utxos, hu, hsame⟩ := (steady_of_reachable hinj hne hs).replay
  refine ⟨utxos, hu, ?_⟩
  rw [receives_iff, length_encode_fetchUtxos, Encoding.ownedSize_congr hsame]

/-- The outputs of the miner of a chain that forked. -/
theorem fetchUtxos_received_forked : (chainSystem Sample.forkCrypto).Reachable Sample.forked ∧
    Sample.encoding.Receives (.utxos (Sample.forked.fetchUtxos .ascending 9)) := by
  have hreach : (chainSystem Sample.forkCrypto).Reachable Sample.forked := reachable_run _
  have hsize : ∀ u ∈ replayUtxos Sample.forkCrypto Sample.forked.blocks Sample.forked.activeChain,
      Sample.encoding.ownedSize 9 u ≤ maxMessageSize := by decide +kernel
  obtain ⟨utxos, hu, hiff⟩ := fetchUtxos_received_iff (e := Sample.encoding) (tableHash_injective _)
    (tableHash_ne_zero _) hreach .ascending 9
  exact ⟨hreach, hiff.2 (hsize utxos hu)⟩

/-! ## Too many outputs -/

namespace Sample

/-- A coinbase that pays the reward to the key `8`, then `n` outputs of no value. -/
def wide (n : ℕ) : Transaction where
  inputs := []
  outputs := { value := 50 * 10 ^ 8, uniqueId := 1, pubkey := 8 } ::
    (List.range n).map fun i => { value := 0, uniqueId := i + 2, pubkey := 8 }

def wideBlock (n : ℕ) : Block := block 1 1 2 [wide n]

noncomputable def wideCrypto (n : ℕ) : Crypto := crypto [wide n] [wideBlock n]

/-- The chain of the genesis and that block. -/
noncomputable def wideChain (n : ℕ) : Blockchain :=
  run (wideCrypto n) (delivering [genesis, wideBlock n])

end Sample

open Sample

/-- The first entry of a table is hashed to `1`. -/
theorem tableHash_head {α : Type} [DecidableEq α] [Countable α] (a : α) (l : List α) :
    tableHash (a :: l) a = 1 := by
  simp [tableHash]

/-- The second one is hashed to `2`, unless it is the first one again. -/
theorem tableHash_second {α : Type} [DecidableEq α] [Countable α] {a b : α} (h : b ≠ a) (l : List α) :
    tableHash (a :: b :: l) b = 2 := by
  simp [tableHash, List.idxOf_cons_ne _ h.symm]

/-- A header that meets its target is mined as it is. -/
theorem mine_of_le {now : DateTime} {header : BlockHeader} (h : c.hashHeader header ≤ header.target)
    (steps : ℕ) : BlockHeader.mine c now steps header = some header := by
  cases steps with
  | zero => rw [BlockHeader.mine, if_pos h]
  | succ steps => rw [BlockHeader.mine, if_pos h]

section

variable (n : ℕ)

/-- The wide payment is not that of the genesis. -/
theorem wide_ne : wide n ≠ payment [] 0 (50 * 10 ^ 8) 7 := by
  intro h
  have := congrArg (fun tx => tx.outputs.map TransactionOutput.pubkey) h
  simp [wide, payment] at this

/-- So its block is not the genesis. -/
theorem wideBlock_ne : wideBlock n ≠ genesis := by
  intro h
  have := congrArg (fun b => b.header.timestamp) h
  simp [wideBlock, genesis, block] at this

/-- The hashes of the two transactions are known without looking at the outputs. -/
theorem hashTransaction_wide : (wideCrypto n).hashTransaction (wide n) = 2 := tableHash_second (wide_ne n) []

/-- The genesis has the first of the transactions. -/
theorem hashTransaction_genesis :
    (wideCrypto n).hashTransaction (payment [] 0 (50 * 10 ^ 8) 7) = 1 := by
  simp [wideCrypto, crypto, Crypto.ofTables, genesis, block, tableHash_head]

theorem hashBlock_wide : (wideCrypto n).hashBlock (wideBlock n) = 2 := tableHash_second (wideBlock_ne n) []

theorem hashBlock_genesis : (wideCrypto n).hashBlock genesis = 1 := tableHash_head genesis [wideBlock n]

theorem hashHeader_genesis : (wideCrypto n).hashHeader genesis.header = 1 :=
  tableHash_head genesis.header [(wideBlock n).header]

theorem hashHeader_wide : (wideCrypto n).hashHeader (wideBlock n).header = 2 := by
  have hne : (wideBlock n).header ≠ genesis.header := by simp [wideBlock, genesis, block]
  exact tableHash_second hne []

/-- The genesis is the one of the samples. -/
theorem genesisBlock_wide : genesisBlock (wideCrypto n) = some genesis := by
  have hroot : merkleRoot (wideCrypto n) [genesisCoinbase (wideCrypto n)] = some 1 :=
    congrArg some (hashTransaction_genesis n)
  have hmine : BlockHeader.mine (wideCrypto n) unixEpoch 2000000 genesis.header = some genesis.header :=
    mine_of_le (by rw [hashHeader_genesis]; decide) 2000000
  rw [genesisBlock, hroot]
  exact congrArg (Option.map fun header => Block.mk header genesis.transactions) hmine

/-- The blocks of the chain. -/
def wideBlocks : Finmap fun _ : Hash => Block :=
  (Finmap.insert 1 genesis ∅ : Finmap fun _ : Hash => Block).insert 2 (wideBlock n)

theorem lookup_wideBlocks_one : (wideBlocks n).lookup 1 = some genesis := by
  rw [wideBlocks, Finmap.lookup_insert_eq, if_neg (by decide), Finmap.lookup_insert]

theorem lookup_wideBlocks_two : (wideBlocks n).lookup 2 = some (wideBlock n) := Finmap.lookup_insert _

/-- The genesis passes its checks. -/
theorem passesOn_genesis : PassesOn (wideCrypto n) (wideBlocks n) [] genesis where
  genesis _ := ⟨genesis, genesisBlock_wide n, rfl⟩
  target := rfl
  work := by
    rw [hashHeader_genesis]
    decide
  size := rfl
  merkleRoot := by
    have hroot : merkleRoot (wideCrypto n) genesis.transactions = some 1 :=
      congrArg some (hashTransaction_genesis n)
    rw [checkMerkleRoot, hroot]
    rfl
  after h hh := by cases hh
  transactions := ⟨∅, rfl, rfl⟩

/-- All but the first of its outputs are of no value. -/
theorem outputValue_wide : (wide n).outputValue = .ok (50 * 10 ^ 8) := by
  have hsum : ((wide n).outputs.map TransactionOutput.value).sum = 50 * 10 ^ 8 := by
    simp [wide, Function.comp_def]
  rw [Transaction.outputValue, checkedSum_eq_some.2 ⟨rfl, by rw [hsum]; decide⟩, hsum]
  rfl

/-- The wide block passes its checks on the genesis. -/
theorem passesOn_wideBlock : PassesOn (wideCrypto n) (wideBlocks n) [1] (wideBlock n) where
  genesis h := by cases h
  target := rfl
  work := by
    rw [hashHeader_wide]
    change 2 ≤ minTarget
    decide
  size := rfl
  merkleRoot := by
    have hroot : merkleRoot (wideCrypto n) (wideBlock n).transactions = some 2 :=
      congrArg some (hashTransaction_wide n)
    rw [checkMerkleRoot, hroot]
    rfl
  after h hh := by
    obtain rfl := Option.some.inj hh
    exact ⟨genesis, lookup_wideBlocks_one n, Int.one_pos⟩
  transactions := by
    -- The genesis has no outputs to spend, and the block spends none.
    obtain ⟨u, hu⟩ : ∃ u, replayUtxos (wideCrypto n) (wideBlocks n) [1] = some u := by
      refine exists_replayUtxos fun x hx => ?_
      rw [List.mem_singleton.1 hx]
      exact Finmap.mem_iff.2 ⟨genesis, lookup_wideBlocks_one n⟩
    refine ⟨u, hu, ?_⟩
    have hcoinbase : (wideBlock n).verifyCoinbaseTransaction 1 u = .ok () := by
      have hfirst : (wideBlock n).transactions[0]? = some (wide n) := rfl
      -- No other transaction pays a fee.
      have hrest : calculateMinerFeesForTransactions (wideBlock n).transactions.tail u = .ok 0 := rfl
      have hinputs : (wide n).inputs = [] := rfl
      rw [Block.verifyCoinbaseTransaction, hfirst, Outcome.expect_eq_ok.2 rfl, Outcome.ok_bind,
        Outcome.ensure_of hinputs, Outcome.ok_bind, hrest, Outcome.ok_bind, outputValue_wide]
      rfl
    rw [Block.verifyTransactions]
    change ((wideBlock n).verifyCoinbaseTransaction 1 u).bind _ = _
    rw [hcoinbase]
    rfl

/-- A block that passes is taken up by a node that follows the chain. -/
theorem following_wide {s : Blockchain} {l : List Hash} {x : Hash} {b : Block}
    (h : Following (wideCrypto n) (wideBlocks n) l s) (hl : Linked (wideBlocks n) (l ++ [x]))
    (hb : (wideBlocks n).lookup x = some b) (hx : (wideCrypto n).hashBlock b = x)
    (hpass : PassesOn (wideCrypto n) (wideBlocks n) l b)
    (htime : checkTimestamp ambient.now s b.header.timestamp = .ok ()) :
    Following (wideCrypto n) (wideBlocks n) (l ++ [x]) (Blockchain.addBlock (wideCrypto n) ambient b s).1 ∧
      (Blockchain.addBlock (wideCrypto n) ambient b s).1.timeOffset = s.timeOffset := by
  rcases h.addBlock (tableHash_injective _) (tableHash_ne_zero _) hl hb hx ambient with
    ⟨-, -, s', hadd, hs', htime', -⟩ | ⟨hno, -⟩
  · rw [hadd]
    exact ⟨hs', htime'⟩
  · exact absurd ⟨hpass, htime⟩ hno

/-- Both blocks are accepted. -/
theorem following_wideChain : Following (wideCrypto n) (wideBlocks n) [1, 2] (wideChain n) := by
  have hgenesis : Linked (wideBlocks n) ([] ++ [1]) := .concat .nil (lookup_wideBlocks_one n) rfl
  have hwide : Linked (wideBlocks n) ([1] ++ [2]) := .concat hgenesis (lookup_wideBlocks_two n) rfl
  obtain ⟨h₁, htime⟩ := following_wide n loaded_new.following hgenesis (lookup_wideBlocks_one n)
    (hashBlock_genesis n) (passesOn_genesis n) rfl
  refine (following_wide n h₁ hwide (lookup_wideBlocks_two n) (hashBlock_wide n) (passesOn_wideBlock n) ?_).1
  rw [checkTimestamp, htime]
  rfl

/-- All its outputs are of one key. -/
theorem pubkey_of_mem_wide {o : TransactionOutput} (ho : o ∈ (wide n).outputs) : o.pubkey = 8 := by
  rcases List.mem_cons.1 ho with rfl | ho
  · rfl
  · obtain ⟨i, -, rfl⟩ := List.mem_map.1 ho
    rfl

/-- No two of them are the same, as they are numbered. -/
theorem nodup_wide : (wide n).outputs.Nodup := by
  refine List.Nodup.of_map TransactionOutput.uniqueId ?_
  have hids : (wide n).outputs.map TransactionOutput.uniqueId = 1 :: (List.range n).map (· + 2) := by
    simp [wide, Function.comp_def]
  rw [hids, List.nodup_cons]
  refine ⟨?_, (List.nodup_range).map fun i j h => by simpa using h⟩
  rw [List.mem_map]
  rintro ⟨i, -, hi⟩
  exact absurd hi (by simp)

/-- The key has every output of the block. -/
theorem le_card_owned {utxos : Utxos}
    (hu : replayUtxos (wideCrypto n) (wideBlocks n) [1, 2] = some utxos) : n ≤ (utxos.owned 8).card := by
  change replayUtxos (wideCrypto n) (wideBlocks n) ([1] ++ [2]) = some utxos at hu
  rw [replayUtxos_concat] at hu
  obtain ⟨u, -, hu⟩ := Option.bind_eq_some_iff.1 hu
  rw [lookup_wideBlocks_two] at hu
  obtain rfl := Option.some.inj hu
  have hsub : ((wide n).outputs.map (wideCrypto n).hashOutput).toFinset ⊆
      (applyTransactions (wideCrypto n) u (wideBlock n)).owned 8 := by
    intro x hx
    rw [List.mem_toFinset, List.mem_map] at hx
    obtain ⟨o, ho, -, hlookup⟩ := lookup_applyTransaction_of_mem (u := u) (List.mem_map.2 hx)
    exact Utxos.mem_owned.2 ⟨_, hlookup, pubkey_of_mem_wide n ho⟩
  have hinj : Function.Injective (wideCrypto n).hashOutput := tableHash_injective _
  have hcard := Finset.card_le_card hsub
  rw [List.toFinset_card_of_nodup ((nodup_wide n).map hinj), List.length_map] at hcard
  refine le_trans ?_ hcard
  simp [wide]

/-- An output takes `203` bytes of the reply at least. -/
theorem le_ownedSize (utxos : Utxos) (key : PublicKey) :
    203 * (utxos.owned key).card ≤ encoding.ownedSize key utxos := by
  have hsum := Finset.card_nsmul_le_sum (utxos.owned key)
    (fun h => 43 + headSize (utxos.valueAt h) + (encoding.publicKey key).length) 203 fun h _ => by
      have := one_le_headSize (utxos.valueAt h)
      rw [length_publicKey]
      omega
  rw [smul_eq_mul] at hsum
  rw [Encoding.ownedSize]
  omega

/-- An output of no value takes `201` bytes of the block. -/
theorem serializedSize_wideBlock_le : encoding.serializedSize (wideBlock n) ≤ 1000 + 201 * n := by
  have hheader := Encoding.length_header_le encoding_short (wideBlock n).header
  have hcount := headSize_le (n + 1)
  have hoffer := headSize_le (50 * 10 ^ 8)
  have houtputs : ((wide n).outputs.map fun o => (encoding.output o).length).sum =
      200 + headSize (50 * 10 ^ 8) + 201 * n := by
    simp [wide, Encoding.length_output, length_publicKey, Function.comp_def, headSize_of_lt]
    omega
  have htx : (encoding.transaction (wide n)).length =
      17 + headSize (n + 1) + ((wide n).outputs.map fun o => (encoding.output o).length).sum := by
    rw [Encoding.transaction, length_struct (n := 15) rfl]
    simp [length_array, headSize_of_lt, wide, Function.comp_def]
    omega
  have hsize : encoding.serializedSize (wideBlock n) =
      22 + (encoding.header (wideBlock n).header).length + (encoding.transaction (wide n)).length := by
    rw [Encoding.serializedSize, Encoding.block, length_struct (n := 20) rfl]
    simp [length_array, headSize_of_lt, wideBlock, block]
    omega
  omega

/-- Both blocks arrive when the second is not too long. -/
theorem reachable_wideChain (hn : 2000 + 201 * n ≤ maxMessageSize) :
    (chainSystem (wideCrypto n)).ReachableBy (Arriving (wideCrypto n) encoding) (wideChain n) := by
  refine reachableBy_run fun op hop s => ?_
  obtain ⟨b, hb, rfl⟩ := List.mem_map.1 hop
  rcases List.mem_cons.1 hb with rfl | hb
  · exact .inl (genesisBlock_wide n)
  · obtain rfl := List.mem_singleton.1 hb
    refine .inr ⟨.newBlock (wideBlock n), List.mem_singleton.2 rfl, ?_⟩
    have hsize := serializedSize_wideBlock_le n
    rw [Encoding.length_encode_newBlock]
    omega

end

/-- Two blocks arrive and are accepted, and the outputs of the second are too many for the
    answer that lists them. -/
theorem fetchUtxos_oversized :
    (chainSystem (wideCrypto 51700)).ReachableBy (Arriving (wideCrypto 51700) encoding) (wideChain 51700) ∧
      (wideChain 51700).activeChain = [1, 2] ∧
      maxMessageSize < (encoding.encode (.utxos ((wideChain 51700).fetchUtxos .ascending 8))).length ∧
      ¬ encoding.Receives (.utxos ((wideChain 51700).fetchUtxos .ascending 8)) := by
  have hf := following_wideChain 51700
  have hlong : maxMessageSize <
      (encoding.encode (.utxos ((wideChain 51700).fetchUtxos .ascending 8))).length := by
    obtain ⟨utxos, hu, hsame⟩ := hf.replay
    have hblocks : ∀ x ∈ [1, 2], (wideChain 51700).blocks.lookup x = (wideBlocks 51700).lookup x :=
      fun x hx => by rw [hf.lookup, if_pos hx]
    rw [hf.activeChain, replayUtxos_congr hblocks] at hu
    have hcard := le_card_owned 51700 hu
    have hsize := le_ownedSize utxos 8
    rw [length_encode_fetchUtxos, Encoding.ownedSize_congr hsame, maxMessageSize]
    omega
  refine ⟨reachable_wideChain 51700 (by decide), hf.activeChain, hlong, fun h => ?_⟩
  exact absurd (receives_iff.1 h) (not_le.2 hlong)

end Itx
