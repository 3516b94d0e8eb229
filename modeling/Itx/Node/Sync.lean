import Itx.Lib.Loop
import Itx.Node.Reload

/-!
# Catching up with a peer

When a node has started it asks its peers for the work of their chains, and downloads
what it lacks from the one that has the most (`node/src/util.rs`, `node/src/main.rs`).
The download is a loop: as long as its own chain is lower than that of the peer, it
asks for the blocks at the heights above its own, and adds those it is sent
(`downloadBlockchain`). The peer is any, and its answers are part of the surroundings
(`Session`); a node of the same program answers from its active chain (`fetchBlocks`).

The loop compares heights, and a block may be added without making the chain higher: it
is known already, or on a branch that has no more work.

* `download_returns_iff`: the loop returns exactly when only finitely many of its round
  trips leave the chain no higher than it was;
* `sync_converges_iff`: with a peer answering from its chain, the node ends up with the
  chain of the peer exactly when its own is a beginning of it.
-/

namespace Itx

open Call

namespace Blockchain

/-- `Blockchain::block_height`. -/
def blockHeight (s : Blockchain) : ℕ := s.activeChain.length

/-- `Blockchain::chain_work`. -/
def chainWork (s : Blockchain) : Option U256 := workOfChain s.blocks s.activeChain

end Blockchain

open Blockchain

/-! ## The answers of a node -/

/-- `BLOCKS_PER_FETCH_BATCH`. -/
def blocksPerFetchBatch : ℕ := 8

/-- `MAX_FETCH_BATCH_BYTES`. -/
def maxFetchBatchBytes : ℕ := 9 * 1024 * 1024

/-- The loop of `FetchBlocks`: blocks are taken until they would be too long, but for
    the first, which is always taken. -/
def batchWithin (size : Block → ℕ) : ℕ → List Block → List Block → List Block
  | _, blocks, [] => blocks
  | totalBytes, blocks, block :: rest =>
    if totalBytes + size block > maxFetchBatchBytes ∧ blocks ≠ [] then blocks
    else batchWithin size (totalBytes + size block) (blocks ++ [block]) rest

/-- The answer to `FetchBlocks`, from a height on. It would panic if a block of the
    active chain was not known. -/
def fetchBlocks (size : Block → ℕ) (start count : ℕ) (s : Blockchain) : Option (List Block) :=
  let maxCount := min count blocksPerFetchBatch
  ((s.activeChain.take (start + maxCount)).mapM s.blocks.lookup).map fun blocks =>
    batchWithin size 0 [] (blocks.drop start)

/-! ## Choosing a peer -/

/-- Why a sync is given up. -/
inductive SyncError
  /-- The connection fails. -/
  | connection
  /-- A block does not connect to the chain. -/
  | unconnected
  /-- A block is not accepted. -/
  | invalid (e : BtcError)
  /-- A block cannot be persisted. -/
  | store
  deriving DecidableEq, Repr

/-- What a peer answers to `AskChainTip`. -/
inductive TipReply
  | chainTip (height : ℕ) (work : U256)
  /-- Another message. -/
  | other
  /-- The question could not be sent: the result is unwrapped. -/
  | notSent
  /-- No answer was received. -/
  | notReceived

/-- The loop of `find_best_chain_node`, with the best peer so far, its height and its
    work. -/
def findBestAmong : List (String × TipReply) → String → ℕ → U256 → Outcome SyncError (String × ℕ)
  | [], bestName, bestHeight, _ => .ok (bestName, bestHeight)
  | (node, reply) :: nodes, bestName, bestHeight, bestWork =>
    match reply with
    | .chainTip height work =>
      if work > bestWork then findBestAmong nodes node height work
      else findBestAmong nodes bestName bestHeight bestWork
    | .other => findBestAmong nodes bestName bestHeight bestWork
    | .notSent => .panic
    | .notReceived => .err .connection

/-- `find_best_chain_node`. -/
def findBestChainNode (nodes : List (String × TipReply)) : Outcome SyncError (String × ℕ) :=
  findBestAmong nodes "" 0 0

/-! ## Downloading -/

/-- What a peer answers to `FetchBlocks`. -/
inductive FetchReply
  | blocks (blocks : List Block)
  /-- Another message. -/
  | other
  /-- The request could not be sent, or no answer was received. -/
  | failed

/-- What a download reads of its surroundings: the answer to the round trip `n`, given the
    height and the count asked for, and for each block of it the clock, and whether the
    store takes the block and then records the chain. -/
structure Session where
  reply : ℕ → ℕ → ℕ → FetchReply
  amb : ℕ → ℕ → Ambient
  putsBlock : ℕ → ℕ → Bool
  recordsChain : ℕ → ℕ → Bool

/-- `persist_chain_state`, what it does to the blockchain. -/
def persistChainState (putsBlock recordsChain : Bool) : Call Blockchain SyncError Unit := do
  Call.lift (Outcome.ensure (putsBlock = true) .store)
  Call.modify takePrunedHashes
  Call.lift (Outcome.ensure (recordsChain = true) .store)

/-- Why a block stops the download. -/
def SyncError.ofBlock : BtcError → SyncError
  | .orphanBlock => .unconnected
  | e => .invalid e

section

variable (c : Crypto) (p : Session)

/-- The blocks of a batch, from the block `i` on. -/
def syncBlocks (n : ℕ) : ℕ → List Block → Call Blockchain SyncError Unit
  | _, [] => pure ()
  | i, block :: blocks => do
    Call.mapErr .ofBlock (Blockchain.addBlock c (p.amb n i) block)
    persistChainState (p.putsBlock n i) (p.recordsChain n i)
    syncBlocks n (i + 1) blocks

/-- A pass of the loop of `download_blockchain`: whether there is another. -/
def roundTrip (targetHeight n : ℕ) : Call Blockchain SyncError Bool := do
  let s ← Call.get
  let start := s.blockHeight
  if targetHeight ≤ start then pure false
  else
    match p.reply n start (min (targetHeight - start) blocksPerFetchBatch) with
    | .failed => Call.lift (.err .connection)
    | .other => pure false
    | .blocks blocks =>
      if blocks = [] then pure false
      else do
        syncBlocks c p n 0 blocks
        pure true

/-- `download_blockchain`, for at most some round trips. -/
def downloadBlockchain (targetHeight fuel : ℕ) (s : Blockchain) :
    Option (Blockchain × Outcome SyncError Unit) :=
  Call.loop (roundTrip c p targetHeight) fuel 0 s

end

/-- The sync of a node that has started, for at most some round trips: none if they are
    not enough. -/
def syncAtStartup (c : Crypto) (nodes : List (String × TipReply)) (sessions : String → Session)
    (fuel : ℕ) (s : Blockchain) : Option (Blockchain × Outcome SyncError Unit) :=
  match findBestChainNode nodes with
  | .ok (bestName, bestHeight) =>
    if bestName = "" then some (s, .ok ())
    else downloadBlockchain c (sessions bestName) bestHeight fuel s
  | .err e => some (s, .err e)
  | .panic => some (s, .panic)

variable {c : Crypto} {p : Session} {s s' S : Blockchain} {targetHeight n : ℕ}

/-! ## Round trips -/

/-- A round trip that brings blocks. -/
theorem roundTrip_of_blocks {blocks : List Block} (hlt : s.blockHeight < targetHeight)
    (hreply : p.reply n s.blockHeight (min (targetHeight - s.blockHeight) blocksPerFetchBatch) =
      .blocks blocks) (hne : blocks ≠ []) :
    roundTrip c p targetHeight n s =
      Call.bind (syncBlocks c p n 0 blocks) (fun _ => pure true) s := by
  change (if targetHeight ≤ s.blockHeight then pure false else _ : Call _ _ Bool) s = _
  rw [if_neg (not_le.2 hlt), hreply]
  simp only [hne, if_false]
  rfl

/-- A round trip is followed by another when it brings blocks, and all of them are added
    and persisted. -/
theorem goesOn_roundTrip : GoesOn (roundTrip c p targetHeight) n s s' ↔
    s.blockHeight < targetHeight ∧ ∃ blocks,
      p.reply n s.blockHeight (min (targetHeight - s.blockHeight) blocksPerFetchBatch) =
        .blocks blocks ∧
      blocks ≠ [] ∧ syncBlocks c p n 0 blocks s = (s', .ok ()) := by
  change (if targetHeight ≤ s.blockHeight then pure false else _ : Call _ _ Bool) s = _ ↔ _
  split_ifs with hle
  · refine iff_of_false (fun h => ?_) fun h => absurd h.1 (not_lt.2 hle)
    cases h
  · rw [and_iff_right (not_le.1 hle)]
    generalize p.reply n s.blockHeight _ = reply
    cases reply with
    | failed =>
      refine iff_of_false (fun h => ?_) fun h => ?_
      · cases h
      · obtain ⟨_, h, _⟩ := h
        cases h
    | other =>
      refine iff_of_false (fun h => ?_) fun h => ?_
      · cases h
      · obtain ⟨_, h, _⟩ := h
        cases h
    | blocks blocks =>
      by_cases hnil : blocks = []
      · subst hnil
        refine iff_of_false (fun h => ?_) fun h => ?_
        · cases h
        · obtain ⟨_, h, hne, _⟩ := h
          exact hne (FetchReply.blocks.inj h).symm
      · simp only [hnil, if_false, FetchReply.blocks.injEq]
        change Call.bind (syncBlocks c p n 0 blocks) (fun _ => pure true) s = _ ↔ _
        rw [Call.bind]
        constructor
        · intro h
          refine ⟨blocks, rfl, hnil, ?_⟩
          generalize syncBlocks c p n 0 blocks s = r at h ⊢
          obtain ⟨s₁, ⟨⟩ | e | _⟩ := r
          · exact congrArg (fun s => (s, Outcome.ok ())) (Prod.mk.inj h).1
          · cases h
          · cases h
        · rintro ⟨_, rfl, -, h⟩
          rw [h]
          rfl

/-- A node that is as high as its peer downloads nothing. -/
theorem download_of_le (hle : targetHeight ≤ s.blockHeight) :
    downloadBlockchain c p targetHeight 1 s = some (s, .ok ()) := by
  refine loop_over ?_ 0
  change (if targetHeight ≤ s.blockHeight then pure false else _ : Call _ _ Bool) s = _
  rw [if_pos hle]
  rfl

/-- A round trip stalls when its blocks, of which there are some, are all added and
    persisted, and leave the chain no higher than it was: they were known already, or
    on branches with no more work, or on one that is no higher. -/
def Stalls (c : Crypto) (p : Session) (targetHeight n : ℕ) (s : Blockchain) : Prop :=
  s.blockHeight < targetHeight ∧ ∃ blocks s',
    p.reply n s.blockHeight (min (targetHeight - s.blockHeight) blocksPerFetchBatch) =
      .blocks blocks ∧
    blocks ≠ [] ∧ syncBlocks c p n 0 blocks s = (s', .ok ()) ∧ s'.blockHeight ≤ s.blockHeight

/-- A download returns, after finitely many round trips, exactly when finitely many of
    them stall. -/
theorem download_returns_iff (c : Crypto) (p : Session) (targetHeight : ℕ) (s : Blockchain) :
    (∃ fuel r, downloadBlockchain c p targetHeight fuel s = some r) ↔
      {n | ∃ s', reaches (roundTrip c p targetHeight) s n = some s' ∧
        Stalls c p targetHeight n s'}.Finite := by
  -- What is left to download is lowered by every other round trip.
  refine (returns_iff_finite fun s => targetHeight - s.blockHeight).trans (iff_of_eq ?_)
  congr 1
  ext n
  constructor
  · rintro ⟨s₀, s₁, hreach, hgo, hle⟩
    obtain ⟨hlt, blocks, hreply, hne, hsync⟩ := goesOn_roundTrip.1 hgo
    dsimp only at hle
    exact ⟨s₀, hreach, hlt, blocks, s₁, hreply, hne, hsync, by omega⟩
  · rintro ⟨s₀, hreach, hlt, blocks, s₁, hreply, hne, hsync, hle⟩
    exact ⟨s₀, s₁, hreach, goesOn_roundTrip.2 ⟨hlt, blocks, hreply, hne, hsync⟩,
      Nat.sub_le_sub_left hle _⟩

/-! ## A peer that repeats itself -/

deriving instance DecidableEq for Blockchain

/-- A node with the genesis and one block. -/
noncomputable def behind : Blockchain :=
  run Sample.forkCrypto (Sample.delivering [Sample.genesis, Sample.left])

/-- A peer that answers every request with the same blocks. -/
def repeating (blocks : List Block) : Session where
  reply _ _ _ := .blocks blocks
  amb _ _ := Sample.ambient
  putsBlock _ _ := true
  recordsChain _ _ := true

/-- A peer may send the last block of the node for ever. -/
theorem download_never_returns : behind.activeChain = [1, 2] ∧
    ∀ fuel, downloadBlockchain Sample.forkCrypto (repeating [Sample.left]) 3 fuel behind = none := by
  refine ⟨by decide +kernel, fun fuel => ?_⟩
  have hgo : ∀ n, GoesOn (roundTrip Sample.forkCrypto (repeating [Sample.left]) 3) n behind behind :=
    fun n => by
      refine goesOn_roundTrip.2 ⟨by decide +kernel, _, rfl, by decide, ?_⟩
      change syncBlocks Sample.forkCrypto (repeating [Sample.left]) 0 0 [Sample.left] behind = _
      exact Prod.ext (by decide +kernel) (by decide +kernel)
  rw [downloadBlockchain]
  generalize 0 = n
  induction fuel generalizing n with
  | zero => rfl
  | succ fuel ih => rw [loop_goesOn (hgo n), ih]

/-! ## What a node answers -/

/-- The blocks of some hashes, in the same order. -/
def Named (blocks : Finmap fun _ : Hash => Block) : List Hash → List Block → Prop :=
  List.Forall₂ fun x block => blocks.lookup x = some block

theorem exists_named {blocks : Finmap fun _ : Hash => Block} {l : List Hash}
    (h : ∀ x ∈ l, x ∈ blocks) : ∃ bs, l.mapM blocks.lookup = some bs ∧ Named blocks l bs := by
  induction l with
  | nil => exact ⟨[], rfl, .nil⟩
  | cons x l ih =>
    obtain ⟨b, hb⟩ := Finmap.mem_iff.1 (h x List.mem_cons_self)
    obtain ⟨bs, hbs, hnamed⟩ := ih fun y hy => h y (List.mem_cons_of_mem _ hy)
    exact ⟨b :: bs, by simp [hb, hbs], .cons hb hnamed⟩

/-- A batch is a beginning of the blocks it is taken from, with at least one if there
    are any. -/
theorem batchWithin_eq (size : Block → ℕ) (totalBytes : ℕ) (blocks rest : List Block) :
    ∃ k ≤ rest.length, batchWithin size totalBytes blocks rest = blocks ++ rest.take k ∧
      (blocks = [] → rest ≠ [] → 0 < k) := by
  induction rest generalizing totalBytes blocks with
  | nil => exact ⟨0, le_rfl, by simp [batchWithin], fun _ h => absurd rfl h⟩
  | cons block rest ih =>
    rw [batchWithin]
    split_ifs with hfull
    · exact ⟨0, Nat.zero_le _, by simp, fun h => absurd h hfull.2⟩
    · obtain ⟨k, hk, hbatch, -⟩ := ih (totalBytes + size block) (blocks ++ [block])
      exact ⟨k + 1, Nat.succ_le_succ hk, by simp [hbatch], fun _ _ => Nat.succ_pos k⟩

/-- A batch has one block, or is within the bytes of a batch. -/
def FitsBatch (size : Block → ℕ) (batch : List Block) : Prop :=
  batch.length ≤ 1 ∨ (batch.map size).sum ≤ maxFetchBatchBytes

theorem batchWithin_fits {size : Block → ℕ} {batch : List Block} (h : FitsBatch size batch)
    (rest : List Block) : FitsBatch size (batchWithin size (batch.map size).sum batch rest) := by
  induction rest generalizing batch with
  | nil => exact h
  | cons block rest ih =>
    rw [batchWithin]
    split_ifs with hfull
    · exact h
    · have hsum : (batch.map size).sum + size block = ((batch ++ [block]).map size).sum := by simp
      rw [hsum] at hfull ⊢
      refine ih ?_
      by_cases hnil : batch = []
      · left
        simp [hnil]
      · right
        exact not_lt.1 fun hlt => hfull ⟨hlt, hnil⟩

/-- A batch is a run of blocks of the active chain, as many as are asked for at most, and
    none only when there are none to give. -/
theorem exists_fetchBlocks (hknown : ∀ x ∈ S.activeChain, x ∈ S.blocks) (size : Block → ℕ)
    (start count : ℕ) :
    ∃ bs, fetchBlocks size start count S = some bs ∧
      Named S.blocks ((S.activeChain.drop start).take bs.length) bs ∧
      bs.length ≤ min count blocksPerFetchBatch ∧ FitsBatch size bs ∧
      (bs ≠ [] ↔ start < S.blockHeight ∧ 0 < count) := by
  obtain ⟨all, hall, hnamed⟩ := exists_named (l := S.activeChain.take
    (start + min count blocksPerFetchBatch)) fun x hx => hknown x (List.mem_of_mem_take hx)
  have hdrop : Named S.blocks ((S.activeChain.drop start).take (min count blocksPerFetchBatch))
      (all.drop start) := by
    have := List.forall₂_drop start hnamed
    rwa [List.drop_take, Nat.add_sub_cancel_left] at this
  have hlength := hdrop.length_eq
  rw [List.length_take, List.length_drop] at hlength
  obtain ⟨k, hk, hbatch, hpos⟩ := batchWithin_eq size 0 [] (all.drop start)
  have htaken : ((all.drop start).take k).length = k := by
    rw [List.length_take]
    exact min_eq_left hk
  refine ⟨(all.drop start).take k, by rw [fetchBlocks, hall, Option.map_some, hbatch, List.nil_append],
    ?_, by omega, ?_, ?_⟩
  · have := List.forall₂_take k hdrop
    rw [List.take_take, min_eq_left (by omega)] at this
    rwa [htaken]
  · rw [← List.nil_append ((all.drop start).take k), ← hbatch]
    have hnil : FitsBatch size [] := .inl (Nat.zero_le 1)
    exact batchWithin_fits hnil _
  · have hmax : 0 < min count blocksPerFetchBatch ↔ 0 < count := by simp [blocksPerFetchBatch]
    rw [← List.length_pos_iff, htaken, blockHeight]
    have hpos' : all.drop start ≠ [] → 0 < k := hpos rfl
    rw [← List.length_pos_iff] at hpos'
    omega

/-- Asked for blocks it has, a node answers with some of them, from the first on. -/
theorem fetchBlocks_eq (hknown : ∀ x ∈ S.activeChain, x ∈ S.blocks) (size : Block → ℕ)
    (start count : ℕ) (hstart : start < S.activeChain.length) (hcount : 0 < count) :
    ∃ k bs, 0 < k ∧ start + k ≤ S.activeChain.length ∧ fetchBlocks size start count S = some bs ∧
      Named S.blocks ((S.activeChain.drop start).take k) bs := by
  obtain ⟨bs, hbs, hnamed, -, -, hne⟩ := exists_fetchBlocks hknown size start count
  have hpos := List.length_pos_iff.2 (hne.2 ⟨hstart, hcount⟩)
  have hlength := hnamed.length_eq
  rw [List.length_take, List.length_drop] at hlength
  exact ⟨bs.length, bs, hpos, by omega, hbs, hnamed⟩

/-! ## Following a peer -/

/-- The peer answers from its active chain. -/
def AnswersFrom (S : Blockchain) (size : Block → ℕ) (p : Session) : Prop :=
  ∀ n start count blocks, fetchBlocks size start count S = some blocks →
    p.reply n start count = .blocks blocks

/-- The blocks of a chain are not dated too far ahead of the clock of the node when it is
    sent them. -/
def Dated (S : Blockchain) (p : Session) (s : Blockchain) : Prop :=
  ∀ n i, ∀ x ∈ S.activeChain, ∀ b, S.blocks.lookup x = some b →
    checkTimestamp (p.amb n i).now s b.header.timestamp = .ok ()

/-- The store of the node does not fail. -/
def Session.Persists (p : Session) : Prop :=
  ∀ n i, p.putsBlock n i = true ∧ p.recordsChain n i = true

theorem Dated.of_timeOffset (h : Dated S p s) (he : s'.timeOffset = s.timeOffset) :
    Dated S p s' := by
  intro n i x hx b hb
  rw [checkTimestamp, he]
  exact h n i x hx b hb

theorem Following.takePrunedHashes {B : Finmap fun _ : Hash => Block} {l : List Hash}
    (h : Following c B l s) : Following c B l s.takePrunedHashes where
  blocks := h.blocks
  orphans := h.orphans
  known := h.known
  rooted := h.rooted
  active := h.active
  replay := h.replay
  valid := h.valid
  nodup := h.nodup
  present := h.present
  target_le := h.target_le
  passes := h.passes
  activeChain := h.activeChain
  lookup := h.lookup
  no_orphans := h.no_orphans

/-- A block of the peer whose parent is not known is kept as an orphan, and stops the
    download. -/
theorem syncBlocks_unconnected {block : Block} {bs : List Block} (ho : s.orphans = ∅)
    (hz : block.header.prevBlockHash ≠ Hash.zero) (ht : block.header.prevBlockHash ≠ s.tipHash)
    (hb : block.header.prevBlockHash ∉ s.blocks) :
    Itx.syncBlocks c p n 0 (block :: bs) s = (s.keepOrphan c block, .err .unconnected) := by
  have haccept : acceptBlock c (p.amb n 0) block s = (s.keepOrphan c block, .err .orphanBlock) := by
    change (if block.header.prevBlockHash = s.tipHash then _ else _ : ChainCall Hash) s = _
    rw [if_neg ht]
    change Call.bind (Call.lift (Outcome.ensure _ _)) _ s = _
    rw [Outcome.ensure_of hz]
    change (if block.header.prevBlockHash ∉ s.blocks then _ else _ : ChainCall Hash) s = _
    rw [if_pos hb]
    rfl
  have hadd : Blockchain.addBlock c (p.amb n 0) block s =
      (s.keepOrphan c block, .err .orphanBlock) := by
    rw [addBlock_of_orphans_empty ho, haccept]
    rfl
  change Call.bind (Call.mapErr SyncError.ofBlock _) _ s = _
  rw [Call.bind, Call.mapErr, hadd]
  rfl

/-! ## Nodes that have started -/

/-- A node that has started, before it has been sent anything: it knows its chain, which
    has the genesis at least, and no other block. -/
structure Started (c : Crypto) (s : Blockchain) : Prop where
  reachable : (chainSystem c).Reachable s
  nonempty : s.activeChain ≠ []
  active_of_mem : ∀ x ∈ s.blocks, x ∈ s.activeChain
  no_orphans : s.orphans = ∅

/-- Two nodes know the same block by a hash. -/
theorem Blockchain.Keyed.agree (hinj : Function.Injective c.hashBlock) (h : Keyed c s)
    (h' : Keyed c S) (x : Hash) (b b' : Block) (hb : s.blocks.lookup x = some b)
    (hb' : S.blocks.lookup x = some b') : b = b' :=
  hinj ((h.blocks x b hb).trans (h'.blocks x b' hb').symm)

section

variable (hinj : Function.Injective c.hashBlock) (hne : ∀ block, c.hashBlock block ≠ Hash.zero)

include hinj hne

/-- A node whose chain is a beginning of that of another has followed it. -/
theorem Started.following (h : Started c s) (hS : Steady c S)
    (hbegins : s.activeChain <+: S.activeChain) : Following c S.blocks s.activeChain s := by
  have hs := steady_of_reachable hinj hne h.reachable
  refine ⟨hs, passes_of_reachable hinj hne h.reachable, rfl, fun x => ?_, h.no_orphans⟩
  split_ifs with hx
  · obtain ⟨b, hb⟩ := Finmap.mem_iff.1 (hs.known x hx)
    obtain ⟨b', hb'⟩ := Finmap.mem_iff.1 (hS.known x (hbegins.subset hx))
    rw [hb, hb', hs.toKeyed.agree hinj hS.toKeyed x b b' hb hb']
  · exact Finmap.lookup_eq_none.2 fun hmem => hx (h.active_of_mem x hmem)

/-- A node whose chain is not a beginning of that of another does not know the block of it
    at its own height. -/
theorem Started.notMem (h : Started c s) (hS : Steady c S) (hle : s.blockHeight ≤ S.blockHeight)
    (hbegins : ¬ s.activeChain <+: S.activeChain) :
    tipOf (S.activeChain.take s.blockHeight) ∉ s.blocks := by
  intro hmem
  have hs := steady_of_reachable hinj hne h.reachable
  obtain ⟨chain, hchain⟩ := hs.rooted _ hmem
  obtain ⟨i, hi, htake⟩ := hs.active.eq_take (hs.zero_notMem hne) hchain (h.active_of_mem _ hmem)
  -- The chains to it are the same on both sides.
  have hsame := hchain.unique_of_agree (hs.zero_notMem hne) (hS.zero_notMem hne)
    (hs.toKeyed.agree hinj hS.toKeyed) (hS.active.take s.blockHeight) (tipOf_concat)
  have hlen := congrArg List.length (htake.symm.trans hsame)
  rw [List.length_take, List.length_take_of_le hle] at hlen
  have hwhole : s.activeChain.take (i + 1) = s.activeChain :=
    List.take_of_length_le (by rw [blockHeight] at hlen; omega)
  rw [← hwhole, ← htake, hsame] at hbegins
  exact hbegins (List.take_prefix _ _)

end

section

variable (hinj : Function.Injective c.hashBlock) (hne : ∀ block, c.hashBlock block ≠ Hash.zero)
  {l xs : List Hash} {bs : List Block} {size : Block → ℕ}

include hinj hne

/-- The blocks of a batch that are the next ones of the chain followed are all added. -/
theorem Following.syncBlocks (hk : Keyed c S) (hS : Each (PassesOn c) S) (hp : p.Persists)
    (h : Following c S.blocks l s) (hl : Linked S.blocks (l ++ xs)) (hxs : ∀ x ∈ xs, x ∈ S.activeChain)
    (hnamed : Named S.blocks xs bs) (hd : Dated S p s) (i : ℕ) :
    ∃ s', syncBlocks c p n i bs s = (s', .ok ()) ∧ Following c S.blocks (l ++ xs) s' ∧
      s'.timeOffset = s.timeOffset := by
  induction hnamed generalizing l s i with
  | nil => exact ⟨s, rfl, by rwa [List.append_nil], rfl⟩
  | @cons x b xs bs hb _ ih =>
    have hlx : Linked S.blocks ((l ++ [x]) ++ xs) := by rwa [List.append_assoc]
    have hpass := hS l x b hlx.of_append hb
    rcases h.addBlock hinj hne hlx.of_append hb (hk.blocks x b hb) (p.amb n i) with
      ⟨-, -, s₁, hadd, hf, hoffset, -⟩ | ⟨hrefused, -⟩
    · obtain ⟨s', hsync, hf', hoffset'⟩ := ih hf.takePrunedHashes hlx
        (fun y hy => hxs y (List.mem_cons_of_mem _ hy)) (hd.of_timeOffset hoffset) (i + 1)
      refine ⟨s', ?_, by rwa [List.append_assoc] at hf', hoffset'.trans hoffset⟩
      rw [Itx.syncBlocks, (hp n i).1, (hp n i).2]
      change Call.bind (Call.mapErr SyncError.ofBlock _) _ s = _
      rw [Call.bind, Call.mapErr, hadd]
      exact hsync
    · exact absurd ⟨hpass, hd n i x (hxs x List.mem_cons_self) b hb⟩ hrefused

/-- A node that has followed the chain of its peer up to some block downloads the rest
    of it. -/
theorem Following.download (hs : Steady c S) (hS : Each (PassesOn c) S)
    (hanswers : AnswersFrom S size p) (hp : p.Persists) {rest : List Hash}
    (hchain : S.activeChain = l ++ rest) (h : Following c S.blocks l s) (hd : Dated S p s) (n : ℕ) :
    ∃ fuel s', loop (roundTrip c p S.blockHeight) fuel n s = some (s', .ok ()) ∧
      s'.activeChain = S.activeChain := by
  have hheight : s.blockHeight = l.length := congrArg List.length h.activeChain
  have hlength : S.activeChain.length = l.length + rest.length := by rw [hchain, List.length_append]
  -- The induction is on what is left to download, which each round trip makes shorter.
  induction hlen : rest.length using Nat.strong_induction_on generalizing l rest s n with
  | _ len ih =>
    subst hlen
    rcases eq_or_ne rest [] with rfl | hrest
    · refine ⟨1, s, loop_over ?_ 0, by rw [h.activeChain, hchain, List.append_nil]⟩
      change (if S.blockHeight ≤ s.blockHeight then pure false else _ : Call _ _ Bool) s = _
      rw [if_pos (by rw [hheight, blockHeight, hlength]; exact le_rfl)]
      rfl
    · have hpos := List.length_pos_iff.2 hrest
      have hlt : s.blockHeight < S.blockHeight := by rw [hheight, blockHeight]; omega
      obtain ⟨k, bs, hk, hle, hfetch, hnamed⟩ := fetchBlocks_eq hs.known size
        s.blockHeight (min (S.blockHeight - s.blockHeight) blocksPerFetchBatch) hlt
        (lt_min (Nat.sub_pos_of_lt hlt) (by decide))
      rw [hchain, hheight, List.drop_left] at hnamed
      have hsplit : l ++ rest.take k ++ rest.drop k = S.activeChain := by
        rw [List.append_assoc, List.take_append_drop, hchain]
      have hlinked : Linked S.blocks (l ++ rest.take k) := (hsplit ▸ hs.active).of_append
      have hmem : ∀ x ∈ rest.take k, x ∈ S.activeChain := fun x hx => by
        rw [hchain]
        exact List.mem_append_right _ (List.mem_of_mem_take hx)
      obtain ⟨s₁, hsync, hf, hoffset⟩ := h.syncBlocks hinj hne (n := n) hs.toKeyed hS hp hlinked hmem
        hnamed hd 0
      have hgo : GoesOn (roundTrip c p S.blockHeight) n s s₁ := by
        refine goesOn_roundTrip.2 ⟨hlt, bs, hanswers n _ _ bs hfetch, ?_, hsync⟩
        refine List.ne_nil_of_length_pos ?_
        rw [← hnamed.length_eq, List.length_take]
        omega
      obtain ⟨fuel, s', hloop, hactive⟩ := ih (rest.drop k).length (by rw [List.length_drop]; omega)
        hsplit.symm hf (hd.of_timeOffset hoffset) (n + 1) (congrArg List.length hf.activeChain)
        (by rw [← hsplit, List.length_append]) rfl
      exact ⟨fuel + 1, s', (loop_goesOn hgo fuel).trans hloop, hactive⟩

/-- A node that is lower than its peer, and whose chain is not a beginning of that of the
    peer, gives up at the first block it is sent. -/
theorem Started.download_unconnected (h : Started c s) (hS : Steady c S)
    (hanswers : AnswersFrom S size p) (hlt : s.blockHeight < S.blockHeight)
    (hbegins : ¬ s.activeChain <+: S.activeChain) :
    ∃ s', downloadBlockchain c p S.blockHeight 1 s = some (s', .err .unconnected) ∧
      s'.activeChain = s.activeChain := by
  have hs := steady_of_reachable hinj hne h.reachable
  obtain ⟨k, bs, hk, -, hfetch, hnamed⟩ := fetchBlocks_eq hS.known size s.blockHeight
    (min (S.blockHeight - s.blockHeight) blocksPerFetchBatch) hlt (lt_min (Nat.sub_pos_of_lt hlt) (by decide))
  have hlink := hS.active.take (s.blockHeight + 1)
  obtain ⟨k, rfl⟩ := Nat.exists_eq_succ_of_ne_zero hk.ne'
  rw [List.drop_eq_getElem_cons hlt, List.take_succ_cons] at hnamed
  rw [List.take_succ_eq_append_getElem hlt] at hlink
  cases hnamed with
  | @cons _ block _ bs hb _ =>
    obtain ⟨-, b, hb', hprev⟩ := hlink.concat_inv
    obtain rfl := Option.some.inj (hb.symm.trans hb')
    have hparent := h.notMem hinj hne hS hlt.le hbegins
    rw [← hprev] at hparent
    have htip : block.header.prevBlockHash ≠ s.tipHash := by
      rintro he
      rw [he, tipHash, List.getLast?_eq_getLast_of_ne_nil h.nonempty] at hparent
      exact hparent (hs.known _ (List.getLast_mem h.nonempty))
    have hzero : block.header.prevBlockHash ≠ Hash.zero := by
      rw [hprev]
      intro he
      have hnil := (hS.active.take s.blockHeight).tipOf_eq_zero (hS.zero_notMem hne) he
      have hpos : 0 < s.blockHeight := List.length_pos_iff.2 h.nonempty
      have := congrArg List.length hnil
      rw [List.length_take_of_le hlt.le, List.length_nil] at this
      omega
    refine ⟨s.keepOrphan c block, loop_err ?_ 0, keepOrphan_activeChain⟩
    rw [roundTrip_of_blocks hlt (hanswers 0 _ _ _ hfetch) (List.cons_ne_nil _ _), Call.bind,
      syncBlocks_unconnected h.no_orphans hzero htip hparent]

end

/-! ## The sync of a node that has started -/

theorem findBestAmong_of_less {nodes : List (String × TipReply)} {name : String} {height : ℕ}
    {w : U256} (h : ∀ r ∈ nodes, r.2 = .other ∨ ∃ h' w', r.2 = .chainTip h' w' ∧ w' < w) :
    findBestAmong nodes name height w = .ok (name, height) := by
  induction nodes with
  | nil => rfl
  | cons r nodes ih =>
    obtain ⟨node, reply⟩ := r
    have ih := ih fun r hr => h r (List.mem_cons_of_mem _ hr)
    obtain rfl | ⟨h', w', rfl, hlt⟩ : reply = .other ∨ _ := h (node, reply) List.mem_cons_self
    · exact ih
    · rw [findBestAmong, if_neg (not_lt.2 hlt.le), ih]

/-- The peer with the most work is chosen. -/
theorem findBestAmong_eq {before after : List (String × TipReply)} {peer : String} {height : ℕ}
    {w : U256} (h : ∀ r ∈ before ++ after,
      r.2 = .other ∨ ∃ h' w', r.2 = .chainTip h' w' ∧ w' < w)
    {name : String} {h₀ : ℕ} {w₀ : U256} (hlt : w₀ < w) :
    findBestAmong (before ++ (peer, .chainTip height w) :: after) name h₀ w₀ =
      .ok (peer, height) := by
  induction before generalizing name h₀ w₀ with
  | nil =>
    rw [List.nil_append, findBestAmong, if_pos hlt]
    exact findBestAmong_of_less h
  | cons r before ih =>
    obtain ⟨node, reply⟩ := r
    have ih := fun {name h₀ w₀} => @ih (fun r hr => h r (List.mem_cons_of_mem _ hr)) name h₀ w₀
    obtain rfl | ⟨h', w', rfl, hlt'⟩ : reply = .other ∨ _ := h (node, reply) List.mem_cons_self
    · exact ih hlt
    · rw [List.cons_append, findBestAmong]
      split_ifs
      exacts [ih hlt', ih hlt]

/-- With a peer that has more work than the node and than every other peer, and answers
    from its chain, the sync of a node that has started returns; and the node has then
    the chain of the peer exactly when its own was a beginning of it. -/
theorem sync_converges_iff (hinj : Function.Injective c.hashBlock)
    (hne : ∀ block, c.hashBlock block ≠ Hash.zero) (hs : Started c s)
    (hS : (chainSystem c).Reachable S) {w₀ w : U256}
    (hwork : s.chainWork = some w₀ ∧ S.chainWork = some w ∧ w₀ < w) {peer : String}
    (hpeer : peer ≠ "")
    {before after : List (String × TipReply)}
    (hbest : ∀ r ∈ before ++ after, r.2 = .other ∨ ∃ h' w', r.2 = .chainTip h' w' ∧ w' < w)
    {sessions : String → Session} {size : Block → ℕ}
    (hanswers : AnswersFrom S size (sessions peer)) (hd : Dated S (sessions peer) s)
    (hp : (sessions peer).Persists) :
    ∃ fuel s' o, syncAtStartup c (before ++ (peer, .chainTip S.blockHeight w) :: after) sessions
        fuel s = some (s', o) ∧
      (s'.activeChain = S.activeChain ↔ s.activeChain <+: S.activeChain) := by
  have hsteady := steady_of_reachable hinj hne hS
  have hsync : ∀ fuel, syncAtStartup c (before ++ (peer, .chainTip S.blockHeight w) :: after)
      sessions fuel s = downloadBlockchain c (sessions peer) S.blockHeight fuel s := fun fuel => by
    rw [syncAtStartup, findBestChainNode, findBestAmong_eq hbest (Nat.zero_lt_of_lt hwork.2.2)]
    exact if_neg hpeer
  simp only [hsync]
  by_cases hbegins : s.activeChain <+: S.activeChain
  · obtain ⟨rest, hrest⟩ := hbegins
    obtain ⟨fuel, s', hloop, hactive⟩ := (hs.following hinj hne hsteady ⟨rest, hrest⟩).download hinj hne
      hsteady (passes_of_reachable hinj hne hS).2 hanswers hp hrest.symm hd 0
    exact ⟨fuel, s', _, hloop, iff_of_true hactive ⟨rest, hrest⟩⟩
  · -- The chain of the node stays as it is.
    suffices h : ∃ s' o, downloadBlockchain c (sessions peer) S.blockHeight 1 s = some (s', o) ∧
        s'.activeChain = s.activeChain by
      obtain ⟨s', o, hdown, hactive⟩ := h
      refine ⟨1, s', o, hdown, iff_of_false (fun he => hbegins ?_) hbegins⟩
      rw [← he, hactive]
    rcases lt_or_ge s.blockHeight S.blockHeight with hlower | hle
    · obtain ⟨s', hdown, hactive⟩ := hs.download_unconnected hinj hne hsteady hanswers hlower hbegins
      exact ⟨s', _, hdown, hactive⟩
    · exact ⟨s, _, download_of_le hle, rfl⟩

theorem reachable_loadBlocks {amb : ℕ → Ambient} {store : BlockStore} {chain : List Hash} {i : ℕ}
    (hs : (chainSystem c).Reachable s) :
    (chainSystem c).Reachable (loadBlocks c amb store i chain s).1 := by
  induction chain generalizing i s with
  | nil => exact hs
  | cons x chain ih =>
    change (chainSystem c).Reachable (Call.bind (Call.lift (.okOr _ (store.getBlock x))) _ s).1
    cases store.getBlock x with
    | none => exact hs
    | some b =>
      have hadd : (chainSystem c).Reachable (Blockchain.addBlock c (amb i) b s).1 :=
        .step (l := Op.addBlock (amb i) b) hs trivial rfl
      change (chainSystem c).Reachable (Call.bind (Call.mapErr LoadError.rejected _) _ s).1
      rw [Call.bind, Call.mapErr]
      generalize Blockchain.addBlock c (amb i) b s = r at hadd ⊢
      obtain ⟨s', ⟨⟩ | e | _⟩ := r
      exacts [ih hadd, hadd, hadd]

/-- What loading the recorded chain leaves is a node that has started, whatever its peers
    then say of the time. -/
theorem started_of_loadFromStore (hinj : Function.Injective c.hashBlock)
    (hne : ∀ block, c.hashBlock block ≠ Hash.zero) (hS : (chainSystem c).Reachable S)
    (hnil : S.activeChain ≠ []) {amb : ℕ → Ambient} {store : BlockStore}
    (hstore : ∀ x ∈ S.activeChain, store.getBlock x = S.blocks.lookup x) {pruned : List Hash}
    (h : loadFromStore c amb store S.activeChain new = (s, .ok pruned)) (offset : Duration) :
    Started c (s.setTimeOffset offset) := by
  have hsteady := steady_of_reachable hinj hne hS
  have hfirst := (hsteady.blockTree hinj hne (passes_of_reachable hinj hne hS).2).checkFirst
    hsteady.toKeyed
  have hnew : Loaded c store.blocks [] new := loaded_new
  have hload := hnew.loadBlocks hinj hne amb
    (hsteady.active.congr fun x hx => (hstore x hx).symm) fun x hx b hb =>
      hsteady.blocks x b ((hstore x hx).symm.trans hb)
  have hreach : (chainSystem c).Reachable (loadBlocks c amb store 0 S.activeChain new).1 :=
    reachable_loadBlocks (.init rfl)
  simp only [List.nil_append, List.length_nil, Nat.zero_le, forall_const] at hload
  rcases hload with ⟨-, s', hload, hloaded⟩ | ⟨-, hload⟩
  · rw [loadFromStore_ok hfirst hload] at h
    obtain ⟨rfl, -⟩ := Prod.mk.inj h
    -- Nothing was pruned.
    have hsame : s'.takePrunedHashes = s' := by
      rw [takePrunedHashes, ← hloaded.pendingPrunes]
    rw [hload] at hreach
    rw [hsame]
    refine ⟨.step (l := Op.setTimeOffset offset) hreach trivial rfl, ?_, fun x hx => ?_,
      hloaded.no_orphans⟩
    · exact hloaded.activeChain.trans_ne hnil
    · obtain ⟨b, hb⟩ := Finmap.mem_iff.1 (show x ∈ s'.blocks from hx)
      rw [hloaded.lookup] at hb
      split_ifs at hb with hmem
      exact hloaded.activeChain ▸ hmem
  · rcases loadFromStore_stopped hfirst hload with hpanic | ⟨e, herr⟩
    · rw [h] at hpanic
      cases hpanic
    · rw [h] at herr
      cases herr

/-! ## Chains that fork -/

/-- A peer that answers from the given chain. -/
noncomputable def answering (S : Blockchain) : Session where
  reply _ start count :=
    match fetchBlocks (fun _ => 1000) start count S with
    | some blocks => .blocks blocks
    | none => .failed
  amb _ _ := Sample.ambient
  putsBlock _ _ := true
  recordsChain _ _ := true

theorem answersFrom_answering (S : Blockchain) : AnswersFrom S (fun _ => 1000) (answering S) := by
  intro n start count blocks h
  change (match fetchBlocks (fun _ => 1000) start count S with
    | some blocks => FetchReply.blocks blocks
    | none => .failed) = _
  rw [h]

theorem persists_answering (S : Blockchain) : (answering S).Persists := fun _ _ => ⟨rfl, rfl⟩

theorem started_behind : Started Sample.forkCrypto behind where
  reachable := reachable_run _
  nonempty := by decide +kernel
  active_of_mem x hx := by
    have hall : ∀ y ∈ behind.blocks.keys, y ∈ behind.activeChain := by decide +kernel
    exact hall x (Finmap.mem_keys.2 hx)
  no_orphans := by decide +kernel

/-- Of the two branches of the sample the node is on the lighter one, and stays there. -/
theorem sync_stays_behind : Started Sample.forkCrypto behind ∧
    (chainSystem Sample.forkCrypto).Reachable Sample.forked ∧
    behind.activeChain = [1, 2] ∧ Sample.forked.activeChain = [1, 3, 4] ∧
    (∃ w₀ w, behind.chainWork = some w₀ ∧ Sample.forked.chainWork = some w ∧ w₀ < w) ∧
    AnswersFrom Sample.forked (fun _ => 1000) (answering Sample.forked) ∧
    (syncAtStartup Sample.forkCrypto
      [("peer", .chainTip Sample.forked.blockHeight (Sample.forked.chainWork.getD 0))]
      (fun _ => answering Sample.forked) 1 behind).map (fun r => (r.1.activeChain, r.2)) =
        some ([1, 2], .err .unconnected) := by
  have hwork : behind.chainWork = some (behind.chainWork.getD 0) ∧
      Sample.forked.chainWork = some (Sample.forked.chainWork.getD 0) ∧
      behind.chainWork.getD 0 < Sample.forked.chainWork.getD 0 := by decide +kernel
  exact ⟨started_behind, reachable_run _, by decide +kernel, by decide +kernel, ⟨_, _, hwork⟩,
    answersFrom_answering _, by decide +kernel⟩

/-- A store that has recorded the genesis only. -/
noncomputable def genesisStore : BlockStore := ⟨Finmap.singleton 1 Sample.genesis, [1]⟩

/-- What loading it comes to. -/
noncomputable def genesisLoaded : Blockchain × Outcome LoadError (List Hash) :=
  loadFromStore Sample.forkCrypto (fun _ => Sample.ambient) genesisStore [1] new

/-- A node with the genesis only. -/
noncomputable def atGenesis : Blockchain := genesisLoaded.1.setTimeOffset 0

theorem started_atGenesis : Started Sample.forkCrypto atGenesis := by
  have hactive : (run Sample.forkCrypto (Sample.delivering [Sample.genesis])).activeChain = [1] := by
    decide +kernel
  have hstore : ∀ x ∈ (run Sample.forkCrypto (Sample.delivering [Sample.genesis])).activeChain,
      genesisStore.getBlock x =
        (run Sample.forkCrypto (Sample.delivering [Sample.genesis])).blocks.lookup x := by decide +kernel
  have hload : loadFromStore Sample.forkCrypto (fun _ => Sample.ambient) genesisStore [1] new =
      (genesisLoaded.1, .ok []) := Prod.ext rfl (by decide +kernel)
  rw [← hactive] at hload
  exact started_of_loadFromStore (tableHash_injective _) (tableHash_ne_zero _) (reachable_run _)
    (by decide +kernel) hstore hload 0

/-- From the genesis on the node catches up, across the reorganisation of its peer. -/
theorem sync_converges_forked : ∃ fuel s' o, syncAtStartup Sample.forkCrypto
    [("peer", .chainTip Sample.forked.blockHeight (Sample.forked.chainWork.getD 0))]
    (fun _ => answering Sample.forked) fuel atGenesis = some (s', o) ∧
      s'.activeChain = Sample.forked.activeChain := by
  have hwork : atGenesis.chainWork = some (atGenesis.chainWork.getD 0) ∧
      Sample.forked.chainWork = some (Sample.forked.chainWork.getD 0) ∧
      atGenesis.chainWork.getD 0 < Sample.forked.chainWork.getD 0 := by decide +kernel
  have hdates : ∀ x ∈ Sample.forked.blocks.keys, ∀ b ∈ Sample.forked.blocks.lookup x,
      checkTimestamp Sample.ambient.now atGenesis b.header.timestamp = .ok () := by decide +kernel
  have hbegins : atGenesis.activeChain <+: Sample.forked.activeChain := by decide +kernel
  have hS : (chainSystem Sample.forkCrypto).Reachable Sample.forked := reachable_run _
  have hdated : Dated Sample.forked (answering Sample.forked) atGenesis := fun _ _ x _ b hb =>
    hdates x (Finmap.mem_keys.2 (Finmap.mem_iff.2 ⟨b, hb⟩)) b hb
  obtain ⟨fuel, s', o, hsync, hiff⟩ := @sync_converges_iff Sample.forkCrypto atGenesis Sample.forked
    (tableHash_injective _) (tableHash_ne_zero _) started_atGenesis hS _ _ hwork "peer" (by decide)
    [] [] (fun _ hr => absurd hr List.not_mem_nil) (fun _ => answering Sample.forked) _
    (answersFrom_answering _) hdated (persists_answering _)
  exact ⟨fuel, s', o, hsync, hiff.2 hbegins⟩

end Itx
