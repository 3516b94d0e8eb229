import Itx.Lib.Call
import Itx.Chain.Validation

/-!
# The blockchain

The state a node keeps of the chain, and its operations
(`lib/src/types/blockchain.rs`): the blocks it knows, the *active chain* among
them, the unspent outputs and the target of that chain, the mempool, and the
*orphans*, blocks waiting for their parent.

A block extending the tip of the active chain is applied incrementally
(`addBlockExtendingTip`). Any other is validated by replaying its branch, and
becomes the tip if its branch has more work (`addBlockOffTip`, `reorgTo`). Both
may be followed by the orphans that were waiting for it (`tryAttachOrphans`).

Every method of the source is a `Call` here, or a function of the state when it
can neither fail nor panic. A call reads the clock once (`Ambient.now`).
-/

namespace Itx

/-- The order in which the hash maps happen to be iterated during a call. -/
structure MapOrder where
  keys : Finset Hash → List Hash
  mem_keys : ∀ s h, h ∈ keys s ↔ h ∈ s
  nodup_keys : ∀ s, (keys s).Nodup

/-- What a call reads that is not in the state: the clock, and the order in
    which the hash maps are iterated. -/
structure Ambient where
  now : DateTime
  order : MapOrder

structure Blockchain where
  utxos : Utxos
  target : U256
  /-- Every known block, of the active chain and of the side branches. -/
  blocks : Finmap fun _ : Hash => Block
  /-- The canonical chain, from genesis to the tip. -/
  activeChain : List Hash
  mempool : List (DateTime × Transaction)
  /-- The blocks whose parent is unknown. -/
  orphans : Finmap fun _ : Hash => Block
  pendingPrunes : List Hash
  timeOffset : Duration

/-- A call on a blockchain. -/
abbrev ChainCall := Call Blockchain BtcError

/-- Setting the marked bit of the given outputs, those of them that exist. -/
def Utxos.setMarks (utxos : Utxos) (marked : Bool) (hs : List Hash) : Utxos :=
  hs.foldl (fun utxos h => utxos.modify h fun u => (marked, u.2)) utxos

variable (c : Crypto)

/-- `BlockHeader::mine`: the first header, within some steps, whose hash meets
    the target. The clock is only read when the nonce wraps. -/
def BlockHeader.mine (now : DateTime) : ℕ → BlockHeader → Option BlockHeader
  | 0, header => if c.hashHeader header ≤ header.target then some header else none
  | steps + 1, header =>
    if c.hashHeader header ≤ header.target then some header
    else if header.nonce + 1 < u64Bound then
      BlockHeader.mine now steps { header with nonce := header.nonce + 1 }
    else BlockHeader.mine now steps { header with nonce := 0, timestamp := now }

namespace Blockchain

/-- `Blockchain::new`. -/
def new : Blockchain where
  utxos := ∅
  target := minTarget
  blocks := ∅
  activeChain := []
  mempool := []
  orphans := ∅
  pendingPrunes := []
  timeOffset := 0

/-! ## Genesis -/

/-- `DateTime::UNIX_EPOCH`. -/
def unixEpoch : DateTime := 0

/-- The transaction of the genesis block. -/
def genesisCoinbase : Transaction where
  inputs := []
  outputs := [{ value := initialReward * 10 ^ 8, uniqueId := 0, pubkey := c.genesisPubkey }]

/-- `Blockchain::genesis_block`: the one genesis of the network. There is none
    if the fixed header could not be mined. -/
def genesisBlock : Option Block := do
  let merkleRoot ← merkleRoot c [genesisCoinbase c]
  let header ← BlockHeader.mine c unixEpoch 2000000
    { timestamp := unixEpoch, nonce := 0, prevBlockHash := Hash.zero, merkleRoot, target := minTarget }
  some { header, transactions := [genesisCoinbase c] }

/-! ## The mempool -/

/-- Whether a transaction has been in the mempool for too long. -/
def expired (now : DateTime) (entry : DateTime × Transaction) : Bool :=
  now - entry.1 > Duration.seconds maxMempoolTransactionAge

/-- `Blockchain::cleanup_mempool`: old transactions leave, and what they spend is
    unmarked. -/
def cleanupMempool (now : DateTime) (s : Blockchain) : Blockchain :=
  { s with
    mempool := s.mempool.filter fun entry => !expired now entry
    utxos := s.utxos.setMarks false
      ((s.mempool.filter (expired now)).flatMap fun entry => entry.2.spends) }

/-- The inputs of a transaction offered to the mempool: each exists, is spent by
    no input before it (`knownInputs`), and is signed for by its owner. -/
def checkInputs (utxos : Utxos) (outputs : List TransactionOutput) :
    List TransactionInput → List Hash → Outcome BtcError Unit
  | [], _ => .ok ()
  | input :: inputs, knownInputs => do
    let prevOutput ← .okOr .invalidTransaction (utxos.lookup input.prevTransactionOutputHash)
    Outcome.ensure (input.prevTransactionOutputHash ∉ knownInputs) .invalidTransaction
    Outcome.ensure (input.verifies c outputs prevOutput.2.pubkey = true) .invalidSignature
    checkInputs utxos outputs inputs (input.prevTransactionOutputHash :: knownInputs)

/-- The checked sum of the values of inputs that are expected to exist. -/
def inputValue (utxos : Utxos) : List TransactionInput → ℕ → Outcome BtcError ℕ
  | [], acc => .ok acc
  | input :: inputs, acc => do
    let prevOutput ← .expect (utxos.lookup input.prevTransactionOutputHash)
    let acc ← .okOr .invalidTransaction (checkedAdd acc prevOutput.2.value)
    inputValue utxos inputs acc

/-- `Blockchain::transaction_fee`. -/
def transactionFee (utxos : Utxos) (tx : Transaction) : Outcome BtcError ℕ := do
  let inputValue ← inputValue utxos tx.inputs 0
  let outputValue ← tx.outputValue
  Outcome.ensure (outputValue ≤ inputValue) .invalidTransaction
  pure (inputValue - outputValue)

/-- `Blockchain::find_mempool_index_spending`. -/
def findMempoolIndexSpending (s : Blockchain) (utxoHash : Hash) : Option ℕ :=
  s.mempool.findIdx? fun entry => decide (utxoHash ∈ entry.2.spends)

/-- The positions in the mempool of the transactions spending a marked input of
    the new one, all of which must pay less than it. A marked input nothing
    spends is unmarked on the way. -/
def conflictingIndices (newFee : ℕ) : List TransactionInput → List ℕ → ChainCall (List ℕ)
  | [], indices => pure indices
  | input :: inputs, indices => do
    let s ← Call.get
    match s.utxos.lookup input.prevTransactionOutputHash with
    | some (true, _) =>
      match s.findMempoolIndexSpending input.prevTransactionOutputHash with
      | some idx => do
        let old ← Call.lift (.expect s.mempool[idx]?)
        let oldFee ← Call.lift (transactionFee s.utxos old.2)
        Call.lift (Outcome.ensure (oldFee < newFee) .invalidTransaction)
        conflictingIndices newFee inputs (indices.insert idx)
      | none => do
        Call.modify fun s =>
          { s with utxos := s.utxos.setMarks false [input.prevTransactionOutputHash] }
        conflictingIndices newFee inputs indices
    | _ => conflictingIndices newFee inputs indices

/-- Removing a replaced transaction, and unmarking what it spends. -/
def removeFromMempool (idx : ℕ) : ChainCall Unit := do
  let s ← Call.get
  let removed ← Call.lift (.expect s.mempool[idx]?)
  Call.modify fun s =>
    { s with
      mempool := s.mempool.eraseIdx idx
      utxos := s.utxos.setMarks false removed.2.spends }

/-- The fee a transaction is sorted by (`unwrap_or(0)`). -/
def sortingFee (utxos : Utxos) (tx : Transaction) : ℕ :=
  match transactionFee utxos tx with
  | .ok fee => fee
  | _ => 0

/-- Keeping the mempool sorted, the highest fees first. -/
def sortMempool : ChainCall Unit := do
  let s ← Call.get
  Call.lift (if ∀ entry ∈ s.mempool, transactionFee s.utxos entry.2 ≠ .panic then .ok () else .panic)
  Call.modify fun s =>
    { s with mempool :=
        s.mempool.insertionSort fun a b => sortingFee s.utxos b.2 ≤ sortingFee s.utxos a.2 }

/-- `Blockchain::add_to_mempool`: the transaction replaces those it conflicts
    with, if it pays more than each of them. -/
def addToMempool (now : DateTime) (tx : Transaction) : ChainCall Unit := do
  Call.modify (cleanupMempool now)
  let s ← Call.get
  Call.lift (checkInputs c s.utxos tx.outputs tx.inputs [])
  let newFee ← Call.lift (transactionFee s.utxos tx)
  let indices ← conflictingIndices newFee tx.inputs []
  Call.forEach (indices.insertionSort (· ≥ ·)) removeFromMempool
  let s ← Call.get
  let allInputs ← Call.lift (inputValue s.utxos tx.inputs 0)
  let allOutputs ← Call.lift tx.outputValue
  Call.lift (Outcome.ensure (allOutputs ≤ allInputs) .invalidTransaction)
  Call.modify fun s =>
    { s with
      utxos := s.utxos.setMarks true tx.spends
      mempool := s.mempool ++ [(now, tx)] }
  sortMempool

/-- `Blockchain::evict_stale_mempool_entries`: what is confirmed leaves the
    mempool, and what spends an output that no longer exists. -/
def evictStaleMempoolEntries (now : DateTime) (confirmed : List Hash) (s : Blockchain) :
    Blockchain :=
  let s := s.cleanupMempool now
  { s with mempool := s.mempool.filter fun entry =>
      c.hashTransaction entry.2 ∉ confirmed ∧ ∀ h ∈ entry.2.spends, h ∈ s.utxos }

/-! ## Unspent outputs -/

/-- A transaction takes effect: what it spends is removed, then what it creates
    is inserted, unmarked. -/
def applyTransaction (utxos : Utxos) (tx : Transaction) : Utxos :=
  tx.outputs.foldl (fun utxos output => utxos.insert (c.hashOutput output) (false, output))
    (utxos.eraseAll tx.spends)

/-- The transactions of a block take effect, in order. -/
def applyTransactions (utxos : Utxos) (block : Block) : Utxos :=
  block.transactions.foldl (applyTransaction c) utxos

/-- `Blockchain::replay_utxos`. -/
def replayUtxos (blocks : Finmap fun _ : Hash => Block) (chain : List Hash) : Option Utxos :=
  chain.foldlM (fun utxos h => (blocks.lookup h).map (applyTransactions c utxos)) ∅

/-- `Blockchain::apply_block`. -/
def applyBlock (now : DateTime) (block : Block) (s : Blockchain) : Blockchain :=
  evictStaleMempoolEntries c now (block.transactions.map c.hashTransaction)
    { s with utxos := applyTransactions c s.utxos block }

/-! ## Work and targets -/

/-- `Blockchain::work_of_chain`: a saturating sum. -/
def workOfChain (blocks : Finmap fun _ : Hash => Block) (chain : List Hash) : Option U256 :=
  chain.foldlM (fun acc h => do
    let block ← blocks.lookup h
    let work ← block.header.work
    some (min (acc + work) (u256Bound - 1))) 0

/-- The timestamp of the block at the position `i` of a chain. -/
def timestampAt (blocks : Finmap fun _ : Hash => Block) (chain : List Hash) (i : ℕ) :
    Option DateTime := do
  let h ← chain[i]?
  let block ← blocks.lookup h
  some block.header.timestamp

/-- The target after the first windows of a chain. -/
def recomputeTargetAfter (blocks : Finmap fun _ : Hash => Block) (chain : List Hash) :
    ℕ → Option U256
  | 0 => some minTarget
  | windows + 1 => do
    let target ← recomputeTargetAfter blocks chain windows
    let height := (windows + 1) * difficultyUpdateInterval
    let startTime ← timestampAt blocks chain (height - difficultyUpdateInterval)
    let endTime ← timestampAt blocks chain (height - 1)
    adjustTarget target startTime endTime

/-- `Blockchain::recompute_target_for_chain`: one adjustment for each whole
    window of the chain. -/
def recomputeTargetForChain (blocks : Finmap fun _ : Hash => Block) (chain : List Hash) :
    Option U256 :=
  recomputeTargetAfter blocks chain (chain.length / difficultyUpdateInterval)

/-- `Blockchain::try_adjust_target`: at the end of a window, one adjustment of
    the running target. -/
def tryAdjustTarget : ChainCall Unit := do
  let s ← Call.get
  if s.activeChain = [] ∨ s.activeChain.length % difficultyUpdateInterval ≠ 0 then pure ()
  else
    let height := s.activeChain.length
    let startTime ← Call.lift (.expect
      (timestampAt s.blocks s.activeChain (height - difficultyUpdateInterval)))
    let endTime ← Call.lift (.expect (timestampAt s.blocks s.activeChain (height - 1)))
    let target ← Call.lift (.expect (adjustTarget s.target startTime endTime))
    Call.modify fun s => { s with target }

/-! ## Branches -/

/-- `Blockchain::active_chain_index`. -/
def activeChainIndex (chain : List Hash) : Finmap fun _ : Hash => ℕ :=
  chain.zipIdx.foldl (fun index p => index.insert p.1 p.2) ∅

/-- The loop of `trace_branch_with_index`: from `current` back to the active
    chain or to a block without a parent, for at most some steps. -/
def traceFrom (blocks : Finmap fun _ : Hash => Block) (activeIndex : Finmap fun _ : Hash => ℕ) :
    ℕ → Hash → List Hash → Option (ℕ × List Hash)
  | 0, _, _ => none
  | steps + 1, current, branch =>
    match activeIndex.lookup current with
    | some idx => some (idx + 1, branch)
    | none => do
      let block ← blocks.lookup current
      if block.header.prevBlockHash = Hash.zero then some (0, current :: branch)
      else traceFrom blocks activeIndex steps block.header.prevBlockHash (current :: branch)

/-- `Blockchain::trace_branch_with_index`: where the branch of a known block
    leaves the active chain, and the blocks of the branch. The walk goes through
    distinct blocks, so it is over before it has made more steps than there are
    blocks. -/
def traceBranchWithIndex (blocks : Finmap fun _ : Hash => Block)
    (activeIndex : Finmap fun _ : Hash => ℕ) (hash : Hash) :
    Outcome BtcError (Option (ℕ × List Hash)) :=
  if hash = Hash.zero then .ok none
  else (Outcome.expect (traceFrom blocks activeIndex (blocks.keys.card + 1) hash [])).bind
    fun traced => .ok (some traced)

/-- `Blockchain::prunable_side_blocks`, among the given blocks: those not on the
    active chain whose branch leaves it deeper than `keepDepth`. -/
def prunableAmong (s : Blockchain) (keepDepth : ℕ) : List Hash → Outcome BtcError (List Hash)
  | [] => .ok []
  | h :: hs => do
    let prunable ← prunableAmong s keepDepth hs
    let activeIndex := activeChainIndex s.activeChain
    if h ∈ activeIndex then pure prunable
    else
      match ← traceBranchWithIndex s.blocks activeIndex h with
      | some (forkIndex, _) =>
        pure (if s.activeChain.length - forkIndex > keepDepth then h :: prunable else prunable)
      | none => pure prunable

/-- Forgetting some blocks, whose hashes are kept for the store. -/
def forgetBlocks (prunable : List Hash) (s : Blockchain) : Blockchain :=
  { s with
    blocks := s.blocks.eraseAll prunable
    pendingPrunes := s.pendingPrunes ++ prunable }

/-- `Blockchain::prune_side_blocks`. -/
def pruneSideBlocks (order : MapOrder) (keepDepth : ℕ) : ChainCall Unit := do
  let s ← Call.get
  let prunable ← Call.lift (prunableAmong s keepDepth (order.keys s.blocks.keys))
  Call.modify (forgetBlocks prunable)

/-! ## Acceptance -/

/-- The range of `DateTime<Utc>`. -/
def minDateTime : DateTime := -8334601228800 * 10 ^ 9
def maxDateTime : DateTime := 8210266876799 * 10 ^ 9 + 999999999

/-- `DateTime + Duration`, none out of range. -/
def addDuration (t : DateTime) (d : Duration) : Option DateTime :=
  if minDateTime ≤ t + d ∧ t + d ≤ maxDateTime then some (t + d) else none

/-- `Blockchain::check_block_size`. -/
def checkBlockSize (block : Block) : Outcome BtcError Unit := do
  let txBytes ← .expect (checkedSum (block.transactions.tail.map c.serializedSize))
  Outcome.ensure (txBytes ≤ blockByteCap) .invalidBlock

/-- `Blockchain::check_timestamp`: against the clock of the network. -/
def checkTimestamp (now : DateTime) (s : Blockchain) (timestamp : DateTime) :
    Outcome BtcError Unit := do
  let networkNow ← .expect (addDuration now s.timeOffset)
  let maxAllowed ← .expect (addDuration networkNow (Duration.seconds maxFutureBlockDriftSeconds))
  Outcome.ensure (timestamp ≤ maxAllowed) .invalidBlock

/-- The Merkle root of a block is that of its header. -/
def checkMerkleRoot (block : Block) : Outcome BtcError Unit := do
  let calculatedMerkleRoot ← .expect (merkleRoot c block.transactions)
  Outcome.ensure (calculatedMerkleRoot = block.header.merkleRoot) .invalidMerkleRoot

/-- The first block of the chain must be the genesis of the network. -/
def checkGenesis (s : Blockchain) (block : Block) : Outcome BtcError Unit :=
  if s.activeChain = [] then do
    let genesis ← .expect (genesisBlock c)
    Outcome.ensure (c.hashBlock block = c.hashBlock genesis) .invalidBlock
  else .ok ()

/-- A block is later than its parent. -/
def checkAfter (parentBlock block : Block) : Outcome BtcError Unit :=
  Outcome.ensure (parentBlock.header.timestamp < block.header.timestamp) .invalidBlock

/-- The checks of `add_block_extending_tip`. -/
def checkExtendingTip (now : DateTime) (s : Blockchain) (block : Block) :
    Outcome BtcError Unit := do
  checkGenesis c s block
  Outcome.ensure (block.header.target = s.target) .invalidBlock
  Outcome.ensure (c.hashHeader block.header ≤ block.header.target) .invalidBlock
  checkBlockSize c block
  checkTimestamp now s block.header.timestamp
  checkMerkleRoot c block
  if let some tipHash := s.activeChain.getLast? then
    let lastBlock ← .expect (s.blocks.lookup tipHash)
    checkAfter lastBlock block
  block.verifyTransactions c s.activeChain.length s.utxos

/-- A block becomes known. -/
def storeBlock (block : Block) (s : Blockchain) : Blockchain :=
  { s with blocks := s.blocks.insert (c.hashBlock block) block }

/-- A block becomes the tip of the active chain. -/
def pushBlock (now : DateTime) (block : Block) (s : Blockchain) : Blockchain :=
  let s := storeBlock c block (applyBlock c now block s)
  { s with activeChain := s.activeChain ++ [c.hashBlock block] }

/-- `Blockchain::add_block_extending_tip`. -/
def addBlockExtendingTip (amb : Ambient) (block : Block) : ChainCall Hash := do
  let s ← Call.get
  Call.lift (checkExtendingTip c amb.now s block)
  Call.modify (pushBlock c amb.now block)
  tryAdjustTarget
  let s ← Call.get
  if s.activeChain.length % difficultyUpdateInterval = 0 then
    pruneSideBlocks amb.order sideBranchPruneDepth
  pure (c.hashBlock block)

/-- A slice of the active chain ending, or starting, at the position `i`, which
    must be in range. -/
def activeUpTo (s : Blockchain) (i : ℕ) : Option (List Hash) :=
  if i ≤ s.activeChain.length then some (s.activeChain.take i) else none

def activeFrom (s : Blockchain) (i : ℕ) : Option (List Hash) :=
  if i ≤ s.activeChain.length then some (s.activeChain.drop i) else none

/-- What the blocks of a chain contain, one after the other. -/
def collectFrom {α : Type} (blocks : Finmap fun _ : Hash => Block) (contents : Block → List α)
    (chain : List Hash) : Option (List α) :=
  chain.foldrM (fun h rest => (blocks.lookup h).map fun block => contents block ++ rest) []

/-- The transactions of the blocks of a chain, but for the coinbases. -/
def transactionsOf (blocks : Finmap fun _ : Hash => Block) (chain : List Hash) :
    Option (List Transaction) :=
  collectFrom blocks (fun block => block.transactions.tail) chain

/-- The hashes of the transactions confirmed by a chain. -/
def confirmedBy (blocks : Finmap fun _ : Hash => Block) (chain : List Hash) : Option (List Hash) :=
  collectFrom blocks (fun block => block.transactions.map c.hashTransaction) chain

/-- Marking what the transactions of the mempool spend. -/
def markPending (s : Blockchain) : Blockchain :=
  { s with utxos := s.mempool.foldl (fun utxos entry => utxos.setMarks true entry.2.spends) s.utxos }

/-- `Blockchain::sync_mempool_with_active_chain`. -/
def syncMempoolWithActiveChain (now : DateTime) : ChainCall Unit := do
  let s ← Call.get
  let confirmed ← Call.lift (.expect (confirmedBy c s.blocks s.activeChain))
  let utxos ← Call.lift (.expect (replayUtxos c s.blocks s.activeChain))
  Call.modify fun s => { s with utxos }
  Call.modify (evictStaleMempoolEntries c now confirmed)
  Call.modify markPending

/-- `Blockchain::reorg_to`: displaced transactions are offered to the mempool
    again. -/
def reorgTo (now : DateTime) (forkIndex : ℕ) (newChain : List Hash) : ChainCall Unit := do
  let s ← Call.get
  let displacedBlocks ← Call.lift (.expect (s.activeFrom forkIndex))
  let displaced ← Call.lift (.expect (transactionsOf s.blocks displacedBlocks))
  Call.modify fun s => { s with activeChain := newChain }
  let s ← Call.get
  let target ← Call.lift (.expect (recomputeTargetForChain s.blocks s.activeChain))
  Call.modify fun s => { s with target }
  syncMempoolWithActiveChain c now
  Call.forEach displaced fun tx => Call.ignore (addToMempool c now tx)

/-- A block waits for its parent, if there is room. -/
def keepOrphan (block : Block) (s : Blockchain) : Blockchain :=
  if s.orphans.keys.card ≥ maxOrphanBlocks then s
  else { s with orphans := s.orphans.insert (c.hashBlock block) block }

/-- A block no longer waits. -/
def takeOrphan (block : Block) (s : Blockchain) : Blockchain :=
  { s with orphans := s.orphans.erase (c.hashBlock block) }

/-- `Blockchain::buffer_orphan`. -/
def bufferOrphan (block : Block) : ChainCall Hash := do
  Call.modify (keepOrphan c block)
  Call.lift (.err .orphanBlock)

/-- The checks of `add_block_off_tip` against the chain its parent ends. -/
def checkOffTip (now : DateTime) (s : Blockchain) (candidateChain : List Hash) (block : Block) :
    Outcome BtcError Unit := do
  let expectedTarget ← .expect (recomputeTargetForChain s.blocks candidateChain)
  Outcome.ensure (block.header.target = expectedTarget) .invalidBlock
  Outcome.ensure (c.hashHeader block.header ≤ block.header.target) .invalidBlock
  checkBlockSize c block
  checkTimestamp now s block.header.timestamp
  if let some parentHash := candidateChain.getLast? then
    let parentBlock ← .expect (s.blocks.lookup parentHash)
    checkMerkleRoot c block
    checkAfter parentBlock block
  let utxosAtParent ← .expect (replayUtxos c s.blocks candidateChain)
  block.verifyTransactions c candidateChain.length utxosAtParent

/-- `Blockchain::add_block_off_tip`. -/
def addBlockOffTip (amb : Ambient) (block : Block) : ChainCall Hash := do
  let parent := block.header.prevBlockHash
  Call.lift (Outcome.ensure (parent ≠ Hash.zero) .invalidBlock)
  let s ← Call.get
  if parent ∉ s.blocks then bufferOrphan c block
  else
    let traced ← Call.lift (traceBranchWithIndex s.blocks (activeChainIndex s.activeChain) parent)
    let (forkIndex, parentBranch) ← Call.lift (.expect traced)
    let shared ← Call.lift (.expect (s.activeUpTo forkIndex))
    let candidateChain := shared ++ parentBranch
    Call.lift (checkOffTip c amb.now s candidateChain block)
    Call.modify (storeBlock c block)
    let s ← Call.get
    let newChain := candidateChain ++ [c.hashBlock block]
    let newWork ← Call.lift (.expect (workOfChain s.blocks newChain))
    let chainWork ← Call.lift (.expect (workOfChain s.blocks s.activeChain))
    if newWork > chainWork then reorgTo c amb.now forkIndex newChain
    pure (c.hashBlock block)

/-- The hash of the tip, `Hash::zero()` if there is none. -/
def tipHash (s : Blockchain) : Hash := s.activeChain.getLast?.getD Hash.zero

/-- The first half of `add_block`: the block goes by the path of its parent. -/
def acceptBlock (amb : Ambient) (block : Block) : ChainCall Hash := do
  let s ← Call.get
  if block.header.prevBlockHash = s.tipHash then addBlockExtendingTip c amb block
  else addBlockOffTip c amb block

/-- The orphans waiting for a block. -/
def readyOrphans (order : MapOrder) (s : Blockchain) (parentHash : Hash) : List Block :=
  ((order.keys s.orphans.keys).filterMap fun h => s.orphans.lookup h).filter fun block =>
    block.header.prevBlockHash = parentHash

/-- `Blockchain::add_block` and `Blockchain::try_attach_orphans`, which call each
    other: an attached orphan may in turn have orphans waiting for it. The depth
    of these calls is bounded by the number of orphans, each call of the second
    taking one out. -/
def addBlockWithin (amb : Ambient) : ℕ → Block → ChainCall Unit
  | 0, _ => Call.lift .panic
  | depth + 1, block => do
    let hash ← acceptBlock c amb block
    let s ← Call.get
    Call.forEach (readyOrphans amb.order s hash) fun orphan => do
      Call.modify (takeOrphan c orphan)
      Call.ignore (addBlockWithin amb depth orphan)

/-- `Blockchain::add_block`. -/
def addBlock (amb : Ambient) (block : Block) : ChainCall Unit := do
  let s ← Call.get
  addBlockWithin c amb (s.orphans.keys.card + 1) block

/-- `Blockchain::set_time_offset`. -/
def setTimeOffset (offset : Duration) (s : Blockchain) : Blockchain := { s with timeOffset := offset }

end Blockchain

end Itx
