import Itx.Chain.Types

/-!
# Validation of blocks

The checks a block undergoes that read no state of the chain but the unspent
outputs it is validated against (`lib/src/types/block.rs`), with the Merkle
root (`lib/src/util.rs`), the reward, the work and the retargeting arithmetic
(`lib/src/lib.rs`, `Blockchain::adjust_target`).

A block is validated against the outputs unspent *before* it: what a
transaction of a block spends has to exist before that block.
-/

namespace Itx

/-! ## Constants -/

def initialReward : ℕ := 50
def halvingInterval : ℕ := 7875
def idealBlockTime : ℕ := 16
def difficultyUpdateInterval : ℕ := 50
def maxMempoolTransactionAge : ℕ := 600
def blockByteCap : ℕ := 1000000
def maxFutureBlockDriftSeconds : ℤ := 2 * 60 * 60
def sideBranchPruneDepth : ℕ := 2 * difficultyUpdateInterval
def maxOrphanBlocks : ℕ := 50

/-- `MIN_TARGET`: the easiest target, of `240` bits. -/
def minTarget : U256 := 2 ^ 240 - 1

/-! ## Rewards, work and targets -/

/-- `block_reward_at_height`: halved once per interval. -/
def blockRewardAtHeight (height : ℕ) : ℕ :=
  let halvings := height / halvingInterval
  if halvings ≥ 64 then 0 else (initialReward * 10 ^ 8) >>> halvings

/-- `work_from_target`: none where the 256-bit arithmetic overflows. -/
def workFromTarget (target : U256) : Option U256 := do
  let divisor ← checked u256Bound (target + 1)
  checked u256Bound ((u256Bound - 1 - target) / divisor + 1)

/-- `BlockHeader::work`. -/
def BlockHeader.work (header : BlockHeader) : Option U256 := workFromTarget header.target

/-- `Blockchain::adjust_target`: the target scaled by how long the window took
    over how long it should have, within a factor of `4`. The `BigDecimal`
    arithmetic is exact (`800` only has the prime factors `2` and `5`) and its
    fractional digits are dropped; reading the integral part back as a `U256`
    has no result out of range. -/
def adjustTarget (currentTarget : U256) (startTime endTime : DateTime) : Option U256 :=
  let timeDiffSeconds := (max 1 (Duration.numSeconds (endTime - startTime))).toNat
  let targetSeconds := idealBlockTime * difficultyUpdateInterval
  let timeDiffSeconds := max (targetSeconds / 4) (min timeDiffSeconds (targetSeconds * 4))
  (checked u256Bound (currentTarget * timeDiffSeconds / targetSeconds)).map (min minTarget)

/-! ## Merkle roots -/

variable (c : Crypto)

/-- One pass over a layer, by chunks of two; the last one may be of one, and is
    then paired with itself. -/
def merkleLayer : List Hash → List Hash
  | [] => []
  | [left] => [c.hashPair left left]
  | left :: right :: layer => c.hashPair left right :: merkleLayer layer

/-- `while layer.len() > 1`, for at most `n` passes. -/
def merkleFold : ℕ → List Hash → List Hash
  | 0, layer => layer
  | n + 1, layer => if layer.length > 1 then merkleFold n (merkleLayer c layer) else layer

/-- `MerkleRoot::calculate`: it indexes the last layer, which is empty when
    there are no transactions. -/
def merkleRoot (transactions : List Transaction) : Option Hash :=
  (merkleFold c transactions.length (transactions.map c.hashTransaction))[0]?

/-! ## Transactions -/

/-- The checked sum of the values of the outputs paid. -/
def Transaction.outputValue (tx : Transaction) : Outcome BtcError ℕ :=
  .okOr .invalidTransaction (checkedSum (tx.outputs.map TransactionOutput.value))

/-- The checked sum of the values of the inputs, each of which must exist. -/
def calculateInputValue (utxos : Utxos) : List TransactionInput → ℕ → Outcome BtcError ℕ
  | [], inputValue => .ok inputValue
  | input :: inputs, inputValue => do
    let prevOutput ← .okOr .invalidTransaction (utxos.lookup input.prevTransactionOutputHash)
    let inputValue ← .okOr .invalidTransaction (checkedAdd inputValue prevOutput.2.value)
    calculateInputValue utxos inputs inputValue

/-- `calculate_miner_fees_for_transactions`, from the fees `totalFees` on. -/
def calculateMinerFeesFrom (utxos : Utxos) : List Transaction → ℕ → Outcome BtcError ℕ
  | [], totalFees => .ok totalFees
  | tx :: transactions, totalFees => do
    let inputValue ← calculateInputValue utxos tx.inputs 0
    let outputValue ← tx.outputValue
    Outcome.ensure (outputValue ≤ inputValue) .invalidTransaction
    let totalFees ← .okOr .invalidTransaction (checkedAdd totalFees (inputValue - outputValue))
    calculateMinerFeesFrom utxos transactions totalFees

/-- `calculate_miner_fees_for_transactions`. -/
def calculateMinerFeesForTransactions (transactions : List Transaction) (utxos : Utxos) :
    Outcome BtcError ℕ :=
  calculateMinerFeesFrom utxos transactions 0

namespace Block

/-- `Block::verify_coinbase_transaction`: the first transaction spends nothing
    and pays exactly the reward and the fees of the others. -/
def verifyCoinbaseTransaction (block : Block) (predictedBlockHeight : ℕ) (utxos : Utxos) :
    Outcome BtcError Unit := do
  let coinbaseTransaction ← .expect block.transactions[0]?
  Outcome.ensure (coinbaseTransaction.inputs = []) .invalidTransaction
  let minerFees ← calculateMinerFeesForTransactions block.transactions.tail utxos
  let blockReward := blockRewardAtHeight predictedBlockHeight
  let totalCoinbaseOutputs ← coinbaseTransaction.outputValue
  let owed ← .okOr .invalidTransaction (checkedAdd blockReward minerFees)
  Outcome.ensure (totalCoinbaseOutputs = owed) .invalidTransaction

/-- The inputs of a transaction paying `outputs`: each exists, is spent by no
    input before it in the block (`spent`), and is signed for by its owner.
    Returns what is spent then and the value of the inputs. -/
def verifyInputs (utxos : Utxos) (outputs : List TransactionOutput) :
    List TransactionInput → List Hash → ℕ → Outcome BtcError (List Hash × ℕ)
  | [], spent, inputValue => .ok (spent, inputValue)
  | input :: inputs, spent, inputValue => do
    let prevOutput ← .okOr .invalidTransaction (utxos.lookup input.prevTransactionOutputHash)
    Outcome.ensure (input.prevTransactionOutputHash ∉ spent) .invalidTransaction
    Outcome.ensure (input.verifies c outputs prevOutput.2.pubkey = true) .invalidSignature
    let inputValue ← .okOr .invalidTransaction (checkedAdd inputValue prevOutput.2.value)
    verifyInputs utxos outputs inputs (input.prevTransactionOutputHash :: spent) inputValue

/-- The transactions of a block after its coinbase, from the outputs `spent`. -/
def verifySpends (utxos : Utxos) : List Transaction → List Hash → Outcome BtcError Unit
  | [], _ => .ok ()
  | tx :: transactions, spent => do
    let (spent, inputValue) ← verifyInputs c utxos tx.outputs tx.inputs spent 0
    let outputValue ← tx.outputValue
    Outcome.ensure (outputValue ≤ inputValue) .invalidTransaction
    verifySpends utxos transactions spent

/-- `Block::verify_transactions`. -/
def verifyTransactions (block : Block) (predictedBlockHeight : ℕ) (utxos : Utxos) :
    Outcome BtcError Unit := do
  Outcome.ensure (block.transactions ≠ []) .invalidTransaction
  block.verifyCoinbaseTransaction predictedBlockHeight utxos
  verifySpends c utxos block.transactions.tail []

end Block

end Itx
