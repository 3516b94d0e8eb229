import Itx.Lib.Outcome
import Itx.Lib.Finmap
import Itx.Lib.Checked

/-!
# Transactions, blocks and what they are hashed with

The data types of the chain (`lib/src/types`), and the cryptography and the
serialization under it, which are other crates' (`Crypto`): SHA-256 over CBOR,
and ECDSA over secp256k1. Nothing is assumed of them here: what a result needs
of them is a hypothesis of that result.

A `Hash` wraps a `U256`, compared with targets as a number. It is modelled by a
natural number without its bound, so that the usual idealisation, a hash
without collisions, is satisfiable. Public keys, signatures and UUIDs are only
ever compared, and are numbers too; a time is in nanoseconds since the epoch.
-/

namespace Itx

/-- `U256`, as a number. -/
abbrev U256 := ℕ

/-- `Hash`, as the number it wraps. -/
abbrev Hash := ℕ

/-- `Hash::zero()`: no block. -/
def Hash.zero : Hash := 0

abbrev PublicKey := ℕ
abbrev Signature := ℕ
abbrev Uuid := ℕ

/-- `DateTime<Utc>`, in nanoseconds since the epoch. -/
abbrev DateTime := ℤ

/-- `chrono::Duration`, in nanoseconds. -/
abbrev Duration := ℤ

/-- `chrono::Duration::seconds`. -/
def Duration.seconds (n : ℤ) : Duration := n * 10 ^ 9

/-- `TimeDelta::num_seconds`: whole seconds, truncated towards zero. -/
def Duration.numSeconds (d : Duration) : ℤ := d.tdiv (10 ^ 9)

/-- `BtcError`: the variants the chain returns. -/
inductive BtcError
  | invalidTransaction
  | invalidBlock
  | orphanBlock
  | invalidMerkleRoot
  | invalidSignature
  deriving DecidableEq, Repr

structure TransactionInput where
  prevTransactionOutputHash : Hash
  /-- Over `spendCommitment`. -/
  signature : Signature
  deriving DecidableEq, Repr

structure TransactionOutput where
  value : ℕ
  uniqueId : Uuid
  pubkey : PublicKey
  deriving DecidableEq, Repr

structure Transaction where
  inputs : List TransactionInput
  outputs : List TransactionOutput
  deriving DecidableEq, Repr

structure BlockHeader where
  timestamp : DateTime
  nonce : ℕ
  prevBlockHash : Hash
  merkleRoot : Hash
  target : U256
  deriving DecidableEq, Repr

structure Block where
  header : BlockHeader
  transactions : List Transaction
  deriving DecidableEq, Repr

/-- The unspent outputs by their hash, each with its *marked* bit: whether a
    transaction of the mempool spends it. -/
abbrev Utxos := Finmap fun _ : Hash => Bool × TransactionOutput

/-- The hashes of the outputs a transaction spends. -/
def Transaction.spends (tx : Transaction) : List Hash :=
  tx.inputs.map TransactionInput.prevTransactionOutputHash

/-- The hashes of the outputs a block spends, in the order it spends them. -/
def Block.spends (block : Block) : List Hash :=
  block.transactions.flatMap Transaction.spends

/-- The outputs a block creates, in the order it creates them. -/
def Block.outputs (block : Block) : List TransactionOutput :=
  block.transactions.flatMap Transaction.outputs

/-- The cryptography and the serialization of the chain. -/
structure Crypto where
  /-- `Hash::hash` of an output, a transaction, a header, a block. -/
  hashOutput : TransactionOutput → Hash
  hashTransaction : Transaction → Hash
  hashHeader : BlockHeader → Hash
  hashBlock : Block → Hash
  /-- `Hash::hash` of two hashes, a node of the Merkle tree. -/
  hashPair : Hash → Hash → Hash
  /-- `Hash::hash_bytes`. -/
  hashBytes : List UInt8 → Hash
  /-- `PublicKey::to_sec1_bytes`. -/
  toSec1Bytes : PublicKey → List UInt8
  /-- `Signature::verify`. -/
  verify : Signature → Hash → PublicKey → Bool
  /-- `Transaction::serialized_size`. -/
  serializedSize : Transaction → ℕ
  /-- The public key of the private key whose scalar is the fixed genesis seed. -/
  genesisPubkey : PublicKey

/-! ## Spend commitments -/

/-- The `n` low bytes of `x`, the lowest first (`to_little_endian`). -/
def toLeBytes (n x : ℕ) : List UInt8 := (List.range n).map fun i => UInt8.ofNat (x / 256 ^ i)

/-- The `n` low bytes of `x`, the highest first (`to_be_bytes`). -/
def toBeBytes (n x : ℕ) : List UInt8 := (toLeBytes n x).reverse

variable (c : Crypto)

/-- The bytes an input's signature commits to: a domain tag, the output it
    spends, and the value and the owner of every output paid, with the lengths
    of the variable parts. -/
def spendCommitmentPreimage (prevOutputHash : Hash) (outputs : List TransactionOutput) :
    List UInt8 :=
  "itx.spend.v1".toUTF8.toList ++ toLeBytes 32 prevOutputHash ++ toBeBytes 4 outputs.length ++
    outputs.flatMap fun output =>
      toBeBytes 8 output.value ++
        UInt8.ofNat (c.toSec1Bytes output.pubkey).length :: c.toSec1Bytes output.pubkey

/-- `Transaction::spend_commitment`. -/
def spendCommitment (prevOutputHash : Hash) (outputs : List TransactionOutput) : Hash :=
  c.hashBytes (spendCommitmentPreimage c prevOutputHash outputs)

/-- `TransactionInput::verifies`: whether the signature of the input is
    `pubkey`'s consent to spend it into exactly `outputs`. -/
def TransactionInput.verifies (input : TransactionInput) (outputs : List TransactionOutput)
    (pubkey : PublicKey) : Bool :=
  c.verify input.signature (spendCommitment c input.prevTransactionOutputHash outputs) pubkey

end Itx
