import Itx.Chain.Run

/-!
# Hashing without collisions

The results assume that hashes do not collide and that no block hashes to the
sentinel. This is the usual idealisation of SHA-256; here it is shown to be
satisfiable (`Crypto.ofTables`), with hashes one can compute for what is listed
in some tables: the position in the table, and beyond the table any numbering.

The signature of a key is the key itself, whatever is signed.
-/

namespace Itx

deriving instance Countable for TransactionInput, TransactionOutput, Transaction, BlockHeader, Block

/-- Some numbering of a countable type. -/
noncomputable def numbering (α : Type) [Countable α] : α → ℕ :=
  (Countable.exists_injective_nat α).choose

theorem numbering_injective (α : Type) [Countable α] : Function.Injective (numbering α) :=
  (Countable.exists_injective_nat α).choose_spec

section

variable {α : Type} [DecidableEq α] [Countable α]

/-- The position in a table, from `1` on, or a number beyond. -/
noncomputable def tableHash (table : List α) (a : α) : ℕ :=
  if a ∈ table then table.idxOf a + 1 else table.length + 1 + numbering α a

theorem tableHash_injective (table : List α) : Function.Injective (tableHash table) := by
  intro a b h
  have hlt : ∀ {x}, x ∈ table → table.idxOf x < table.length := List.idxOf_lt_length_iff.2
  rw [tableHash, tableHash] at h
  split_ifs at h with ha hb hb
  · exact (List.idxOf_inj ha).1 (by omega)
  · have := hlt ha
    omega
  · have := hlt hb
    omega
  · exact numbering_injective α (by omega)

theorem tableHash_ne_zero (table : List α) (a : α) : tableHash table a ≠ 0 := by
  rw [tableHash]
  split_ifs <;> omega

end

/-- Hashing by tables. The size of a transaction is about that of its CBOR
    encoding. -/
noncomputable def Crypto.ofTables (outputs : List TransactionOutput)
    (transactions : List Transaction) (headers : List BlockHeader) (blocks : List Block)
    (genesisPubkey : PublicKey) : Crypto where
  hashOutput := tableHash outputs
  hashTransaction := tableHash transactions
  hashHeader := tableHash headers
  hashBlock := tableHash blocks
  hashPair left right := Nat.pair left right + 1
  hashBytes bytes := bytes.foldl (fun acc byte => 256 * acc + byte.toNat) 1
  toSec1Bytes pubkey := 2 :: List.replicate 32 (UInt8.ofNat pubkey)
  verify signature _ pubkey := signature = pubkey
  serializedSize tx := 18 + 170 * tx.inputs.length + 90 * tx.outputs.length
  genesisPubkey

/-- The iteration of the hash maps by ascending keys. -/
def MapOrder.ascending : MapOrder where
  keys := Finset.ascending
  mem_keys _ _ := Finset.mem_ascending
  nodup_keys := Finset.nodup_ascending

/-! ## A sample chain -/

namespace Sample

open Blockchain

/-- A transaction with a single output. -/
def payment (inputs : List TransactionInput) (uniqueId : Uuid) (value : ℕ) (pubkey : PublicKey) :
    Transaction where
  inputs
  outputs := [{ value, uniqueId, pubkey }]

/-- A block of the easiest target. -/
def block (timestamp : DateTime) (prevBlockHash merkleRoot : Hash)
    (transactions : List Transaction) : Block where
  header := { timestamp, nonce := 0, prevBlockHash, merkleRoot, target := minTarget }
  transactions

/-- The genesis of the network, for the genesis key `7`. -/
def genesis : Block := block 0 0 1 [payment [] 0 (50 * 10 ^ 8) 7]

/-- Hashing with tables that begin with the genesis, then list the given
    transactions and blocks. -/
noncomputable def crypto (transactions : List Transaction) (blocks : List Block) : Crypto :=
  .ofTables ((genesis.transactions ++ transactions).flatMap Transaction.outputs)
    (genesis.transactions ++ transactions) ((genesis :: blocks).map Block.header) (genesis :: blocks)
    7

/-- An hour after the epoch. -/
def ambient : Ambient := ⟨Duration.seconds 3600, .ascending⟩

/-- The delivery of some blocks. -/
def delivering (blocks : List Block) : List Op := blocks.map (Op.addBlock ambient)

/-- Two branches after the genesis, the second of which grows. -/
def left : Block := block 1 1 2 [payment [] 1 (50 * 10 ^ 8) 8]
def right : Block := block 2 1 3 [payment [] 2 (50 * 10 ^ 8) 9]
def rightNext : Block := block 3 3 4 [payment [] 3 (50 * 10 ^ 8) 9]

noncomputable def forkCrypto : Crypto :=
  crypto (left.transactions ++ right.transactions ++ rightNext.transactions) [left, right, rightNext]

/-- The active chain is switched from the first branch to the second. -/
noncomputable def forked : Blockchain :=
  run forkCrypto (delivering [genesis, left, right, rightNext])

/-- One more block meeting the condition, when no orphan is waiting. -/
theorem reachableBy_concat {c : Crypto} {P : Ambient → Blockchain → Block → Prop}
    (blocks : List Block) {block : Block}
    (h : (chainSystem c).ReachableBy (Taking c P) (run c (delivering blocks)))
    (ho : (run c (delivering blocks)).orphans = ∅)
    (hP : P ambient (run c (delivering blocks)) block) :
    (chainSystem c).ReachableBy (Taking c P) (run c (delivering (blocks ++ [block]))) := by
  rw [delivering, List.map_append]
  exact reachableBy_run_concat _ h (takesUp_of_orphans_eq_empty ho hP)

end Sample

end Itx
