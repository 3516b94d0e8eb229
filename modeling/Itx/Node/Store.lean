import Itx.Chain.ForkChoice

/-!
# The store of a node

A node keeps the blocks it knows, and the list of those of its active chain, in a
durable store (`lib/src/store.rs`, `node/src/util.rs`). Each operation of the store
is a transaction: it is over or has not begun when the process stops.

At startup the recorded chain is read back block by block and added to a new
blockchain (`loadFromStore`), with the clock of the machine: no peer has been asked
for the time yet. A block that is not in the store, or is not accepted, stops the
startup.
-/

namespace Itx

open Call

/-- `BlockStore`: the known blocks by their hash, and the hashes of the active
    chain. -/
structure BlockStore where
  blocks : Finmap fun _ : Hash => Block
  activeChain : List Hash

namespace BlockStore

/-- A store that has just been created. -/
def empty : BlockStore := ⟨∅, []⟩

/-- `BlockStore::put_block`. -/
def putBlock (c : Crypto) (block : Block) (store : BlockStore) : BlockStore :=
  { store with blocks := store.blocks.insert (c.hashBlock block) block }

/-- `BlockStore::delete_blocks`. -/
def deleteBlocks (hashes : List Hash) (store : BlockStore) : BlockStore :=
  { store with blocks := store.blocks.eraseAll hashes }

/-- `BlockStore::get_block`. -/
def getBlock (store : BlockStore) (hash : Hash) : Option Block := store.blocks.lookup hash

/-- `BlockStore::set_active_chain`. -/
def setActiveChain (chain : List Hash) (store : BlockStore) : BlockStore :=
  { store with activeChain := chain }

end BlockStore

/-- Why the recorded chain cannot be loaded. -/
inductive LoadError
  /-- The first block is not the genesis of the network. -/
  | wrongGenesis
  /-- The store is missing a block of its own active chain. -/
  | missingBlock (i : ℕ)
  /-- A block is not accepted. -/
  | rejected (e : BtcError)
  deriving DecidableEq, Repr

variable (c : Crypto)

namespace Blockchain

/-- `Blockchain::take_pruned_hashes`: the hashes are those of `pendingPrunes`. -/
def takePrunedHashes (s : Blockchain) : Blockchain := { s with pendingPrunes := [] }

end Blockchain

/-- The loop of `load_from_store`, from the block `i` on. The surroundings are those
    of each call. -/
def loadBlocks (amb : ℕ → Ambient) (store : BlockStore) :
    ℕ → List Hash → Call Blockchain LoadError Unit
  | _, [] => pure ()
  | i, hash :: chain => do
    let block ← Call.lift (.okOr (.missingBlock i) (store.getBlock hash))
    mapErr .rejected (Blockchain.addBlock c (amb i) block)
    loadBlocks amb store (i + 1) chain

/-- The recorded chain begins with the genesis of the network. -/
def checkFirst (chain : List Hash) : Outcome LoadError Unit :=
  match chain.head? with
  | none => .ok ()
  | some firstHash => do
    let genesis ← .expect (Blockchain.genesisBlock c)
    Outcome.ensure (firstHash = c.hashBlock genesis) .wrongGenesis

/-- `load_from_store`: it returns the hashes pruned by the replay, to be deleted from
    the store. -/
def loadFromStore (amb : ℕ → Ambient) (store : BlockStore) (chain : List Hash) :
    Call Blockchain LoadError (List Hash) := do
  Call.lift (checkFirst c chain)
  loadBlocks c amb store 0 chain
  let s ← Call.get
  Call.modify Blockchain.takePrunedHashes
  pure s.pendingPrunes

end Itx
