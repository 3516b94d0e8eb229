import Itx.Node.Reload

/-!
# What a crash leaves in the store

A node adds the blocks it receives to its blockchain, and puts each block that has
been accepted in the store (`Node.addBlock`); the record of the active chain is
refreshed later, when the lock on the blockchain has been taken again, and then the
blocks that were pruned are deleted (`Node.record`). Other blocks may be added in
between, and the process may stop between any two operations on the store.

The store can be loaded as long as it has the blocks of the chain it records. What
a call adds is more than the block it is given: the orphans attached after it are
not put in the store, and a block that comes back while its hash waits to be deleted
is put, then deleted. Where neither happens (`Keeps`), the store has every block of
the blockchain, and its recorded chain is one of its own blocks, throughout the runs
(`stored_chain_closed`).
-/

namespace Itx

open Call Blockchain

/-- A node: its blockchain while the process runs, the blocks that have been put in
    the store and whose chain is still to be recorded, and the store. -/
structure Node where
  chain : Option Blockchain
  waiting : ℕ
  store : BlockStore

namespace Node

variable (c : Crypto)

/-- A node that has never been started. -/
def fresh : Node := ⟨none, 0, .empty⟩

/-- A block of `NewBlock`, of `SubmitTemplate` or of `download_blockchain`, up to the
    lock that `persist_chain_state` waits for. -/
def addBlock (amb : Ambient) (block : Block) (n : Node) : Node :=
  match n.chain with
  | none => n
  | some s =>
    match Blockchain.addBlock c amb block s with
    | (s', .ok _) => ⟨some s', n.waiting + 1, n.store.putBlock c block⟩
    | (s', _) => { n with chain := some s' }

/-- The rest of `persist_chain_state`. -/
def record (n : Node) : Node :=
  match n.chain, n.waiting with
  | some s, waiting + 1 =>
    ⟨some s.takePrunedHashes, waiting,
      (n.store.setActiveChain s.activeChain).deleteBlocks s.pendingPrunes⟩
  | _, _ => n

/-- The process stops. -/
def stop (n : Node) : Node := ⟨none, 0, n.store⟩

/-- The process stops before the pruned blocks are deleted. -/
def stopRecording (n : Node) : Node :=
  match n.chain, n.waiting with
  | some s, _ + 1 => ⟨none, 0, n.store.setActiveChain s.activeChain⟩
  | _, _ => n

/-- The first start: the genesis is added and persisted. -/
def establish (amb : Ambient) (n : Node) : Node :=
  match genesisBlock c with
  | none => n
  | some genesis =>
    match Blockchain.addBlock c amb genesis new with
    | (s, .ok _) =>
      record ⟨some s, 1, n.store.putBlock c genesis⟩
    | _ => n

/-- The process stops during its first start, before the chain is recorded, or
    before the pruned blocks are deleted. -/
def stopEstablishing (recorded : Bool) (amb : Ambient) (n : Node) : Node :=
  match genesisBlock c with
  | none => n
  | some genesis =>
    match Blockchain.addBlock c amb genesis new with
    | (s, .ok _) =>
      let n : Node := ⟨some s, 1, n.store.putBlock c genesis⟩
      if recorded then n.stopRecording else n.stop
    | _ => n

/-- The start of the process, as `main` does it. -/
def start (amb : ℕ → Ambient) (n : Node) : Node :=
  if n.chain.isSome then n
  else if n.store.activeChain = [] then n.establish c (amb 0)
  else
    match loadFromStore c amb n.store n.store.activeChain new with
    | (s, .ok pruned) => ⟨some s, 0, n.store.deleteBlocks pruned⟩
    | _ => n

/-- A call on the blockchain that does not reach the store. -/
def call (op : Op) (n : Node) : Node :=
  { n with chain := n.chain.map fun s => (op.call c s).1 }

end Node

/-- What happens to a node. -/
inductive NodeOp
  | start (amb : ℕ → Ambient)
  | addBlock (amb : Ambient) (block : Block)
  | record
  | addToMempool (now : DateTime) (tx : Transaction)
  | cleanupMempool (now : DateTime)
  | setTimeOffset (offset : Duration)
  | stop
  | stopRecording
  | stopEstablishing (recorded : Bool) (amb : Ambient)

/-- The node after an operation. A first start may stop halfway only while the
    process is not running and no chain is recorded. -/
def NodeOp.apply (c : Crypto) (n : Node) : NodeOp → Node
  | .start amb => n.start c amb
  | .addBlock amb block => n.addBlock c amb block
  | .record => n.record
  | .addToMempool now tx => n.call c (.addToMempool now tx)
  | .cleanupMempool now => n.call c (.cleanupMempool now)
  | .setTimeOffset offset => n.call c (.setTimeOffset offset)
  | .stop => n.stop
  | .stopRecording => n.stopRecording
  | .stopEstablishing recorded amb =>
    if n.chain.isSome ∨ n.store.activeChain ≠ [] then n else n.stopEstablishing c recorded amb

/-- The node as a transition system. -/
def nodeSystem (c : Crypto) : System Node NodeOp where
  init := {.fresh}
  step n op n' := n' = op.apply c n

/-- What a node is given: see `Received`. -/
def NodeOp.Received (c : Crypto) : NodeOp → Prop
  | .addBlock amb block => ClockInRange amb.now ∧ Sized c block
  | .setTimeOffset offset => -maxTimeOffset ≤ offset ∧ offset ≤ maxTimeOffset
  | _ => True

/-- A block taken up does not panic, and if its checks pass, it is in the store and
    does not wait to be deleted from it. -/
def Keeps (c : Crypto) (amb : Ambient) (store : BlockStore) (s : Blockchain) (block : Block) : Prop :=
  Rooted c amb s block ∧
    ((ExtendsTip c amb.now s block ∨ ∃ forkIndex branch, OffTip c amb.now s block forkIndex branch) →
      c.hashBlock block ∉ s.pendingPrunes ∧ store.getBlock (c.hashBlock block) = some block)

/-- A block that is added has no transactions, or the blocks taken up with it are all
    kept in the store once it has been put there. -/
def NodeOp.Kept (c : Crypto) (n : Node) : NodeOp → Prop
  | .addBlock amb block => ∀ s, n.chain = some s → block.transactions = [] ∨
      TakesUp c amb (Keeps c amb (n.store.putBlock c block)) block s
  | _ => True

variable {c : Crypto} {n : Node} {s t : Blockchain} {block : Block} {amb : Ambient}
  {store : BlockStore}

/-! ## Stores -/

/-- The blocks of a store are under their hash. -/
def BlockStore.Keyed (c : Crypto) (store : BlockStore) : Prop :=
  ∀ x b, store.blocks.lookup x = some b → c.hashBlock b = x

theorem BlockStore.Keyed.putBlock (h : store.Keyed c) (block : Block) :
    (store.putBlock c block).Keyed c := by
  intro x b hb
  rw [BlockStore.putBlock, Finmap.lookup_insert_eq] at hb
  split at hb
  · next hx =>
    obtain rfl := Option.some.inj hb
    exact hx.symm
  · exact h x b hb

/-- Putting a block keeps the others. -/
theorem BlockStore.Keyed.lookup_putBlock (h : store.Keyed c) (hinj : Function.Injective c.hashBlock)
    {x : Hash} {b : Block} (hb : store.blocks.lookup x = some b) :
    (store.putBlock c block).blocks.lookup x = some b := by
  rw [BlockStore.putBlock, Finmap.lookup_insert_eq]
  split
  · next hx =>
    obtain rfl : b = block := hinj ((h x b hb).trans hx)
    rfl
  · exact hb

/-- The store has the blocks `s` knows, and none of them waits to be deleted. -/
structure Mirrors (store : BlockStore) (s : Blockchain) : Prop where
  stored : ∀ x b, s.blocks.lookup x = some b → store.blocks.lookup x = some b
  pruned : ∀ x ∈ s.pendingPrunes, x ∉ s.blocks

theorem Mirrors.of_sameChain (h : Mirrors store s) (hsame : SameChain s t) : Mirrors store t := by
  refine ⟨?_, ?_⟩
  · rw [hsame.blocks]
    exact h.stored
  · rw [hsame.blocks, hsame.pendingPrunes]
    exact h.pruned

theorem Mirrors.keepOrphan (h : Mirrors store s) (block : Block) :
    Mirrors store (s.keepOrphan c block) := by
  rw [Blockchain.keepOrphan]
  split
  exacts [h, ⟨h.stored, h.pruned⟩]

/-- A block that is in the store and does not wait to be deleted is stored. -/
theorem Mirrors.storeBlock (h : Mirrors store s) (hprune : c.hashBlock block ∉ s.pendingPrunes)
    (hget : store.getBlock (c.hashBlock block) = some block) :
    Mirrors store (s.storeBlock c block) where
  stored x b hb := by
    rw [Blockchain.storeBlock, Finmap.lookup_insert_eq] at hb
    split at hb
    · next hx =>
      obtain rfl := Option.some.inj hb
      rw [hx]
      exact hget
    · exact h.stored x b hb
  pruned x hx hmem := by
    rcases mem_storeBlock.1 hmem with rfl | hmem
    exacts [hprune hx, h.pruned x hx hmem]

/-- What is forgotten waits to be deleted. -/
theorem Mirrors.forgetBlocks (h : Mirrors store s) (prunable : List Hash) :
    Mirrors store (s.forgetBlocks prunable) where
  stored x b hb := by
    rw [Blockchain.forgetBlocks, Finmap.lookup_eraseAll] at hb
    split_ifs at hb
    exact h.stored x b hb
  pruned x hx hmem := by
    rw [Blockchain.forgetBlocks, Finmap.mem_iff] at hmem
    obtain ⟨b, hb⟩ := hmem
    rw [Finmap.lookup_eraseAll] at hb
    split_ifs at hb with hp
    rcases List.mem_append.1 hx with hx | hx
    exacts [h.pruned x hx (Finmap.mem_iff.2 ⟨b, hb⟩), hp hx]

/-- A block that is kept is accepted. -/
theorem Mirrors.accept {s' : Blockchain} {o : Outcome BtcError Hash} (h : Mirrors store s)
    (hkeep : Keeps c amb store s block) (ha : Accepts c amb s block s' o) : Mirrors store s' := by
  cases ha with
  | refused _ _ _ => exact h
  | buffered _ _ _ => exact h.keepOrphan block
  | @extended target prunable htip _ _ =>
    obtain ⟨hprune, hget⟩ := hkeep.2 (.inl htip)
    obtain ⟨hstored, hpruned⟩ := h.storeBlock hprune hget
    have hpushed : Mirrors store ((s.pushBlock c amb.now block).setTarget target) :=
      ⟨hstored, hpruned⟩
    exact hpushed.forgetBlocks prunable
  | stored hoff _ _ =>
    obtain ⟨hprune, hget⟩ := hkeep.2 (.inr ⟨_, _, hoff⟩)
    exact h.storeBlock hprune hget
  | @switched forkIndex branch _ _ target utxos confirmed _ hoff _ _ _ _ _ hsame =>
    obtain ⟨hprune, hget⟩ := hkeep.2 (.inr ⟨_, _, hoff⟩)
    obtain ⟨hstored, hpruned⟩ := h.storeBlock hprune hget
    have hswitched : Mirrors store ((s.storeBlock c block).switchTo c amb.now
        (s.candidateChain forkIndex branch ++ [c.hashBlock block]) target utxos confirmed) :=
      ⟨hstored, hpruned⟩
    exact hswitched.of_sameChain hsame

/-- The running blockchain, and the store that mirrors it. -/
structure Mirrored (c : Crypto) (store : BlockStore) (s : Blockchain) : Prop
    extends Running c s, Mirrors store s where
  passes : Retargeted s ∧ Each (PassesOn c) s

theorem Mirrored.steady (h : Mirrored c store s) : Steady c s := ⟨h.toSound, h.limits.target⟩

/-- The hashes to delete have been taken. -/
theorem Mirrored.takePrunedHashes (h : Mirrored c store s) :
    Mirrored c store s.takePrunedHashes where
  blocks := h.blocks
  orphans := h.orphans
  known := h.known
  rooted := h.rooted
  active := h.active
  replay := h.replay
  valid := h.valid
  nodup := h.nodup
  present := h.present
  limits := ⟨h.limits.target, h.limits.offset, h.limits.orphans⟩
  targets := h.targets
  stored := h.stored
  pruned _ hx := absurd hx List.not_mem_nil
  passes := h.passes

/-- The recorded chain of the store is one of its own blocks. -/
structure Recorded (c : Crypto) (n : Node) : Prop where
  keyed : n.store.Keyed c
  linked : Linked n.store.blocks n.store.activeChain
  running : ∀ s, n.chain = some s → Mirrored c n.store s

theorem recorded_fresh : Recorded c .fresh := by
  refine ⟨fun x b hb => ?_, .nil, nofun⟩
  rw [Node.fresh, BlockStore.empty, Finmap.lookup_empty] at hb
  cases hb

/-! ## Steps -/

/-- The chain is recorded, and the pruned blocks are deleted or not. -/
theorem Mirrored.linked_record (h : Mirrored c store s) (pruned : List Hash)
    (hp : ∀ x ∈ pruned, x ∉ s.blocks) :
    Linked ((store.setActiveChain s.activeChain).deleteBlocks pruned).blocks s.activeChain := by
  refine h.active.congr fun x hx => ?_
  obtain ⟨b, hb⟩ := Finmap.mem_iff.1 (h.known x hx)
  rw [BlockStore.deleteBlocks, Finmap.lookup_eraseAll,
    if_neg fun hmem => hp x hmem (h.known x hx), hb]
  exact (h.stored x b hb).symm

theorem BlockStore.Keyed.deleteBlocks (h : store.Keyed c) (hashes : List Hash) :
    (store.deleteBlocks hashes).Keyed c := by
  intro x b hb
  rw [BlockStore.deleteBlocks, Finmap.lookup_eraseAll] at hb
  split_ifs at hb
  exact h x b hb

theorem Recorded.record (h : Recorded c n) : Recorded c n.record := by
  obtain ⟨chain, waiting, store⟩ := n
  rcases chain with _ | s
  · exact h
  rcases waiting with _ | waiting
  · exact h
  have hs := h.running s rfl
  refine ⟨BlockStore.Keyed.deleteBlocks h.keyed s.pendingPrunes,
    hs.linked_record _ hs.pruned, fun t ht => ?_⟩
  obtain rfl := Option.some.inj ht
  refine { hs.takePrunedHashes with stored := fun x b hb => ?_ }
  change (store.blocks.eraseAll s.pendingPrunes).lookup x = some b
  rw [Finmap.lookup_eraseAll, if_neg fun hx => hs.pruned x hx (Finmap.mem_iff.2 ⟨b, hb⟩)]
  exact hs.stored x b hb

theorem Recorded.stop (h : Recorded c n) : Recorded c n.stop := ⟨h.keyed, h.linked, nofun⟩

theorem Recorded.stopRecording (h : Recorded c n) : Recorded c n.stopRecording := by
  obtain ⟨chain, waiting, store⟩ := n
  rcases chain with _ | s
  · exact h
  rcases waiting with _ | waiting
  · exact h
  exact ⟨h.keyed, (h.running s rfl).linked_record [] nofun, nofun⟩

section

variable (hinj : Function.Injective c.hashBlock) (hne : ∀ block, c.hashBlock block ≠ Hash.zero)
  (hheader : ∀ header, c.hashHeader header ≠ 0) (hgenesis : (genesisBlock c).isSome)

include hheader in
/-- A chain that has been loaded is mirrored. -/
theorem Loaded.mirrored {l : List Hash} (h : Loaded c store.blocks l s) : Mirrored c store s where
  toRunning := by
    refine ⟨h.toSound, ⟨h.target_le, ?_, fun x b hb => ?_⟩, fun chain x b hl hb => ?_⟩
    · rw [h.timeOffset]
      decide
    · rw [h.no_orphans, Finmap.lookup_empty] at hb
      cases hb
    · have hpass := h.passes.2 chain x b hl hb
      exact ⟨(Nat.one_le_iff_ne_zero.2 (hheader b.header)).trans hpass.work,
        recomputeTargetForChain_le hpass.target⟩
  stored x b hb := by
    rw [h.lookup] at hb
    split_ifs at hb
    exact hb
  pruned x hx := by
    rw [h.pendingPrunes] at hx
    cases hx
  passes := h.passes

include hinj in
/-- Putting a block keeps the recorded chain. -/
theorem Recorded.linked_putBlock (h : Recorded c n) (block : Block) :
    Linked (n.store.putBlock c block).blocks n.store.activeChain := by
  refine h.linked.congr fun x hx => ?_
  obtain ⟨b, hb⟩ := Finmap.mem_iff.1 (h.linked.mem x hx)
  rw [hb, h.keyed.lookup_putBlock hinj hb]

include hinj hne hheader in
/-- The genesis has been put in the store, and added. -/
theorem Recorded.putGenesis (h : Recorded c n) {genesis : Block} {o : Unit}
    (hg : genesisBlock c = some genesis)
    (hadd : Blockchain.addBlock c amb genesis new = (s, .ok o)) (waiting : ℕ) :
    Recorded c ⟨some s, waiting, n.store.putBlock c genesis⟩ := by
  have hput : (n.store.putBlock c genesis).blocks.lookup (c.hashBlock genesis) = some genesis := by
    rw [BlockStore.putBlock, Finmap.lookup_insert]
  have hnew : Loaded c (n.store.putBlock c genesis).blocks [] new := loaded_new
  refine ⟨h.keyed.putBlock genesis, h.linked_putBlock hinj genesis, fun t ht => ?_⟩
  obtain rfl := Option.some.inj ht
  rcases hnew.addBlock hinj hne (.concat .nil hput (genesisBlock_prevBlockHash hg)) hput rfl amb with
    ⟨-, -, s', hs', hloaded⟩ | ⟨-, hs'⟩
  · obtain rfl := (Prod.mk.inj (hs'.symm.trans hadd)).1
    exact hloaded.mirrored hheader
  · exact absurd hadd (hs' _)

include hinj hne hheader in
theorem Recorded.establish (h : Recorded c n) (amb : Ambient) : Recorded c (n.establish c amb) := by
  rw [Node.establish]
  split
  · exact h
  · next genesis hg =>
    split
    · next s o hadd => exact (h.putGenesis hinj hne hheader hg hadd 1).record
    · exact h

include hinj hne hheader in
theorem Recorded.stopEstablishing (h : Recorded c n) (recorded : Bool) (amb : Ambient) :
    Recorded c (n.stopEstablishing c recorded amb) := by
  rw [Node.stopEstablishing]
  split
  · exact h
  · next genesis hg =>
    split
    · next s o hadd =>
      have hput := h.putGenesis hinj hne hheader hg hadd 1
      cases recorded
      exacts [hput.stop, hput.stopRecording]
    · exact h

include hinj hne in
/-- Loading ends with the recorded chain loaded, or with an error that is not a
    missing block. -/
theorem Recorded.loadFromStore (h : Recorded c n) (amb : ℕ → Ambient) :
    (∃ s, loadFromStore c amb n.store n.store.activeChain new = (s.takePrunedHashes, .ok []) ∧
      Loaded c n.store.blocks n.store.activeChain s) ∨
    (∀ pruned, (loadFromStore c amb n.store n.store.activeChain new).2 ≠ .ok pruned) ∧
      ∀ i, (loadFromStore c amb n.store n.store.activeChain new).2 ≠ .err (.missingBlock i) := by
  by_cases hfirst : checkFirst c n.store.activeChain = .ok ()
  · have hnew : Loaded c n.store.blocks [] new := loaded_new
    rcases hnew.loadBlocks hinj hne amb h.linked fun x _ b hb => h.keyed x b hb with
      ⟨-, s, hload, hloaded⟩ | ⟨-, hload⟩
    · refine .inl ⟨s, ?_, hloaded⟩
      rw [loadFromStore_ok hfirst hload, hloaded.pendingPrunes]
    · refine .inr ?_
      rcases loadFromStore_stopped hfirst hload with he | ⟨e, he⟩
      all_goals
        rw [he]
        exact ⟨by simp, by simp⟩
  · -- The first block is not the genesis, or there is no genesis.
    refine .inr ?_
    change (∀ pruned, (Call.bind (Call.lift (checkFirst c n.store.activeChain)) _ new).2 ≠ _) ∧
      ∀ i, (Call.bind (Call.lift (checkFirst c n.store.activeChain)) _ new).2 ≠ _
    have herr : ∀ i, checkFirst c n.store.activeChain ≠ .err (.missingBlock i) := fun i he => by
      rw [checkFirst] at he
      split at he
      · cases he
      · cases hg : genesisBlock c with
        | none =>
          rw [hg] at he
          cases he
        | some genesis =>
          rw [hg] at he
          change Outcome.ensure _ _ = _ at he
          rw [Outcome.ensure] at he
          split_ifs at he
          cases Outcome.err.inj he
    cases ho : checkFirst c n.store.activeChain with
    | ok _ => exact absurd ho hfirst
    | err e => exact ⟨fun _ h => (by cases h), fun i he => herr i (ho.trans (congrArg _ (Outcome.err.inj he)))⟩
    | panic => exact ⟨fun _ h => (by cases h), fun _ h => (by cases h)⟩

include hinj hne hheader in
theorem Recorded.start (h : Recorded c n) (amb : ℕ → Ambient) : Recorded c (n.start c amb) := by
  rw [Node.start]
  split
  · exact h
  split
  · exact h.establish hinj hne hheader (amb 0)
  rcases h.loadFromStore hinj hne amb with ⟨s, hload, hloaded⟩ | ⟨hload, -⟩
  · rw [hload]
    refine ⟨h.keyed, h.linked, fun t ht => ?_⟩
    obtain rfl := Option.some.inj ht
    exact (hloaded.mirrored hheader).takePrunedHashes
  · generalize Itx.loadFromStore c amb n.store n.store.activeChain new = r at hload
    obtain ⟨s, pruned | e | _⟩ := r
    · exact absurd rfl (hload pruned)
    · exact h
    · exact h

omit hinj hne hheader hgenesis in
/-- A call that does not add a block leaves the chain as it is. -/
theorem Mirrored.of_sameChain (h : Mirrored c store s) (hsame : SameChain s t) (hrun : Running c t) :
    Mirrored c store t :=
  { hrun, h.toMirrors.of_sameChain hsame with passes := ofChain_passes.1 s t hsame h.passes }

include hinj hne in
/-- A block without transactions is not accepted: its Merkle root cannot be
    computed. -/
theorem Mirrored.acceptBlock_nil (h : Mirrored c store s) (hnil : block.transactions = [])
    (amb : Ambient) :
    Mirrors store (acceptBlock c amb block s).1 ∧
      ∀ hash, (acceptBlock c amb block s).2 ≠ .ok hash := by
  have hroot : checkMerkleRoot c block ≠ .ok () := by
    rw [checkMerkleRoot_eq_panic.2 hnil]
    exact nofun
  have hoff : ∀ forkIndex branch, ¬ OffTip c amb.now s block forkIndex branch :=
    fun _ _ hoff => hroot ((checkOffTip_iff
      (h.toTree.candidateChain_ne_nil hne hoff.toBranchesOff)).1 hoff.checked).1.merkleRoot
  have haccept := h.steady.accepts hinj hne amb block
  generalize acceptBlock c amb block s = r at haccept
  obtain ⟨s', o⟩ := r
  cases haccept with
  | refused ho _ _ => exact ⟨h.toMirrors, ho⟩
  | buffered _ _ _ => exact ⟨h.toMirrors.keepOrphan block, nofun⟩
  | extended htip _ _ =>
    exact absurd ((checkExtendingTip_iff h.toReplayed h.passes.1).1 htip.checked).1.merkleRoot hroot
  | stored ho _ _ => exact absurd ho (hoff _ _)
  | switched ho _ _ _ _ _ _ => exact absurd ho (hoff _ _)

include hinj hne hheader hgenesis in
/-- A call of `add_block` leaves a mirrored blockchain, once the block has been put in
    the store if it has been accepted. -/
theorem Mirrored.ends_addBlock (h : Mirrored c store s) (hkeyed : store.Keyed c)
    (hnow : ClockInRange amb.now) (hsized : Sized c block)
    (hkept : block.transactions = [] ∨ TakesUp c amb (Keeps c amb (store.putBlock c block)) block s) :
    Ends (fun _ => Mirrors (store.putBlock c block)) (fun _ => Mirrors store) (Mirrors store)
      (Blockchain.addBlock c amb block s) := by
  rcases hkept with hnil | htakes
  · obtain ⟨hmirrors, hrefused⟩ := h.acceptBlock_nil hinj hne hnil amb
    obtain ⟨hstate, hout⟩ := addBlock_of_refused hrefused
    rw [← hstate] at hmirrors
    generalize Blockchain.addBlock c amb block s = r at hmirrors hout
    obtain ⟨s', u | e | _⟩ := r
    exacts [absurd rfl (hout u), hmirrors, hmirrors]
  · have hreturns := (h.toRunning.returns_iff hinj hne hheader hgenesis hnow hsized).2
      (htakes.mono fun _ _ hkeeps => hkeeps.1)
    have hput : Mirrors (store.putBlock c block) s :=
      ⟨fun x b hb => hkeyed.lookup_putBlock hinj (h.stored x b hb), h.pruned⟩
    have hend : Ends _ _ _ (Blockchain.addBlock c amb block s) := triple_takes hinj hne
      (fun s b s' o _ (hm : Mirrors (store.putBlock c block) s) hk ha => hm.accept hk ha)
      (fun t b hm => ⟨hm.stored, hm.pruned⟩) _ block s ⟨⟨h.steady, hput⟩, htakes⟩
    generalize hr : Blockchain.addBlock c amb block s = r at hend hreturns
    obtain ⟨s', u | e | _⟩ := r
    · exact hend.2
    · -- The block itself has been refused: nothing has changed, or it waits for its parent.
      have haccept := acceptBlock_of_addBlock_err hr
      have hrefused := triple_refused (c := c) amb block s s rfl
      rw [haccept] at hrefused
      rcases hrefused with rfl | ⟨-, rfl⟩
      exacts [h.toMirrors, h.toMirrors.keepOrphan block]
    · exact absurd rfl hreturns

include hinj hne hheader hgenesis in
theorem Recorded.addBlock (h : Recorded c n) (hreceived : ClockInRange amb.now ∧ Sized c block)
    (hkept : NodeOp.Kept c n (.addBlock amb block)) : Recorded c (n.addBlock c amb block) := by
  rw [Node.addBlock]
  split
  · exact h
  next s hchain =>
  have hs := h.running s hchain
  have hrun : Running c (Blockchain.addBlock c amb block s).1 :=
    hs.toRunning.step hinj hne hheader (.addBlock amb block) hreceived
  have hpass : Steady c (Blockchain.addBlock c amb block s).1 ∧
      Retargeted (Blockchain.addBlock c amb block s).1 ∧
        Each (PassesOn c) (Blockchain.addBlock c amb block s).1 :=
    ((accepting_passes hinj hne).preserves_addBlockWithin hinj hne amb _ block).apply
      ⟨hs.steady, hs.passes⟩
  have hmirrors := hs.ends_addBlock hinj hne hheader hgenesis h.keyed hreceived.1 hreceived.2
    (hkept s hchain)
  generalize Blockchain.addBlock c amb block s = r at hrun hpass hmirrors
  obtain ⟨s', u | e | _⟩ := r
  · refine ⟨h.keyed.putBlock block, h.linked_putBlock hinj block, fun t ht => ?_⟩
    obtain rfl := Option.some.inj ht
    exact { hrun, hmirrors with passes := hpass.2 }
  all_goals
    refine ⟨h.keyed, h.linked, fun t ht => ?_⟩
    obtain rfl := Option.some.inj ht
    exact { hrun, hmirrors with passes := hpass.2 }

include hinj hne hheader in
theorem Recorded.call (h : Recorded c n) {op : Op} (hop : ∀ s, Received c s op)
    (hsame : ∀ s, SameChain s (op.call c s).1 ∨ ∃ offset, (op.call c s).1 = s.setTimeOffset offset) :
    Recorded c (n.call c op) := by
  refine ⟨h.keyed, h.linked, fun t ht => ?_⟩
  obtain ⟨s, hchain, rfl⟩ := Option.map_eq_some_iff.1 ht
  have hs := h.running s hchain
  have hrun := hs.toRunning.step hinj hne hheader _ (hop s)
  rcases hsame s with hsame | ⟨offset, he⟩
  · exact hs.of_sameChain hsame hrun
  · rw [he] at hrun ⊢
    exact { hrun with
      stored := hs.stored
      pruned := hs.pruned
      passes := ofChain_passes.2 s offset hs.passes }

include hinj hne hheader hgenesis in
/-- An operation whose blocks are kept leaves a recorded chain. -/
theorem Recorded.apply {op : NodeOp} (h : Recorded c n) (hreceived : op.Received c)
    (hkept : op.Kept c n) : Recorded c (op.apply c n) := by
  cases op with
  | start amb => exact h.start hinj hne hheader amb
  | addBlock amb block => exact h.addBlock hinj hne hheader hgenesis hreceived hkept
  | record => exact h.record
  | addToMempool now tx =>
    refine h.call hinj hne hheader (fun _ => trivial) fun s => .inl ?_
    exact (sameChain_addToMempool s tx : Preserves _ _).apply (.refl s)
  | cleanupMempool now =>
    exact h.call hinj hne hheader (fun _ => trivial) fun s =>
      .inl ((SameChain.refl s).cleanupMempool now)
  | setTimeOffset offset =>
    exact h.call hinj hne hheader (fun _ => hreceived) fun s => .inr ⟨offset, rfl⟩
  | stop => exact h.stop
  | stopRecording => exact h.stopRecording
  | stopEstablishing recorded amb =>
    rw [NodeOp.apply]
    split
    exacts [h, h.stopEstablishing hinj hne hheader recorded amb]

/-! ## The recorded chain -/

include hinj hne hheader hgenesis in
/-- Throughout the runs in which each block that is added has no transactions, or is
    taken up with blocks that do not panic, and that are in the store and do not wait
    to be deleted if their checks pass, the store has every block of the chain it
    records, and loading it does not stop at a missing block. -/
theorem stored_chain_closed
    (hn : (nodeSystem c).ReachableBy (fun n op => op.Received c ∧ op.Kept c n) n) :
    (∀ x ∈ n.store.activeChain, x ∈ n.store.blocks) ∧
      ∀ amb i, (loadFromStore c amb n.store n.store.activeChain new).2 ≠ .err (.missingBlock i) := by
  have h : Recorded c n := by
    refine hn.invariant (fun n hn => ?_) fun n op n' hI hop hst => ?_
    · rw [Set.mem_singleton_iff.1 hn]
      exact recorded_fresh
    · rw [show n' = op.apply c n from hst]
      exact hI.apply hinj hne hheader hgenesis hop.1 hop.2
  refine ⟨h.linked.mem, fun amb i => ?_⟩
  rcases h.loadFromStore hinj hne amb with ⟨s, hload, -⟩ | ⟨-, hload⟩
  · rw [hload]
    exact nofun
  · exact hload i

end

/-! ## An orphan that has been attached -/

/-- The node after a list of operations. -/
def Node.run (c : Crypto) (ops : List NodeOp) : Node :=
  ops.foldl (fun n op => op.apply c n) .fresh

/-- One more operation meeting the condition. -/
theorem reachableBy_nodeRun_concat {C : Node → NodeOp → Prop} (ops : List NodeOp) {op : NodeOp}
    (h : (nodeSystem c).ReachableBy C (Node.run c ops)) (hC : C (Node.run c ops) op) :
    (nodeSystem c).ReachableBy C (Node.run c (ops ++ [op])) :=
  .step h hC List.foldl_append

namespace Sample

/-- A block comes before its parent, and the chain is recorded. -/
noncomputable def attached : Node :=
  Node.run forkCrypto ([.start fun _ => ambient] ++ [.addBlock ambient rightNext] ++
    [.addBlock ambient right] ++ [.record])

/-- A block on the genesis is added and recorded, and the process stops. -/
noncomputable def stopped : Node :=
  Node.run forkCrypto ([.start fun _ => ambient] ++ [.addBlock ambient left] ++ [.record] ++ [.stop])

end Sample

/-- The block that came first is recorded, and is not in the store. -/
theorem stored_chain_open :
    (nodeSystem Sample.forkCrypto).ReachableBy (fun _ op => op.Received Sample.forkCrypto)
        Sample.attached ∧
      Sample.attached.store.activeChain = [1, 3, 4] ∧
      Sample.attached.store.getBlock 4 = none ∧
      (loadFromStore Sample.forkCrypto (fun _ => Sample.ambient) Sample.attached.store
        Sample.attached.store.activeChain new).2 = .err (.missingBlock 2) := by
  refine ⟨?_, by decide +kernel, by decide +kernel, by decide +kernel⟩
  refine reachableBy_nodeRun_concat _ ?_ trivial
  refine reachableBy_nodeRun_concat _ ?_ ⟨by decide, by decide +kernel⟩
  refine reachableBy_nodeRun_concat _ ?_ ⟨by decide, by decide +kernel⟩
  exact reachableBy_nodeRun_concat [] (.init rfl) trivial

/-- Two blocks are recorded, and are in the store after the process has stopped. -/
theorem stored_chain_closed_stopped :
    Sample.stopped.store.activeChain = [1, 2] ∧
      (∀ x ∈ Sample.stopped.store.activeChain, x ∈ Sample.stopped.store.blocks) ∧
      ∀ amb i, (loadFromStore Sample.forkCrypto amb Sample.stopped.store
        Sample.stopped.store.activeChain new).2 ≠ .err (.missingBlock i) := by
  refine ⟨by decide +kernel, stored_chain_closed (tableHash_injective _) (tableHash_ne_zero _)
    (tableHash_ne_zero _) (by decide +kernel) ?_⟩
  refine reachableBy_nodeRun_concat _ ?_ ⟨trivial, trivial⟩
  refine reachableBy_nodeRun_concat _ ?_ ⟨trivial, trivial⟩
  refine reachableBy_nodeRun_concat _ ?_ ⟨⟨by decide, by decide +kernel⟩, fun s hs => .inr ?_⟩
  · exact reachableBy_nodeRun_concat [] (.init rfl) ⟨trivial, trivial⟩
  · -- No orphan waits, and nothing is to be deleted.
    have hchain : ∀ s ∈ (Node.run Sample.forkCrypto [.start fun _ => Sample.ambient]).chain,
        s.orphans = ∅ ∧ s.pendingPrunes = [] := by decide +kernel
    obtain ⟨horphans, hprunes⟩ := hchain s hs
    refine takesUp_of_orphans_eq_empty horphans ⟨nofun, fun _ => ⟨?_, ?_⟩⟩
    · rw [hprunes]
      exact List.not_mem_nil
    · rw [BlockStore.getBlock, BlockStore.putBlock, Finmap.lookup_insert]

end Itx
