import Itx.Chain.Run
import Itx.Lib.Commute
import Itx.Node.Store

/-!
# Taking the pruned hashes

When a chain forgets the blocks of an old side branch it keeps their hashes, for whoever
deletes the blocks from the store to take (`Blockchain::take_pruned_hashes`). A node takes
them after a block has been persisted, under another lock than the one the block was added
under, so any call may come between the two; or it does not take them for long, when the
store fails.

It does not matter when they are taken. A chain whose hashes are taken at any points of a
run is the chain of the same run without, but for those taken; every call returns the same;
and what has been taken, in the order it was, with what is still to be taken after it, is
what the chain without would have (`drained_run`). So what is proved of the runs of a chain,
and does not mention these hashes, is true of the chain of a node.
-/

namespace Itx

open Call Call.Commutes

namespace Blockchain

variable {c : Crypto} {taken : List Hash}

/-- The chain if some hashes had not been taken. -/
def untake (taken : List Hash) (s : Blockchain) : Blockchain :=
  { s with pendingPrunes := taken ++ s.pendingPrunes }

/-! ## Calls do not read them -/

/-- The conflicts with a transaction are looked for in the mempool. -/
theorem commutes_conflictingIndices (newFee : ℕ) (inputs : List TransactionInput) (indices : List ℕ) :
    Commutes (untake taken) (conflictingIndices newFee inputs indices) := by
  induction inputs generalizing indices with
  | nil => exact Commutes.pure indices
  | cons input inputs ih =>
    refine Commutes.get_bind (fun _ => rfl) fun s => ?_
    split
    · split
      · exact Commutes.lift_bind fun _ => Commutes.lift_bind fun _ => Commutes.lift_bind fun _ => ih _
      · exact Commutes.modify_bind (fun _ => rfl) (ih indices)
    · exact ih indices

/-- What is displaced leaves the mempool alone. -/
theorem commutes_removeFromMempool (idx : ℕ) : Commutes (untake taken) (removeFromMempool idx) :=
  Commutes.get_bind (fun _ => rfl) fun _ => Commutes.lift_bind fun _ => Commutes.modify fun _ => rfl

/-- Sorting is of the mempool. -/
theorem commutes_sortMempool : Commutes (untake taken) sortMempool :=
  Commutes.get_bind (fun _ => rfl) fun _ => Commutes.lift_bind fun _ => Commutes.modify fun _ => rfl

/-- A transaction is admitted, or not, whatever has been taken. -/
theorem commutes_addToMempool (now : DateTime) (tx : Transaction) :
    Commutes (untake taken) (addToMempool c now tx) := by
  -- The expired transactions go first, as in a cleanup.
  refine Commutes.modify_bind (fun _ => rfl) <| Commutes.get_bind (fun _ => rfl) fun s => ?_
  refine Commutes.lift_bind fun _ => Commutes.lift_bind fun newFee => ?_
  -- What conflicts is displaced; then the amounts are checked, and the transaction is put in.
  refine (commutes_conflictingIndices newFee tx.inputs []).bind fun indices => ?_
  refine (Commutes.forEach commutes_removeFromMempool _).bind fun _ => ?_
  refine Commutes.get_bind (fun _ => rfl) fun s => ?_
  refine Commutes.lift_bind fun _ => Commutes.lift_bind fun _ => Commutes.lift_bind fun _ => ?_
  exact Commutes.modify_bind (fun _ => rfl) commutes_sortMempool

/-- The target is of the active chain. -/
theorem commutes_tryAdjustTarget : Commutes (untake taken) tryAdjustTarget := by
  refine Commutes.get_bind (fun _ => rfl) fun s => Commutes.ite (Commutes.pure _) ?_
  refine Commutes.lift_bind fun _ => Commutes.lift_bind fun _ => Commutes.lift_bind fun _ => ?_
  exact Commutes.modify fun _ => rfl

/-- The blocks to be pruned are found by their heights. -/
theorem prunableAmong_untake (s : Blockchain) (keepDepth : ℕ) (hs : List Hash) :
    prunableAmong (untake taken s) keepDepth hs = prunableAmong s keepDepth hs := by
  induction hs with
  | nil => rfl
  | cons h hs ih =>
    rw [prunableAmong, ih]
    rfl

/-- The one step that adds to them. -/
theorem commutes_pruneSideBlocks (order : MapOrder) (keepDepth : ℕ) :
    Commutes (untake taken) (pruneSideBlocks order keepDepth) := by
  refine Commutes.get_bind (fun s => ?_) fun s => ?_
  · rw [prunableAmong_untake]
    rfl
  · -- What is pruned is put behind what waits to be taken, so taking the front first is the same.
    refine Commutes.lift_bind fun prunable => Commutes.modify fun t => ?_
    simp only [forgetBlocks, untake, List.append_assoc]

/-- A block on the tip is taken up alike. It may prune blocks, whose hashes come after those
    that have been taken. -/
theorem commutes_addBlockExtendingTip (amb : Ambient) (block : Block) :
    Commutes (untake taken) (addBlockExtendingTip c amb block) := by
  -- The block is stored, and then the target adjusted and the side branches pruned.
  refine Commutes.get_bind (fun _ => rfl) fun s => Commutes.lift_bind fun _ => ?_
  refine Commutes.modify_bind (fun _ => rfl) (commutes_tryAdjustTarget.bind fun _ => ?_)
  refine Commutes.get_bind (fun _ => rfl) fun s => ?_
  split_ifs
  · exact (commutes_pruneSideBlocks _ _).bind fun _ => Commutes.pure _
  · exact Commutes.pure _

/-- The mempool is rebuilt from the blocks and the outputs alone. -/
theorem commutes_syncMempoolWithActiveChain (now : DateTime) :
    Commutes (untake taken) (syncMempoolWithActiveChain c now) := by
  refine Commutes.get_bind (fun _ => rfl) fun s => Commutes.lift_bind fun _ => Commutes.lift_bind fun _ => ?_
  refine Commutes.modify_bind (fun _ => rfl) (Commutes.modify_bind (fun _ => rfl) ?_)
  exact Commutes.modify fun _ => rfl

/-- The chain is switched alike. -/
theorem commutes_reorgTo (now : DateTime) (forkIndex : ℕ) (newChain : List Hash) :
    Commutes (untake taken) (reorgTo c now forkIndex newChain) := by
  refine Commutes.get_bind (fun _ => rfl) fun s =>
    Commutes.lift_bind fun _ => Commutes.lift_bind fun displaced => ?_
  -- The chain is switched first, and the target read off it.
  refine Commutes.modify_bind (fun _ => rfl) (Commutes.get_bind (fun _ => rfl) fun s => ?_)
  refine Commutes.lift_bind fun _ => Commutes.modify_bind (fun _ => rfl) ?_
  -- The mempool is rebuilt, and what the old branch had is offered again.
  refine (commutes_syncMempoolWithActiveChain now).bind fun _ => ?_
  exact Commutes.forEach (fun tx => (commutes_addToMempool now tx).ignore) displaced

/-- An orphan is kept beside the blocks. -/
theorem keepOrphan_untake (block : Block) (s : Blockchain) :
    keepOrphan c block (untake taken s) = untake taken (keepOrphan c block s) := by
  rw [keepOrphan, keepOrphan, apply_ite (untake taken)]
  rfl

/-- An orphan is kept if there is room, whatever has been taken. -/
theorem commutes_bufferOrphan (block : Block) : Commutes (untake taken) (bufferOrphan c block) :=
  Commutes.modify_bind (keepOrphan_untake block) (Commutes.lift _)

/-- A block beside the tip is taken up alike, and may switch the chain. -/
theorem commutes_addBlockOffTip (amb : Ambient) (block : Block) :
    Commutes (untake taken) (addBlockOffTip c amb block) := by
  refine Commutes.lift_bind fun _ => Commutes.get_bind (fun _ => rfl) fun s => ?_
  -- Without its parent the block waits; else its branch is traced back and checked.
  refine Commutes.ite (commutes_bufferOrphan block) (Commutes.lift_bind fun traced => ?_)
  refine Commutes.lift_bind fun fork => Commutes.lift_bind fun shared => Commutes.lift_bind fun _ => ?_
  refine Commutes.modify_bind (fun _ => rfl) (Commutes.get_bind (fun _ => rfl) fun s => ?_)
  refine Commutes.lift_bind fun _ => Commutes.lift_bind fun _ => ?_
  -- With more work the chain is switched.
  split_ifs
  · exact (commutes_reorgTo _ _ _).bind fun _ => Commutes.pure _
  · exact Commutes.pure _

/-- So one block is, wherever its parent is. -/
theorem commutes_acceptBlock (amb : Ambient) (block : Block) :
    Commutes (untake taken) (acceptBlock c amb block) :=
  Commutes.get_bind (fun _ => rfl) fun _ =>
    Commutes.ite (commutes_addBlockExtendingTip amb block) (commutes_addBlockOffTip amb block)

/-- And then the orphans that wait for it, by induction on how deep they may lie. -/
theorem commutes_addBlockWithin (amb : Ambient) (depth : ℕ) (block : Block) :
    Commutes (untake taken) (addBlockWithin c amb depth block) := by
  induction depth generalizing block with
  | zero => exact Commutes.lift _
  | succ depth ih =>
    refine (commutes_acceptBlock amb block).bind fun hash => Commutes.get_bind (fun _ => rfl) fun s => ?_
    -- An orphan is taken out first, and its own orphans are one level deeper.
    refine Commutes.forEach (fun orphan => ?_) _
    have htake : Commutes (untake taken) (Call.modify (takeOrphan c orphan) : ChainCall PUnit) :=
      Commutes.modify fun _ => rfl
    exact htake.bind fun _ => (ih orphan).ignore

/-- So the hashes that have been taken do not matter to `add_block`. -/
theorem commutes_addBlock (amb : Ambient) (block : Block) :
    Commutes (untake taken) (addBlock c amb block) :=
  Commutes.get_bind (fun _ => rfl) fun _ => commutes_addBlockWithin amb _ block

/-- Nor do they to any other call. -/
theorem commutes_call (op : Op) : Commutes (untake taken) (op.call c) := by
  cases op with
  | addBlock amb block => exact commutes_addBlock amb block
  | addToMempool now tx => exact commutes_addToMempool now tx
  | cleanupMempool now => exact Commutes.modify fun _ => rfl
  | setTimeOffset offset => exact Commutes.modify fun _ => rfl

/-! ## Runs -/

/-- What a node does to its chain. -/
inductive DrainOp
  | call (op : Op)
  | takePrunedHashes

def DrainOp.apply (c : Crypto) (s : Blockchain) : DrainOp → Blockchain
  | .call op => (op.call c s).1
  | .takePrunedHashes => s.takePrunedHashes

/-- The chain of a node as a transition system. -/
def drainSystem (c : Crypto) : System Blockchain DrainOp where
  init := {new}
  step s op s' := s' = op.apply c s

/-- A chain, and the hashes that have been taken from it. -/
structure Drained where
  chain : Blockchain
  taken : List Hash

namespace Drained

/-- The chain if none of them had been taken. -/
def whole (d : Drained) : Blockchain := d.chain.untake d.taken

def after (c : Crypto) (d : Drained) : DrainOp → Drained
  | .call op => ⟨(DrainOp.call op).apply c d.chain, d.taken⟩
  | .takePrunedHashes => ⟨DrainOp.takePrunedHashes.apply c d.chain, d.taken ++ d.chain.pendingPrunes⟩

/-- The state after a list of operations. -/
def run (c : Crypto) (ops : List DrainOp) : Drained := ops.foldl (after c) ⟨new, []⟩

/-- The last step of a run comes after the others. -/
theorem run_concat (ops : List DrainOp) (op : DrainOp) : run c (ops ++ [op]) = (run c ops).after c op := by
  rw [run, run, List.foldl_append]
  rfl

end Drained

/-- The calls among the operations. -/
def DrainOp.calls (ops : List DrainOp) : List Op := ops.filterMap fun
  | .call op => some op
  | .takePrunedHashes => none

/-- A step that takes the pruned hashes changes nothing of the whole; any other is the call. -/
theorem Drained.whole_after (d : Drained) (op : DrainOp) :
    (d.after c op).whole = (DrainOp.calls [op]).foldl (fun s op => (op.call c s).1) d.whole := by
  cases op with
  | call op => exact (congrArg Prod.fst (commutes_call op d.chain)).symm
  | takePrunedHashes =>
    simp [Drained.after, Drained.whole, untake, DrainOp.apply, takePrunedHashes, DrainOp.calls]

/-- So the whole of a run is the run of its calls. -/
theorem Drained.whole_run (ops : List DrainOp) :
    (Drained.run c ops).whole = Blockchain.run c (DrainOp.calls ops) := by
  induction ops using List.reverseRecOn with
  | nil => rfl
  | append_singleton ops op ih =>
    rw [Drained.run_concat, Drained.whole_after, ih, Blockchain.run, Blockchain.run, ← List.foldl_append,
      DrainOp.calls, DrainOp.calls, DrainOp.calls, List.filterMap_append]

/-- The chain of a node is that of a run in which nothing is taken, but for what has been. -/
theorem exists_untake {s : Blockchain} (hs : (drainSystem c).Reachable s) :
    ∃ taken, (chainSystem c).Reachable (s.untake taken) := by
  refine hs.invariant (I := fun s => ∃ taken, (chainSystem c).Reachable (s.untake taken)) ?_ ?_
  · rintro s hs
    rw [Set.mem_singleton_iff.1 hs]
    exact ⟨[], .init rfl⟩
  · -- The witness is what has been taken so far.
    rintro s op s' ⟨taken, hs⟩ - rfl
    cases op with
    | call op => exact ⟨taken, hs.step trivial (congrArg Prod.fst (commutes_call op s)).symm⟩
    | takePrunedHashes =>
      refine ⟨taken ++ s.pendingPrunes, ?_⟩
      rwa [DrainOp.apply, takePrunedHashes, untake, List.append_nil]

/-- Whenever the pruned hashes of a chain are taken, the chain is that of the run in which
    they are not, but for them; those taken, in order, and those still to take are its
    own; and a call has the same outcome. -/
theorem drained_run (ops : List DrainOp) (op : Op) :
    let d := Drained.run c ops
    let s := Blockchain.run c (DrainOp.calls ops)
    d.chain = { s with pendingPrunes := d.chain.pendingPrunes } ∧
      d.taken ++ d.chain.pendingPrunes = s.pendingPrunes ∧
      (op.call c d.chain).2 = (op.call c s).2 := by
  intro d s
  have hwhole : d.whole = s := Drained.whole_run ops
  refine ⟨?_, ?_, ?_⟩
  · rw [← hwhole]
    rfl
  · rw [← hwhole]
    rfl
  · rw [← hwhole]
    exact (congrArg Prod.snd (commutes_call op d.chain)).symm

end Blockchain

end Itx
