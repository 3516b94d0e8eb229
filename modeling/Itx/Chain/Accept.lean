import Itx.Chain.Panic

/-!
# What the acceptance of a block can do

The steps of an acceptance (`Moves`) go through states in which a block has been
stored and not yet weighed, or pushed while the target is still that of the window
before. Some invariants hold only when the acceptance is over. They are read off
its end, of which there are five kinds (`Accepts`): the block is refused, buffered
as an orphan, pushed on the tip, stored aside, or its branch becomes the active
chain.

* `Steady.accepts`: there is no other, from any state of a run;
* `Accepting.invariant`: what they preserve holds throughout the runs, in the
  states between two acceptances of one call too (`Accepting.takesUp`);
* `rejected_unchanged`: a call that returns an error has changed nothing, but for
  the block it buffers.
-/

namespace Itx.Blockchain

open Call Utxos

variable {c : Crypto} {amb : Ambient} {s : Blockchain} {block : Block}

/-! ## Steady states -/

/-- A sound state whose next retargeting is in range. -/
structure Steady (c : Crypto) (s : Blockchain) : Prop extends Sound c s where
  target_le : s.target ≤ minTarget

/-- The invariant is the one of the tree, and the bound of the target. -/
theorem steady_iff : Sound c s ∧ s.target ≤ minTarget ↔ Steady c s :=
  ⟨fun h => ⟨h.1, h.2⟩, fun h => ⟨h.toSound, h.target_le⟩⟩

/-- The bound of the target depends on the chain alone. -/
theorem ofChain_target_le : OfChain fun s => s.target ≤ minTarget :=
  ⟨fun _ _ h hs => h.target.le.trans hs, fun _ _ hs => hs⟩

/-- No move of the chain raises the target above the bound. -/
theorem moves_target_le (amb : Ambient) (P : Blockchain → Block → Prop) :
    Moves c amb P (fun s => s.target ≤ minTarget) fun s => s.target ≤ minTarget where
  push _ _ hs _ _ := hs
  adjust _ _ _ _ _ _ _ _ _ ht := adjustTarget_le ht
  prune _ _ hs _ := hs
  store _ _ _ _ hs _ _ := hs
  switch _ _ _ _ _ _ _ _ _ _ ht _ _ := recomputeTargetForChain_le ht
  pool tx _ := ofChain_target_le.addToMempool amb.now tx
  keep s block hs _ _ := by
    rw [keepOrphan]
    split
    exacts [hs, hs]
  take _ _ hs := hs

/-- The invariant holds at the start. -/
theorem steady_new : Steady c new := ⟨sound_new, le_rfl⟩

/-- Admitting a transaction keeps the invariant. -/
theorem Steady.addToMempool (now : DateTime) (tx : Transaction) :
    Preserves (Steady c) (addToMempool c now tx) :=
  ((sound_addToMempool (N := fun _ => False) now tx).and
    (ofChain_target_le.addToMempool now tx)).conseq (fun _ => steady_iff.2)
    (fun _ _ => steady_iff.1) (fun _ _ => steady_iff.1) fun _ hs => hs.1.elim

/-- A cleanup keeps the invariant. -/
theorem Steady.cleanupMempool (h : Steady c s) (now : DateTime) : Steady c (s.cleanupMempool now) :=
  ⟨⟨ofChain_validTree.1 _ _ ((SameChain.refl s).cleanupMempool now) h.toValidTree,
    h.toAdmitted.cleanupMempool now⟩, h.target_le⟩

/-- The clock offset is not part of the invariant. -/
theorem Steady.setTimeOffset (h : Steady c s) (offset : Duration) :
    Steady c (s.setTimeOffset offset) :=
  ⟨⟨ofChain_validTree.2 s offset h.toValidTree, h.nodup, h.present⟩, h.target_le⟩

section

variable (hinj : Function.Injective c.hashBlock) (hne : ∀ block, c.hashBlock block ≠ Hash.zero)

include hinj hne

/-- Every move of the chain keeps the invariant. -/
theorem moves_steady (amb : Ambient) (P : Blockchain → Block → Prop) {N : Blockchain → Prop} :
    Moves c amb P (Steady c) N :=
  ((moves_sound hinj hne amb P (N := fun _ => False)).and (moves_target_le amb P)).congr
    (fun _ => steady_iff) fun _ hs => hs.1.elim

/-- In every run the states are steady. -/
theorem steady_of_reachable (hs : (chainSystem c).Reachable s) : Steady c s :=
  invariant_of_moves (P := fun _ _ _ => True) steady_new (fun amb => moves_steady hinj hne amb _)
    (fun _ hs => hs.toKeyed) Steady.addToMempool (fun now _ hs => hs.cleanupMempool now)
    (fun offset _ hs => hs.setTimeOffset offset)
    (hs.mono fun s op _ => taking_of_forall (fun _ _ _ => trivial) s op)

end

/-! ## Ends of an acceptance -/

/-- The running target is replaced. -/
def setTarget (target : U256) (s : Blockchain) : Blockchain := { s with target }

/-- The running target once a block has been pushed: it is adjusted at the end of
    a window. -/
def retarget (s : Blockchain) : Option U256 :=
  if s.activeChain.length % difficultyUpdateInterval = 0 then do
    let startTime ← timestampAt s.blocks s.activeChain (s.activeChain.length - difficultyUpdateInterval)
    let endTime ← timestampAt s.blocks s.activeChain (s.activeChain.length - 1)
    adjustTarget s.target startTime endTime
  else some s.target

/-- The blocks forgotten once a block has been pushed: those of deep side branches,
    at the end of a window. -/
def outdated (order : MapOrder) (s : Blockchain) : Outcome BtcError (List Hash) :=
  if s.activeChain.length % difficultyUpdateInterval = 0 then
    prunableAmong s sideBranchPruneDepth (order.keys s.blocks.keys)
  else .ok []

/-- The state and the outcome an acceptance ends with. -/
inductive Accepts (c : Crypto) (amb : Ambient) (s : Blockchain) (block : Block) :
    Blockchain → Outcome BtcError Hash → Prop
  /-- The block fails a check. -/
  | refused {o : Outcome BtcError Hash} : (∀ hash, o ≠ .ok hash) → ¬ ExtendsTip c amb.now s block →
      (∀ forkIndex branch, ¬ OffTip c amb.now s block forkIndex branch) → Accepts c amb s block s o
  /-- The parent is unknown. -/
  | buffered : block.header.prevBlockHash ≠ Hash.zero → block.header.prevBlockHash ≠ s.tipHash →
      block.header.prevBlockHash ∉ s.blocks →
      Accepts c amb s block (s.keepOrphan c block) (.err .orphanBlock)
  /-- The block becomes the tip. -/
  | extended {target : U256} {prunable : List Hash} : ExtendsTip c amb.now s block →
      retarget (s.pushBlock c amb.now block) = some target →
      outdated amb.order ((s.pushBlock c amb.now block).setTarget target) = .ok prunable →
      Accepts c amb s block
        (((s.pushBlock c amb.now block).setTarget target).forgetBlocks prunable)
        (.ok (c.hashBlock block))
  /-- The block is stored, and its branch has no more work than the active chain, or
      one of them has a work that cannot be computed. -/
  | stored {forkIndex : ℕ} {branch : List Hash} {o : Outcome BtcError Hash} :
      OffTip c amb.now s block forkIndex branch →
      (∀ newWork chainWork,
        workOfChain (s.storeBlock c block).blocks
          (s.candidateChain forkIndex branch ++ [c.hashBlock block]) = some newWork →
        workOfChain (s.storeBlock c block).blocks s.activeChain = some chainWork →
        newWork ≤ chainWork) →
      (o = .ok (c.hashBlock block) ∨ o = .panic ∧
        ∃ chain, (∀ x ∈ chain, x ∈ (s.storeBlock c block).blocks) ∧
          workOfChain (s.storeBlock c block).blocks chain = none) →
      Accepts c amb s block (s.storeBlock c block) o
  /-- The branch of the block has more work, and becomes the active chain. -/
  | switched {forkIndex : ℕ} {branch : List Hash} {newWork chainWork target : U256} {utxos : Utxos}
      {confirmed : List Hash} {s' : Blockchain} :
      OffTip c amb.now s block forkIndex branch →
      workOfChain (s.storeBlock c block).blocks
        (s.candidateChain forkIndex branch ++ [c.hashBlock block]) = some newWork →
      workOfChain (s.storeBlock c block).blocks s.activeChain = some chainWork →
      chainWork < newWork →
      recomputeTargetForChain (s.storeBlock c block).blocks
        (s.candidateChain forkIndex branch ++ [c.hashBlock block]) = some target →
      replayUtxos c (s.storeBlock c block).blocks
        (s.candidateChain forkIndex branch ++ [c.hashBlock block]) = some utxos →
      SameChain ((s.storeBlock c block).switchTo c amb.now
        (s.candidateChain forkIndex branch ++ [c.hashBlock block]) target utxos confirmed) s' →
      Accepts c amb s block s' (.ok (c.hashBlock block))

/-- Keeping an orphan leaves the active chain. -/
@[simp] theorem keepOrphan_activeChain : (s.keepOrphan c block).activeChain = s.activeChain := by
  rw [keepOrphan]
  split <;> rfl

/-- Without pruned hashes nothing is forgotten. -/
theorem forgetBlocks_nil (s : Blockchain) : s.forgetBlocks [] = s := by
  simp [forgetBlocks, Finmap.eraseAll]

/-- The adjustment of the target succeeds, and changes nothing else. -/
theorem triple_retarget (hle : s.target ≤ minTarget) (hne : s.activeChain ≠ [])
    (hk : ∀ x ∈ s.activeChain, x ∈ s.blocks) : ∃ target, retarget s = some target ∧
      Triple (· = s) tryAdjustTarget (fun _ s' => s' = s.setTarget target) (fun _ _ => False)
        fun _ => False := by
  by_cases hmod : s.activeChain.length % difficultyUpdateInterval = 0
  · have hpos : 0 < s.activeChain.length := List.length_pos_of_ne_nil hne
    obtain ⟨startTime, hstart⟩ :=
      exists_timestampAt (i := s.activeChain.length - difficultyUpdateInterval) hk
        (Nat.sub_lt hpos (by decide))
    obtain ⟨endTime, hend⟩ :=
      exists_timestampAt (i := s.activeChain.length - 1) hk (Nat.sub_lt hpos Nat.one_pos)
    obtain ⟨target, ht, -⟩ := exists_adjustTarget hle startTime endTime
    refine ⟨target, ?_, .get_bind fun s' hs' => ?_⟩
    · rw [retarget, if_pos hmod, hstart, hend]
      exact ht
    · subst hs'
      rw [if_neg (by simp [hne, hmod])]
      refine .lift_bind (Outcome.expect_eq_ok.2 hstart) (.lift_bind (Outcome.expect_eq_ok.2 hend) ?_)
      refine .lift_bind (Outcome.expect_eq_ok.2 ht) (.modify ?_)
      rintro _ rfl
      rfl
  · refine ⟨s.target, if_neg hmod, .get_bind fun s' hs' => ?_⟩
    subst hs'
    rw [if_pos (.inr hmod)]
    exact .pure fun _ e => e

/-- Looking for blocks to prune returns no error. -/
theorem prunableAmong_ne_err {keepDepth : ℕ} {hs : List Hash} {e : BtcError} :
    prunableAmong s keepDepth hs ≠ .err e := by
  induction hs with
  | nil => simp [prunableAmong]
  | cons x hs ih =>
    rw [prunableAmong]
    cases hrest : prunableAmong s keepDepth hs with
    | err e' =>
      rw [Outcome.err_bind]
      exact fun he => ih (hrest.trans he)
    | panic => simp
    | ok rest =>
      rw [Outcome.ok_bind]
      dsimp only
      split
      · simp
      · -- Tracing a block returns, or panics.
        rw [traceBranchWithIndex]
        split
        · simp
        · cases traceFrom s.blocks (activeChainIndex s.activeChain) (s.blocks.keys.card + 1) x [] with
          | none =>
            intro h
            cases h
          | some traced =>
            intro h
            cases h

/-- In a tree of blocks, looking for those to prune does not panic. -/
theorem Tree.exists_prunable (h : Tree c s) (hne : ∀ block, c.hashBlock block ≠ Hash.zero)
    (order : MapOrder) (keepDepth : ℕ) :
    ∃ prunable, prunableAmong s keepDepth (order.keys s.blocks.keys) = .ok prunable := by
  have hpanic : prunableAmong s keepDepth (order.keys s.blocks.keys) ≠ .panic :=
    h.prunableAmong_ne_panic hne fun x hx => Finmap.mem_keys.1 ((order.mem_keys _ _).1 hx)
  have herr := @prunableAmong_ne_err s keepDepth (order.keys s.blocks.keys)
  generalize prunableAmong s keepDepth (order.keys s.blocks.keys) = o at hpanic herr
  cases o with
  | ok prunable => exact ⟨prunable, rfl⟩
  | err e => exact absurd rfl (@herr e)
  | panic => exact absurd rfl hpanic

/-- A block leaves the active chain at one place. -/
theorem BranchesOff.unique {forkIndex forkIndex' : ℕ} {branch branch' : List Hash}
    (h : BranchesOff s block forkIndex branch) (h' : BranchesOff s block forkIndex' branch') :
    forkIndex = forkIndex' ∧ branch = branch' :=
  Prod.mk.inj (Option.some.inj (Outcome.ok.inj (h.traced.symm.trans h'.traced)))

/-- A reorganisation switches the active chain, then changes nothing but the mempool. -/
theorem Steady.triple_switched (h : Steady c s) {forkIndex : ℕ} {branch : List Hash}
    {E : BtcError → Blockchain → Prop} {N : Blockchain → Prop}
    (hoff : OffTip c amb.now s block forkIndex branch) :
    Triple (· = s.storeBlock c block)
      (reorgTo c amb.now forkIndex (s.candidateChain forkIndex branch ++ [c.hashBlock block]))
      (fun _ s' => Admitted s' ∧ ∃ target utxos confirmed,
        recomputeTargetForChain (s.storeBlock c block).blocks
          (s.candidateChain forkIndex branch ++ [c.hashBlock block]) = some target ∧
        replayUtxos c (s.storeBlock c block).blocks
          (s.candidateChain forkIndex branch ++ [c.hashBlock block]) = some utxos ∧
        SameChain ((s.storeBlock c block).switchTo c amb.now
          (s.candidateChain forkIndex branch ++ [c.hashBlock block]) target utxos confirmed) s') E N := by
  refine triple_reorgTo hoff.forkIndex_le (fun x hx => mem_storeBlock.2 (.inr (h.known x hx)))
    (hoff.mem_newChain h.toKeyed) (fun target utxos confirmed h₁ h₂ _ => ?_) fun tx _ t ht => ?_
  · exact ⟨Admitted.switchTo (s := s.storeBlock c block) ⟨h.nodup, h.present⟩ _ _ _ _ _,
      target, utxos, confirmed, h₁, h₂, .refl _⟩
  · obtain ⟨hadmitted, target, utxos, confirmed, h₁, h₂, hsame⟩ := ht
    refine ((triple_addToMempool amb.now tx).and (sameChain_addToMempool t tx) t
      ⟨hadmitted, .refl t⟩).imp ?_ ?_ fun _ ht => ht.1.elim
    all_goals
      exact fun _ t' ht' => ⟨ht'.1, target, utxos, confirmed, h₁, h₂, hsame.trans ht'.2⟩

section

variable (hinj : Function.Injective c.hashBlock) (hne : ∀ block, c.hashBlock block ≠ Hash.zero)

include hinj hne in
/-- What a block on the tip does, in each outcome. -/
theorem Steady.triple_extended (h : Steady c s) (hparent : block.header.prevBlockHash = s.tipHash) :
    Triple (· = s) (addBlockExtendingTip c amb block)
      (fun hash s' => Accepts c amb s block s' (.ok hash))
      (fun e s' => Accepts c amb s block s' (.err e))
      fun s' => Accepts c amb s block s' .panic := by
  refine .get_bind fun s' hs' => ?_
  subst hs'
  have hoff : ∀ forkIndex branch, ¬ OffTip c amb.now s' block forkIndex branch :=
    fun _ _ hoff => hoff.parent_ne_tip hparent
  refine .lift_known (fun _ hok => .modify_bind ?_)
    (fun _ he => .refused nofun (fun htip => nomatch he.symm.trans htip.checked) hoff)
    fun he => .refused nofun (fun htip => nomatch he.symm.trans htip.checked) hoff
  have htip : ExtendsTip c amb.now s' block := ⟨hparent, hok⟩
  have htree : Tree c (s'.pushBlock c amb.now block) :=
    (moves_tree hinj hne amb fun _ _ => True).push s' block h.toTree trivial htip
  obtain ⟨target, ht, hadjust⟩ := triple_retarget (s := s'.pushBlock c amb.now block) h.target_le
    (by simp) htree.known
  refine .bind (hadjust.conseq (fun _ => id) (fun _ _ => id) (fun _ _ => False.elim)
    fun _ => False.elim) fun _ => .get_bind fun t e => ?_
  subst e
  have htree' : Tree c ((s'.pushBlock c amb.now block).setTarget target) :=
    ⟨⟨htree.blocks, htree.orphans, htree.known⟩, htree.rooted, htree.active⟩
  obtain ⟨prunable, hp⟩ := htree'.exists_prunable hne amb.order sideBranchPruneDepth
  dsimp only
  split
  · next hmod =>
    refine .bind (R := fun _ t => t =
      ((s'.pushBlock c amb.now block).setTarget target).forgetBlocks prunable) ?_ fun _ => .pure ?_
    · refine .get_bind fun t e => ?_
      subst e
      refine .lift_bind hp (.modify ?_)
      rintro _ rfl
      rfl
    · rintro _ rfl
      exact .extended htip ht ((if_pos hmod).trans hp)
  · next hmod =>
    refine .pure ?_
    rintro _ rfl
    rw [← forgetBlocks_nil ((s'.pushBlock c amb.now block).setTarget target)]
    exact .extended htip ht (if_neg hmod)

include hne in
/-- What a block off the tip does, in each outcome. -/
theorem Steady.triple_offTip (h : Steady c s) (hparent : block.header.prevBlockHash ≠ s.tipHash) :
    Triple (· = s) (addBlockOffTip c amb block)
      (fun hash s' => Accepts c amb s block s' (.ok hash))
      (fun e s' => Accepts c amb s block s' (.err e))
      fun s' => Accepts c amb s block s' .panic := by
  have htip : ¬ ExtendsTip c amb.now s block := fun htip => hparent htip.parent
  refine .lift_known (fun _ hzero => .get_bind fun s' hs' => ?_) (fun _ he => ?_)
    fun hpanic => absurd hpanic Outcome.ensure_ne_panic
  swap
  · exact .refused nofun htip fun _ _ hoff =>
      nomatch he.symm.trans (Outcome.ensure_of hoff.parent_ne_zero)
  subst hs'
  have hzero := Outcome.ensure_eq_ok.1 hzero
  split
  · next hmem =>
    refine .bind (R := fun _ t => t = s'.keepOrphan c block) (.modify ?_) fun _ =>
      .lift (fun _ _ _ he => nomatch he) ?_ fun _ _ he => nomatch he
    · rintro _ rfl
      rfl
    · rintro e _ rfl he
      obtain rfl := Outcome.err.inj he
      exact .buffered hzero hparent hmem
  · next hmem =>
    have hmem := not_not.1 hmem
    obtain ⟨chain, hchain⟩ := h.rooted _ hmem
    obtain ⟨forkIndex, branch, ht, hle⟩ : ∃ forkIndex branch,
        traceBranchWithIndex s'.blocks (activeChainIndex s'.activeChain)
          block.header.prevBlockHash = .ok (some (forkIndex, branch)) ∧
        forkIndex ≤ s'.activeChain.length := by
      obtain ⟨ht, -, hle⟩ := traceBranchWithIndex_eq (h.zero_notMem hne) h.active hchain
      exact ⟨_, _, ht, hle⟩
    refine .lift_bind ht (.lift_bind rfl (.lift_bind (Outcome.expect_eq_ok.2 (if_pos hle)) ?_))
    have hbr : BranchesOff s' block forkIndex branch := ⟨hzero, hparent, hmem, ht, hle⟩
    have hchecked : ∀ i l, OffTip c amb.now s' block i l →
        checkOffTip c amb.now s' (s'.candidateChain forkIndex branch) block = .ok () :=
      fun i l hoff => by
        obtain ⟨rfl, rfl⟩ := hbr.unique hoff.toBranchesOff
        exact hoff.checked
    refine .lift_known (fun _ hok => .modify_bind (.get_bind fun t e => ?_))
      (fun _ he => .refused nofun htip fun _ _ hoff => nomatch he.symm.trans (hchecked _ _ hoff))
      fun he => .refused nofun htip fun _ _ hoff => nomatch he.symm.trans (hchecked _ _ hoff)
    subst e
    have hoff : OffTip c amb.now s' block forkIndex branch := ⟨hbr, hok⟩
    have hnew := hoff.mem_newChain h.toKeyed
    have hactive : ∀ x ∈ s'.activeChain, x ∈ (s'.storeBlock c block).blocks := fun x hx =>
      mem_storeBlock.2 (.inr (h.known x hx))
    -- The two works, if they can be computed, are compared.
    refine .lift_known (fun newWork hw => .lift_known (fun chainWork hw' => ?_)
      (fun _ he => absurd he Outcome.expect_ne_err) fun hn => ?_)
      (fun _ he => absurd he Outcome.expect_ne_err) fun hn => ?_
    · have hw := Outcome.expect_eq_ok.1 hw
      have hw' := Outcome.expect_eq_ok.1 hw'
      dsimp only
      split
      · next hlt =>
        refine .bind (h.triple_switched hoff) fun _ => .pure fun s'' hs => ?_
        obtain ⟨-, target, utxos, confirmed, ht, hu, hsame⟩ := hs
        exact .switched hoff hw hw' hlt ht hu hsame
      · next hlt =>
        refine .pure fun _ e => ?_
        subst e
        refine .stored hoff (fun w w' h₁ h₂ => ?_) (.inl rfl)
        rw [Option.some.inj (h₁.symm.trans hw), Option.some.inj (h₂.symm.trans hw')]
        exact not_lt.1 hlt
    · have hn := Outcome.expect_eq_panic.1 hn
      exact .stored hoff (fun _ _ _ h₂ => nomatch hn.symm.trans h₂) (.inr ⟨rfl, _, hactive, hn⟩)
    · have hn := Outcome.expect_eq_panic.1 hn
      exact .stored hoff (fun _ _ h₁ => nomatch hn.symm.trans h₁) (.inr ⟨rfl, _, hnew, hn⟩)

include hinj hne in
/-- The acceptance of a block ends in one of these ways. -/
theorem Steady.accepts (h : Steady c s) (amb : Ambient) (block : Block) :
    Accepts c amb s block (acceptBlock c amb block s).1 (acceptBlock c amb block s).2 := by
  have key : Triple (· = s) (acceptBlock c amb block)
      (fun hash s' => Accepts c amb s block s' (.ok hash))
      (fun e s' => Accepts c amb s block s' (.err e))
      fun s' => Accepts c amb s block s' .panic := by
    refine .get_bind fun s' hs' => ?_
    subst hs'
    split
    · next hparent => exact h.triple_extended hinj hne hparent
    · next hparent => exact h.triple_offTip hne hparent
  have hend := key s rfl
  generalize acceptBlock c amb block s = r at hend
  obtain ⟨s', a | e | _⟩ := r
  exacts [hend, hend, hend]

end

/-! ## Invariants of acceptances -/

/-- The acceptances, and the taking of an orphan, preserve `I`. -/
structure Accepting (c : Crypto) (I : Blockchain → Prop) : Prop where
  accept : ∀ amb s block s' o, Steady c s → I s → Accepts c amb s block s' o → I s'
  take : ∀ s block, I s → I (s.takeOrphan c block)

section

variable {P : Blockchain → Block → Prop} {I : Blockchain → Prop}
  (hinj : Function.Injective c.hashBlock) (hne : ∀ block, c.hashBlock block ≠ Hash.zero)

include hinj hne

/-- A block keeps the invariant, accepted or not. -/
theorem preserves_steady (amb : Ambient) (block : Block) :
    Preserves (Steady c) (acceptBlock c amb block) :=
  fun s hs => triple_acceptBlock (P := fun _ _ => True) (moves_steady hinj hne amb _)
    (fun _ h => h.toKeyed) (.of_imp fun _ => id) hs trivial s rfl

/-- What the acceptances of blocks meeting `P` preserve is preserved by a call that
    takes up such blocks only. -/
theorem triple_takes
    (haccept : ∀ s block s' o, Steady c s → I s → P s block → Accepts c amb s block s' o → I s')
    (htake : ∀ s block, I s → I (s.takeOrphan c block)) (depth : ℕ) (block : Block) :
    Triple (fun s => (Steady c s ∧ I s) ∧ Takes c amb P depth block s)
      (addBlockWithin c amb depth block) (fun _ s => Steady c s ∧ I s)
      (fun _ s => Steady c s ∧ I s) fun s => Steady c s ∧ I s := by
  induction depth generalizing block with
  | zero => exact fun s hs => hs.1
  | succ depth ih =>
    rintro s ⟨hs, hP, htakes⟩
    have hI : I (acceptBlock c amb block s).1 :=
      haccept s block _ _ hs.1 hs.2 hP (hs.1.accepts hinj hne amb block)
    have hsteady := (preserves_steady hinj hne amb block).apply hs.1
    change Ends _ _ _ (Call.bind (acceptBlock c amb block) _ s)
    rw [Call.bind]
    generalize he : acceptBlock c amb block s = r at hI hsteady
    obtain ⟨s', hash | e | _⟩ := r
    · -- The block has been accepted, and the orphans that waited for it are taken up.
      refine (Triple.get_bind fun t ht => ?_ :
        Triple (· = s') _ (fun _ s => Steady c s ∧ I s) _ _) s' rfl
      subst ht
      refine (Triple.forEach_along (I := fun s => Steady c s ∧ I s)
        (R := fun orphan t => Takes c amb P depth orphan (takeOrphan c orphan t))
        fun orphan _ => ?_).conseq (fun _ e => ?_) (fun _ _ => id) (fun _ _ => id) fun _ => id
      · refine .bind (R := fun _ t => (Steady c t ∧ I t) ∧ Takes c amb P depth orphan t)
          (.modify fun t ht => ⟨⟨?_, htake t orphan ht.1.2⟩, ht.2⟩) fun _ => .ignore (ih orphan)
        exact (moves_steady hinj hne amb (fun _ _ => True) (N := Steady c)).take t orphan ht.1.1
      · subst e
        exact ⟨⟨hsteady, hI⟩, htakes _ hash he⟩
    · exact ⟨hsteady, hI⟩
    · exact ⟨hsteady, hI⟩

end

namespace Accepting

variable {I : Blockchain → Prop} (hinj : Function.Injective c.hashBlock)
  (hne : ∀ block, c.hashBlock block ≠ Hash.zero)

include hinj hne

/-- What the acceptances preserve, given steady states. -/
theorem preserves_acceptBlock (h : Accepting c I) (amb : Ambient) (block : Block) :
    Preserves (fun s => Steady c s ∧ I s) (acceptBlock c amb block) := by
  intro s hs
  have hsteady := preserves_steady hinj hne amb block s hs.1
  have haccepts := h.accept amb s block _ _ hs.1 hs.2 (hs.1.accepts hinj hne amb block)
  generalize acceptBlock c amb block s = r at hsteady haccepts
  obtain ⟨s', a | e | _⟩ := r
  exacts [⟨hsteady, haccepts⟩, ⟨hsteady, haccepts⟩, ⟨hsteady, haccepts⟩]

/-- A block and the orphans it attaches keep the invariant, and whatever accepting a block
    keeps. -/
theorem preserves_addBlockWithin (h : Accepting c I) (amb : Ambient) (depth : ℕ) (block : Block) :
    Preserves (fun s => Steady c s ∧ I s) (addBlockWithin c amb depth block) :=
  (triple_takes (P := fun _ _ => True) hinj hne (fun s block s' o hs hI _ => h.accept amb s block s' o hs hI)
    h.take depth block).conseq (fun s hs => ⟨hs, takes_of_forall (fun _ _ => trivial) _ _ _⟩)
    (fun _ _ => id) (fun _ _ => id) fun _ => id

/-- What the acceptances preserve holds in every state reached. -/
theorem invariant (h : Accepting c I) (ho : OfChain I) (h₀ : I new)
    (hs : (chainSystem c).Reachable s) : I s := by
  refine (hs.invariant (I := fun s => Steady c s ∧ I s) (fun s hs => ?_)
    fun s op s' hI _ hst => ?_).2
  · rw [Set.mem_singleton_iff.1 hs]
    exact ⟨steady_new, h₀⟩
  · rw [show s' = (op.call c s).1 from hst]
    cases op with
    | addBlock amb block => exact (h.preserves_addBlockWithin hinj hne amb _ block).apply hI
    | addToMempool now tx =>
      exact ⟨(Steady.addToMempool now tx).apply hI.1, (ho.addToMempool now tx).apply hI.2⟩
    | cleanupMempool now =>
      exact ⟨hI.1.cleanupMempool now, ho.1 _ _ ((SameChain.refl s).cleanupMempool now) hI.2⟩
    | setTimeOffset offset => exact ⟨hI.1.setTimeOffset offset, ho.2 s offset hI.2⟩

/-- It holds in the states in which the blocks of one call are taken up. -/
theorem takesUp (h : Accepting c I) {P : Blockchain → Block → Prop}
    (hP : ∀ t b, Steady c t → I t → P t b) (hs : Steady c s) (hI : I s) (amb : Ambient)
    (block : Block) : TakesUp c amb P block s := by
  rw [TakesUp]
  generalize s.orphans.keys.card + 1 = depth
  induction depth generalizing block s with
  | zero => trivial
  | succ depth ih =>
    refine ⟨hP s block hs hI, fun s' hash he => ?_⟩
    have hs' : Steady c s' ∧ I s' := by
      have := (h.preserves_acceptBlock hinj hne amb block).apply ⟨hs, hI⟩
      rwa [he] at this
    have htake : ∀ t orphan, Steady c t ∧ I t →
        Steady c (t.takeOrphan c orphan) ∧ I (t.takeOrphan c orphan) := fun t orphan ht =>
      ⟨(moves_steady hinj hne amb (fun _ _ => True) (N := Steady c)).take t orphan ht.1,
        h.take t orphan ht.2⟩
    refine along_of_preserves (I := fun t => Steady c t ∧ I t) (fun orphan _ => ?_)
      (fun orphan _ t ht => ?_) hs'
    · exact .bind (.modify fun t ht => htake t orphan ht) fun _ =>
        .ignore (h.preserves_addBlockWithin hinj hne amb depth orphan)
    · exact ih (htake t orphan ht).1 (htake t orphan ht).2 orphan

end Accepting

/-! ## Refusals -/

/-- Adjusting the target returns no error. -/
theorem infallible_tryAdjustTarget : Infallible tryAdjustTarget := by
  refine .bind .get fun s => ?_
  split
  · exact .pure _
  · exact .bind (.expect _) fun _ => .bind (.expect _) fun _ => .bind (.expect _) fun _ => .modify _

/-- Pruning returns no error. -/
theorem infallible_pruneSideBlocks (order : MapOrder) (keepDepth : ℕ) :
    Infallible (pruneSideBlocks order keepDepth) :=
  .bind .get fun _ => .bind (.lift fun _ => prunableAmong_ne_err) fun _ => .modify _

/-- A reorganization that was found valid returns no error. -/
theorem infallible_reorgTo (now : DateTime) (forkIndex : ℕ) (newChain : List Hash) :
    Infallible (reorgTo c now forkIndex newChain) := by
  refine .bind .get fun s => .bind (.expect _) fun _ => .bind (.expect _) fun displaced => ?_
  refine .bind (.modify _) fun _ => .bind .get fun s => .bind (.expect _) fun target => ?_
  refine .bind (.modify _) fun _ => .bind ?_ fun _ => .forEach fun tx _ => .ignore _
  refine .bind .get fun s => .bind (.expect _) fun _ => .bind (.expect _) fun utxos => ?_
  exact .bind (.modify _) fun _ => .bind (.modify _) fun _ => .modify _

/-- An acceptance that returns an error has changed nothing, or has buffered the
    block; otherwise it leaves the orphans alone. -/
theorem triple_refused (amb : Ambient) (block : Block) (s : Blockchain) :
    Triple (· = s) (acceptBlock c amb block) (fun _ s' => s'.orphans = s.orphans)
      (fun e s' => s' = s ∨ e = .orphanBlock ∧ s' = s.keepOrphan c block)
      fun s' => s'.orphans = s.orphans := by
  -- Past the checks, nothing fails and nothing touches the orphans.
  have past : ∀ {α : Type} {x : ChainCall α} {t : Blockchain}, t.orphans = s.orphans →
      Infallible x → Preserves (fun t => t.orphans = s.orphans) x →
      Triple (· = t) x (fun _ s' => s'.orphans = s.orphans)
        (fun e s' => s' = s ∨ e = .orphanBlock ∧ s' = s.keepOrphan c block)
        fun s' => s'.orphans = s.orphans := fun ht hx hO =>
    (hx.triple hO).conseq (fun _ e => e ▸ ht) (fun _ _ => id) (fun _ _ => False.elim) fun _ => id
  refine .get_bind fun t e => ?_
  subst e
  split
  · refine .get_bind fun t' e => ?_
    subst e
    refine .lift_known (fun _ _ => ?_) (fun _ _ => .inl rfl) fun _ => rfl
    refine past rfl (.bind (.modify _) fun _ => .bind infallible_tryAdjustTarget fun _ =>
      .bind .get fun s => ?_) (.bind (.modify fun _ => id) fun _ => .bind orphans_tryAdjustTarget
        fun _ => .bind .get fun s => ?_)
    all_goals
      dsimp only
      split
    · exact .bind (infallible_pruneSideBlocks _ _) fun _ => .pure _
    · exact .pure _
    · exact .bind (orphans_pruneSideBlocks _ _) fun _ => .pure _
    · exact .pure _
  · refine .lift_known (fun _ _ => .get_bind fun t' e => ?_) (fun _ _ => .inl rfl) fun _ => rfl
    subst e
    split
    · refine .modify_bind (.lift (fun _ _ _ he => nomatch he) ?_ fun _ _ he => nomatch he)
      rintro e _ rfl he
      exact .inr ⟨(Outcome.err.inj he).symm, rfl⟩
    · refine .lift_known (fun _ _ => .lift_known (fun p _ => .lift_known (fun _ _ => ?_)
        (fun _ _ => .inl rfl) fun _ => rfl) (fun _ _ => .inl rfl) fun _ => rfl)
        (fun _ _ => .inl rfl) fun _ => rfl
      refine .lift_known (fun _ _ => ?_) (fun _ _ => .inl rfl) fun _ => rfl
      refine past rfl (.bind (.modify _) fun _ => .bind .get fun s => .bind (.expect _) fun _ =>
        .bind (.expect _) fun _ => ?_) (.bind (.modify fun _ => id) fun _ => .bind .get fun s =>
          .bind (.lift _) fun _ => .bind (.lift _) fun _ => ?_)
      all_goals
        dsimp only
        split
      · exact .bind (infallible_reorgTo _ _ _) fun _ => .pure _
      · exact .pure _
      · exact .bind (orphans_reorgTo _ _) fun _ => .pure _
      · exact .pure _

/-- The attachment of orphans returns no error. -/
theorem infallible_attach (depth : ℕ) (hash : Hash) :
    Infallible (Call.get >>= fun s => Call.forEach (readyOrphans amb.order s hash) fun orphan => do
      Call.modify (takeOrphan c orphan)
      Call.ignore (addBlockWithin c amb depth orphan)) :=
  .bind .get fun _ => .forEach fun _ _ => .bind (.modify _) fun _ => .ignore _

/-- An error of a call is that of its block. -/
theorem acceptBlock_of_addBlock_err {s' : Blockchain} {e : BtcError}
    (h : addBlock c amb block s = (s', .err e)) : acceptBlock c amb block s = (s', .err e) :=
  Infallible.bind_eq_err (infallible_attach _) h

/-- A block that is not accepted ends the call. -/
theorem addBlock_of_refused (h : ∀ hash, (acceptBlock c amb block s).2 ≠ .ok hash) :
    (addBlock c amb block s).1 = (acceptBlock c amb block s).1 ∧
      ∀ u, (addBlock c amb block s).2 ≠ .ok u := by
  change (Call.bind (acceptBlock c amb block) _ s).1 = _ ∧
    ∀ u, (Call.bind (acceptBlock c amb block) _ s).2 ≠ .ok u
  rw [Call.bind]
  generalize acceptBlock c amb block s = r at h
  obtain ⟨s', hash | e | _⟩ := r
  · exact absurd rfl (h hash)
  · exact ⟨rfl, by simp⟩
  · exact ⟨rfl, by simp⟩

/-- A call returns if the block is accepted and nothing panics. -/
theorem addBlock_eq_ok : (addBlock c amb block s).2 = .ok () ↔
    (∃ hash, (acceptBlock c amb block s).2 = .ok hash) ∧ (addBlock c amb block s).2 ≠ .panic := by
  constructor
  · intro hok
    refine ⟨?_, by simp [hok]⟩
    by_contra hn
    exact (addBlock_of_refused fun hash he => hn ⟨hash, he⟩).2 () hok
  · rintro ⟨⟨hash, hok⟩, hpanic⟩
    cases hout : (addBlock c amb block s).2 with
    | ok u => rfl
    | err e =>
      have haccept := acceptBlock_of_addBlock_err (Prod.ext rfl hout : addBlock c amb block s =
        ((addBlock c amb block s).1, .err e))
      rw [haccept] at hok
      cases hok
    | panic => exact absurd hout hpanic

/-- A block on the tip is accepted if and only if its checks pass. -/
theorem Steady.accepted_iff (hinj : Function.Injective c.hashBlock)
    (hne : ∀ block, c.hashBlock block ≠ Hash.zero) (h : Steady c s)
    (hparent : block.header.prevBlockHash = s.tipHash) :
    (∃ hash, (acceptBlock c amb block s).2 = .ok hash) ↔ ExtendsTip c amb.now s block := by
  have haccept := h.accepts hinj hne amb block
  generalize acceptBlock c amb block s = r at haccept
  obtain ⟨s', o⟩ := r
  cases haccept with
  | refused ho htip _ => exact ⟨fun ⟨hash, hok⟩ => absurd hok (ho hash), fun he => absurd he htip⟩
  | buffered _ hntip _ => exact absurd hparent hntip
  | extended htip _ _ => exact ⟨fun _ => htip, fun _ => ⟨_, rfl⟩⟩
  | stored hoff _ _ => exact absurd hparent hoff.parent_ne_tip
  | switched hoff _ _ _ _ _ _ => exact absurd hparent hoff.parent_ne_tip

/-- There is a most to the orphans that are kept. -/
theorem card_keepOrphan (h : s.orphans.keys.card ≤ maxOrphanBlocks) (block : Block) :
    (s.keepOrphan c block).orphans.keys.card ≤ maxOrphanBlocks := by
  rw [keepOrphan]
  split
  · exact h
  · next hroom =>
    have hsub : (s.orphans.insert (c.hashBlock block) block).keys ⊆
        insert (c.hashBlock block) s.orphans.keys := fun x hx => by
      rw [Finmap.mem_keys, Finmap.mem_insert] at hx
      rwa [Finset.mem_insert, Finmap.mem_keys]
    have := (Finset.card_le_card hsub).trans (Finset.card_insert_le _ _)
    dsimp only
    omega

/-- A block and what it attaches keep the most there is to the orphans. -/
theorem preserves_card_orphans (amb : Ambient) (depth : ℕ) (block : Block) :
    Preserves (fun s => s.orphans.keys.card ≤ maxOrphanBlocks)
      (addBlockWithin c amb depth block) := by
  induction depth generalizing block with
  | zero => exact .lift _
  | succ depth ih =>
    refine .bind (fun s hs => (triple_refused amb block s s rfl).imp (fun _ _ h => h ▸ hs)
      (fun _ _ h => ?_) fun _ h => h ▸ hs) fun hash => .bind .get fun s => .forEach fun orphan _ =>
        .bind (.modify fun t ht => ?_) fun _ => .ignore (ih orphan)
    · rcases h with rfl | ⟨-, rfl⟩
      exacts [hs, card_keepOrphan hs block]
    · refine (Finset.card_le_card fun x hx => ?_).trans ht
      rw [Finmap.mem_keys, takeOrphan, Finmap.mem_erase] at hx
      exact Finmap.mem_keys.2 hx.2

/-- At most `MAX_ORPHAN_BLOCKS` orphans wait. -/
theorem card_orphans_le (hs : (chainSystem c).Reachable s) :
    s.orphans.keys.card ≤ maxOrphanBlocks := by
  refine hs.invariant (I := fun s => s.orphans.keys.card ≤ maxOrphanBlocks) (fun s hs => ?_)
    fun s op s' hI _ hst => ?_
  · rw [Set.mem_singleton_iff.1 hs]
    exact Nat.zero_le _
  · rw [show s' = (op.call c s).1 from hst]
    cases op with
    | addBlock amb block => exact (preserves_card_orphans amb _ block).apply hI
    | addToMempool now tx =>
      exact ((orphans_addToMempool (O := s.orphans) tx).apply rfl).symm ▸ hI
    | cleanupMempool now => exact hI
    | setTimeOffset offset => exact hI

/-- In every state of a run, a call of `add_block` that returns an error other than
    `OrphanBlock` leaves the state as it was, and one that returns `OrphanBlock` at
    most inserts the block among the orphans, which never exceed their limit. -/
theorem rejected_unchanged (hs : (chainSystem c).Reachable s) {amb : Ambient} {block : Block}
    {s' : Blockchain} {e : BtcError} (h : addBlock c amb block s = (s', .err e)) :
    (e ≠ .orphanBlock → s' = s) ∧
      (e = .orphanBlock → s' = s ∨
        s' = { s with orphans := s.orphans.insert (c.hashBlock block) block }) ∧
      s'.orphans.keys.card ≤ maxOrphanBlocks := by
  have haccept := acceptBlock_of_addBlock_err h
  have hend := triple_refused (c := c) amb block s s rfl
  rw [haccept] at hend
  have hcard := card_orphans_le hs
  rcases hend with rfl | ⟨rfl, rfl⟩
  · exact ⟨fun _ => rfl, fun _ => .inl rfl, hcard⟩
  · refine ⟨fun hne => absurd rfl hne, fun _ => ?_, card_keepOrphan hcard block⟩
    rw [keepOrphan]
    split
    exacts [.inl rfl, .inr rfl]

/-- A block whose parent is not there yet is buffered. -/
theorem rejected_unchanged_orphan :
    let s := run Sample.forkCrypto (Sample.delivering [Sample.genesis])
    let r := addBlock Sample.forkCrypto Sample.ambient Sample.rightNext s
    r.2 = .err .orphanBlock ∧ r.1.orphans.keys.card = 1 ∧
      r.1 = { s with orphans := s.orphans.insert 4 Sample.rightNext } := by
  intro s r
  have hout : r.2 = .err .orphanBlock := by decide +kernel
  have hcard : r.1.orphans.keys.card = 1 := by decide +kernel
  refine ⟨hout, hcard, ?_⟩
  have hend : addBlock Sample.forkCrypto Sample.ambient Sample.rightNext s = (r.1, .err .orphanBlock) := by
    rw [← hout]
  rcases (rejected_unchanged (reachable_run _) hend).2.1 rfl with hsame | hkept
  · have hnone : s.orphans.keys.card = 0 := by decide +kernel
    rw [hsame, hnone] at hcard
    cases hcard
  · rw [show (4 : Hash) = Sample.forkCrypto.hashBlock Sample.rightNext by decide +kernel]
    exact hkept

end Itx.Blockchain
