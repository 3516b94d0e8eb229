import Itx.Node.Network
import Itx.Chain.Delivery

/-!
# What the nodes of a network agree on

Whatever is asked of the nodes, and whatever is lost between them, the active chains of any
two of them are the same up to some block, and have no block in common after it; and two
nodes with the same last block have the same active chain, the same unspent outputs but for
their marks, the same target and the same work (`ledgers_agree`).

They come to agree, if every node broadcasts to all others and nothing is lost. What is
broadcast goes one hop only, and a block that is kept as an orphan when a client submits it
is not broadcast at all; so a block has to be submitted where its parent is known. Then
whatever a node holds, each other node holds, or it is on its way there (`Spreading`), and
when nothing is on its way all know the same blocks, have no orphans, and have active chains
of the same work, the most there is (`network_converges`). The blocks are of a set that is
closed under parents: each passes its checks on its parent chain and is dated in time, and no
chain of them is longer than `SIDE_BRANCH_PRUNE_DEPTH`, so that none is pruned (`BlockSet`).
No clock is set off, and a node a block is delivered to has room for an orphan (`Reliable`).
-/

namespace Itx

open Blockchain

/-! ## Two chains -/

/-- Two chains of sets of blocks that agree on the blocks they share part once. -/
theorem Blockchain.Linked.exists_common {blocks blocks' : Finmap fun _ : Hash => Block} {l l' : List Hash}
    (h₀ : Hash.zero ∉ blocks) (h₀' : Hash.zero ∉ blocks')
    (hagree : ∀ x b b', blocks.lookup x = some b → blocks'.lookup x = some b' → b = b')
    (h : Linked blocks l) (h' : Linked blocks' l') :
    ∃ common rest rest', l = common ++ rest ∧ l' = common ++ rest' ∧ rest.Disjoint rest' := by
  induction l using List.reverseRecOn with
  | nil => exact ⟨[], [], l', rfl, rfl, List.disjoint_nil_left l'⟩
  | append_singleton l x ih =>
    by_cases hx : x ∈ l'
    · -- The block ends the same chain in both.
      obtain ⟨pre, post, rfl⟩ := List.append_of_mem hx
      rw [List.append_cons] at h'
      have he := h.unique_of_agree h₀ h₀' hagree h'.of_append (by rw [tipOf_concat, tipOf_concat])
      exact ⟨l ++ [x], [], post, by rw [List.append_nil], by rw [he, ← List.append_cons],
        List.disjoint_nil_left post⟩
    · obtain ⟨common, rest, rest', rfl, rfl, hdisjoint⟩ := ih h.of_append
      refine ⟨common, rest ++ [x], rest', by rw [List.append_assoc], rfl, ?_⟩
      refine List.disjoint_append_left.2 ⟨hdisjoint, List.singleton_disjoint.2 fun hmem => hx ?_⟩
      exact List.mem_append_right _ hmem

/-! ## The chain of a node -/

variable {ι : Type} {c : Crypto} {e : Encoding} {s : Blockchain} {σ : Network ι}

/-- The chain of a node starts from the genesis. -/
structure Grown (c : Crypto) (s : Blockchain) : Prop extends Steady c s where
  passes : Retargeted s ∧ Each (PassesOn c) s
  nonempty : s.activeChain ≠ []

theorem Grown.exists_cons (h : Grown c s) : ∃ genesis rest, genesisBlock c = some genesis ∧
    s.activeChain = c.hashBlock genesis :: rest := by
  obtain ⟨x, rest, hx⟩ := List.exists_cons_of_ne_nil h.nonempty
  have hlinked : Linked s.blocks ([] ++ [x]) := by
    have htake := h.active.take 1
    rwa [hx] at htake
  obtain ⟨b, hb⟩ := Finmap.mem_iff.1 (hlinked.mem x (by simp))
  obtain ⟨genesis, hg, he⟩ := (h.passes.2 [] x b hlinked hb).genesis rfl
  exact ⟨genesis, rest, hg, by rw [hx, ← he, h.blocks x b hb]⟩

/-- What every call on a chain keeps, and what establishing the genesis starts with, every node
    of the network has. -/
theorem chain_invariant [DecidableEq ι] {I : Blockchain → Prop} (hstart : ∀ s, Established c s → I s)
    (htake : ∀ s, I s → I s.takePrunedHashes)
    (hcall : ∀ op : Op, Call.Preserves I (op.call c))
    (hσ : (networkSystem c e).Reachable σ) (j : ι) : I (σ.chain j) := by
  have hset : ∀ {σ : Network ι} {k : ι} {chain : Blockchain}, (∀ j, I (σ.chain j)) → I chain →
      ∀ j, I (Function.update σ.chain k chain j) := by
    intro σ k chain h hchain j
    rw [Function.update_apply]
    split_ifs
    exacts [hchain, h j]
  have hhandle : ∀ {σ : Network ι} (k : ι) (env : Surroundings) (m : Packet), (∀ j, I (σ.chain j)) →
      I (handle c e env m (σ.chain k)).1 := fun {σ} k env m h =>
    (preserves_handle_of htake (fun block _ => hcall (.addBlock env.amb block))
      fun tx _ => hcall (.addToMempool env.amb.now tx)).apply (h k)
  refine hσ.invariant (I := fun σ => ∀ j, I (σ.chain j)) (fun σ hσ j => ?_) ?_ j
  · exact hstart _ (Network.Starts.chain hσ j)
  rintro σ op _ h - rfl
  cases op with
  | ask k env m => exact hset h (hhandle k env m h)
  | deliver i k n env =>
    dsimp only [Network.after]
    split
    · exact hset h (hhandle k env _ h)
    · exact h
  | lose _ _ _ | connect _ _ | disconnect _ _ => exact h
  | fetch k i start count =>
    dsimp only [Network.after]
    split
    exacts [h, h]
  | add k env =>
    dsimp only [Network.after, Network.added]
    split
    · exact h
    · next block _ _ =>
      have hadd : Call.Preserves I (Call.mapErr SyncError.ofBlock (addBlock c env.amb block)) :=
        Call.Triple.mapErr (hcall (.addBlock env.amb block))
      have hsync : Call.Preserves I (syncBlock c env block) :=
        hadd.bind fun _ => preserves_persistChainState htake _ _
      exact hset h (hsync.apply (h k))
  | cleanup k now => exact hset h ((hcall (.cleanupMempool now)).apply (h k))
  | sample k offset => exact hset h ((hcall (.setTimeOffset offset)).apply (h k))

/-- Soundness is not about the pruned hashes. -/
theorem Blockchain.Steady.withPrunes (h : Steady c s) (pruned : List Hash) :
    Steady c { s with pendingPrunes := pruned } where
  blocks := h.blocks
  orphans := h.orphans
  known := h.known
  rooted := h.rooted
  active := h.active
  replay := h.replay
  valid := h.valid
  nodup := h.nodup
  present := h.present
  target_le := h.target_le

section

variable (hinj : Function.Injective c.hashBlock) (hne : ∀ block, c.hashBlock block ≠ Hash.zero)

include hinj hne

/-- The chain of a node is sound, whatever has been taken of its pruned hashes. -/
theorem steady_of_drained (hs : (drainSystem c).Reachable s) :
    Steady c s ∧ Retargeted s ∧ Each (PassesOn c) s := by
  obtain ⟨taken, hwhole⟩ := exists_untake hs
  have hpasses := passes_of_reachable hinj hne hwhole
  exact ⟨(steady_of_reachable hinj hne hwhole).withPrunes s.pendingPrunes, hpasses.1, hpasses.2⟩

/-- The chain of a node that has established the genesis. -/
theorem Established.ne_nil (h : Established c s) : s.activeChain ≠ [] := by
  obtain ⟨amb, genesis, -, hadd⟩ := h
  have haccept := (steady_new (c := c)).accepts hinj hne amb genesis
  rw [addBlock_of_orphans_empty (rfl : new.orphans = ∅)] at hadd
  generalize acceptBlock c amb genesis new = r at haccept hadd
  obtain ⟨t, o⟩ := r
  obtain ⟨rfl, ho⟩ := Prod.mk.inj hadd
  have hoff : ∀ {forkIndex branch}, ¬ OffTip c amb.now new genesis forkIndex branch := fun hoff =>
    Finmap.notMem_empty hoff.parent_known
  cases haccept with
  | refused hrefused _ _ =>
    obtain ⟨hash, hok, -⟩ := Outcome.bind_eq_ok.1 ho
    exact absurd hok (hrefused hash)
  | buffered _ _ _ => cases ho
  | extended _ _ _ => simp [setTarget]
  | stored h _ _ => exact absurd h hoff
  | switched h _ _ _ _ _ _ => exact absurd h hoff

omit hinj hne in
theorem ofChain_ne_nil : OfChain fun s => s.activeChain ≠ [] :=
  ⟨fun _ _ h hs he => hs (h.activeChain.symm.trans he), fun _ _ hs => hs⟩

omit hinj hne in
/-- An active chain that is not empty stays so. -/
theorem moves_ne_nil (amb : Ambient) :
    Moves c amb (fun _ _ => True) (fun s => s.activeChain ≠ []) fun s => s.activeChain ≠ [] where
  push s block _ _ _ := by simp
  adjust _ _ _ _ hs _ _ _ _ _ := hs
  prune _ _ hs _ := hs
  store _ _ _ _ hs _ _ := hs
  switch _ _ _ _ _ _ _ _ _ _ _ _ _ := List.append_ne_nil_of_right_ne_nil _ (List.cons_ne_nil _ _)
  pool tx _ := ofChain_ne_nil.addToMempool amb.now tx
  keep s block hs _ _ := by
    rw [keepOrphan]
    split
    exacts [hs, hs]
  take _ _ hs := hs

omit hinj hne in
theorem ne_nil_call (op : Op) (hs : Keyed c s ∧ s.activeChain ≠ []) :
    Keyed c (op.call c s).1 ∧ (op.call c s).1.activeChain ≠ [] := by
  have hchain := ofChain_keyed (c := c).and ofChain_ne_nil
  refine preserves_of_moves (P := fun _ _ _ => True) (I := fun s => Keyed c s ∧ s.activeChain ≠ [])
    (fun amb => (moves_keyed amb _).and (moves_ne_nil amb)) (fun _ hs => hs.1) (fun now s hs => ?_)
    (fun offset s hs => hchain.2 s offset hs) (fun now tx _ => hchain.addToMempool now tx) hs
    (taking_of_forall (fun _ _ _ => trivial) s op)
  exact hchain.1 _ _ ((SameChain.refl s).cleanupMempool now) hs

/-- The chains of the nodes. -/
theorem grown_of_reachable [DecidableEq ι] (hσ : (networkSystem c e).Reachable σ) (j : ι) :
    Grown c (σ.chain j) := by
  have hchain : (drainSystem c).Reachable (σ.chain j) ∧ (σ.chain j).activeChain ≠ [] := by
    refine chain_invariant (I := fun s => (drainSystem c).Reachable s ∧ s.activeChain ≠ [])
      (fun s h => ⟨?_, ?_⟩)
      (fun s hs => ⟨hs.1.step (l := .takePrunedHashes) trivial rfl, hs.2⟩)
      (fun op => Call.Preserves.of_fst fun s hs => ⟨hs.1.step (l := .call op) trivial rfl, ?_⟩) hσ j
    · obtain ⟨amb, genesis, -, hadd⟩ := h
      exact (System.ReachableBy.init rfl).step (l := .call (.addBlock amb genesis)) trivial
        (congrArg Prod.fst hadd).symm
    · exact h.ne_nil hinj hne
    · exact (ne_nil_call op ⟨(steady_of_drained hinj hne hs.1).1.toKeyed, hs.2⟩).2
  obtain ⟨hsteady, hpasses⟩ := steady_of_drained hinj hne hchain.1
  exact ⟨hsteady, hpasses, hchain.2⟩

/-! ## Agreement -/

/-- Whatever happens in a network, the active chains of two nodes have a beginning in common,
    the genesis at least, of the same blocks, and no block in common after it. If their last
    blocks are the same, so are the chains, the unspent outputs but for the marks, the target
    and the work. -/
theorem ledgers_agree [DecidableEq ι] (hσ : (networkSystem c e).Reachable σ) (i j : ι) :
    ∃ common rest rest', (σ.chain i).activeChain = common ++ rest ∧ (σ.chain j).activeChain = common ++ rest' ∧
      common ≠ [] ∧ rest.Disjoint rest' ∧
      (∀ x ∈ common, ∃ b, (σ.chain i).blocks.lookup x = some b ∧ (σ.chain j).blocks.lookup x = some b) ∧
      ((σ.chain i).tipHash = (σ.chain j).tipHash → rest = [] ∧ rest' = [] ∧
        Utxos.SameOutputs (σ.chain i).utxos (σ.chain j).utxos ∧ (σ.chain i).target = (σ.chain j).target ∧
        (σ.chain i).chainWork = (σ.chain j).chainWork) := by
  have hi := grown_of_reachable hinj hne hσ i
  have hj := grown_of_reachable hinj hne hσ j
  generalize σ.chain i = s at hi
  generalize σ.chain j = t at hj
  have hagree := hi.toKeyed.agree hinj hj.toKeyed
  have h₀ := hi.toKeyed.zero_notMem hne
  have h₀' := hj.toKeyed.zero_notMem hne
  obtain ⟨common, rest, rest', hs, ht, hdisjoint⟩ := hi.active.exists_common h₀ h₀' hagree hj.active
  have hlookup : ∀ x, x ∈ s.activeChain → x ∈ t.activeChain →
      ∃ b, s.blocks.lookup x = some b ∧ t.blocks.lookup x = some b := fun x hxs hxt => by
    obtain ⟨b, hb⟩ := Finmap.mem_iff.1 (hi.known x hxs)
    obtain ⟨b', hb'⟩ := Finmap.mem_iff.1 (hj.known x hxt)
    exact ⟨b, hb, hagree x b b' hb hb' ▸ hb'⟩
  refine ⟨common, rest, rest', hs, ht, ?_, hdisjoint, fun x hx => ?_, fun htip => ?_⟩
  · -- Both start with the genesis.
    rintro rfl
    obtain ⟨genesis, l, hg, hl⟩ := hi.exists_cons
    obtain ⟨genesis', l', hg', hl'⟩ := hj.exists_cons
    obtain rfl := Option.some.inj (hg.symm.trans hg')
    rw [List.nil_append] at hs ht
    exact hdisjoint (hs ▸ hl ▸ List.mem_cons_self) (ht ▸ hl' ▸ List.mem_cons_self)
  · exact hlookup x (hs ▸ List.mem_append_left _ hx) (ht ▸ List.mem_append_left _ hx)
  · have hsame : s.activeChain = t.activeChain := hi.active.unique_of_agree h₀ h₀' hagree hj.active htip
    have hrest : rest = rest' := List.append_cancel_left (hs.symm.trans (hsame.trans ht))
    have hnil : rest = [] := List.eq_nil_iff_forall_not_mem.2 fun x hx => hdisjoint hx (hrest ▸ hx)
    have hcongr : ∀ x ∈ s.activeChain, s.blocks.lookup x = t.blocks.lookup x := fun x hx => by
      obtain ⟨b, hb, hb'⟩ := hlookup x hx (hsame ▸ hx)
      rw [hb, hb']
    refine ⟨hnil, hrest ▸ hnil, ?_, ?_, ?_⟩
    · obtain ⟨utxos, hu, hsu⟩ := hi.replay
      obtain ⟨utxos', hu', htu⟩ := hj.replay
      rw [replayUtxos_congr hcongr, hsame, hu'] at hu
      obtain rfl := Option.some.inj hu
      exact hsu.trans htu.symm
    · have htarget := hi.passes.1
      rw [Retargeted, recomputeTargetForChain_congr hcongr, hsame, hj.passes.1] at htarget
      exact (Option.some.inj htarget).symm
    · rw [chainWork, chainWork, workOfChain_congr hcongr, hsame]

end

/-! ## A chain that keeps up -/

namespace Blockchain

variable {now : DateTime} {B : Finmap fun _ : Hash => Block} {D : Finset Hash} {env : Surroundings} {b : Block}
  {x p : Hash} {l : List Hash}

/-- The blocks a node knows or keeps as orphans. -/
def held (s : Blockchain) : Finset Hash := s.blocks.keys ∪ s.orphans.keys

theorem mem_held : x ∈ s.held ↔ x ∈ s.blocks ∨ x ∈ s.orphans := by
  rw [held, Finset.mem_union, Finmap.mem_keys, Finmap.mem_keys]

/-- There is room for another orphan. -/
def HasRoom (s : Blockchain) : Prop := s.orphans.keys.card < maxOrphanBlocks

namespace Settled

theorem held_eq (h : Settled c B D s) : s.held = D := by
  ext x
  rw [mem_held, h.mem_iff]

/-- What is pending is an orphan, or comes now. -/
theorem pending_le (h : Settled c B D s) (hroom : s.HasRoom) :
    (pending B (insert x D)).card ≤ maxOrphanBlocks := by
  have hsub : pending B (insert x D) ⊆ insert x s.orphans.keys := by
    intro y hy
    obtain ⟨hmem, hnot⟩ := mem_pending.1 hy
    refine (Finset.mem_insert.1 hmem).elim (fun he => he ▸ Finset.mem_insert_self _ _) fun hy => ?_
    refine Finset.mem_insert_of_mem (Finmap.mem_keys.2 (((h.mem_iff y).2 hy).resolve_left
      fun hknown => hnot ?_))
    -- The ancestors of a known block are known.
    obtain ⟨chain, hchain⟩ := h.rooted y hknown
    refine ⟨chain, hchain.congr fun z hz => h.lookup_eq (hchain.mem z hz), fun z hz => ?_⟩
    exact Finset.mem_insert_of_mem ((h.mem_iff z).1 (.inl (hchain.mem z (List.mem_append_left _ hz))))
  exact (Finset.card_le_card hsub).trans ((Finset.card_insert_le _ _).trans hroom)

/-- It is about the blocks, the orphans, the active chain and the target, besides what makes a
    chain sound. -/
theorem congr {s₀ : Blockchain} (hs : Settled c B D s₀) (hsteady : Steady c s) (hblocks : s.blocks = s₀.blocks)
    (horphans : s.orphans = s₀.orphans) (hactive : s.activeChain = s₀.activeChain)
    (htarget : s.target = s₀.target) (htime : s.timeOffset = 0) : Settled c B D s :=
  { hsteady with
    passes := by
      rw [Retargeted, Each, hblocks, hactive, htarget]
      exact hs.passes
    heaviest := by
      rw [Heaviest, hblocks, hactive]
      exact hs.heaviest
    timeOffset := htime
    blocks_mem := by rw [hblocks]; exact hs.blocks_mem
    orphans_mem := by rw [horphans]; exact hs.orphans_mem
    orphans_parent := by rw [horphans]; exact hs.orphans_parent
    started := by rw [hblocks, hactive]; exact hs.started
    mem_iff := by rw [hblocks, horphans]; exact hs.mem_iff
    waiting := by rw [hblocks, horphans]; exact hs.waiting
    active_ne := by rw [hactive]; exact hs.active_ne }

theorem of_sameChain {s₀ : Blockchain} (hs : Settled c B D s₀) (h : SameChain s₀ s) (hsteady : Steady c s) :
    Settled c B D s :=
  hs.congr hsteady h.blocks h.orphans h.activeChain h.target (h.timeOffset.trans hs.timeOffset)

theorem addToMempool (now : DateTime) (tx : Transaction) :
    Call.Triple (Settled c B D) (addToMempool c now tx) (fun _ => Settled c B D) (fun _ => Settled c B D)
      fun _ => False := by
  intro s hs
  have hkeeps : Call.Preserves (SameChain s) (Blockchain.addToMempool c now tx) := sameChain_addToMempool s tx
  have hchain := hkeeps s (.refl s)
  have hsteady := Steady.addToMempool now tx s hs.toSteady
  have hoffer := triple_addToMempool (c := c) now tx s hs.toAdmitted
  generalize Blockchain.addToMempool c now tx s = r at hchain hsteady hoffer
  obtain ⟨s', a | e | _⟩ := r
  exacts [hs.of_sameChain hchain hsteady, hs.of_sameChain hchain hsteady, hoffer]

theorem cleanupMempool (h : Settled c B D s) (now : DateTime) : Settled c B D (s.cleanupMempool now) :=
  h.of_sameChain ((SameChain.refl s).cleanupMempool now) (h.toSteady.cleanupMempool now)

/-- An offset of nothing. -/
theorem setTimeOffset (h : Settled c B D s) : Settled c B D (s.setTimeOffset 0) :=
  h.congr (h.toSteady.setTimeOffset 0) rfl rfl rfl rfl rfl

theorem takePrunedHashes (h : Settled c B D s) : Settled c B D s.takePrunedHashes :=
  h.congr (h.toSteady.withPrunes []) rfl rfl rfl rfl h.timeOffset

theorem persists (putsBlock recordsChain : Bool) :
    Call.Preserves (Settled c B D) (persistChainState putsBlock recordsChain) :=
  preserves_persistChainState (fun _ hs => takePrunedHashes hs) putsBlock recordsChain

/-- A message without a block. -/
theorem handle_of_none {m : Packet} (h : Settled c B D s) (hm : m.block? = none) :
    Settled c B D (handle c e env m s).1 := by
  have hpreserves : Call.Preserves (Settled c B D) (handle c e env m) := by
    refine preserves_handle_of (fun _ hs => takePrunedHashes hs) (fun b hb => ?_) fun tx _ => ?_
    · rw [hm] at hb
      cases hb
    · exact (addToMempool env.amb.now tx).conseq (fun _ => id) (fun _ _ => id) (fun _ _ => id)
        fun _ => False.elim
  exact hpreserves.apply h

/-- A transaction that a peer sends is never a reason to close the connection. -/
theorem handle_newTransaction (h : Settled c B D s) (tx : Transaction) :
    (handle c e env (.newTransaction tx) s).2 = .ok .silent := by
  have hoffer := addToMempool env.amb.now tx s h
  change (Call.bind (Call.ignore (Call.mapErr Refusal.rejected (Blockchain.addToMempool c env.amb.now tx)))
    (fun _ => pure Answer.silent) s).2 = _
  rw [Call.bind, Call.ignore, Call.mapErr]
  generalize Blockchain.addToMempool c env.amb.now tx s = r at hoffer
  obtain ⟨s', a | e | _⟩ := r
  exacts [rfl, rfl, hoffer.elim]

section

variable (hinj : Function.Injective c.hashBlock) (hne : ∀ block, c.hashBlock block ≠ Hash.zero)
  (hheader : ∀ header, c.hashHeader header ≠ 0)

include hinj hne hheader

/-- A block after the genesis is taken: it is added if its ancestors are known, and kept as an
    orphan if not. -/
theorem takes (hB : BlockSet c env.amb.now B) (h : Settled c B D s) (hb : B.lookup x = some b)
    (hprev : b.header.prevBlockHash ≠ Hash.zero) (hroom : s.HasRoom ∨ b.header.prevBlockHash ∈ s.blocks) :
    ∃ added, (takeBlock c env b s).2 = .ok added ∧ Settled c B (insert x D) (takeBlock c env b s).1 ∧
      (b.header.prevBlockHash ∈ s.blocks → added = true) := by
  obtain ⟨l, hl⟩ := hB.rooted x (Finmap.mem_iff.2 ⟨b, hb⟩)
  obtain ⟨hchain, b', hb', htip⟩ := hl.concat_inv
  obtain rfl := Option.some.inj (hb.symm.trans hb')
  obtain ⟨l', p, rfl⟩ := (List.eq_nil_or_concat' l).resolve_left fun he => hprev (by rw [htip, he, tipOf_nil])
  rw [tipOf_concat] at htip
  rw [htip] at hroom ⊢
  by_cases hknown : ∀ y ∈ l' ++ [p], y ∈ s.blocks
  · obtain ⟨s', hadd, h'⟩ := h.addBlock_known hinj hne hheader hB env.amb.order hl hb hknown
    have htake : takeBlock c env b s =
        ((persistChainState env.putsBlock env.recordsChain s').1, .ok true) := by
      rw [takeBlock, show Blockchain.addBlock c env.amb b s = (s', .ok ()) from hadd]
    rw [htake]
    exact ⟨true, rfl, (persists _ _).apply h', fun _ => rfl⟩
  · have hroom' : s.HasRoom := hroom.resolve_right fun hp =>
      hknown (h.ancestors_known hne hB hchain hp)
    obtain ⟨hadd, h'⟩ := h.addBlock_unknown hne hB env.amb.order hl hb hknown (h.pending_le hroom')
    have htake : takeBlock c env b s = (s.keepOrphan c b, .ok false) := by
      rw [takeBlock, show Blockchain.addBlock c env.amb b s = (s.keepOrphan c b, .err .orphanBlock) from hadd]
    rw [htake]
    exact ⟨false, rfl, h', fun hp => absurd (h.ancestors_known hne hB hchain hp) hknown⟩

/-- A block that a peer sends is never a reason to close the connection. -/
theorem handle_newBlock (hB : BlockSet c env.amb.now B) (h : Settled c B D s) (hb : B.lookup x = some b)
    (hprev : b.header.prevBlockHash ≠ Hash.zero) (hroom : s.HasRoom) :
    (handle c e env (.newBlock b) s).2 = .ok .silent ∧
      Settled c B (insert x D) (handle c e env (.newBlock b) s).1 := by
  obtain ⟨added, htake, h', -⟩ := h.takes hinj hne hheader hB hb hprev (.inl hroom)
  have hhandle : handle c e env (.newBlock b) s = ((takeBlock c env b s).1, .ok .silent) := by
    change Call.bind (takeBlock c env b) (fun _ => pure Answer.silent) s = _
    rw [Call.bind, show takeBlock c env b s = ((takeBlock c env b s).1, .ok added) from Prod.ext rfl htake]
    rfl
  rw [hhandle]
  exact ⟨rfl, h'⟩

/-- A block that a client submits, and whose parent the node knows, is added and sent on. -/
theorem handle_submitTemplate (hB : BlockSet c env.amb.now B) (h : Settled c B D s) (hb : B.lookup x = some b)
    (hprev : b.header.prevBlockHash ∈ s.blocks) :
    (handle c e env (.submitTemplate b) s).2 = .ok (.broadcasting (.newBlock b)) ∧
      Settled c B (insert x D) (handle c e env (.submitTemplate b) s).1 := by
  have hzero : b.header.prevBlockHash ≠ Hash.zero := fun he => h.toTree.zero_notMem hne (he ▸ hprev)
  obtain ⟨added, htake, h', hadded⟩ := h.takes hinj hne hheader hB hb hzero (.inr hprev)
  obtain rfl := hadded hprev
  have hhandle : handle c e env (.submitTemplate b) s =
      ((takeBlock c env b s).1, .ok (.broadcasting (.newBlock b))) := by
    change Call.bind (takeBlock c env b) _ s = _
    rw [Call.bind, show takeBlock c env b s = ((takeBlock c env b s).1, .ok true) from Prod.ext rfl htake]
    rfl
  rw [hhandle]
  exact ⟨rfl, h'⟩

/-- A block of a download is taken. -/
theorem syncs (hB : BlockSet c env.amb.now B) (h : Settled c B D s) (hb : B.lookup x = some b)
    (hroom : s.HasRoom) : Settled c B (insert x D) (syncBlock c env b s).1 := by
  have hadd : Settled c B (insert x D) (Blockchain.addBlock c env.amb b s).1 :=
    h.addBlock hinj hne hheader hB env.amb.order hb (h.pending_le hroom)
  change Settled c B (insert x D) (Call.bind (Call.mapErr SyncError.ofBlock (Blockchain.addBlock c env.amb b))
    (fun _ => persistChainState env.putsBlock env.recordsChain) s).1
  rw [Call.bind, Call.mapErr]
  generalize Blockchain.addBlock c env.amb b s = r at hadd
  obtain ⟨s', a | e | _⟩ := r
  exacts [(persists _ _).apply hadd, hadd, hadd]

end

end Settled

end Blockchain

/-! ## A network that keeps up -/

section

variable (c : Crypto) (e : Encoding) (B : Finmap fun _ : Hash => Block)

/-- Nothing is lost between the nodes, a client submits a block to a node that knows its parent,
    and there is room for an orphan when a block arrives. -/
def Reliable (σ : Network ι) : NetworkOp ι → Prop
  | .ask j env m => ∀ b, m.block? = some b → m = .submitTemplate b ∧ BlockSet c env.amb.now B ∧
    B.lookup (c.hashBlock b) = some b ∧ b.header.prevBlockHash ∈ (σ.chain j).blocks
  | .deliver _ j _ env => BlockSet c env.amb.now B ∧ (σ.chain j).HasRoom
  | .add j env => BlockSet c env.amb.now B ∧ (σ.chain j).HasRoom
  | .lose _ _ _ | .connect _ _ | .disconnect _ _ => False
  | .sample _ offset => offset = 0
  | .fetch _ _ _ _ | .cleanup _ _ => True

/-- A network in which every node broadcasts to all others. -/
def meshSystem [DecidableEq ι] : System (Network ι) (NetworkOp ι) where
  init := {σ | σ.Starts c ∧ (∀ j, ∃ amb genesis, BlockSet c amb.now B ∧ genesisBlock c = some genesis ∧
      B.lookup (c.hashBlock genesis) = some genesis ∧ addBlock c amb genesis new = (σ.chain j, .ok ())) ∧
    ∀ i j, i ≠ j → (σ.link i j).isSome}
  step := (networkSystem c e).step

/-- Whatever a node holds, the others hold, or will. -/
structure Spreading (σ : Network ι) : Prop where
  settled : ∀ j, Settled c B (σ.chain j).held (σ.chain j)
  linked : ∀ i j, i ≠ j → (σ.link i j).isSome
  flying : ∀ i j m, σ.link.Flying i j m → ∀ b, m.block? = some b → m = .newBlock b ∧
    B.lookup (c.hashBlock b) = some b ∧ b.header.prevBlockHash ≠ Hash.zero ∧ c.hashBlock b ∈ (σ.chain i).held
  batch : ∀ j, ∀ x ∈ σ.batch j, B.lookup (c.hashBlock x.2) = some x.2 ∧ c.hashBlock x.2 ∈ (σ.chain x.1).held
  spread : ∀ i j, ∀ x ∈ (σ.chain i).held, x ∈ (σ.chain j).held ∨
    ∃ k b, σ.link.Flying k j (.newBlock b) ∧ c.hashBlock b = x
  /-- The ancestors of a block are held somewhere. -/
  rooted : ∀ i, ∀ x ∈ (σ.chain i).held, ∀ l, Linked B (l ++ [x]) → ∀ y ∈ l, ∃ k, y ∈ (σ.chain k).held
  submitted : ∀ j m said b, .handled j .client m said ∈ σ.log → m.block? = some b →
    B.lookup (c.hashBlock b) = some b ∧ c.hashBlock b ∈ (σ.chain j).held

end

namespace Spreading

variable [DecidableEq ι] {B : Finmap fun _ : Hash => Block} {σ' : Network ι} {i j : ι} {D : Finset Hash}

/-- One chain comes to hold more, which it sends on or is held elsewhere. -/
theorem step (h : Spreading c B σ) {chain : Blockchain} (hchain : σ'.chain = Function.update σ.chain j chain)
    (hsettled : Settled c B D chain) (hmore : (σ.chain j).held ⊆ D)
    (hlinked : ∀ i k, i ≠ k → (σ'.link i k).isSome)
    (hflying : ∀ i k m, σ'.link.Flying i k m → σ.link.Flying i k m ∨ i = j ∧ ∀ b, m.block? = some b →
      m = .newBlock b ∧ B.lookup (c.hashBlock b) = some b ∧ b.header.prevBlockHash ≠ Hash.zero ∧
        c.hashBlock b ∈ D)
    (hstill : ∀ i k b, σ.link.Flying i k (.newBlock b) → σ'.link.Flying i k (.newBlock b) ∨
      k = j ∧ c.hashBlock b ∈ D)
    (hbatch : ∀ k, σ'.batch k ⊆ σ.batch k)
    (hnew : ∀ x ∈ D, x ∈ (σ.chain j).held ∨ (∃ i, x ∈ (σ.chain i).held) ∨
      (∀ l, Linked B (l ++ [x]) → ∀ y ∈ l, y ∈ (σ.chain j).held) ∧
        ∀ k, k ≠ j → ∃ b, σ'.link.Flying j k (.newBlock b) ∧ c.hashBlock b = x)
    (hlog : ∀ k m said b, .handled k .client m said ∈ σ'.log → m.block? = some b →
      .handled k .client m said ∈ σ.log ∨ k = j ∧ B.lookup (c.hashBlock b) = some b ∧ c.hashBlock b ∈ D) :
    Spreading c B σ' := by
  have hchain : ∀ k, σ'.chain k = if k = j then chain else σ.chain k := fun k => by
    rw [hchain, Function.update_apply]
  have hheld : ∀ k, (σ'.chain k).held = if k = j then D else (σ.chain k).held := fun k => by
    rw [hchain]
    split_ifs
    exacts [hsettled.held_eq, rfl]
  have hgrows : ∀ k, (σ.chain k).held ⊆ (σ'.chain k).held := fun k => by
    rw [hheld]
    split_ifs with hk
    exacts [hk ▸ hmore, Finset.Subset.refl _]
  have hmem : ∀ x ∈ D, x ∈ (σ'.chain j).held := fun x hx => by rwa [hheld, if_pos rfl]
  -- What is held by some node before reaches every node.
  have hold : ∀ i k, ∀ x ∈ (σ.chain i).held, x ∈ (σ'.chain k).held ∨
      ∃ l b, σ'.link.Flying l k (.newBlock b) ∧ c.hashBlock b = x := fun i k x hx => by
    rcases h.spread i k x hx with hx | ⟨l, b, hb, rfl⟩
    · exact .inl (hgrows k hx)
    · rcases hstill l k b hb with hb | ⟨rfl, hb⟩
      exacts [.inr ⟨l, b, hb, rfl⟩, .inl (hmem _ hb)]
  have hcases : ∀ i, ∀ x ∈ (σ'.chain i).held, (∃ i', x ∈ (σ.chain i').held) ∨ i = j ∧
      (∀ l, Linked B (l ++ [x]) → ∀ y ∈ l, y ∈ (σ.chain j).held) ∧
        ∀ k, k ≠ j → ∃ b, σ'.link.Flying j k (.newBlock b) ∧ c.hashBlock b = x := fun i x hx => by
    rw [hheld] at hx
    split_ifs at hx with hi
    · rcases hnew x hx with hx | hx | hx
      exacts [.inl ⟨j, hx⟩, .inl hx, .inr ⟨hi, hx⟩]
    · exact .inl ⟨i, hx⟩
  refine ⟨fun k => ?_, hlinked, fun i k m hm b hb => ?_, fun k x hx => ?_, fun i k x hx => ?_,
    fun i x hx l hl y hy => ?_, fun k m said b hm hb => ?_⟩
  · rw [hheld, hchain]
    split_ifs
    exacts [hsettled, h.settled k]
  · rcases hflying i k m hm with hm | ⟨rfl, hm⟩
    · obtain ⟨rfl, hlookup, hprev, hheld⟩ := h.flying i k m hm b hb
      exact ⟨rfl, hlookup, hprev, hgrows i hheld⟩
    · obtain ⟨rfl, hlookup, hprev, hD⟩ := hm b hb
      exact ⟨rfl, hlookup, hprev, hmem _ hD⟩
  · obtain ⟨hlookup, hheld⟩ := h.batch k x (hbatch k hx)
    exact ⟨hlookup, hgrows _ hheld⟩
  · rcases hcases i x hx with ⟨i', hx⟩ | ⟨rfl, -, hsent⟩
    · exact hold i' k x hx
    · by_cases hk : k = i
      · exact .inl (hk ▸ hx)
      · obtain ⟨b, hb⟩ := hsent k hk
        exact .inr ⟨i, b, hb⟩
  · rcases hcases i x hx with ⟨i', hx⟩ | ⟨-, hroot, -⟩
    · obtain ⟨k, hk⟩ := h.rooted i' x hx l hl y hy
      exact ⟨k, hgrows k hk⟩
    · exact ⟨j, hgrows j (hroot l hl y hy)⟩
  · rcases hlog k m said b hm hb with hm | ⟨rfl, hlookup, hD⟩
    · obtain ⟨hlookup, hheld⟩ := h.submitted k m said b hm hb
      exact ⟨hlookup, hgrows k hheld⟩
    · exact ⟨hlookup, hmem _ hD⟩

/-- Nothing changes but what a node does not hold. -/
theorem same (h : Spreading c B σ) {chain : Blockchain} (hchain : Settled c B (σ.chain j).held chain) :
    Spreading c B (σ.setChain j chain) :=
  h.step rfl hchain (Finset.Subset.refl _) h.linked (fun _ _ _ => .inl) (fun _ _ _ => .inl)
    (fun _ => List.Subset.refl _) (fun _ => .inl) fun _ _ _ _ hm _ => .inl hm

variable (hinj : Function.Injective c.hashBlock) (hne : ∀ block, c.hashBlock block ≠ Hash.zero)
  (hheader : ∀ header, c.hashHeader header ≠ 0) {env : Surroundings} {m : Packet}

include hinj hne hheader in
/-- A client sends a message. -/
theorem ask (h : Spreading c B σ) (hm : Reliable c B σ (.ask j env m)) :
    Spreading c B (σ.handled c e j .client env m) := by
  have hlog : ∀ {D : Finset Hash},
      (∀ b, m.block? = some b → B.lookup (c.hashBlock b) = some b ∧ c.hashBlock b ∈ D) →
      ∀ k m' said b, .handled k .client m' said ∈ (σ.handled c e j .client env m).log → m'.block? = some b →
        .handled k .client m' said ∈ σ.log ∨ k = j ∧ B.lookup (c.hashBlock b) = some b ∧ c.hashBlock b ∈ D := by
    rintro D hD k m' said b hm' hb
    rcases List.mem_append.1 hm' with hm' | hm'
    · exact .inl hm'
    · cases List.mem_singleton.1 hm'
      exact .inr ⟨rfl, hD b hb⟩
  cases hblock : m.block? with
  | none =>
    refine h.step rfl ((h.settled j).handle_of_none hblock) (Finset.Subset.refl _) (fun i k hik => ?_)
      (fun i k m' hm' => ?_) (fun i k b hb => .inl (Network.flying_of_client hb)) (fun _ => List.Subset.refl _)
      (fun _ => .inl) (hlog (by rw [hblock]; exact fun _ he => nomatch he))
    · exact Network.isSome_of_client (h.linked i k hik)
    · rcases Network.flying_handled hm' with hm' | ⟨rfl, hsaid⟩
      · exact .inl hm'
      · refine .inr ⟨rfl, fun b hb => ?_⟩
        cases Network.sentOn_of_said hsaid with
        | block b' => cases hblock
        | transaction tx => cases hb
  | some b =>
    obtain ⟨rfl, hB, hb, hprev⟩ := hm b hblock
    obtain ⟨hout, hsettled⟩ := (h.settled j).handle_submitTemplate hinj hne hheader hB hb hprev
    have hlink : (σ.handled c e j .client env (.submitTemplate b)).link =
        σ.link.broadcast j (some (.newBlock b)) := Network.handled_link hout
    have hzero : b.header.prevBlockHash ≠ Hash.zero := fun he =>
      (h.settled j).toTree.zero_notMem hne (he ▸ hprev)
    refine h.step rfl hsettled (Finset.subset_insert _ _) (fun i k hik => ?_) (fun i k m' hm' => ?_)
      (fun i k b hb => .inl (Network.flying_of_client hb)) (fun _ => List.Subset.refl _) (fun x hx => ?_)
      (hlog fun b' hb' => ?_)
    · exact Network.isSome_of_client (h.linked i k hik)
    · rw [hlink] at hm'
      rcases Links.flying_broadcast hm' with hm' | ⟨rfl, hsaid⟩
      · exact .inl hm'
      · refine .inr ⟨rfl, fun b' hb' => ?_⟩
        obtain rfl := Option.some.inj hsaid
        obtain rfl := Option.some.inj hb'
        exact ⟨rfl, hb, hzero, Finset.mem_insert_self _ _⟩
    · rcases Finset.mem_insert.1 hx with rfl | hx
      · refine .inr (.inr ⟨fun l hl y hy => ?_, fun k hk => ⟨b, ?_, rfl⟩⟩)
        · obtain ⟨hchain, b', hb', htip⟩ := hl.concat_inv
          obtain rfl := Option.some.inj (hb.symm.trans hb')
          obtain ⟨l, p, rfl⟩ := (List.eq_nil_or_concat' l).resolve_left (List.ne_nil_of_mem hy)
          rw [htip, tipOf_concat] at hprev
          exact mem_held.2 (.inl ((h.settled j).ancestors_known hne hB hchain hprev y hy))
        · rw [hlink]
          exact Links.flying_of_broadcast (h.linked j k hk.symm)
      · exact .inl hx
    · obtain rfl := Option.some.inj hb'
      exact ⟨hb, Finset.mem_insert_self _ _⟩

include hinj hne hheader in
/-- A message is handled. -/
theorem deliver (h : Spreading c B σ) (hprovenance : Provenance c σ) {n : ℕ}
    (hm : Reliable c B σ (.deliver i j n env)) : Spreading c B (σ.after c e (.deliver i j n env)) := by
  obtain ⟨hB, hroom⟩ := hm
  dsimp only [Network.after]
  split
  · next m hget =>
    obtain ⟨ms, hms, hn⟩ := Option.bind_eq_some_iff.1 hget
    have hmem : σ.link.Flying i j m := ⟨ms, hms, List.mem_of_getElem? hn⟩
    -- What is left on the connections, if the message is not refused.
    have hkept : ∀ {D : Finset Hash}, Settled c B D (handle c e env m (σ.chain j)).1 → (σ.chain j).held ⊆ D →
        (handle c e env m (σ.chain j)).2 = .ok .silent → (∀ b, m = .newBlock b → c.hashBlock b ∈ D) →
        (∀ x ∈ D, x ∈ (σ.chain j).held ∨ ∃ i, x ∈ (σ.chain i).held) →
        Spreading c B ((σ.setLink i j ((σ.link i j).map (·.eraseIdx n))).handled c e j (.peer i) env m) := by
      intro D hsettled hmore hout hD hnew
      have hlink : ((σ.setLink i j ((σ.link i j).map (·.eraseIdx n))).handled c e j (.peer i) env m).link =
          σ.link.set i j ((σ.link i j).map (·.eraseIdx n)) :=
        Network.handled_link (s := σ.setLink i j ((σ.link i j).map (·.eraseIdx n))) hout
      refine h.step rfl hsettled hmore (fun k l hkl => ?_) (fun k l m' hm' => .inl ?_) (fun k l b hb => ?_)
        (fun _ => List.Subset.refl _) (fun x hx => (hnew x hx).imp_right .inl) fun k m' said b hm' _ => ?_
      · rw [hlink]
        exact Links.isSome_erase (h.linked k l hkl)
      · rw [hlink] at hm'
        exact Links.flying_of_erase hm'
      · rw [hlink]
        rcases Links.flying_erase hms hn hb with hb | ⟨-, rfl, rfl⟩
        exacts [.inl hb, .inr ⟨rfl, hD b rfl⟩]
      · rcases List.mem_append.1 hm' with hm' | hm'
        · exact .inl hm'
        · cases List.mem_singleton.1 hm'
    obtain ⟨request, hon, -⟩ := hprovenance.flying i j m hmem
    cases hon with
    | block b =>
      obtain ⟨-, hb, hprev, hheld⟩ := h.flying i j _ hmem b rfl
      obtain ⟨hout, hsettled⟩ := (h.settled j).handle_newBlock (e := e) hinj hne hheader hB hb hprev hroom
      refine hkept hsettled (Finset.subset_insert _ _) hout (fun b' hb' => ?_) fun x hx => ?_
      · cases hb'
        exact Finset.mem_insert_self _ _
      · rcases Finset.mem_insert.1 hx with rfl | hx
        exacts [.inr ⟨i, hheld⟩, .inl hx]
    | transaction tx =>
      exact hkept ((h.settled j).handle_of_none rfl) (Finset.Subset.refl _)
        ((h.settled j).handle_newTransaction tx)
        (by rintro b ⟨⟩) fun _ => .inl
  · exact h

include hinj hne hheader in
/-- A node adds a block of a download. -/
theorem added (h : Spreading c B σ) (hm : Reliable c B σ (.add j env)) : Spreading c B (σ.added c j env) := by
  have hbatch : ∀ k, (σ.added c j env).batch k ⊆ σ.batch k := Network.batch_added
  rw [Network.added] at hbatch ⊢
  cases hnext : σ.batch j with
  | nil => exact h
  | cons x rest =>
    obtain ⟨i, b⟩ := x
    obtain ⟨hb, hheld⟩ := h.batch j (i, b) (by rw [hnext]; exact List.mem_cons_self)
    have hsettled := (h.settled j).syncs hinj hne hheader hm.1 hb hm.2
    rw [hnext] at hbatch
    refine h.step rfl hsettled (Finset.subset_insert _ _) h.linked (fun _ _ _ => .inl) (fun _ _ _ => .inl)
      hbatch (fun x hx => ?_) fun k m said b' hm' _ => ?_
    · rcases Finset.mem_insert.1 hx with rfl | hx
      exacts [.inr (.inl ⟨i, hheld⟩), .inl hx]
    · rcases List.mem_append.1 hm' with hm' | hm'
      · exact .inl hm'
      · cases List.mem_singleton.1 hm'

include hinj hne hheader in
/-- At the start all nodes hold the genesis. -/
theorem start (hσ : σ ∈ (meshSystem c e B).init) : Spreading c B σ := by
  obtain ⟨hstarts, hchain, hlinked⟩ := hσ
  have hgenesis : ∀ j, ∃ genesis, genesisBlock c = some genesis ∧
      B.lookup (c.hashBlock genesis) = some genesis ∧
      Settled c B {c.hashBlock genesis} (σ.chain j) := fun j => by
    obtain ⟨amb, genesis, hB, hg, hb, hadd⟩ := hchain j
    have hsettled := settled_genesis hinj hne hheader hB hg hb amb.order
    have hstate : Blockchain.deliver c amb.now [(amb.order, genesis)] = σ.chain j := congrArg Prod.fst hadd
    rw [hstate] at hsettled
    exact ⟨genesis, hg, hb, hsettled⟩
  have hheld : ∀ j x, x ∈ (σ.chain j).held → ∃ genesis, genesisBlock c = some genesis ∧
      B.lookup (c.hashBlock genesis) = some genesis ∧ x = c.hashBlock genesis ∧
        ∀ k, c.hashBlock genesis ∈ (σ.chain k).held := fun j x hx => by
    obtain ⟨genesis, hg, hb, hsettled⟩ := hgenesis j
    rw [hsettled.held_eq] at hx
    refine ⟨genesis, hg, hb, Finset.mem_singleton.1 hx, fun k => ?_⟩
    obtain ⟨genesis', hg', -, hsettled'⟩ := hgenesis k
    obtain rfl := Option.some.inj (hg.symm.trans hg')
    rw [hsettled'.held_eq]
    exact Finset.mem_singleton_self _
  have hquiet : ∀ i j m, ¬ σ.link.Flying i j m := by
    rintro i j m ⟨ms, hms, hm⟩
    rw [hstarts.link i j ms hms] at hm
    cases hm
  refine ⟨fun j => ?_, hlinked, fun i j m hm => absurd hm (hquiet i j m), fun j x hx => ?_, fun i j x hx => ?_,
    fun i x hx l hl y hy => ?_, fun j m said b hm => ?_⟩
  · obtain ⟨genesis, -, -, hsettled⟩ := hgenesis j
    rwa [hsettled.held_eq]
  · rw [hstarts.batch j] at hx
    cases hx
  · obtain ⟨genesis, -, -, rfl, hall⟩ := hheld i x hx
    exact .inl (hall j)
  · -- The genesis has no ancestors.
    obtain ⟨genesis, hg, hb, rfl, -⟩ := hheld i x hx
    obtain ⟨amb, _, hB, -⟩ := hchain i
    obtain ⟨hchain, b', hb', htip⟩ := hl.concat_inv
    obtain rfl := Option.some.inj (hb.symm.trans hb')
    have hzero : Hash.zero ∉ B := fun hmem => by
      obtain ⟨b', hb'⟩ := Finmap.mem_iff.1 hmem
      exact hne b' (hB.keyed _ b' hb')
    rw [hchain.tipOf_eq_zero hzero (htip.symm.trans (genesisBlock_prevBlockHash hg))] at hy
    cases hy
  · rw [hstarts.log] at hm
    cases hm

include hinj hne hheader in
theorem of_reachable (hσ : (meshSystem c e B).ReachableBy (Reliable c B) σ) : Spreading c B σ := by
  refine hσ.invariant_of (I := Spreading c B) (J := Provenance c) (fun σ hσ => ?_)
    (fun σ hσ => start hinj hne hheader hσ) ?_
  · refine hσ.invariant (I := Provenance c) (fun σ hσ => ?_) ?_
    · exact Provenance.start hσ.1
    · rintro σ op _ h - rfl
      exact h.after op
  rintro σ op _ hprovenance h hop rfl
  cases op with
  | ask j env m => exact h.ask hinj hne hheader hop
  | deliver i j n env => exact h.deliver hinj hne hheader hprovenance hop
  | lose _ _ _ | connect _ _ | disconnect _ _ => exact hop.elim
  | fetch j i start count =>
    dsimp only [Network.after]
    split
    · next blocks hblocks =>
      refine ⟨h.settled, h.linked, h.flying, fun k x hx => ?_, h.spread, h.rooted, h.submitted⟩
      rcases Network.of_mem_fetched (h.settled i).toKeyed hblocks hx with hx | ⟨rfl, y, hy⟩
      · exact h.batch k x hx
      · rw [(h.settled x.1).blocks y x.2 hy]
        exact ⟨(h.settled x.1).blocks_mem y x.2 hy, mem_held.2 (.inl (Finmap.mem_iff.2 ⟨x.2, hy⟩))⟩
    · exact h
  | add j env => exact h.added hinj hne hheader hop
  | cleanup j now => exact h.same ((h.settled j).cleanupMempool now)
  | sample j offset =>
    obtain rfl : offset = 0 := hop
    exact h.same ((h.settled j).setTimeOffset)

omit [DecidableEq ι] in
/-- When no block is on its way, all nodes hold the same. -/
theorem held_eq (h : Spreading c B σ) (hquiet : ∀ i j b, ¬ σ.link.Flying i j (.newBlock b)) (i j : ι) :
    (σ.chain i).held = (σ.chain j).held := by
  have hsub : ∀ i j, (σ.chain i).held ⊆ (σ.chain j).held := fun i j x hx => by
    rcases h.spread i j x hx with hx | ⟨k, b, hb, -⟩
    exacts [hx, absurd hb (hquiet k j b)]
  exact Finset.Subset.antisymm (hsub i j) (hsub j i)

omit [DecidableEq ι] in
/-- They know it then, and have no orphans. -/
theorem settles (h : Spreading c B σ) {now : DateTime} (hB : BlockSet c now B)
    (hquiet : ∀ i j b, ¬ σ.link.Flying i j (.newBlock b)) (j : ι) :
    (∀ x, x ∈ (σ.chain j).blocks ↔ x ∈ (σ.chain j).held) ∧ (σ.chain j).orphans = ∅ := by
  have hsettled := h.settled j
  have hall : ∀ x ∈ (σ.chain j).held, ∀ l, Linked B (l ++ [x]) → ∀ y ∈ l ++ [x], y ∈ (σ.chain j).blocks :=
    fun x hx l hl => hsettled.known_of_linked hl fun z hz => .inl <| by
      rcases List.mem_append.1 hz with hz | hz
      · obtain ⟨k, hk⟩ := h.rooted j x hx l hl z hz
        exact h.held_eq hquiet k j ▸ hk
      · rwa [List.mem_singleton.1 hz]
  have hlinked : ∀ x ∈ (σ.chain j).held, ∃ l, Linked B (l ++ [x]) := fun x hx => by
    rcases (mem_held (s := σ.chain j)).1 hx with hx | hx
    · exact hB.rooted x (by rw [Finmap.mem_iff, ← hsettled.lookup_eq hx]; exact Finmap.mem_iff.1 hx)
    · obtain ⟨o, ho⟩ := Finmap.mem_iff.1 hx
      exact hB.rooted x (Finmap.mem_iff.2 ⟨o, hsettled.orphans_mem x o ho⟩)
  refine ⟨fun x => ⟨fun hx => mem_held.2 (.inl hx), fun hx => ?_⟩, Finmap.ext_lookup fun x => ?_⟩
  · obtain ⟨l, hl⟩ := hlinked x hx
    exact hall x hx l hl x (by simp)
  · rw [Finmap.lookup_empty, Finmap.lookup_eq_none]
    intro hx
    have hheld : x ∈ (σ.chain j).held := mem_held.2 (.inr hx)
    obtain ⟨l, hl⟩ := hlinked x hheld
    exact hsettled.not_orphan hl (fun y hy => hall x hheld l hl y (List.mem_append_left _ hy)) hx

end Spreading

/-- In a network in which every node broadcasts to all others, nothing is lost, no clock is set
    off, and blocks of a set closed under parents, each of which passes its checks on its
    parent chain and is dated in time, in chains of at most `SIDE_BRANCH_PRUNE_DEPTH`, are
    submitted each to a node that knows its parent, and delivered where there is room for an
    orphan: whenever no block is on its way, all nodes know the same blocks, among them all
    that clients have submitted to any, and have no orphans; and their active chains have the
    same work, the most there is among these blocks, and are the same chain if one chain alone
    has it. -/
theorem network_converges [DecidableEq ι] {B : Finmap fun _ : Hash => Block}
    (hinj : Function.Injective c.hashBlock)
    (hne : ∀ block, c.hashBlock block ≠ Hash.zero) (hheader : ∀ header, c.hashHeader header ≠ 0)
    (hσ : (meshSystem c e B).ReachableBy (Reliable c B) σ)
    (hquiet : ∀ i j b, ¬ σ.link.Flying i j (.newBlock b)) (i j : ι) :
    (σ.chain i).blocks = (σ.chain j).blocks ∧ (σ.chain i).orphans = ∅ ∧
      (∀ m said b, .handled j .client m said ∈ σ.log → m.block? = some b →
        (σ.chain i).blocks.lookup (c.hashBlock b) = some b) ∧
      HeaviestIn (σ.chain i).blocks (σ.chain i).activeChain ∧
      (σ.chain i).chainWork = (σ.chain j).chainWork ∧
      ((∀ l l', HeaviestIn (σ.chain i).blocks l → HeaviestIn (σ.chain i).blocks l' → l = l') →
        (σ.chain i).activeChain = (σ.chain j).activeChain) := by
  have h := Spreading.of_reachable hinj hne hheader hσ
  have hB : ∃ now, BlockSet c now B := by
    refine hσ.invariant (I := fun _ => ∃ now, BlockSet c now B) (fun σ hσ => ?_) fun _ _ _ h _ _ => h
    obtain ⟨amb, -, hB, -⟩ := hσ.2.1 i
    exact ⟨amb.now, hB⟩
  obtain ⟨now, hB⟩ := hB
  have hlookup : ∀ k x, (σ.chain k).blocks.lookup x =
      if x ∈ (σ.chain i).held then B.lookup x else none := fun k x => by
    split_ifs with hx
    · rw [h.held_eq hquiet i k, ← (h.settles hB hquiet k).1] at hx
      exact (h.settled k).lookup_eq hx
    · rw [h.held_eq hquiet i k, ← (h.settles hB hquiet k).1] at hx
      exact Finmap.lookup_eq_none.2 hx
  have hsame : ∀ k, (σ.chain k).blocks = (σ.chain i).blocks := fun k =>
    Finmap.ext_lookup fun x => by rw [hlookup k, hlookup i]
  have hheaviest : ∀ k, HeaviestIn (σ.chain i).blocks (σ.chain k).activeChain := fun k => by
    have hsettled := h.settled k
    have hactive := hsettled.active
    have hheaviest := hsettled.heaviest
    rw [hsame] at hactive
    rw [Heaviest, hsame] at hheaviest
    obtain ⟨w, hw⟩ := hB.exists_work hheader fun y hy => by
      rw [Finmap.mem_iff, ← hsettled.lookup_eq (hsettled.known y hy)]
      exact Finmap.mem_iff.1 (hsettled.known y hy)
    rw [workOfChain_congr fun y hy => (hsettled.lookup_eq (hsettled.known y hy)).symm, hsame] at hw
    exact ⟨hactive, w, hw, fun l' w' hl' hw' => hheaviest l' w' w hl' hw' hw⟩
  refine ⟨(hsame j).symm, (h.settles hB hquiet i).2, fun m said b hm hb => ?_, hheaviest i, ?_, fun hunique =>
    hunique _ _ (hheaviest i) (hheaviest j)⟩
  · obtain ⟨hb, hheld⟩ := h.submitted j m said b hm hb
    rw [h.held_eq hquiet j i] at hheld
    rw [hlookup, if_pos hheld, hb]
  · obtain ⟨-, w, hw, hle⟩ := hheaviest i
    obtain ⟨hl', w', hw', hle'⟩ := hheaviest j
    rw [chainWork, chainWork, hsame j, hw, hw', le_antisymm (hle' _ w (hheaviest i).1 hw) (hle _ w' hl' hw')]

namespace Sample

/-- A block is submitted to each of two nodes. -/
noncomputable def divided : Network Bool :=
  [NetworkOp.ask false surroundings (.submitTemplate left),
    .ask true surroundings (.submitTemplate right)].foldl
    (Network.after forkCrypto encoding) neighbours

/-- Their chains part after the genesis. -/
theorem ledgers_agree_sample : (divided.chain false).activeChain = [1, 2] ∧
    (divided.chain true).activeChain = [1, 3] ∧
    ∃ common rest rest', [1, 2] = common ++ rest ∧ [1, 3] = common ++ rest' ∧ common ≠ [] ∧
      rest.Disjoint rest' := by
  have hreach : (networkSystem forkCrypto encoding).Reachable divided := reachable_neighbours _
  have hfalse : (divided.chain false).activeChain = [1, 2] := by decide +kernel
  have htrue : (divided.chain true).activeChain = [1, 3] := by decide +kernel
  obtain ⟨common, rest, rest', hs, ht, hne, hdisjoint, -⟩ :=
    ledgers_agree (tableHash_injective _) (tableHash_ne_zero _) hreach false true
  exact ⟨hfalse, htrue, common, rest, rest', hfalse ▸ hs, htrue ▸ ht, hne, hdisjoint⟩

/-- What is submitted to the two nodes, and sent on. -/
noncomputable def converging : List (NetworkOp Bool) :=
  [.ask false surroundings (.submitTemplate left), .ask true surroundings (.submitTemplate right),
    .deliver false true 0 surroundings, .deliver true false 0 surroundings,
    .ask true surroundings (.submitTemplate rightNext), .deliver true false 0 surroundings]

noncomputable def converged : Network Bool := converging.foldl (Network.after forkCrypto encoding) neighbours

theorem reachable_converged : (meshSystem forkCrypto encoding forked.blocks).ReachableBy
    (Reliable forkCrypto forked.blocks) converged := by
  have hstart : (meshSystem forkCrypto encoding forked.blocks).ReachableBy (Reliable forkCrypto forked.blocks)
      neighbours := by
    have hadd : (addBlock forkCrypto ambient genesis new).2 = .ok () := by decide +kernel
    refine .init ⟨starts_neighbours, fun _ => ⟨ambient, genesis, blockSet_forked, by decide +kernel,
      by decide +kernel, Prod.ext rfl hadd⟩, fun i j hij => ?_⟩
    change (if i = j then none else some [] : Option (List Packet)).isSome
    rw [if_neg hij]
    rfl
  have hask : ∀ {σ : Network Bool} (j : Bool) (b : Block),
      forked.blocks.lookup (forkCrypto.hashBlock b) = some b →
      b.header.prevBlockHash ∈ (σ.chain j).blocks.keys →
      Reliable forkCrypto forked.blocks σ (.ask j surroundings (.submitTemplate b)) := by
    rintro σ j b hb hprev _ ⟨⟩
    exact ⟨rfl, blockSet_forked, hb, Finmap.mem_keys.1 hprev⟩
  have hdeliver : ∀ {σ : Network Bool} (i j : Bool), (σ.chain j).orphans.keys.card < maxOrphanBlocks →
      Reliable forkCrypto forked.blocks σ (.deliver i j 0 surroundings) :=
        fun _ _ hroom => ⟨blockSet_forked, hroom⟩
  have h₁ := hstart.step (hask false left (by decide +kernel) (by decide +kernel)) rfl
  have h₂ := h₁.step (hask true right (by decide +kernel) (by decide +kernel)) rfl
  have h₃ := h₂.step (hdeliver false true (by decide +kernel)) rfl
  have h₄ := h₃.step (hdeliver true false (by decide +kernel)) rfl
  have h₅ := h₄.step (hask true rightNext (by decide +kernel) (by decide +kernel)) rfl
  rw [converged, converging]
  simp only [List.foldl_cons, List.foldl_nil]
  exact h₅.step (hdeliver true false (by decide +kernel)) rfl

/-- Both have switched to the second branch. -/
theorem network_converges_sample : (converged.chain true).activeChain = [1, 3, 4] ∧
    (converged.chain false).blocks = (converged.chain true).blocks ∧ (converged.chain false).orphans = ∅ ∧
    HeaviestIn (converged.chain false).blocks (converged.chain false).activeChain := by
  have hquiet : ∀ i j, ∀ ms ∈ converged.link i j, ms = [] := by decide +kernel
  obtain ⟨hblocks, horphans, -, hheaviest, -⟩ := network_converges (tableHash_injective _) (tableHash_ne_zero _)
    (tableHash_ne_zero _) reachable_converged (fun i j b ⟨ms, hms, hm⟩ => by
      rw [hquiet i j ms hms] at hm
      cases hm) false true
  exact ⟨by decide +kernel, hblocks, horphans, hheaviest⟩

end Sample

end Itx
