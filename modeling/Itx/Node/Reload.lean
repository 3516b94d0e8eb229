import Itx.Node.Store

/-!
# Loading what has been accepted

A chain is loaded from the store by adding its blocks one by one to a new
blockchain. Whatever led to it (side branches, reorganisations, attached orphans),
each of its blocks passes again on the blocks before it, and becomes the tip
(`Loaded.addBlock`). What is not the same is the clock: a block is dated at most
two hours after the clock it is checked against, which was that of the network when
it was accepted, and is that of the machine when it is loaded. The chain is loaded
exactly when no block of it is dated more than two hours after the latter
(`reload_iff`).
-/

namespace Itx

open Call Blockchain Utxos

variable {c : Crypto} {s S : Blockchain} {block : Block} {x : Hash} {l chain : List Hash}
  {amb : Ambient} {blocks : Finmap fun _ : Hash => Block}

/-! ## Adding a block when no orphan waits -/

theorem readyOrphans_of_empty (ho : s.orphans = ∅) (order : MapOrder) (hash : Hash) :
    readyOrphans order s hash = [] := by
  rw [readyOrphans, ho]
  simp

/-- Without orphans, adding a block is accepting it. -/
theorem addBlock_of_orphans_empty (ho : s.orphans = ∅) (amb : Ambient) (block : Block) :
    addBlock c amb block s = ((acceptBlock c amb block s).1,
      (acceptBlock c amb block s).2.bind fun _ => .ok ()) := by
  have hframe := triple_refused (c := c) amb block s s rfl
  change Call.bind (acceptBlock c amb block) (fun hash => Call.get >>= fun s =>
    Call.forEach (readyOrphans amb.order s hash) _) s = _
  rw [Call.bind]
  generalize acceptBlock c amb block s = r at hframe
  obtain ⟨s', hash | e | _⟩ := r
  · have hnone := readyOrphans_of_empty (hframe.trans ho) amb.order hash
    change Call.forEach (readyOrphans amb.order s' hash) _ s' = _
    rw [hnone]
    rfl
  · rfl
  · rfl

/-! ## Following a chain -/

/-- The state when the chain `l` of the blocks `B` has been followed up to its end, and
    nothing else is known. -/
structure Following (c : Crypto) (B : Finmap fun _ : Hash => Block) (l : List Hash)
    (s : Blockchain) : Prop extends Steady c s where
  passes : Retargeted s ∧ Each (PassesOn c) s
  activeChain : s.activeChain = l
  lookup : ∀ x, s.blocks.lookup x = if x ∈ l then B.lookup x else none
  no_orphans : s.orphans = ∅

/-- Nothing is outdated when every known block is on the active chain. -/
theorem outdated_eq_nil {order : MapOrder} {prunable : List Hash}
    (h : outdated order s = .ok prunable) (hall : ∀ x ∈ s.blocks, x ∈ s.activeChain) :
    prunable = [] := by
  rw [outdated] at h
  split at h
  · refine List.eq_nil_iff_forall_not_mem.2 fun x hx => notMem_active_of_prunable h hx (hall x ?_)
    exact Finmap.mem_keys.1 ((order.mem_keys _ _).1 (mem_of_mem_prunable h hx))
  · exact (Outcome.ok.inj h).symm

section

variable (hinj : Function.Injective c.hashBlock) (hne : ∀ block, c.hashBlock block ≠ Hash.zero)

include hinj hne

/-- The next block of the chain becomes the tip, or is refused. The clock and what is
    to be deleted from the store stay as they are. -/
theorem Following.addBlock (h : Following c blocks l s) (hl : Linked blocks (l ++ [x]))
    (hb : blocks.lookup x = some block) (hx : c.hashBlock block = x) (amb : Ambient) :
    (PassesOn c blocks l block ∧ checkTimestamp amb.now s block.header.timestamp = .ok () ∧
      ∃ s', addBlock c amb block s = (s', .ok ()) ∧ Following c blocks (l ++ [x]) s' ∧
        s'.timeOffset = s.timeOffset ∧ s'.pendingPrunes = s.pendingPrunes) ∨
    ¬ (PassesOn c blocks l block ∧ checkTimestamp amb.now s block.header.timestamp = .ok ()) ∧
      ∀ s', addBlock c amb block s ≠ (s', .ok ()) := by
  obtain ⟨-, b, hb', hprev⟩ := hl.concat_inv
  obtain rfl := Option.some.inj (hb.symm.trans hb')
  have hparent : block.header.prevBlockHash = s.tipHash := by rw [hprev, tipHash_eq, h.activeChain]
  have hsame : ∀ y ∈ l, s.blocks.lookup y = blocks.lookup y := fun y hy => by
    rw [h.lookup, if_pos hy]
  have hiff : ExtendsTip c amb.now s block ↔ PassesOn c blocks l block ∧
      checkTimestamp amb.now s block.header.timestamp = .ok () := by
    have hpasses : PassesOn c s.blocks l block ↔ PassesOn c blocks l block :=
      ⟨onChain_passesOn _ _ _ _ hsame, onChain_passesOn _ _ _ _ fun y hy => (hsame y hy).symm⟩
    rw [← hpasses, ← h.activeChain, ← checkExtendingTip_iff h.toReplayed h.passes.1]
    exact ⟨fun he => he.checked, fun he => ⟨hparent, he⟩⟩
  have haccept := h.toSteady.accepts hinj hne amb block
  have hsteady := ((accepting_passes hinj hne).preserves_acceptBlock hinj hne amb block).apply
    ⟨h.toSteady, h.passes⟩
  rw [addBlock_of_orphans_empty h.no_orphans]
  generalize acceptBlock c amb block s = r at haccept hsteady
  obtain ⟨s', o⟩ := r
  cases haccept with
  | refused ho htip _ =>
    refine .inr ⟨fun hp => htip (hiff.2 hp), fun s' he => ?_⟩
    obtain ⟨hash, hok, -⟩ := Outcome.bind_eq_ok.1 (Prod.mk.inj he).2
    exact ho hash hok
  | buffered _ hntip _ => exact absurd hparent hntip
  | @extended target prunable htip ht hp =>
    obtain ⟨hpass, htime⟩ := hiff.1 htip
    -- Every known block is on the active chain: none is pruned.
    have hactive : ((s.pushBlock c amb.now block).setTarget target).activeChain = l ++ [x] := by
      rw [← hx, ← h.activeChain]
      rfl
    have hlookup : ∀ y, ((s.pushBlock c amb.now block).setTarget target).blocks.lookup y =
        if y ∈ l ++ [x] then blocks.lookup y else none := fun y => by
      change (s.storeBlock c block).blocks.lookup y = _
      rw [storeBlock, Finmap.lookup_insert_eq, h.lookup, hx]
      by_cases hy : y = x
      · rw [if_pos hy, hy, if_pos (by simp), hb]
      · simp [hy]
    obtain rfl := outdated_eq_nil hp fun y hy => by
      obtain ⟨b, hb⟩ := Finmap.mem_iff.1 hy
      rw [hlookup] at hb
      split_ifs at hb with hmem
      rwa [hactive]
    exact .inl ⟨hpass, htime, _, rfl, ⟨hsteady.1, hsteady.2, hactive, hlookup, h.no_orphans⟩, rfl,
      List.append_nil _⟩
  | stored hoff _ _ => exact absurd hparent hoff.parent_ne_tip
  | switched hoff _ _ _ _ _ _ => exact absurd hparent hoff.parent_ne_tip

end

/-! ## Loaded chains -/

/-- The state when the chain `l` of the blocks `B` has been loaded. -/
structure Loaded (c : Crypto) (B : Finmap fun _ : Hash => Block) (l : List Hash)
    (s : Blockchain) : Prop extends Steady c s where
  passes : Retargeted s ∧ Each (PassesOn c) s
  activeChain : s.activeChain = l
  lookup : ∀ x, s.blocks.lookup x = if x ∈ l then B.lookup x else none
  no_orphans : s.orphans = ∅
  timeOffset : s.timeOffset = 0
  pendingPrunes : s.pendingPrunes = []

theorem loaded_new : Loaded c blocks [] new where
  toSteady := steady_new
  passes := ⟨rfl, each_new⟩
  activeChain := rfl
  lookup _ := rfl
  no_orphans := rfl
  timeOffset := rfl
  pendingPrunes := rfl

theorem Loaded.following (h : Loaded c blocks l s) : Following c blocks l s :=
  ⟨h.toSteady, h.passes, h.activeChain, h.lookup, h.no_orphans⟩

/-- The next block of the chain becomes the tip, or is refused. -/
theorem Loaded.addBlock (hinj : Function.Injective c.hashBlock)
    (hne : ∀ block, c.hashBlock block ≠ Hash.zero) (h : Loaded c blocks l s)
    (hl : Linked blocks (l ++ [x])) (hb : blocks.lookup x = some block)
    (hx : c.hashBlock block = x) (amb : Ambient) :
    (PassesOn c blocks l block ∧ checkTimestamp amb.now s block.header.timestamp = .ok () ∧
      ∃ s', addBlock c amb block s = (s', .ok ()) ∧ Loaded c blocks (l ++ [x]) s') ∨
    ¬ (PassesOn c blocks l block ∧ checkTimestamp amb.now s block.header.timestamp = .ok ()) ∧
      ∀ s', addBlock c amb block s ≠ (s', .ok ()) := by
  rcases h.following.addBlock hinj hne hl hb hx amb with
    ⟨hpass, htime, s', hadd, hf, hoffset, hprunes⟩ | hrefused
  · exact .inl ⟨hpass, htime, s', hadd, hf.toSteady, hf.passes, hf.activeChain, hf.lookup,
      hf.no_orphans, hoffset.trans h.timeOffset, hprunes.trans h.pendingPrunes⟩
  · exact .inr hrefused

/-! ## Loading the chain of a store -/

theorem checkTimestamp_of_zero (h : s.timeOffset = 0) (now t : DateTime) :
    checkTimestamp now s t = checkTimestamp now new t := by
  rw [checkTimestamp, checkTimestamp, h]
  rfl

/-- The call goes on, when the block has been added. -/
theorem mapErr_bind {α : Type} {y : ChainCall Unit} {f : Unit → Call Blockchain LoadError α}
    {s s' : Blockchain} (h : y s = (s', .ok ())) :
    (mapErr LoadError.rejected y >>= f) s = f () s' := by
  change Call.bind (mapErr LoadError.rejected y) f s = _
  rw [Call.bind, mapErr, h]

/-- The call stops, when the block has not been added. -/
theorem mapErr_bind_ne_ok {α : Type} {y : ChainCall Unit} {f : Unit → Call Blockchain LoadError α}
    {s : Blockchain} (h : ∀ s', y s ≠ (s', .ok ())) {s' : Blockchain} {o : Outcome LoadError α}
    (ho : (mapErr LoadError.rejected y >>= f) s = (s', o)) :
    o = .panic ∨ ∃ e, o = .err (.rejected e) := by
  change Call.bind (mapErr LoadError.rejected y) f s = _ at ho
  rw [Call.bind, mapErr] at ho
  generalize y s = r at h ho
  obtain ⟨t, ⟨⟩ | e | _⟩ := r
  · exact absurd rfl (h t)
  · exact .inr ⟨e, (Prod.mk.inj ho).2.symm⟩
  · exact .inl (Prod.mk.inj ho).2.symm

/-- The block at the position `i` of the stored chain passes again, on the blocks
    before it and by the clock it is loaded at. -/
def PassesAgain (c : Crypto) (amb : ℕ → Ambient) (store : BlockStore) (chain : List Hash) (i : ℕ) :
    Prop :=
  ∀ x block, chain[i]? = some x → store.getBlock x = some block →
    PassesOn c store.blocks (chain.take i) block ∧
      checkTimestamp (amb i).now new block.header.timestamp = .ok ()

section

variable (hinj : Function.Injective c.hashBlock) (hne : ∀ block, c.hashBlock block ≠ Hash.zero)
  {store : BlockStore} {rest : List Hash}

include hinj hne

/-- Loading the rest of a chain of the store: it ends with the chain loaded, if every
    block passes again, and is stopped by one that does not otherwise. -/
theorem Loaded.loadBlocks (amb : ℕ → Ambient) (h : Loaded c store.blocks l s)
    (hl : Linked store.blocks (l ++ rest))
    (hk : ∀ x ∈ rest, ∀ b, store.blocks.lookup x = some b → c.hashBlock b = x) :
    ((∀ i, l.length ≤ i → PassesAgain c amb store (l ++ rest) i) ∧
      ∃ s', loadBlocks c amb store l.length rest s = (s', .ok ()) ∧
        Loaded c store.blocks (l ++ rest) s') ∨
    ¬ (∀ i, l.length ≤ i → PassesAgain c amb store (l ++ rest) i) ∧
      ∀ s' o, loadBlocks c amb store l.length rest s = (s', o) →
        o = .panic ∨ ∃ e, o = .err (.rejected e) := by
  induction rest generalizing l s with
  | nil =>
    refine .inl ⟨fun i hi x b hx => ?_, s, rfl, by rwa [List.append_nil]⟩
    rw [List.append_nil, List.getElem?_eq_none hi] at hx
    cases hx
  | cons x rest ih =>
    have hlx : Linked store.blocks ((l ++ [x]) ++ rest) := by rwa [List.append_assoc]
    obtain ⟨-, b, hb, -⟩ := hlx.of_append.concat_inv
    have hx := hk x List.mem_cons_self b hb
    -- The block is in the store, and is added.
    have hstep : loadBlocks c amb store l.length (x :: rest) s =
        (mapErr LoadError.rejected (Blockchain.addBlock c (amb l.length) b) >>= fun _ =>
          loadBlocks c amb store (l.length + 1) rest) s := by
      change Call.bind (Call.lift (.okOr _ (store.blocks.lookup x))) _ s = _
      rw [hb]
      rfl
    have hget : (l ++ x :: rest)[l.length]? = some x := by simp
    have htake : (l ++ x :: rest).take l.length = l := by simp
    rw [hstep]
    rcases h.addBlock hinj hne hlx.of_append hb hx (amb l.length) with
      ⟨hpass, htime, s', hadd, hloaded⟩ | ⟨hfail, hadd⟩
    · rw [mapErr_bind hadd]
      have hrest := ih hloaded hlx fun y hy => hk y (List.mem_cons_of_mem _ hy)
      rw [List.length_append, List.length_singleton, List.append_assoc, List.singleton_append]
        at hrest
      have hiff : (∀ i, l.length ≤ i → PassesAgain c amb store (l ++ x :: rest) i) ↔
          ∀ i, l.length + 1 ≤ i → PassesAgain c amb store (l ++ x :: rest) i := by
        refine ⟨fun hall i hi => hall i (by omega), fun hall i hi => ?_⟩
        rcases Nat.lt_or_eq_of_le hi with hlt | rfl
        · exact hall i hlt
        · intro y b' hy hb'
          obtain rfl := Option.some.inj (hget.symm.trans hy)
          obtain rfl := Option.some.inj (hb.symm.trans hb')
          rw [htake, ← checkTimestamp_of_zero h.timeOffset]
          exact ⟨hpass, htime⟩
      rw [hiff]
      exact hrest
    · refine .inr ⟨fun hall => hfail ?_, fun s' o ho => mapErr_bind_ne_ok hadd ho⟩
      have := hall l.length le_rfl x b hget hb
      rwa [htake, ← checkTimestamp_of_zero h.timeOffset] at this

end

/-! ## Loading what has been accepted -/

/-- The clock of the machine, in range, and a date at most two hours after it. -/
theorem checkTimestamp_new (c : Crypto) {now t : DateTime} (hnow : ClockInRange now) :
    checkTimestamp now new t = .ok () ↔
      t ≤ now + Duration.seconds maxFutureBlockDriftSeconds := by
  have hlimits : Limits c new := running_new.limits
  rw [checkTimestamp_eq hlimits hnow, Outcome.ensure_eq_ok, show new.timeOffset = 0 from rfl,
    add_zero]

theorem loadFromStore_ok {amb : ℕ → Ambient} {store : BlockStore} {s' : Blockchain}
    (hfirst : checkFirst c chain = .ok ()) (h : loadBlocks c amb store 0 chain s = (s', .ok ())) :
    loadFromStore c amb store chain s = (s'.takePrunedHashes, .ok s'.pendingPrunes) := by
  change Call.bind (Call.lift (checkFirst c chain)) _ s = _
  rw [hfirst]
  change Call.bind (loadBlocks c amb store 0 chain) _ s = _
  rw [Call.bind, h]
  rfl

theorem loadFromStore_stopped {amb : ℕ → Ambient} {store : BlockStore}
    (hfirst : checkFirst c chain = .ok ())
    (h : ∀ s' o, loadBlocks c amb store 0 chain s = (s', o) →
      o = .panic ∨ ∃ e, o = .err (.rejected e)) :
    (loadFromStore c amb store chain s).2 = .panic ∨
      ∃ e, (loadFromStore c amb store chain s).2 = .err (.rejected e) := by
  change (Call.bind (Call.lift (checkFirst c chain)) _ s).2 = _ ∨ ∃ e,
    (Call.bind (Call.lift (checkFirst c chain)) _ s).2 = _
  rw [hfirst]
  change (Call.bind (loadBlocks c amb store 0 chain) _ s).2 = _ ∨ ∃ e,
    (Call.bind (loadBlocks c amb store 0 chain) _ s).2 = _
  rw [Call.bind]
  generalize loadBlocks c amb store 0 chain s = r at h
  obtain ⟨s', o⟩ := r
  obtain rfl | ⟨e, rfl⟩ := h s' o rfl
  exacts [.inl rfl, .inr ⟨e, rfl⟩]

/-- A recorded chain begins with the genesis. -/
theorem Blockchain.BlockTree.checkFirst (h : BlockTree c S) (hk : Keyed c S) :
    checkFirst c S.activeChain = .ok () := by
  rw [Itx.checkFirst]
  cases hhead : S.activeChain.head? with
  | none => rfl
  | some x =>
    obtain ⟨genesis, hg, hb⟩ := h.head x hhead
    simp only [hg, Outcome.expect_eq_ok.2 rfl, Outcome.ok_bind]
    exact Outcome.ensure_of (hk.blocks x genesis hb).symm

section

variable (hinj : Function.Injective c.hashBlock) (hne : ∀ block, c.hashBlock block ≠ Hash.zero)
  {amb : ℕ → Ambient} {store : BlockStore}

include hinj hne

/-- The blocks of the active chain of a run pass again exactly when none is dated
    too far ahead of the clock. -/
theorem passesAgain_iff (hs : (chainSystem c).Reachable S) (hclock : ∀ i, ClockInRange (amb i).now)
    (hstore : ∀ x ∈ S.activeChain, store.getBlock x = S.blocks.lookup x) :
    (∀ i, PassesAgain c amb store S.activeChain i) ↔
      ∀ i t, timestampAt S.blocks S.activeChain i = some t →
        t ≤ (amb i).now + Duration.seconds maxFutureBlockDriftSeconds := by
  have hsteady := steady_of_reachable hinj hne hs
  constructor
  · intro hall i t ht
    obtain ⟨x, hx, ht⟩ := Option.bind_eq_some_iff.1 ht
    obtain ⟨b, hb, ht⟩ := Option.bind_eq_some_iff.1 ht
    obtain rfl := Option.some.inj ht
    rw [← hstore x (List.mem_of_getElem? hx)] at hb
    exact (checkTimestamp_new c (hclock i)).1 (hall i x b hx hb).2
  · intro hdated i x b hx hb
    rw [hstore x (List.mem_of_getElem? hx)] at hb
    have hchain : Linked S.blocks (S.activeChain.take i ++ [x]) := by
      have := hsteady.active.take (i + 1)
      rwa [List.take_add_one, hx] at this
    have hpass := (passes_of_reachable hinj hne hs).2 _ x b hchain hb
    refine ⟨onChain_passesOn _ _ _ _ (fun y hy => ?_) hpass, (checkTimestamp_new c (hclock i)).2 ?_⟩
    · exact (hstore y (List.mem_of_mem_take hy)).symm
    · exact hdated i _ (by simp [timestampAt, hx, hb])

/-- The active chain of a run is loaded by the next start, with the same target and
    the same unspent outputs, if and only if no block of it is dated more than two
    hours after the clock it is loaded at. -/
theorem reload_iff (hs : (chainSystem c).Reachable S) (hclock : ∀ i, ClockInRange (amb i).now)
    (hstore : ∀ x ∈ S.activeChain, store.getBlock x = S.blocks.lookup x) :
    (∃ s' pruned, loadFromStore c amb store S.activeChain new = (s', .ok pruned) ∧
      s'.activeChain = S.activeChain ∧ s'.target = S.target ∧
      ∀ h, (s'.utxos.lookup h).map Prod.snd = (S.utxos.lookup h).map Prod.snd) ↔
    ∀ i t, timestampAt S.blocks S.activeChain i = some t →
      t ≤ (amb i).now + Duration.seconds maxFutureBlockDriftSeconds := by
  have hsteady := steady_of_reachable hinj hne hs
  have hpass := passes_of_reachable hinj hne hs
  have hfirst := (hsteady.blockTree hinj hne hpass.2).checkFirst hsteady.toKeyed
  rw [← passesAgain_iff hinj hne hs hclock hstore]
  have hnew : Loaded c store.blocks [] new := loaded_new
  have hload := hnew.loadBlocks hinj hne amb
    (hsteady.active.congr fun x hx => (hstore x hx).symm) fun x hx b hb =>
      hsteady.blocks x b ((hstore x hx).symm.trans hb)
  simp only [List.nil_append, List.length_nil, Nat.zero_le, forall_const] at hload
  rcases hload with ⟨hall, s', hload, hloaded⟩ | ⟨hfail, hload⟩
  · have hsame : ∀ x ∈ S.activeChain, s'.blocks.lookup x = S.blocks.lookup x := fun x hx => by
      rw [hloaded.lookup, if_pos hx]
      exact hstore x hx
    refine ⟨fun _ => hall, fun _ => ⟨_, _, loadFromStore_ok hfirst hload, hloaded.activeChain, ?_,
      ?_⟩⟩
    · -- Both targets are that of the chain.
      have ht := hloaded.passes.1
      rw [Retargeted, hloaded.activeChain, recomputeTargetForChain_congr hsame] at ht
      exact Option.some.inj (ht.symm.trans hpass.1)
    · -- Both sets of outputs are those of a replay of the chain.
      obtain ⟨utxos, hu, hout⟩ := hsteady.replay
      obtain ⟨utxos', hu', hout'⟩ := hloaded.replay
      rw [hloaded.activeChain, replayUtxos_congr hsame] at hu'
      obtain rfl := Option.some.inj (hu.symm.trans hu')
      exact hout'.trans hout.symm
  · refine ⟨fun hloaded => ?_, fun hall => absurd hall hfail⟩
    obtain ⟨s', pruned, hok, _⟩ := hloaded
    rcases loadFromStore_stopped hfirst hload with hpanic | ⟨e, herr⟩
    · rw [hok] at hpanic
      cases hpanic
    · rw [hok] at herr
      cases herr

end

/-! ## A block dated by the clock of the network -/

/-- A block dated two hours and a half after the clock of the machine, when the clock
    of the network is an hour ahead of it. -/
def ahead : Block :=
  Sample.block (Duration.seconds (3600 + 9000)) 1 2 [Sample.payment [] 1 (50 * 10 ^ 8) 8]

noncomputable def aheadCrypto : Crypto := Sample.crypto ahead.transactions [ahead]

noncomputable def acceptedAhead : Blockchain :=
  run aheadCrypto (Sample.delivering [Sample.genesis] ++ [.setTimeOffset (Duration.seconds 3600)] ++
    Sample.delivering [ahead])

/-- It is accepted, and cannot be loaded at the same time. -/
theorem reload_rejects_accepted :
    (chainSystem aheadCrypto).ReachableBy (Received aheadCrypto) acceptedAhead ∧
      acceptedAhead.activeChain = [1, 2] ∧
      (loadFromStore aheadCrypto (fun _ => Sample.ambient)
        ⟨acceptedAhead.blocks, acceptedAhead.activeChain⟩ acceptedAhead.activeChain new).2 =
        .err (.rejected .invalidBlock) := by
  refine ⟨?_, by decide +kernel, by decide +kernel⟩
  refine reachableBy_run_concat _ ?_ ⟨by decide, by decide +kernel⟩
  refine reachableBy_run_concat _ ?_ ⟨by decide, by decide⟩
  exact reachableBy_run_concat [] reachableBy_run_nil ⟨by decide, by decide +kernel⟩

/-- The chain of the sample, after its reorganisation, is loaded. -/
theorem reload_iff_forked :
    ∃ s' pruned, loadFromStore Sample.forkCrypto (fun _ => Sample.ambient)
      ⟨Sample.forked.blocks, Sample.forked.activeChain⟩ Sample.forked.activeChain new =
        (s', .ok pruned) ∧
      s'.activeChain = Sample.forked.activeChain ∧ s'.target = Sample.forked.target ∧
      ∀ h, (s'.utxos.lookup h).map Prod.snd = (Sample.forked.utxos.lookup h).map Prod.snd := by
  refine (reload_iff (tableHash_injective _) (tableHash_ne_zero _) (reachable_run _)
    (fun _ => by decide) fun _ _ => rfl).2 fun i t ht => ?_
  have hlength : Sample.forked.activeChain.length = 3 := by decide +kernel
  have hdates : ∀ i < 3, ∀ t ∈ timestampAt Sample.forked.blocks Sample.forked.activeChain i,
      t ≤ Sample.ambient.now + Duration.seconds maxFutureBlockDriftSeconds := by decide +kernel
  have hi : i < Sample.forked.activeChain.length := by
    obtain ⟨x, hx, -⟩ := Option.bind_eq_some_iff.1 ht
    exact (List.getElem?_eq_some_iff.1 hx).1
  exact hdates i (hlength ▸ hi) t ht

end Itx
