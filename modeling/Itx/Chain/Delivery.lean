import Itx.Chain.ForkChoice

/-!
# The order of delivery

A set of blocks closed under parents is delivered in some order, with repetitions.
Each delivered block is known as soon as it and all its ancestors have been
delivered, and is an orphan until then: whatever the order, the known blocks and the
orphans are functions of the set of what has been delivered (`Settled`), as long as
the orphans have room and no branch is long enough for anything to be pruned.

* `Delivered.accept`: a block whose parent is known passes, on the tip or off it;
* `Delivered.addBlockWithin`: the orphans that waited for it, directly or not, are
  attached with it;
* `Settled.addBlock`: what one delivery does;
* `delivery_order`: two deliveries of the same set end with the same blocks, no
  orphan, and active chains of the same work, which is the most there is.
-/

namespace Itx.Blockchain

open Call

variable {c : Crypto} {now : DateTime} {B : Finmap fun _ : Hash => Block} {s s' t : Blockchain}
  {x y : Hash} {b : Block} {l : List Hash} {order : MapOrder}

/-- A set of blocks closed under parents, each of which passes on the chain to its
    parent, with branches too short to be pruned. -/
structure BlockSet (c : Crypto) (now : DateTime) (B : Finmap fun _ : Hash => Block) : Prop where
  keyed : ∀ x b, B.lookup x = some b → c.hashBlock b = x
  rooted : ∀ x ∈ B, ∃ l, Linked B (l ++ [x])
  passes : ∀ l x b, Linked B (l ++ [x]) → B.lookup x = some b → PassesOn c B l b
  timely : ∀ x b, B.lookup x = some b → checkTimestamp now new b.header.timestamp = .ok ()
  short : ∀ l, Linked B l → l.length ≤ sideBranchPruneDepth

/-- A state whose blocks and orphans are from the set. -/
structure Delivered (c : Crypto) (B : Finmap fun _ : Hash => Block) (s : Blockchain) : Prop
    extends Steady c s where
  passes : Retargeted s ∧ Each (PassesOn c) s
  heaviest : Heaviest s
  timeOffset : s.timeOffset = 0
  blocks_mem : ∀ x b, s.blocks.lookup x = some b → B.lookup x = some b
  orphans_mem : ∀ x b, s.orphans.lookup x = some b → B.lookup x = some b
  orphans_parent : ∀ x b, s.orphans.lookup x = some b → b.header.prevBlockHash ≠ Hash.zero
  started : s.activeChain = [] → ∀ x, x ∉ s.blocks

theorem delivered_new : Delivered c B new where
  toSteady := steady_new
  passes := ⟨rfl, each_new⟩
  heaviest := heaviest_new
  timeOffset := rfl
  blocks_mem _ _ h := by cases h
  orphans_mem _ _ h := by cases h
  orphans_parent _ _ h := by cases h
  started _ _ := Finmap.notMem_empty

/-- Known blocks are those of the set. -/
theorem Delivered.lookup_eq (h : Delivered c B s) (hx : x ∈ s.blocks) :
    s.blocks.lookup x = B.lookup x := by
  obtain ⟨b, hb⟩ := Finmap.mem_iff.1 hx
  rw [hb, h.blocks_mem x b hb]

theorem Delivered.takeOrphan (h : Delivered c B s) (block : Block) :
    Delivered c B (s.takeOrphan c block) := by
  have herase : ∀ x b, (s.takeOrphan c block).orphans.lookup x = some b →
      s.orphans.lookup x = some b := fun x b hb => by
    rw [Blockchain.takeOrphan, Finmap.lookup_erase_eq] at hb
    split_ifs at hb
    exact hb
  exact
    { blocks := h.blocks
      orphans := fun x b hb => h.orphans x b (herase x b hb)
      known := h.known
      rooted := h.rooted
      active := h.active
      replay := h.replay
      valid := h.valid
      nodup := h.nodup
      present := h.present
      target_le := h.target_le
      passes := h.passes
      heaviest := h.heaviest
      timeOffset := h.timeOffset
      blocks_mem := h.blocks_mem
      orphans_mem := fun x b hb => h.orphans_mem x b (herase x b hb)
      orphans_parent := fun x b hb => h.orphans_parent x b (herase x b hb)
      started := h.started }

/-! ## A block whose parent is known -/

section

variable (hinj : Function.Injective c.hashBlock) (hne : ∀ block, c.hashBlock block ≠ Hash.zero)
  (hheader : ∀ header, c.hashHeader header ≠ 0)

include hne in
/-- Nothing is outdated on a short active chain. -/
theorem Tree.outdated_eq_nil {prunable : List Hash} (h : Tree c s)
    (hshort : s.activeChain.length ≤ sideBranchPruneDepth)
    (hp : outdated order s = .ok prunable) : prunable = [] := by
  rw [outdated] at hp
  split at hp
  · refine List.eq_nil_iff_forall_not_mem.2 fun x hx => ?_
    have hmem := Finmap.mem_keys.1 ((order.mem_keys _ _).1 (mem_of_mem_prunable hp hx))
    obtain ⟨l, hl⟩ := h.rooted x hmem
    obtain ⟨-, -, hdeep⟩ := (h.mem_prunable hne hp hl).1 hx
    omega
  · exact (Outcome.ok.inj hp).symm

/-- The works of chains of the set can be computed. -/
theorem BlockSet.exists_work (hB : BlockSet c now B) (hheader : ∀ header, c.hashHeader header ≠ 0)
    (hl : ∀ y ∈ l, y ∈ B) : ∃ w, workOfChain B l = some w := by
  refine Option.ne_none_iff_exists'.1 (workOfChain_ne_none fun y hy => ?_)
  obtain ⟨b, hb⟩ := Finmap.mem_iff.1 (hl y hy)
  obtain ⟨chain, hchain⟩ := hB.rooted y (hl y hy)
  have hpass := hB.passes chain y b hchain hb
  exact ⟨b, hb, (Nat.one_le_iff_ne_zero.2 (hheader b.header)).trans hpass.work,
    recomputeTargetForChain_le hpass.target⟩

include hinj hne hheader in
/-- A block of the set whose parent is known is accepted, and becomes known; nothing
    else does, or is forgotten. -/
theorem Delivered.accept (hB : BlockSet c now B) (h : Delivered c B s)
    (hl : Linked B (l ++ [x])) (hb : B.lookup x = some b) (hknown : ∀ y ∈ l, y ∈ s.blocks)
    (hnil : l = [] → s.activeChain = []) (order : MapOrder) :
    ∃ s', acceptBlock c ⟨now, order⟩ b s = (s', .ok x) ∧ Delivered c B s' ∧
      (∀ y, y ∈ s'.blocks ↔ y = x ∨ y ∈ s.blocks) ∧ s'.orphans = s.orphans := by
  have hx := hB.keyed x b hb
  obtain ⟨hchain, b', hb', hprev⟩ := hl.concat_inv
  obtain rfl := Option.some.inj (hb.symm.trans hb')
  have hsame : ∀ y ∈ l, B.lookup y = s.blocks.lookup y := fun y hy =>
    (h.lookup_eq (hknown y hy)).symm
  have hpass := onChain_passesOn B s.blocks l b hsame (hB.passes l x b hl hb)
  have htime : checkTimestamp now s b.header.timestamp = .ok () := by
    rw [checkTimestamp, h.timeOffset]
    exact hB.timely x b hb
  -- Its checks pass, wherever its parent is.
  have hchecked : ExtendsTip c now s b ∨ ∃ forkIndex branch,
      s.candidateChain forkIndex branch = l ∧ OffTip c now s b forkIndex branch := by
    by_cases hactive : s.activeChain = l
    · refine .inl ⟨by rw [hprev, tipHash_eq, hactive], ?_⟩
      exact (checkExtendingTip_iff h.toReplayed h.passes.1).2 ⟨hactive ▸ hpass, htime⟩
    · have hl_ne : l ≠ [] := fun he => hactive ((hnil he).trans he.symm)
      obtain ⟨forkIndex, branch, rfl, hoff⟩ :=
        h.toTree.branchesOff hne (hchain.congr hsame) hl_ne hactive hprev
      exact .inr ⟨forkIndex, branch, rfl, hoff, (checkOffTip_iff hl_ne).2 ⟨hpass, htime⟩⟩
  have hblocks : ∀ y, y ∈ (s.storeBlock c b).blocks ↔ y = x ∨ y ∈ s.blocks := fun y => by
    rw [mem_storeBlock, hx]
  have hstored : ∀ y b', (s.storeBlock c b).blocks.lookup y = some b' → B.lookup y = some b' :=
    fun y b' hy => by
      rw [storeBlock, Finmap.lookup_insert_eq, hx] at hy
      split_ifs at hy with he
      · rw [he, ← Option.some.inj hy, hb]
      · exact h.blocks_mem y b' hy
  have haccept := h.toSteady.accepts hinj hne ⟨now, order⟩ b
  have hpassed := ((accepting_passes hinj hne).preserves_acceptBlock hinj hne ⟨now, order⟩ b).apply
    ⟨h.toSteady, h.passes⟩
  have hheaviest := ((accepting_heaviest hinj hne).preserves_acceptBlock hinj hne ⟨now, order⟩ b).apply
    ⟨h.toSteady, h.heaviest⟩
  -- What there is to say of the state it leaves.
  have hend : ∀ s', Steady c s' ∧ Retargeted s' ∧ Each (PassesOn c) s' → Steady c s' ∧ Heaviest s' →
      s'.blocks = (s.storeBlock c b).blocks → s'.orphans = s.orphans →
      s'.timeOffset = s.timeOffset → s'.activeChain ≠ [] →
      Delivered c B s' ∧ (∀ y, y ∈ s'.blocks ↔ y = x ∨ y ∈ s.blocks) ∧ s'.orphans = s.orphans :=
    fun s' hp hh hbs ho htime ha => by
      refine ⟨?_, by rwa [hbs], ho⟩
      exact
        { hp.1 with
          passes := hp.2
          heaviest := hh.2
          timeOffset := htime.trans h.timeOffset
          blocks_mem := by rwa [hbs]
          orphans_mem := by rw [ho]; exact h.orphans_mem
          orphans_parent := by rw [ho]; exact h.orphans_parent
          started := fun he => absurd he ha }
  generalize acceptBlock c ⟨now, order⟩ b s = r at haccept hpassed hheaviest
  obtain ⟨s', o⟩ := r
  cases haccept with
  | refused _ htip hoff =>
    rcases hchecked with hext | ⟨forkIndex, branch, -, hout⟩
    exacts [absurd hext htip, absurd hout (hoff forkIndex branch)]
  | buffered _ hntip hnot =>
    rcases hchecked with hext | ⟨forkIndex, branch, -, hout⟩
    exacts [absurd hext.parent hntip, absurd hout.parent_known hnot]
  | @extended target prunable hext _ hp =>
    have htree : Tree c ((s.pushBlock c now b).setTarget target) := by
      have := (moves_tree hinj hne ⟨now, order⟩ fun _ _ => True).push s b h.toTree trivial hext
      exact ⟨⟨this.blocks, this.orphans, this.known⟩, this.rooted, this.active⟩
    -- The active chain is one of the set: it is too short for anything to be pruned.
    have hshort := hB.short _ (htree.active.congr fun y hy => by
      obtain ⟨b', hb'⟩ := Finmap.mem_iff.1 (htree.known y hy)
      rw [hb', hstored y b' hb'])
    obtain rfl := htree.outdated_eq_nil hne hshort hp
    exact ⟨_, by rw [hx], hend _ hpassed hheaviest rfl rfl rfl (by simp [setTarget])⟩
  | @stored forkIndex branch o hout _ ho =>
    rcases ho with rfl | ⟨-, chain, hmem, hnone⟩
    · refine ⟨_, by rw [hx], hend _ hpassed hheaviest rfl rfl rfl fun he => ?_⟩
      exact h.started he _ hout.parent_known
    · have hlookup : ∀ y ∈ chain, (s.storeBlock c b).blocks.lookup y = B.lookup y := fun y hy => by
        obtain ⟨b', hb'⟩ := Finmap.mem_iff.1 (hmem y hy)
        rw [hb', hstored y b' hb']
      obtain ⟨w, hw⟩ := hB.exists_work hheader fun y hy => by
        obtain ⟨b', hb'⟩ := Finmap.mem_iff.1 (hmem y hy)
        exact Finmap.mem_iff.2 ⟨b', hstored y b' hb'⟩
      rw [workOfChain_congr hlookup, hw] at hnone
      cases hnone
  | @switched forkIndex branch _ _ target utxos confirmed _ hout _ _ _ _ _ hsame' =>
    refine ⟨s', by rw [hx], hend s' hpassed hheaviest hsame'.blocks hsame'.orphans
      hsame'.timeOffset ?_⟩
    rw [hsame'.activeChain]
    exact List.append_ne_nil_of_right_ne_nil _ (List.cons_ne_nil _ _)

/-! ## The orphans that waited for it -/

/-- What attaching a block and the orphans that waited for it does. -/
structure Attaches (s : Blockchain) (x : Hash) (s' : Blockchain) : Prop where
  block_mem : x ∈ s'.blocks
  blocks_subset : ∀ y ∈ s.blocks, y ∈ s'.blocks
  orphans_subset : s'.orphans.keys ⊆ s.orphans.keys
  mem_iff : ∀ y, (y ∈ s'.blocks ∨ y ∈ s'.orphans) ↔ y = x ∨ y ∈ s.blocks ∨ y ∈ s.orphans
  /-- No orphan is left waiting for what has become known. -/
  waiting : ∀ y o, s'.orphans.lookup y = some o → o.header.prevBlockHash ∈ s'.blocks →
    o.header.prevBlockHash ∈ s.blocks

omit hinj hne hheader in
theorem mem_takeOrphan {block : Block} :
    y ∈ (s.takeOrphan c block).orphans ↔ y ≠ c.hashBlock block ∧ y ∈ s.orphans := by
  rw [Blockchain.takeOrphan, Finmap.mem_erase]

/-- The loop over orphans waiting for a known block. -/
theorem Delivered.attach {depth : ℕ} {O : Finset Hash} (hO : O.card ≤ depth)
    (hadd : ∀ {s : Blockchain} {r : Block}, Delivered c B s → B.lookup (c.hashBlock r) = some r →
      r.header.prevBlockHash = x → x ∈ s.blocks → s.orphans.keys.card < depth →
      ∃ s', addBlockWithin c ⟨now, order⟩ depth r s = (s', .ok ()) ∧ Delivered c B s' ∧
        Attaches s (c.hashBlock r) s')
    {ready : List Block} (hready : ∀ r ∈ ready, B.lookup (c.hashBlock r) = some r ∧
      r.header.prevBlockHash = x ∧ c.hashBlock r ∈ O)
    (h : Delivered c B s) (hx : x ∈ s.blocks) (hsub : s.orphans.keys ⊆ O)
    (hmem : ∀ r ∈ ready, c.hashBlock r ∈ s.blocks ∨ c.hashBlock r ∈ s.orphans) :
    ∃ s', Call.forEach ready (fun orphan => do
        Call.modify (Blockchain.takeOrphan c orphan)
        Call.ignore (addBlockWithin c ⟨now, order⟩ depth orphan)) s = (s', .ok ⟨⟩) ∧
      Delivered c B s' ∧ (∀ y ∈ s.blocks, y ∈ s'.blocks) ∧ s'.orphans.keys ⊆ s.orphans.keys ∧
      (∀ y, (y ∈ s'.blocks ∨ y ∈ s'.orphans) ↔ y ∈ s.blocks ∨ y ∈ s.orphans) ∧
      ∀ y o, s'.orphans.lookup y = some o → y ∉ ready.map c.hashBlock ∧
        (o.header.prevBlockHash ∈ s'.blocks → o.header.prevBlockHash ∈ s.blocks) := by
  induction ready generalizing s with
  | nil => exact ⟨s, rfl, h, fun _ => id, Finset.Subset.refl _, fun _ => Iff.rfl, fun _ _ _ =>
      ⟨List.not_mem_nil, id⟩⟩
  | cons r ready ih =>
    obtain ⟨hr, hprev, hrO⟩ := hready r List.mem_cons_self
    -- One orphan less is waiting, so a depth less is enough for the call.
    have hless : (s.takeOrphan c r).orphans.keys ⊆ O.erase (c.hashBlock r) := fun y hy => by
      obtain ⟨hne, hy⟩ := mem_takeOrphan.1 (Finmap.mem_keys.1 hy)
      exact Finset.mem_erase.2 ⟨hne, hsub (Finmap.mem_keys.2 hy)⟩
    have hcard := (Finset.card_le_card hless).trans_lt (Finset.card_erase_lt_of_mem hrO)
    obtain ⟨t, hadded, ht, hattach⟩ := hadd (h.takeOrphan r) hr hprev hx (hcard.trans_le hO)
    have hsubT : t.orphans.keys ⊆ s.orphans.keys := fun y hy =>
      Finmap.mem_keys.2 (mem_takeOrphan.1 (Finmap.mem_keys.1 (hattach.orphans_subset hy))).2
    -- The orphan has become a block, and nothing else has been lost.
    have hmemT : ∀ y, (y ∈ t.blocks ∨ y ∈ t.orphans) ↔ y ∈ s.blocks ∨ y ∈ s.orphans := fun y => by
      rw [hattach.mem_iff, mem_takeOrphan]
      have hrmem := hmem r List.mem_cons_self
      constructor
      · rintro (rfl | hy | ⟨-, hy⟩)
        exacts [hrmem, .inl hy, .inr hy]
      · rintro (hy | hy)
        · exact .inr (.inl hy)
        · by_cases he : y = c.hashBlock r
          exacts [.inl he, .inr (.inr ⟨he, hy⟩)]
    obtain ⟨s', hloop, hs', hgrow, hshrink, hsame, hwait⟩ := ih
      (fun r' hr' => hready r' (List.mem_cons_of_mem _ hr')) ht (hattach.blocks_subset x hx)
      (hsubT.trans hsub) fun r' hr' => (hmemT _).2 (hmem r' (List.mem_cons_of_mem _ hr'))
    refine ⟨s', ?_, hs', fun y hy => hgrow y (hattach.blocks_subset y hy), hshrink.trans hsubT,
      fun y => (hsame y).trans (hmemT y), fun y o ho => ?_⟩
    -- The loop is the call for this orphan, then the loop over the others.
    · have hfirst : (Call.bind (Call.modify (Blockchain.takeOrphan c r)) fun _ =>
          Call.ignore (addBlockWithin c ⟨now, order⟩ depth r)) s = (t, .ok ⟨⟩) := by
        change Call.ignore (addBlockWithin c ⟨now, order⟩ depth r) (s.takeOrphan c r) = _
        rw [Call.ignore, hadded]
      change Call.bind (Call.bind (Call.modify (Blockchain.takeOrphan c r)) fun _ =>
        Call.ignore (addBlockWithin c ⟨now, order⟩ depth r)) (fun _ => Call.forEach ready _) s = _
      rw [Call.bind, hfirst]
      exact hloop
    · obtain ⟨hnot, hparent⟩ := hwait y o ho
      have hyt : y ∈ t.orphans := Finmap.mem_keys.1 (hshrink (Finmap.mem_keys.2 (Finmap.mem_iff.2 ⟨o, ho⟩)))
      have hys := mem_takeOrphan.1 (Finmap.mem_keys.1 (hattach.orphans_subset (Finmap.mem_keys.2 hyt)))
      refine ⟨?_, fun hp => ?_⟩
      · rw [List.map_cons, List.mem_cons]
        rintro (he | he)
        exacts [hys.1 he, hnot he]
      · obtain ⟨o', ho'⟩ := Finmap.mem_iff.1 hyt
        obtain rfl : o = o' :=
          Option.some.inj ((hs'.orphans_mem y o ho).symm.trans (ht.orphans_mem y o' ho'))
        exact hattach.waiting y o ho' (hparent hp)

include hinj hne hheader in
/-- A block of the set whose parent is known is added, with the orphans that waited
    for it. The induction is on the depth of the calls, which the orphans bound. -/
theorem Delivered.addBlockWithin (hB : BlockSet c now B) (order : MapOrder) {depth : ℕ}
    (h : Delivered c B s) (hl : Linked B (l ++ [x])) (hb : B.lookup x = some b)
    (hknown : ∀ y ∈ l, y ∈ s.blocks) (hnil : l = [] → s.activeChain = [])
    (hdepth : s.orphans.keys.card < depth) :
    ∃ s', addBlockWithin c ⟨now, order⟩ depth b s = (s', .ok ()) ∧ Delivered c B s' ∧
      Attaches s x s' := by
  induction depth generalizing s x b l with
  | zero => exact absurd hdepth (Nat.not_lt_zero _)
  | succ depth ih =>
    obtain ⟨s₁, haccept, h₁, hblocks, horphans⟩ :=
      h.accept hinj hne hheader hB hl hb hknown hnil order
    have hx₁ : x ∈ s₁.blocks := (hblocks x).2 (.inl rfl)
    have hready : ∀ r ∈ readyOrphans order s₁ x, B.lookup (c.hashBlock r) = some r ∧
        r.header.prevBlockHash = x ∧ c.hashBlock r ∈ s₁.orphans.keys := fun r hr => by
      obtain ⟨y, hy⟩ := mem_readyOrphans hr
      have hmem := h₁.orphans_mem y r hy
      rw [hB.keyed y r hmem]
      exact ⟨hmem, of_decide_eq_true (List.mem_filter.1 hr).2,
        Finmap.mem_keys.2 (Finmap.mem_iff.2 ⟨r, hy⟩)⟩
    obtain ⟨s', hloop, h', hgrow, hshrink, hsame, hwait⟩ := h₁.attach (O := s₁.orphans.keys)
      (by rw [horphans]; omega : _ ≤ depth)
      (fun {t r} ht hr hp hxt hcard => by
        obtain ⟨chain, hchain⟩ := ht.rooted x hxt
        have hchainB : Linked B (chain ++ [x]) := hchain.congr fun y hy =>
          ht.lookup_eq (hchain.mem y hy)
        refine ih ht (.concat hchainB hr (by rw [hp, tipOf_concat])) hr hchain.mem
          (fun he => absurd he (by simp)) hcard)
      hready hx₁ (Finset.Subset.refl _) fun r hr => .inr (Finmap.mem_keys.1 (hready r hr).2.2)
    refine ⟨s', ?_, h', hgrow x hx₁, fun y hy => hgrow y ((hblocks y).2 (.inr hy)),
      by rwa [← horphans], fun y => ?_, fun y o ho hp => ?_⟩
    · change Call.bind (acceptBlock c ⟨now, order⟩ b) _ s = _
      rw [Call.bind, haccept]
      exact hloop
    · rw [hsame, hblocks, horphans, or_assoc]
    · obtain ⟨hnot, hparent⟩ := hwait y o ho
      rcases (hblocks _).1 (hparent hp) with hpx | hps
      · -- It would have been among the orphans that waited for the block.
        obtain ⟨o', ho'⟩ := Finmap.mem_iff.1 (Finmap.mem_keys.1
          (hshrink (Finmap.mem_keys.2 (Finmap.mem_iff.2 ⟨o, ho⟩))))
        obtain rfl : o = o' :=
          Option.some.inj ((h'.orphans_mem y o ho).symm.trans (h₁.orphans_mem y o' ho'))
        refine absurd (List.mem_map.2 ⟨o, List.mem_filter.2 ⟨List.mem_filterMap.2 ⟨y, ?_, ho'⟩,
          decide_eq_true hpx⟩, h₁.orphans y o ho'⟩) hnot
        exact (order.mem_keys _ _).2 (Finmap.mem_keys.2 (Finmap.mem_iff.2 ⟨o, ho'⟩))
      · exact hps

/-! ## One delivery -/

/-- All the ancestors of a block have been delivered. -/
def Connected (B : Finmap fun _ : Hash => Block) (D : Finset Hash) (x : Hash) : Prop :=
  ∃ l, Linked B (l ++ [x]) ∧ ∀ y ∈ l, y ∈ D

open Classical in
/-- What has been delivered without all its ancestors. -/
noncomputable def pending (B : Finmap fun _ : Hash => Block) (D : Finset Hash) : Finset Hash :=
  D.filter fun x => ¬ Connected B D x

omit hinj hne hheader in
theorem mem_pending {D : Finset Hash} : y ∈ pending B D ↔ y ∈ D ∧ ¬ Connected B D y := by
  simp only [pending, Finset.mem_filter]

/-- The state when `D` has been delivered: the rest of `D` are orphans, none of which
    has its parent among the known blocks. -/
structure Settled (c : Crypto) (B : Finmap fun _ : Hash => Block) (D : Finset Hash)
    (s : Blockchain) : Prop extends Delivered c B s where
  mem_iff : ∀ y, (y ∈ s.blocks ∨ y ∈ s.orphans) ↔ y ∈ D
  waiting : ∀ y o, s.orphans.lookup y = some o → o.header.prevBlockHash ∉ s.blocks
  active_ne : s.activeChain ≠ []

variable {D : Finset Hash}

omit hinj hne hheader in
/-- An orphan has an ancestor that is not known. -/
theorem Settled.not_orphan (h : Settled c B D s) (hl : Linked B (l ++ [y]))
    (hknown : ∀ z ∈ l, z ∈ s.blocks) : y ∉ s.orphans := by
  intro ho
  obtain ⟨o, ho⟩ := Finmap.mem_iff.1 ho
  obtain ⟨-, b, hb, hprev⟩ := hl.concat_inv
  obtain rfl := Option.some.inj (hb.symm.trans (h.orphans_mem y o ho))
  rcases List.eq_nil_or_concat' l with rfl | ⟨l', p, rfl⟩
  · exact h.orphans_parent y b ho hprev
  · rw [tipOf_concat] at hprev
    exact h.waiting y b ho (hprev ▸ hknown p (by simp))

omit hinj hne hheader in
/-- The blocks of a delivered chain are known; so are those of a chain that may also
    have blocks whose ancestors are not all known. -/
theorem Settled.known_of_linked (h : Settled c B D s) (hl : Linked B l)
    (hD : ∀ z ∈ l, z ∈ D ∨ ∀ l', Linked B (l' ++ [z]) → ¬ ∀ y ∈ l', y ∈ s.blocks) :
    ∀ y ∈ l, y ∈ s.blocks := by
  induction hl with
  | nil => exact fun _ hy => absurd hy List.not_mem_nil
  | @concat l z b hl hb hprev ih =>
    have ih := ih fun y hy => hD y (List.mem_append_left _ hy)
    intro y hy
    rcases List.mem_append.1 hy with hy | hy
    · exact ih y hy
    rw [List.mem_singleton.1 hy]
    rcases hD z (by simp) with hz | hz
    · exact ((h.mem_iff z).2 hz).resolve_right (h.not_orphan (hl.concat hb hprev) ih)
    · exact absurd ih (hz l (hl.concat hb hprev))

omit hinj hne hheader in
/-- The orphans are pending, and so is a block whose ancestors are not all known. -/
theorem Settled.pending_of_unknown (h : Settled c B D s)
    (hx : ∀ l, Linked B (l ++ [x]) → ¬ ∀ y ∈ l, y ∈ s.blocks) (hy : y = x ∨ y ∈ s.orphans) :
    y ∈ pending B (insert x D) := by
  have hmem : y ∈ insert x D := by
    rcases hy with rfl | hy
    exacts [Finset.mem_insert_self _ _, Finset.mem_insert_of_mem ((h.mem_iff y).1 (.inr hy))]
  refine mem_pending.2 ⟨hmem, fun ⟨l, hl, hD⟩ => ?_⟩
  have hknown := h.known_of_linked hl.concat_inv.1 fun z hz => by
    rcases Finset.mem_insert.1 (hD z hz) with rfl | hz
    exacts [.inr hx, .inl hz]
  rcases hy with rfl | hy
  · exact hx l hl hknown
  · exact h.not_orphan hl hknown hy

omit hinj hne hheader in
/-- A block whose parent is neither known nor missing is buffered. -/
theorem acceptBlock_of_unknown (amb : Ambient) (hzero : b.header.prevBlockHash ≠ Hash.zero)
    (htip : b.header.prevBlockHash ≠ s.tipHash) (hnot : b.header.prevBlockHash ∉ s.blocks) :
    acceptBlock c amb b s = (s.keepOrphan c b, .err .orphanBlock) := by
  have key : Triple (· = s) (acceptBlock c amb b) (fun _ _ => False)
      (fun e s' => s' = s.keepOrphan c b ∧ e = .orphanBlock) fun _ => False := by
    refine .get_bind fun t e => ?_
    subst e
    rw [if_neg htip]
    refine .lift_bind (Outcome.ensure_of hzero) (.get_bind fun t' e => ?_)
    subst e
    rw [if_pos hnot]
    refine .modify_bind (.lift (fun _ _ _ he => nomatch he) ?_ fun _ _ he => nomatch he)
    rintro e _ rfl he
    exact ⟨rfl, (Outcome.err.inj he).symm⟩
  have hend := key s rfl
  generalize acceptBlock c amb b s = r at hend
  obtain ⟨s', a | e | _⟩ := r
  · exact hend.elim
  · obtain ⟨rfl, rfl⟩ := hend
    rfl
  · exact hend.elim

omit hinj hne hheader in
theorem Settled.tipHash_mem (h : Settled c B D s) : s.tipHash ∈ s.blocks := by
  obtain ⟨l, x, hl⟩ := (List.eq_nil_or_concat' s.activeChain).resolve_left h.active_ne
  rw [tipHash_eq, hl, tipOf_concat]
  exact h.known x (by simp [hl])

omit hinj hheader in
include hne in
theorem Settled.tipHash_ne (h : Settled c B D s) : s.tipHash ≠ Hash.zero := fun he =>
  h.toTree.zero_notMem hne (he ▸ h.tipHash_mem)

omit hinj hne hheader in
/-- The genesis is known. -/
theorem Settled.genesis_mem (h : Settled c B D s) (hB : BlockSet c now B) (hl : Linked B ([] ++ [x]))
    (hb : B.lookup x = some b) : x ∈ s.blocks := by
  obtain ⟨z, rest, hz⟩ := List.exists_cons_of_ne_nil h.active_ne
  have hlz : Linked s.blocks ([] ++ [z]) := by
    have := h.active.take 1
    rwa [hz] at this
  have hzmem := hlz.mem z (by simp)
  obtain ⟨b₀, hb₀⟩ := Finmap.mem_iff.1 hzmem
  have hb₀' := h.blocks_mem z b₀ hb₀
  have hlB : Linked B ([] ++ [z]) := hlz.congr fun y hy => h.lookup_eq (hlz.mem y hy)
  obtain ⟨genesis, hg, he⟩ := (hB.passes [] x b hl hb).genesis rfl
  obtain ⟨genesis', hg', he'⟩ := (hB.passes [] z b₀ hlB hb₀').genesis rfl
  obtain rfl := Option.some.inj (hg.symm.trans hg')
  rw [← hB.keyed x b hb, he, ← he', hB.keyed z b₀ hb₀']
  exact hzmem

omit hinj hne hheader in
/-- A block that waits. There is room for it, unless it waits already. -/
theorem Settled.keepOrphan (h : Settled c B D s) (hB : BlockSet c now B)
    (hx : ∀ l, Linked B (l ++ [x]) → ¬ ∀ y ∈ l, y ∈ s.blocks) (hb : B.lookup x = some b)
    (hzero : b.header.prevBlockHash ≠ Hash.zero) (hparent : b.header.prevBlockHash ∉ s.blocks)
    (hroom : (pending B (insert x D)).card ≤ maxOrphanBlocks) :
    Settled c B (insert x D) (s.keepOrphan c b) := by
  have hkeyed := hB.keyed x b hb
  rw [Blockchain.keepOrphan, hkeyed]
  split
  · next hfull =>
    -- The buffer is full, and all that may wait fits into it, so the block waits already.
    have hmem : x ∈ s.orphans := by
      by_contra hnot
      have hsub : insert x s.orphans.keys ⊆ pending B (insert x D) := fun y hy =>
        h.pending_of_unknown hx ((Finset.mem_insert.1 hy).imp_right Finmap.mem_keys.1)
      have hcard := Finset.card_le_card hsub
      rw [Finset.card_insert_of_notMem (fun hk => hnot (Finmap.mem_keys.1 hk))] at hcard
      omega
    rw [Finset.insert_eq_of_mem ((h.mem_iff x).1 (.inr hmem))]
    exact h
  · have hlookup : ∀ y o, (s.orphans.insert x b).lookup y = some o →
        (y = x ∧ o = b) ∨ s.orphans.lookup y = some o := fun y o ho => by
      rw [Finmap.lookup_insert_eq] at ho
      split_ifs at ho with he
      · exact .inl ⟨he, (Option.some.inj ho).symm⟩
      · exact .inr ho
    have hsteady : Steady c { s with orphans := s.orphans.insert x b } :=
      { blocks := h.blocks
        orphans := fun y o ho => by
          rcases hlookup y o ho with ⟨rfl, rfl⟩ | ho
          exacts [hkeyed, h.orphans y o ho]
        known := h.known
        rooted := h.rooted
        active := h.active
        replay := h.replay
        valid := h.valid
        nodup := h.nodup
        present := h.present
        target_le := h.target_le }
    refine { hsteady with
      passes := h.passes
      heaviest := h.heaviest
      timeOffset := h.timeOffset
      blocks_mem := h.blocks_mem
      orphans_mem := fun y o ho => ?_
      orphans_parent := fun y o ho => ?_
      started := h.started
      mem_iff := fun y => ?_
      waiting := fun y o ho => ?_
      active_ne := h.active_ne }
    · rcases hlookup y o ho with ⟨rfl, rfl⟩ | ho
      exacts [hb, h.orphans_mem y o ho]
    · rcases hlookup y o ho with ⟨rfl, rfl⟩ | ho
      exacts [hzero, h.orphans_parent y o ho]
    · dsimp only
      rw [Finmap.mem_insert, Finset.mem_insert, ← h.mem_iff]
      tauto
    · rcases hlookup y o ho with ⟨rfl, rfl⟩ | ho
      exacts [hparent, h.waiting y o ho]

include hinj hne hheader in
/-- A delivery of a block all of whose ancestors are known. -/
theorem Settled.addBlock_known {p : Hash} (hB : BlockSet c now B) (h : Settled c B D s) (order : MapOrder)
    (hl : Linked B (l ++ [p] ++ [x])) (hb : B.lookup x = some b) (hknown : ∀ y ∈ l ++ [p], y ∈ s.blocks) :
    ∃ s', addBlock c ⟨now, order⟩ b s = (s', .ok ()) ∧ Settled c B (insert x D) s' := by
  obtain ⟨s', hadd, h', hattach⟩ := h.toDelivered.addBlockWithin hinj hne hheader hB
    order hl hb hknown (fun he => absurd he (by simp)) (Nat.lt_succ_self _)
  refine ⟨s', hadd, { h' with
    mem_iff := fun y => ?_
    waiting := fun y o ho hp => ?_
    active_ne := fun he => h'.started he x hattach.block_mem }⟩
  · rw [hattach.mem_iff, Finset.mem_insert, h.mem_iff]
  · -- It would have been waiting for a block that was known already.
    obtain ⟨o', ho'⟩ := Finmap.mem_iff.1 (Finmap.mem_keys.1
      (hattach.orphans_subset (Finmap.mem_keys.2 (Finmap.mem_iff.2 ⟨o, ho⟩))))
    obtain rfl : o = o' :=
      Option.some.inj ((h'.orphans_mem y o ho).symm.trans (h.orphans_mem y o' ho'))
    exact h.waiting y o ho' (hattach.waiting y o ho hp)

omit hinj hheader in
include hne in
/-- The ancestors of a known block are known. -/
theorem Settled.ancestors_known {p : Hash} (hB : BlockSet c now B) (h : Settled c B D s)
    (hl : Linked B (l ++ [p])) (hp : p ∈ s.blocks) : ∀ y ∈ l ++ [p], y ∈ s.blocks := by
  have hzero : Hash.zero ∉ B := fun hmem => by
    obtain ⟨b', hb'⟩ := Finmap.mem_iff.1 hmem
    exact hne b' (hB.keyed _ b' hb')
  obtain ⟨chain, hchain⟩ := h.rooted p hp
  have hB : Linked B (chain ++ [p]) := hchain.congr fun y hy => h.lookup_eq (hchain.mem y hy)
  rw [hl.unique hzero hB (by rw [tipOf_concat, tipOf_concat])]
  exact hchain.mem

omit hinj hheader in
include hne in
/-- A delivery of a block not all of whose ancestors are known. -/
theorem Settled.addBlock_unknown {p : Hash} (hB : BlockSet c now B) (h : Settled c B D s) (order : MapOrder)
    (hl : Linked B (l ++ [p] ++ [x])) (hb : B.lookup x = some b)
    (hunknown : ¬ ∀ y ∈ l ++ [p], y ∈ s.blocks) (hroom : (pending B (insert x D)).card ≤ maxOrphanBlocks) :
    addBlock c ⟨now, order⟩ b s = (s.keepOrphan c b, .err .orphanBlock) ∧
      Settled c B (insert x D) (s.keepOrphan c b) := by
  obtain ⟨hchain, b', hb', hprev⟩ := hl.concat_inv
  obtain rfl := Option.some.inj (hb.symm.trans hb')
  have hzero : Hash.zero ∉ B := fun hmem => by
    obtain ⟨b', hb'⟩ := Finmap.mem_iff.1 hmem
    exact hne b' (hB.keyed _ b' hb')
  have hx' : ∀ l', Linked B (l' ++ [x]) → ¬ ∀ y ∈ l', y ∈ s.blocks := fun l' hl' hall => by
    have he : l' ++ [x] = l ++ [p] ++ [x] := hl'.unique hzero hl (by rw [tipOf_concat, tipOf_concat])
    rw [List.append_cancel_right he] at hall
    exact hunknown hall
  rw [tipOf_concat] at hprev
  have hpB : p ∈ B := hchain.mem p (by simp)
  have hp : p ∉ s.blocks := fun hmem => hunknown (h.ancestors_known hne hB hchain hmem)
  have hbuffer := acceptBlock_of_unknown ⟨now, order⟩ (c := c) (b := b) (s := s)
    (by rw [hprev]; exact fun he => hzero (he ▸ hpB))
    (by rw [hprev]; exact fun he => hp (he ▸ h.tipHash_mem)) (by rwa [hprev])
  refine ⟨?_, h.keepOrphan hB hx' hb (by rw [hprev]; exact fun he => hzero (he ▸ hpB)) (by rwa [hprev]) hroom⟩
  change Call.bind (acceptBlock c ⟨now, order⟩ b) _ s = _
  rw [Call.bind, hbuffer]

include hinj hne hheader in
/-- One more delivery. -/
theorem Settled.addBlock (hB : BlockSet c now B) (h : Settled c B D s) (order : MapOrder)
    (hb : B.lookup x = some b) (hroom : (pending B (insert x D)).card ≤ maxOrphanBlocks) :
    Settled c B (insert x D) (addBlock c ⟨now, order⟩ b s).1 := by
  obtain ⟨l, hl⟩ := hB.rooted x (Finmap.mem_iff.2 ⟨b, hb⟩)
  rcases List.eq_nil_or_concat' l with rfl | ⟨l', p, rfl⟩
  · -- The genesis again, which is refused.
    obtain ⟨-, b', hb', hprev⟩ := hl.concat_inv
    obtain rfl := Option.some.inj (hb.symm.trans hb')
    have hmem := h.genesis_mem hB hl hb
    have hrefused : acceptBlock c ⟨now, order⟩ b s = (s, (acceptBlock c ⟨now, order⟩ b s).2) ∧
        ∀ hash, (acceptBlock c ⟨now, order⟩ b s).2 ≠ .ok hash := by
      have haccept := h.toSteady.accepts hinj hne ⟨now, order⟩ b
      generalize acceptBlock c ⟨now, order⟩ b s = r at haccept
      obtain ⟨s', o⟩ := r
      cases haccept with
      | refused ho _ _ => exact ⟨rfl, ho⟩
      | buffered hp _ _ => exact absurd hprev hp
      | extended hext _ _ =>
        exact absurd (hext.parent.symm.trans hprev) fun he => h.tipHash_ne hne he
      | stored hoff _ _ => exact absurd hprev hoff.parent_ne_zero
      | switched hoff _ _ _ _ _ _ => exact absurd hprev hoff.parent_ne_zero
    have hstate := (addBlock_of_refused hrefused.2).1
    rw [hrefused.1] at hstate
    rw [hstate, Finset.insert_eq_of_mem ((h.mem_iff x).1 (.inl hmem))]
    exact h
  by_cases hknown : ∀ y ∈ l' ++ [p], y ∈ s.blocks
  · -- Its parent is known: it is attached, with the orphans that waited for it.
    obtain ⟨s', hadd, h'⟩ := h.addBlock_known hinj hne hheader hB order hl hb hknown
    rwa [hadd]
  · -- An ancestor is not known: it waits.
    obtain ⟨hadd, h'⟩ := h.addBlock_unknown hne hB order hl hb hknown hroom
    rwa [hadd]

/-! ## Deliveries -/

/-- The blocks of a list are added one after the other, at the time `now`. -/
def deliver (c : Crypto) (now : DateTime) (ds : List (MapOrder × Block)) : Blockchain :=
  ds.foldl (fun s d => (Blockchain.addBlock c ⟨now, d.1⟩ d.2 s).1) new

/-- The hashes of the blocks of a list. -/
def delivered (c : Crypto) (ds : List (MapOrder × Block)) : Finset Hash :=
  (ds.map fun d => c.hashBlock d.2).toFinset

/-- The whole set is delivered, the genesis first, and there is room for what is
    pending at any time. -/
structure Delivery (c : Crypto) (B : Finmap fun _ : Hash => Block) (ds : List (MapOrder × Block)) :
    Prop where
  first : ∃ order genesis rest, ds = (order, genesis) :: rest ∧ genesisBlock c = some genesis
  mem : ∀ d ∈ ds, B.lookup (c.hashBlock d.2) = some d.2
  complete : ∀ x ∈ B, ∃ d ∈ ds, c.hashBlock d.2 = x
  room : ∀ ds', ds' <+: ds → (pending B (delivered c ds')).card ≤ maxOrphanBlocks

variable {ds ds' : List (MapOrder × Block)}

omit hinj hne hheader in
theorem delivered_concat (d : MapOrder × Block) :
    delivered c (ds ++ [d]) = insert (c.hashBlock d.2) (delivered c ds) := by
  ext y
  simp [delivered]

include hinj hne hheader in
/-- The genesis has been delivered. -/
theorem settled_genesis (hB : BlockSet c now B) {genesis : Block}
    (hg : genesisBlock c = some genesis) (hb : B.lookup (c.hashBlock genesis) = some genesis)
    (order : MapOrder) :
    Settled c B (delivered c [(order, genesis)]) (deliver c now [(order, genesis)]) := by
  obtain ⟨s', hadd, h', hattach⟩ := delivered_new.addBlockWithin hinj hne hheader hB order
    (l := []) (.concat .nil hb (genesisBlock_prevBlockHash hg)) hb (fun _ hy => absurd hy List.not_mem_nil)
    (fun _ => rfl) (Nat.lt_succ_self _)
  have hstate : deliver c now [(order, genesis)] = s' := congrArg Prod.fst hadd
  have hnone : ∀ y, y ∉ s'.orphans := fun y hy =>
    absurd (hattach.orphans_subset (Finmap.mem_keys.2 hy)) (by simp [new])
  rw [hstate]
  refine { h' with
    mem_iff := fun y => ?_
    waiting := fun y o ho => absurd (Finmap.mem_iff.2 ⟨o, ho⟩) (hnone y)
    active_ne := fun he => h'.started he _ hattach.block_mem }
  rw [hattach.mem_iff]
  simp [new, delivered, Finmap.notMem_empty]

include hinj hne hheader in
/-- The states of a delivery. -/
theorem Delivery.settled (hB : BlockSet c now B) (hd : Delivery c B ds) (hpre : ds' <+: ds)
    (hnil : ds' ≠ []) : Settled c B (delivered c ds') (deliver c now ds') := by
  induction ds' using List.reverseRecOn with
  | nil => exact absurd rfl hnil
  | append_singleton ds' d ih =>
    rcases List.eq_nil_or_concat' ds' with rfl | ⟨_, _, rfl⟩
    · obtain ⟨order, genesis, rest, rfl, hg⟩ := hd.first
      obtain ⟨rfl, -⟩ := List.cons_prefix_cons.1 hpre
      exact settled_genesis hinj hne hheader hB hg (hd.mem _ List.mem_cons_self) order
    · have hmem := hd.mem d (hpre.subset (by simp))
      have hroom := hd.room _ hpre
      rw [delivered_concat] at hroom ⊢
      have hstep := (ih ((List.prefix_append _ _).trans hpre) (by simp)).addBlock hinj hne hheader hB
        d.1 hmem hroom
      rw [deliver, List.foldl_append]
      exact hstep

include hinj hne hheader in
/-- When the whole set has been delivered, it is known. -/
theorem Delivery.complete_blocks (hB : BlockSet c now B) (hd : Delivery c B ds) :
    Settled c B (delivered c ds) (deliver c now ds) ∧ (deliver c now ds).blocks = B ∧
      (deliver c now ds).orphans = ∅ := by
  have hnil : ds ≠ [] := by
    obtain ⟨order, genesis, rest, rfl, -⟩ := hd.first
    exact List.cons_ne_nil _ _
  have h := hd.settled hinj hne hheader hB (List.prefix_refl ds) hnil
  have hknown : ∀ l, Linked B l → ∀ y ∈ l, y ∈ (deliver c now ds).blocks := fun l hl =>
    h.known_of_linked hl fun z hz => by
      obtain ⟨d, hd, rfl⟩ := hd.complete z (hl.mem z hz)
      exact .inl (List.mem_toFinset.2 (List.mem_map_of_mem hd))
  refine ⟨h, Finmap.ext_lookup fun x => ?_, Finmap.ext_lookup fun y => ?_⟩
  · by_cases hx : x ∈ B
    · obtain ⟨l, hl⟩ := hB.rooted x hx
      exact h.lookup_eq (hknown _ hl x (by simp))
    · rw [Finmap.lookup_eq_none.2 hx, Finmap.lookup_eq_none]
      intro hmem
      obtain ⟨b, hb⟩ := Finmap.mem_iff.1 hmem
      exact hx (Finmap.mem_iff.2 ⟨b, h.blocks_mem x b hb⟩)
  · rw [Finmap.lookup_empty, Finmap.lookup_eq_none]
    intro hmem
    obtain ⟨o, ho⟩ := Finmap.mem_iff.1 hmem
    obtain ⟨l, hl⟩ := hB.rooted y (Finmap.mem_iff.2 ⟨o, h.orphans_mem y o ho⟩)
    exact h.not_orphan hl (hknown l hl.concat_inv.1) hmem

/-- A chain of the set has the most work of all. -/
def HeaviestIn (B : Finmap fun _ : Hash => Block) (l : List Hash) : Prop :=
  Linked B l ∧ ∃ w, workOfChain B l = some w ∧
    ∀ l' w', Linked B l' → workOfChain B l' = some w' → w' ≤ w

include hinj hne hheader in
theorem Delivery.heaviestIn (hB : BlockSet c now B) (hd : Delivery c B ds) :
    HeaviestIn B (deliver c now ds).activeChain := by
  obtain ⟨h, hblocks, -⟩ := hd.complete_blocks hinj hne hheader hB
  have hactive := h.active
  have hheaviest := h.heaviest
  rw [Heaviest, hblocks] at hheaviest
  rw [hblocks] at hactive
  obtain ⟨w, hw⟩ := hB.exists_work hheader hactive.mem
  exact ⟨hactive, w, hw, fun l' w' hl' hw' => hheaviest l' w' w hl' hw' hw⟩

include hinj hne hheader in
/-- Two deliveries of a set of blocks closed under parents, each of which passes on
    the chain to its parent, end with the same blocks, those of the set, no orphan, and
    active chains of the same work, the most there is in the set, which are the same
    chain if one chain alone has it; and after no delivery does an orphan wait for a
    block that is known. -/
theorem delivery_order (hB : BlockSet c now B) (hd : Delivery c B ds) (hd' : Delivery c B ds') :
    (deliver c now ds).blocks = B ∧ (deliver c now ds').blocks = B ∧
      (deliver c now ds).orphans = ∅ ∧ (deliver c now ds').orphans = ∅ ∧
      HeaviestIn B (deliver c now ds).activeChain ∧ HeaviestIn B (deliver c now ds').activeChain ∧
      workOfChain B (deliver c now ds).activeChain = workOfChain B (deliver c now ds').activeChain ∧
      ((∀ l l', HeaviestIn B l → HeaviestIn B l' → l = l') →
        (deliver c now ds).activeChain = (deliver c now ds').activeChain) ∧
      ∀ before, before <+: ds → ∀ y o, (deliver c now before).orphans.lookup y = some o →
        o.header.prevBlockHash ∉ (deliver c now before).blocks := by
  obtain ⟨-, hblocks, horphans⟩ := hd.complete_blocks hinj hne hheader hB
  obtain ⟨-, hblocks', horphans'⟩ := hd'.complete_blocks hinj hne hheader hB
  have hmost := hd.heaviestIn hinj hne hheader hB
  have hmost' := hd'.heaviestIn hinj hne hheader hB
  refine ⟨hblocks, hblocks', horphans, horphans', hmost, hmost', ?_, fun hunique =>
    hunique _ _ hmost hmost', fun before hpre y o ho => ?_⟩
  · obtain ⟨hl, w, hw, hle⟩ := hmost
    obtain ⟨hl', w', hw', hle'⟩ := hmost'
    rw [hw, hw', le_antisymm (hle' _ w hl hw) (hle _ w' hl' hw')]
  · rcases List.eq_nil_or_concat' before with rfl | ⟨_, _, rfl⟩
    · cases ho
    · exact (hd.settled hinj hne hheader hB hpre (by simp)).waiting y o ho

end

/-! ## The sample chain in two orders -/

/-- The blocks known after the sample deliveries are such a set. -/
theorem blockSet_forked : BlockSet Sample.forkCrypto Sample.ambient.now Sample.forked.blocks := by
  have hs : (chainSystem Sample.forkCrypto).Reachable Sample.forked := reachable_run _
  have hsteady := steady_of_reachable (tableHash_injective _) (tableHash_ne_zero _) hs
  have hdates : ∀ x ∈ Sample.forked.blocks.keys, ∀ b ∈ Sample.forked.blocks.lookup x,
      checkTimestamp Sample.ambient.now new b.header.timestamp = .ok () := by decide +kernel
  have hcard : Sample.forked.blocks.keys.card = 4 := by decide +kernel
  refine ⟨hsteady.blocks, hsteady.rooted, fun l x b hl hb =>
    (passes_of_reachable (tableHash_injective _) (tableHash_ne_zero _) hs).2 l x b hl hb,
    fun x b hb => hdates x (Finmap.mem_keys.2 (Finmap.mem_iff.2 ⟨b, hb⟩)) b hb, fun l hl => ?_⟩
  have hle := hl.length_le (hsteady.toTree.zero_notMem (tableHash_ne_zero _))
  rw [hcard] at hle
  exact hle.trans (by decide)

/-- The blocks in the order of their parents. -/
def parentsFirst : List (MapOrder × Block) :=
  [Sample.genesis, Sample.left, Sample.right, Sample.rightNext].map fun b => (.ascending, b)

/-- A block before its parent, and a repetition. -/
def orphanFirst : List (MapOrder × Block) :=
  [Sample.genesis, Sample.rightNext, Sample.right, Sample.left, Sample.right].map fun b =>
    (.ascending, b)

theorem delivery_of_short {blocks : List Block} (hlen : blocks.length ≤ maxOrphanBlocks)
    (hfirst : blocks.head? = genesisBlock c ∧ blocks ≠ [])
    (hmem : ∀ b ∈ blocks, B.lookup (c.hashBlock b) = some b)
    (hall : ∀ x ∈ B.keys, ∃ b ∈ blocks, c.hashBlock b = x) :
    Delivery c B (blocks.map fun b => (.ascending, b)) := by
  refine ⟨?_, fun d hd => ?_, fun x hx => ?_, fun ds' hpre => ?_⟩
  · obtain ⟨genesis, rest, rfl⟩ := List.exists_cons_of_ne_nil hfirst.2
    exact ⟨.ascending, genesis, _, rfl, hfirst.1.symm⟩
  · obtain ⟨b, hb, rfl⟩ := List.mem_map.1 hd
    exact hmem b hb
  · obtain ⟨b, hb, he⟩ := hall x (Finmap.mem_keys.2 hx)
    exact ⟨_, List.mem_map_of_mem hb, he⟩
  · have hsub : pending B (delivered c ds') ⊆ delivered c ds' := fun y hy => (mem_pending.1 hy).1
    have hle := hpre.length_le
    rw [List.length_map] at hle
    calc (pending B (delivered c ds')).card ≤ (delivered c ds').card := Finset.card_le_card hsub
      _ ≤ (ds'.map fun d => c.hashBlock d.2).length := List.toFinset_card_le _
      _ = ds'.length := List.length_map _
      _ ≤ maxOrphanBlocks := hle.trans hlen

/-- Both orders end with the four blocks and the second branch. -/
theorem delivery_order_sample :
    (deliver Sample.forkCrypto Sample.ambient.now parentsFirst).blocks =
        (deliver Sample.forkCrypto Sample.ambient.now orphanFirst).blocks ∧
      (deliver Sample.forkCrypto Sample.ambient.now orphanFirst).orphans = ∅ ∧
      (deliver Sample.forkCrypto Sample.ambient.now orphanFirst).activeChain = [1, 3, 4] := by
  have h := delivery_order (tableHash_injective _) (tableHash_ne_zero _) (tableHash_ne_zero _)
    blockSet_forked
    (delivery_of_short (by decide) ⟨by decide +kernel, by decide⟩ (by decide +kernel)
      (by decide +kernel) : Delivery _ _ parentsFirst)
    (delivery_of_short (by decide) ⟨by decide +kernel, by decide⟩ (by decide +kernel)
      (by decide +kernel) : Delivery _ _ orphanFirst)
  exact ⟨h.1.trans h.2.1.symm, h.2.2.2.1, by decide +kernel⟩

end Itx.Blockchain
