import Itx.Chain.Agreement

/-!
# The tree of blocks is rooted at the genesis

In every state of a run the known blocks are a tree (`BlockTree`): each but the
genesis has its parent among them, and the active chain is a chain of it, from the
genesis of the network on, with increasing timestamps. So a branch can be traced
back from any known block.

Pruning cuts whole branches off (`Prunes`): with a block it forgets the rest of
its branch, on both sides, down to where it leaves the active chain and up to its
last descendants. This is shown of the states in which the blocks of a call are
taken up, between which the call prunes, and not only of those it starts from
(`block_tree`).
-/

namespace Itx.Blockchain

open Call

variable {c : Crypto} {s : Blockchain} {block : Block} {x : Hash} {chain : List Hash}

theorem mine_prevBlockHash {now : DateTime} {steps : ℕ} {header mined : BlockHeader}
    (h : BlockHeader.mine c now steps header = some mined) :
    mined.prevBlockHash = header.prevBlockHash := by
  induction steps generalizing header with
  | zero =>
    rw [BlockHeader.mine] at h
    split_ifs at h
    rw [← Option.some.inj h]
  | succ steps ih =>
    rw [BlockHeader.mine] at h
    split_ifs at h
    · rw [← Option.some.inj h]
    · rw [ih h]
    · rw [ih h]

/-- The genesis has no parent. -/
theorem genesisBlock_prevBlockHash {genesis : Block} (h : genesisBlock c = some genesis) :
    genesis.header.prevBlockHash = Hash.zero := by
  simp only [genesisBlock, Option.bind_eq_bind, Option.bind_eq_some_iff] at h
  obtain ⟨root, -, header, hmine, h⟩ := h
  rw [← Option.some.inj h]
  exact mine_prevBlockHash hmine

/-- `Blockchain::trace_branch`. -/
def traceBranch (s : Blockchain) (hash : Hash) : Outcome BtcError (Option (ℕ × List Hash)) :=
  traceBranchWithIndex s.blocks (activeChainIndex s.activeChain) hash

/-- The known blocks are a tree rooted at the genesis, and the active chain is one
    of its chains. -/
structure BlockTree (c : Crypto) (s : Blockchain) : Prop where
  parent : ∀ h block, s.blocks.lookup h = some block → genesisBlock c ≠ some block →
    block.header.prevBlockHash ∈ s.blocks
  genesis_of_zero : ∀ h block, s.blocks.lookup h = some block →
    block.header.prevBlockHash = Hash.zero → genesisBlock c = some block
  known : ∀ h ∈ s.activeChain, h ∈ s.blocks
  linked : Linked s.blocks s.activeChain
  head : ∀ h, s.activeChain.head? = some h → ∃ genesis, genesisBlock c = some genesis ∧
    s.blocks.lookup h = some genesis
  increasing : ∀ i j tᵢ tⱼ, i < j → timestampAt s.blocks s.activeChain i = some tᵢ →
    timestampAt s.blocks s.activeChain j = some tⱼ → tᵢ < tⱼ
  traced : ∀ h ∈ s.blocks, ∃ forkIndex branch, s.traceBranch h = .ok (some (forkIndex, branch))

/-- Pruning returns, and forgets whole branches off the active chain which leave it
    deep enough: with a block, the rest of its branch and its children. -/
def Prunes (order : MapOrder) (keepDepth : ℕ) (s : Blockchain) : Prop :=
  ∃ prunable, pruneSideBlocks order keepDepth s = (s.forgetBlocks prunable, .ok ()) ∧
    (∀ h ∈ prunable, h ∈ s.blocks ∧ h ∉ s.activeChain ∧
      ∃ forkIndex branch, s.traceBranch h = .ok (some (forkIndex, branch)) ∧
        keepDepth < s.activeChain.length - forkIndex ∧ h ∈ branch ∧ ∀ x ∈ branch, x ∈ prunable) ∧
    ∀ h block, s.blocks.lookup h = some block → block.header.prevBlockHash ∈ prunable →
      h ∈ prunable

/-! ## Branches -/

/-- Past the point where it leaves the active chain, a chain has no active block. -/
theorem Tree.notMem_active_of_mem_drop (h : Tree c s) (hne : ∀ block, c.hashBlock block ≠ Hash.zero)
    (hchain : Linked s.blocks (chain ++ [x])) {y : Hash}
    (hy : y ∈ (chain ++ [x]).drop (forkIndexOf s.activeChain (chain ++ [x]))) :
    y ∉ s.activeChain := by
  obtain ⟨-, he, hle⟩ := traceBranchWithIndex_eq (h.zero_notMem hne) h.active hchain
  generalize hf : forkIndexOf s.activeChain (chain ++ [x]) = f at hy he hle
  have hcount : (s.activeChain.take f ++ (chain ++ [x]).drop f).countP (· ∈ s.activeChain) = f := by
    rw [he]
    exact hf
  have htake : (s.activeChain.take f).countP (· ∈ s.activeChain) = f := by
    rw [List.countP_eq_length.2 fun z hz => decide_eq_true (List.mem_of_mem_take hz),
      List.length_take_of_le hle]
  rw [List.countP_append, htake] at hcount
  simpa using List.countP_eq_zero.1 (Nat.add_eq_left.1 hcount) y hy

/-- The blocks of the branch of a block that is forgotten are forgotten. -/
theorem Tree.mem_prunable_of_mem_branch (h : Tree c s)
    (hne : ∀ block, c.hashBlock block ≠ Hash.zero) {keepDepth : ℕ} {hs prunable : List Hash}
    (hp : prunableAmong s keepDepth hs = .ok prunable) (hall : ∀ x ∈ s.blocks, x ∈ hs)
    (hchain : Linked s.blocks (chain ++ [x])) (hx : x ∈ prunable) {y : Hash}
    (hy : y ∈ (chain ++ [x]).drop (forkIndexOf s.activeChain (chain ++ [x]))) : y ∈ prunable := by
  obtain ⟨-, -, hdeep⟩ := (h.mem_prunable hne hp hchain).1 hx
  obtain ⟨-, he, -⟩ := traceBranchWithIndex_eq (h.zero_notMem hne) h.active hchain
  have hoff : ∀ z ∈ (chain ++ [x]).drop (forkIndexOf s.activeChain (chain ++ [x])),
      z ∉ s.activeChain := fun z => h.notMem_active_of_mem_drop hne hchain
  generalize forkIndexOf s.activeChain (chain ++ [x]) = f at hy he hdeep hoff
  -- The chain to `y` is a beginning of the chain to `x`, leaving the active one where it does.
  obtain ⟨l₁, l₂, hl⟩ := List.append_of_mem hy
  rw [hl] at he hoff
  have hlong : Linked s.blocks (((s.activeChain.take f ++ l₁) ++ [y]) ++ l₂) := by
    rw [List.append_assoc, List.singleton_append, List.append_assoc, he]
    exact hchain
  have hychain := hlong.of_append
  have hfork : forkIndexOf s.activeChain ((s.activeChain.take f ++ l₁) ++ [y]) ≤ f := by
    rw [List.append_assoc, forkIndexOf_append_of_notMem fun z hz => hoff z ?_]
    · exact List.countP_le_length.trans (List.length_take_le _ _)
    · rw [← List.singleton_append, ← List.append_assoc]
      exact List.mem_append_left _ hz
  refine (h.mem_prunable hne hp hychain).2 ⟨hall y (hychain.mem y (by simp)), hoff y (by simp), ?_⟩
  omega

theorem mem_of_mem_prunable {keepDepth : ℕ} {hs prunable : List Hash}
    (h : prunableAmong s keepDepth hs = .ok prunable) (hx : x ∈ prunable) : x ∈ hs := by
  induction hs generalizing prunable with
  | nil =>
    obtain rfl := Outcome.ok.inj h
    exact hx
  | cons y hs ih =>
    obtain ⟨rest, hrest, h⟩ := Outcome.bind_eq_ok.1 h
    have hmem : x ∈ rest → x ∈ y :: hs := fun hx => List.mem_cons_of_mem _ (ih hrest hx)
    dsimp only at h
    split at h
    · obtain rfl := Outcome.ok.inj h
      exact hmem hx
    · obtain ⟨traced, -, h⟩ := Outcome.bind_eq_ok.1 h
      rcases traced with _ | ⟨forkIndex, branch⟩
      · obtain rfl := Outcome.ok.inj h
        exact hmem hx
      · obtain rfl := Outcome.ok.inj h
        split at hx
        · rcases List.mem_cons.1 hx with rfl | hx
          exacts [List.mem_cons_self, hmem hx]
        · exact hmem hx

/-- The children of a block that is forgotten are forgotten. -/
theorem Tree.mem_prunable_of_parent (h : Tree c s) (hne : ∀ block, c.hashBlock block ≠ Hash.zero)
    {keepDepth : ℕ} {hs prunable : List Hash} (hp : prunableAmong s keepDepth hs = .ok prunable)
    (hall : ∀ x ∈ s.blocks, x ∈ hs) (hknown : ∀ x ∈ prunable, x ∈ s.blocks)
    (hb : s.blocks.lookup x = some block) (hparent : block.header.prevBlockHash ∈ prunable) : x ∈ prunable := by
  by_contra hx
  obtain ⟨chain, hchain⟩ := h.rooted x (Finmap.mem_iff.2 ⟨block, hb⟩)
  -- The chain to a block that is kept is kept, its parent included.
  obtain ⟨hkept, b, hb', hprev⟩ := (h.linked_forgetBlocks hne hp hall hchain hx).concat_inv
  rw [lookup_forgetBlocks, if_neg hx, hb] at hb'
  obtain rfl := Option.some.inj hb'
  rcases hkept with _ | @⟨l, y, b', hl, hlookup, -⟩
  · rw [tipOf_nil] at hprev
    exact h.zero_notMem hne (hknown _ (hprev ▸ hparent))
  · rw [tipOf_concat] at hprev
    rw [lookup_forgetBlocks, if_pos (hprev ▸ hparent)] at hlookup
    cases hlookup

theorem Tree.prunes (h : Tree c s) (hne : ∀ block, c.hashBlock block ≠ Hash.zero) (order : MapOrder)
    (keepDepth : ℕ) : Prunes order keepDepth s := by
  obtain ⟨prunable, hp⟩ := h.exists_prunable hne order keepDepth
  have hall : ∀ x ∈ s.blocks, x ∈ order.keys s.blocks.keys := fun x hx =>
    (order.mem_keys _ _).2 (Finmap.mem_keys.2 hx)
  have hknown : ∀ x ∈ prunable, x ∈ s.blocks := fun x hx =>
    Finmap.mem_keys.1 ((order.mem_keys _ _).1 (mem_of_mem_prunable hp hx))
  refine ⟨prunable, ?_, fun x hx => ?_, fun x b hb hparent =>
    h.mem_prunable_of_parent hne hp hall hknown hb hparent⟩
  · change Call.bind (Call.lift (prunableAmong s keepDepth (order.keys s.blocks.keys)))
      (fun prunable => Call.modify (forgetBlocks prunable)) s = _
    rw [hp]
    rfl
  · obtain ⟨chain, hchain⟩ := h.rooted x (hknown x hx)
    obtain ⟨ht, he, hle⟩ := traceBranchWithIndex_eq (h.zero_notMem hne) h.active hchain
    obtain ⟨-, hactive, hdeep⟩ := (h.mem_prunable hne hp hchain).1 hx
    refine ⟨hknown x hx, hactive, _, _, ht, hdeep, ?_, fun y hy =>
      h.mem_prunable_of_mem_branch hne hp hall hchain hx hy⟩
    have hmem : x ∈ s.activeChain.take _ ++ _ := he.symm ▸ (by simp : x ∈ chain ++ [x])
    exact (List.mem_append.1 hmem).resolve_left fun hx => hactive (List.mem_of_mem_take hx)

/-! ## The tree -/

/-- Timestamps increase along a chain of blocks that passed. -/
theorem timestampAt_lt (hpass : Each (PassesOn c) s) (hchain : Linked s.blocks chain) {i j : ℕ}
    {tᵢ tⱼ : DateTime} (hij : i < j) (hi : timestampAt s.blocks chain i = some tᵢ)
    (hj : timestampAt s.blocks chain j = some tⱼ) : tᵢ < tⱼ := by
  induction hchain generalizing i j tᵢ tⱼ with
  | nil => cases hj
  | @concat l x b hl hb hp ih =>
    rcases lt_or_ge j l.length with hlt | hge
    · rw [timestampAt_concat (hij.trans hlt)] at hi
      rw [timestampAt_concat hlt] at hj
      exact ih hij hi hj
    · -- The last block is later than its parent, which is not before position `i`.
      obtain ⟨y, hy, hj⟩ := Option.bind_eq_some_iff.1 hj
      have hlen : j < (l ++ [x]).length := (List.getElem?_eq_some_iff.1 hy).1
      rw [List.length_append, List.length_singleton] at hlen
      have hjl : j = l.length := by omega
      rw [hjl, List.getElem?_concat_length] at hy
      obtain rfl := Option.some.inj hy
      rw [hb] at hj
      obtain rfl := Option.some.inj hj
      have hil : i < l.length := by omega
      rw [timestampAt_concat hil] at hi
      have hnil : l ≠ [] := List.ne_nil_of_length_pos (by omega)
      obtain ⟨parent, hparent, hlt⟩ := (hpass l x b (hl.concat hb hp) hb).after _
        (List.getLast?_eq_some_getLast hnil)
      have hlast : timestampAt s.blocks l (l.length - 1) = some parent.header.timestamp := by
        rw [timestampAt, ← List.getLast?_eq_getElem?, List.getLast?_eq_some_getLast hnil]
        simp [hparent]
      rcases Nat.lt_or_eq_of_le (Nat.le_sub_one_of_lt hil) with hlt' | heq
      · exact (ih hlt' hi hlast).trans hlt
      · rw [heq, hlast] at hi
        rwa [← Option.some.inj hi]

theorem Steady.blockTree (hinj : Function.Injective c.hashBlock)
    (hne : ∀ block, c.hashBlock block ≠ Hash.zero) (h : Steady c s) (hpass : Each (PassesOn c) s) :
    BlockTree c s := by
  have h₀ := h.zero_notMem hne
  -- The first block of a chain is the genesis.
  have hfirst : ∀ x b, Linked s.blocks ([] ++ [x]) → s.blocks.lookup x = some b →
      genesisBlock c = some b := fun x b hchain hb => by
    obtain ⟨genesis, hg, hhash⟩ := (hpass [] x b hchain hb).genesis rfl
    rw [hg, hinj hhash]
  refine ⟨fun x b hb hgenesis => ?_, fun x b hb hzero => ?_, h.known, h.active, fun x hx => ?_,
    fun i j tᵢ tⱼ hij hi hj => timestampAt_lt hpass h.active hij hi hj, fun x hx => ?_⟩
  · obtain ⟨chain, hchain⟩ := h.rooted x (Finmap.mem_iff.2 ⟨b, hb⟩)
    obtain ⟨hlink, b', hb', hp⟩ := hchain.concat_inv
    obtain rfl := Option.some.inj (hb.symm.trans hb')
    rcases hlink with _ | @⟨l, y, b', hl, hy, -⟩
    · exact absurd (hfirst x b hchain hb) hgenesis
    · rw [hp, tipOf_concat]
      exact Finmap.mem_iff.2 ⟨b', hy⟩
  · obtain ⟨chain, hchain⟩ := h.rooted x (Finmap.mem_iff.2 ⟨b, hb⟩)
    obtain ⟨hlink, b', hb', hp⟩ := hchain.concat_inv
    obtain rfl := Option.some.inj (hb.symm.trans hb')
    obtain rfl := hlink.tipOf_eq_zero h₀ (hp.symm.trans hzero)
    exact hfirst x b hchain hb
  · obtain ⟨l, hl⟩ := List.head?_eq_some_iff.1 hx
    have hlink : Linked s.blocks ([] ++ [x]) := by
      have := h.active.take 1
      rwa [hl] at this
    obtain ⟨-, b, hb, -⟩ := hlink.concat_inv
    exact ⟨b, hfirst x b hlink hb, hb⟩
  · obtain ⟨chain, hchain⟩ := h.rooted x hx
    exact ⟨_, _, (traceBranchWithIndex_eq h₀ h.active hchain).1⟩

/-- In every state of a run, and in every state in which a block of a further call is
    taken up, the known blocks are a tree rooted at the genesis; and whatever is
    pruned, there or when the block has become the tip, is a whole side branch. -/
theorem block_tree (hinj : Function.Injective c.hashBlock)
    (hne : ∀ block, c.hashBlock block ≠ Hash.zero) (hs : (chainSystem c).Reachable s) :
    (BlockTree c s ∧ ∀ order keepDepth, Prunes order keepDepth s) ∧
      ∀ amb block, TakesUp c amb (fun t b => BlockTree c t ∧
        ∀ target, ExtendsTip c amb.now t b → retarget (t.pushBlock c amb.now b) = some target →
          Prunes amb.order sideBranchPruneDepth ((t.pushBlock c amb.now b).setTarget target))
        block s := by
  have hsteady := steady_of_reachable hinj hne hs
  have hpass := passes_of_reachable hinj hne hs
  refine ⟨⟨hsteady.blockTree hinj hne hpass.2, fun order keepDepth =>
    hsteady.toTree.prunes hne order keepDepth⟩, fun amb block => ?_⟩
  refine (accepting_passes hinj hne).takesUp hinj hne (fun t b ht hp => ⟨ht.blockTree hinj hne hp.2,
    fun target htip _ => ?_⟩) hsteady hpass amb block
  have htree := (moves_tree hinj hne amb fun _ _ => True).push t b ht.toTree trivial htip
  have htree' : Tree c ((t.pushBlock c amb.now b).setTarget target) :=
    ⟨⟨htree.blocks, htree.orphans, htree.known⟩, htree.rooted, htree.active⟩
  exact htree'.prunes hne amb.order sideBranchPruneDepth

/-- After a reorganisation, the former branch would be pruned as a whole. -/
theorem block_tree_forked : Sample.forked.activeChain = [1, 3, 4] ∧ 2 ∈ Sample.forked.blocks ∧
    BlockTree Sample.forkCrypto Sample.forked ∧ Prunes .ascending 1 Sample.forked := by
  have h := (block_tree (c := Sample.forkCrypto) (tableHash_injective _) (tableHash_ne_zero _)
    (reachable_run _ : (chainSystem _).Reachable Sample.forked)).1
  exact ⟨by decide +kernel, by decide +kernel, h.1, h.2 _ _⟩

end Itx.Blockchain
