import Itx.Chain.Replay

/-!
# The tree of blocks

The known blocks form a tree: each is reached from the genesis by a chain of
known blocks (`Linked`), each naming the one before it as its parent. A block
ends a single such chain (`Linked.unique`), the *chain to* the block, so that
chains have no repetitions.

* `traceBranchWithIndex_eq`: tracing a block finds its chain, split where it
  leaves the active chain, and does not run out of steps;
* `moves_tree`: the known blocks stay a tree, and the active chain one of its
  chains; pruning forgets a block with all those after it.

The sentinel `Hash::zero()`, for no parent, must not be the hash of a block.
-/

namespace Itx.Blockchain

open Call

variable {c : Crypto} {s : Blockchain} {block : Block} {x h : Hash}
  {blocks blocks' : Finmap fun _ : Hash => Block} {chain chain' : List Hash}

/-! ## Chains of known blocks -/

/-- The last block of a chain, the sentinel if there is none. -/
def tipOf (chain : List Hash) : Hash := chain.getLast?.getD Hash.zero

@[simp] theorem tipOf_nil : tipOf [] = Hash.zero := rfl

@[simp] theorem tipOf_concat : tipOf (chain ++ [h]) = h := by simp [tipOf]

theorem tipHash_eq : s.tipHash = tipOf s.activeChain := rfl

/-- A chain of known blocks from the genesis on, each the parent of the next. -/
inductive Linked (blocks : Finmap fun _ : Hash => Block) : List Hash → Prop
  | nil : Linked blocks []
  | concat {chain : List Hash} {h : Hash} {block : Block} : Linked blocks chain →
      blocks.lookup h = some block → block.header.prevBlockHash = tipOf chain →
      Linked blocks (chain ++ [h])

namespace Linked

theorem concat_inv (h : Linked blocks (chain ++ [x])) :
    Linked blocks chain ∧ ∃ b, blocks.lookup x = some b ∧ b.header.prevBlockHash = tipOf chain := by
  generalize hl : chain ++ [x] = l at h
  cases h with
  | nil => exact absurd hl (by simp)
  | concat hc hb hp =>
    obtain ⟨rfl, hx⟩ := List.append_inj' hl rfl
    obtain rfl := List.singleton_inj.1 hx
    exact ⟨hc, _, hb, hp⟩

theorem mem (h : Linked blocks chain) : ∀ x ∈ chain, x ∈ blocks := by
  induction h with
  | nil => exact fun x hx => absurd hx List.not_mem_nil
  | concat _ hb _ ih =>
    intro x hx
    rcases List.mem_append.1 hx with hx | hx
    · exact ih x hx
    · rw [List.mem_singleton.1 hx]
      exact Finmap.mem_iff.2 ⟨_, hb⟩

theorem of_append (h : Linked blocks (chain ++ chain')) : Linked blocks chain := by
  induction chain' using List.reverseRecOn with
  | nil => rwa [List.append_nil] at h
  | append_singleton l x ih =>
    rw [← List.append_assoc] at h
    exact ih h.concat_inv.1

theorem take (h : Linked blocks chain) (n : ℕ) : Linked blocks (chain.take n) := by
  rw [← List.take_append_drop n chain] at h
  exact h.of_append

/-- A chain is one of the blocks it consists of, whatever the other blocks. -/
theorem congr (h : Linked blocks chain) (he : ∀ x ∈ chain, blocks.lookup x = blocks'.lookup x) :
    Linked blocks' chain := by
  induction h with
  | nil => exact .nil
  | concat _ hb hp ih =>
    refine .concat (ih fun x hx => he x (List.mem_append_left _ hx)) ?_ hp
    rw [← he _ (List.mem_append_right _ (List.mem_singleton_self _)), hb]

theorem tipOf_eq_zero (h : Linked blocks chain) (h₀ : Hash.zero ∉ blocks)
    (ht : tipOf chain = Hash.zero) : chain = [] := by
  cases h with
  | nil => rfl
  | concat _ hb _ =>
    rw [tipOf_concat] at ht
    exact absurd (Finmap.mem_iff.2 ⟨_, ht ▸ hb⟩) h₀

/-- A block ends a single chain, of whichever of two sets of blocks that agree on the
    blocks they share. -/
theorem unique_of_agree (h₀ : Hash.zero ∉ blocks) (h₀' : Hash.zero ∉ blocks')
    (hagree : ∀ x b b', blocks.lookup x = some b → blocks'.lookup x = some b' → b = b')
    (h : Linked blocks chain) (h' : Linked blocks' chain') (ht : tipOf chain = tipOf chain') :
    chain = chain' := by
  induction h generalizing chain' with
  | nil => exact (h'.tipOf_eq_zero h₀' ht.symm).symm
  | @concat l x b hl hb hp ih =>
    cases h' with
    | nil =>
      rw [tipOf_concat] at ht
      exact absurd (Finmap.mem_iff.2 ⟨_, ht ▸ hb⟩) h₀
    | concat hl' hb' hp' =>
      rw [tipOf_concat, tipOf_concat] at ht
      subst ht
      obtain rfl := hagree _ _ _ hb hb'
      rw [ih hl' (hp.symm.trans hp')]

/-- A block ends a single chain. -/
theorem unique (h₀ : Hash.zero ∉ blocks) (h : Linked blocks chain) (h' : Linked blocks chain')
    (ht : tipOf chain = tipOf chain') : chain = chain' :=
  h.unique_of_agree h₀ h₀ (fun _ _ _ hb hb' => Option.some.inj (hb.symm.trans hb')) h' ht

/-- A chain goes through distinct blocks. -/
theorem nodup (h₀ : Hash.zero ∉ blocks) (h : Linked blocks chain) : chain.Nodup := by
  induction h with
  | nil => exact List.nodup_nil
  | @concat l x b hl hb hp ih =>
    refine List.nodup_append.2 ⟨ih, List.nodup_singleton x, ?_⟩
    rintro y hy z hz rfl
    obtain rfl := List.mem_singleton.1 hz
    -- The chain to `y` would be a proper beginning of itself.
    obtain ⟨l₁, l₂, rfl⟩ := List.append_of_mem hy
    rw [List.append_cons] at hl hp
    have he := unique h₀ hl.of_append (hl.concat hb hp) (by rw [tipOf_concat, tipOf_concat])
    have := congrArg List.length he
    simp only [List.length_append, List.length_cons, List.length_nil] at this
    omega

theorem length_le (h₀ : Hash.zero ∉ blocks) (h : Linked blocks chain) :
    chain.length ≤ blocks.keys.card := by
  rw [← List.toFinset_card_of_nodup (h.nodup h₀)]
  exact Finset.card_le_card fun x hx => Finmap.mem_keys.2 (h.mem x (List.mem_toFinset.1 hx))

end Linked

/-! ## Tracing a branch -/

theorem lookup_activeChainIndex (hc : chain.Nodup) {i : ℕ} (hi : chain[i]? = some x) :
    (activeChainIndex chain).lookup x = some i := by
  induction chain using List.reverseRecOn with
  | nil => simp at hi
  | append_singleton l y ih =>
    have hxy : activeChainIndex (l ++ [y]) = (activeChainIndex l).insert y l.length := by
      simp [activeChainIndex, List.zipIdx_append]
    obtain ⟨hl, -, hdisj⟩ := List.nodup_append.1 hc
    rw [hxy, Finmap.lookup_insert_eq]
    rcases lt_or_ge i l.length with hlt | hge
    · rw [List.getElem?_append_left hlt] at hi
      rw [if_neg fun e => hdisj x (List.mem_of_getElem? hi) y (List.mem_singleton_self y) e]
      exact ih hl hi
    · rw [List.getElem?_append_right hge] at hi
      obtain ⟨h0, hx⟩ := List.getElem?_eq_some_iff.1 hi
      rw [List.length_singleton] at h0
      rw [if_pos (by rw [← hx, List.getElem_singleton]), show l.length = i by omega]

/-- Where the chain to a block leaves the active chain: both begin alike, for as
    long as the chain is on the active one. -/
def forkIndexOf (active chain : List Hash) : ℕ := chain.countP (· ∈ active)

theorem forkIndexOf_append_of_notMem {active : List Hash} {l : List Hash}
    (h : ∀ x ∈ l, x ∉ active) : forkIndexOf active (chain ++ l) = forkIndexOf active chain := by
  have hl : l.countP (· ∈ active) = 0 := List.countP_eq_zero.2 fun x hx => by simpa using h x hx
  rw [forkIndexOf, List.countP_append, hl, add_zero, forkIndexOf]

theorem forkIndexOf_of_subset {active : List Hash} (h : ∀ x ∈ chain, x ∈ active) :
    forkIndexOf active chain = chain.length :=
  List.countP_eq_length.2 fun x hx => decide_eq_true (h x hx)

/-- On the active chain, the chain to a block is the beginning of it. -/
theorem Linked.eq_take (h₀ : Hash.zero ∉ blocks) {active : List Hash} (ha : Linked blocks active)
    (h : Linked blocks (chain ++ [x])) (hx : x ∈ active) :
    ∃ i, active[i]? = some x ∧ chain ++ [x] = active.take (i + 1) := by
  obtain ⟨i, hi, rfl⟩ := List.getElem_of_mem hx
  refine ⟨i, List.getElem?_eq_getElem hi, unique h₀ h (ha.take (i + 1)) ?_⟩
  rw [List.take_succ_eq_append_getElem hi, tipOf_concat, tipOf_concat]

/-- Tracing back from the last block of a chain: `branch` is what has been traced
    after it. -/
theorem traceFrom_eq (h₀ : Hash.zero ∉ blocks) {active : List Hash} (ha : Linked blocks active)
    (h : Linked blocks (chain ++ [x])) {steps : ℕ} (hsteps : chain.length < steps)
    (branch : List Hash) :
    traceFrom blocks (activeChainIndex active) steps x branch =
      some (forkIndexOf active (chain ++ [x]),
        (chain ++ [x]).drop (forkIndexOf active (chain ++ [x])) ++ branch) ∧
    (chain ++ [x]).take (forkIndexOf active (chain ++ [x])) =
      active.take (forkIndexOf active (chain ++ [x])) := by
  induction steps generalizing chain x branch with
  | zero => exact absurd hsteps (Nat.not_lt_zero _)
  | succ steps ih =>
    by_cases hx : x ∈ active
    · -- The walk ends here: everything up to `x` is on the active chain.
      obtain ⟨i, hi, he⟩ := ha.eq_take h₀ h hx
      have hlen : (chain ++ [x]).length = i + 1 := by
        rw [he, List.length_take_of_le]
        exact (List.getElem?_eq_some_iff.1 hi).1
      have hfork : forkIndexOf active (chain ++ [x]) = i + 1 := by
        rw [forkIndexOf_of_subset (fun y hy => List.mem_of_mem_take (he ▸ hy)), hlen]
      rw [traceFrom, lookup_activeChainIndex (ha.nodup h₀) hi, hfork,
        List.drop_of_length_le hlen.le, List.take_of_length_le hlen.le]
      exact ⟨rfl, he⟩
    · have hfork : forkIndexOf active (chain ++ [x]) = forkIndexOf active chain :=
        forkIndexOf_append_of_notMem fun y hy => by rwa [List.mem_singleton.1 hy]
      have hle : forkIndexOf active chain ≤ chain.length := List.countP_le_length
      obtain ⟨hchain, b, hb, hp⟩ := h.concat_inv
      rw [traceFrom, Finmap.lookup_eq_none.2 fun hm => hx (mem_activeChainIndex.1 hm), hb, hfork,
        List.drop_append_of_le_length hle, List.take_append_of_le_length hle, List.append_assoc]
      simp only [Option.bind_eq_bind, Option.bind_some, List.singleton_append]
      rcases hchain with _ | @⟨l, y, b', hl, hb', hp'⟩
      · -- `x` has no parent.
        rw [tipOf_nil] at hp
        rw [if_pos hp]
        exact ⟨rfl, rfl⟩
      · rw [tipOf_concat] at hp
        have hy : y ≠ Hash.zero := fun e => h₀ (Finmap.mem_iff.2 ⟨b', e ▸ hb'⟩)
        rw [hp, if_neg hy]
        refine ih (hl.concat hb' hp') ?_ (x :: branch)
        rw [List.length_append, List.length_singleton] at hsteps
        omega

/-- Tracing a block finds its chain, split where it leaves the active chain. -/
theorem traceBranchWithIndex_eq (h₀ : Hash.zero ∉ blocks) {active : List Hash}
    (ha : Linked blocks active) (h : Linked blocks (chain ++ [x])) :
    traceBranchWithIndex blocks (activeChainIndex active) x =
      .ok (some (forkIndexOf active (chain ++ [x]),
        (chain ++ [x]).drop (forkIndexOf active (chain ++ [x])))) ∧
    active.take (forkIndexOf active (chain ++ [x])) ++
      (chain ++ [x]).drop (forkIndexOf active (chain ++ [x])) = chain ++ [x] ∧
    forkIndexOf active (chain ++ [x]) ≤ active.length := by
  have hsteps : chain.length < blocks.keys.card + 1 := by
    have := h.length_le h₀
    rw [List.length_append] at this
    omega
  obtain ⟨ht, htake⟩ := traceFrom_eq h₀ ha h hsteps []
  have hx : x ≠ Hash.zero := fun e => h₀ (e ▸ h.mem x (by simp))
  refine ⟨?_, ?_, ?_⟩
  · rw [traceBranchWithIndex, if_neg hx, ht, List.append_nil]
    rfl
  · rw [← htake, List.take_append_drop]
  · have hle : forkIndexOf active (chain ++ [x]) ≤ (chain ++ [x]).length := List.countP_le_length
    have := congrArg List.length htake
    rw [List.length_take_of_le hle, List.length_take] at this
    omega

/-! ## The tree -/

/-- The known blocks form a tree, and the active chain is one of its chains. -/
structure Tree (c : Crypto) (s : Blockchain) : Prop extends Keyed c s where
  rooted : ∀ h ∈ s.blocks, ∃ chain, Linked s.blocks (chain ++ [h])
  active : Linked s.blocks s.activeChain

section

variable (hinj : Function.Injective c.hashBlock) (hne : ∀ block, c.hashBlock block ≠ Hash.zero)

include hne in
theorem Keyed.zero_notMem (h : Keyed c s) : Hash.zero ∉ s.blocks := by
  intro hm
  obtain ⟨b, hb⟩ := Finmap.mem_iff.1 hm
  exact hne b (h.blocks _ _ hb)

include hinj in
/-- A chain stays one when a block is stored. -/
theorem Keyed.linked_storeBlock (h : Keyed c s) (hc : Linked s.blocks chain) :
    Linked (s.storeBlock c block).blocks chain :=
  hc.congr fun x hx => (h.lookup_storeBlock hinj (hc.mem x hx)).symm

include hinj in
/-- The chain to a block, from the chain to its parent. -/
theorem Keyed.linked_concat (h : Keyed c s) (hc : Linked s.blocks chain)
    (hp : block.header.prevBlockHash = tipOf chain) :
    Linked (s.storeBlock c block).blocks (chain ++ [c.hashBlock block]) :=
  (h.linked_storeBlock hinj hc).concat lookup_storeBlock_self hp

include hinj in
/-- Storing a known block changes nothing. -/
theorem Keyed.storeBlock_eq (h : Keyed c s) (hmem : c.hashBlock block ∈ s.blocks) :
    s.storeBlock c block = s := by
  have hsame : (s.storeBlock c block).blocks = s.blocks := by
    refine Finmap.ext_lookup fun y => ?_
    by_cases hy : y ∈ s.blocks
    · exact h.lookup_storeBlock hinj hy
    · have hy' : y ≠ c.hashBlock block := fun e => hy (e ▸ hmem)
      rw [Blockchain.storeBlock, Finmap.lookup_insert_of_ne _ hy']
  exact congrArg (fun blocks => { s with blocks }) hsame

include hinj in
theorem Tree.rooted_storeBlock (h : Tree c s) (hc : Linked s.blocks chain)
    (hp : block.header.prevBlockHash = tipOf chain) :
    ∀ x ∈ (s.storeBlock c block).blocks,
      ∃ chain, Linked (s.storeBlock c block).blocks (chain ++ [x]) := by
  intro x hx
  rcases mem_storeBlock.1 hx with rfl | hx
  · exact ⟨chain, h.toKeyed.linked_concat hinj hc hp⟩
  · obtain ⟨chain, hchain⟩ := h.rooted x hx
    exact ⟨chain, h.toKeyed.linked_storeBlock hinj hchain⟩

include hne in
/-- The chain found for a block off the tip is the chain to its parent. -/
theorem Tree.linked_candidateChain (h : Tree c s) {forkIndex : ℕ} {branch : List Hash}
    (hb : BranchesOff s block forkIndex branch) :
    Linked s.blocks (s.candidateChain forkIndex branch) ∧
      block.header.prevBlockHash = tipOf (s.candidateChain forkIndex branch) := by
  obtain ⟨chain, hchain⟩ := h.rooted _ hb.parent_known
  obtain ⟨ht, he, -⟩ := traceBranchWithIndex_eq (h.zero_notMem hne) h.active hchain
  obtain ⟨hi, hbr⟩ := Prod.mk.inj (Option.some.inj (Outcome.ok.inj (hb.traced.symm.trans ht)))
  rw [candidateChain, hi, hbr, he, tipOf_concat]
  exact ⟨hchain, rfl⟩

include hne in
/-- What is prunable: the blocks off the active chain whose chain leaves it deep
    enough. -/
theorem Tree.mem_prunable (h : Tree c s) {keepDepth : ℕ} {hs prunable : List Hash}
    (hp : prunableAmong s keepDepth hs = .ok prunable) (hchain : Linked s.blocks (chain ++ [x])) :
    x ∈ prunable ↔ x ∈ hs ∧ x ∉ s.activeChain ∧
      keepDepth < s.activeChain.length - forkIndexOf s.activeChain (chain ++ [x]) := by
  induction hs generalizing prunable with
  | nil =>
    obtain rfl := Outcome.ok.inj hp
    simp
  | cons y hs ih =>
    obtain ⟨rest, hrest, hp⟩ := Outcome.bind_eq_ok.1 hp
    have ih := ih hrest
    dsimp only at hp
    split at hp
    · next hy =>
      rw [mem_activeChainIndex] at hy
      obtain rfl := Outcome.ok.inj hp
      rw [ih, List.mem_cons]
      refine ⟨fun hx => ⟨.inr hx.1, hx.2⟩, fun hx => ⟨hx.1.resolve_left ?_, hx.2⟩⟩
      rintro rfl
      exact hx.2.1 hy
    · next hy =>
      rw [mem_activeChainIndex] at hy
      obtain ⟨traced, ht, hp⟩ := Outcome.bind_eq_ok.1 hp
      by_cases hxy : x = y
      · subst hxy
        rw [(traceBranchWithIndex_eq (h.zero_notMem hne) h.active hchain).1] at ht
        obtain rfl := Outcome.ok.inj ht
        obtain rfl := Outcome.ok.inj hp
        split
        · next hdeep => exact ⟨fun _ => ⟨List.mem_cons_self, hy, hdeep⟩, fun _ => List.mem_cons_self⟩
        · next hdeep =>
          rw [ih]
          exact ⟨fun hx => absurd hx.2.2 hdeep, fun hx => absurd hx.2.2 hdeep⟩
      · rw [List.mem_cons, or_iff_right hxy, ← ih]
        rcases traced with _ | ⟨forkIndex, branch⟩
        · obtain rfl := Outcome.ok.inj hp
          rfl
        · obtain rfl := Outcome.ok.inj hp
          split
          · rw [List.mem_cons, or_iff_right hxy]
          · rfl

include hne in
/-- The chain to a block that is kept consists of blocks that are kept. -/
theorem Tree.linked_forgetBlocks (h : Tree c s) {keepDepth : ℕ} {hs prunable : List Hash}
    (hp : prunableAmong s keepDepth hs = .ok prunable) (hall : ∀ x ∈ s.blocks, x ∈ hs)
    (hchain : Linked s.blocks (chain ++ [x])) (hx : x ∉ prunable) :
    Linked (s.forgetBlocks prunable).blocks (chain ++ [x]) := by
  generalize hl : chain ++ [x] = l at hchain
  induction hchain generalizing chain x with
  | nil => exact .nil
  | @concat l y b hlink hb hprev ih =>
    obtain ⟨rfl, hy⟩ := List.append_inj' hl rfl
    obtain rfl := List.singleton_inj.1 hy
    have hlookup : (s.forgetBlocks prunable).blocks.lookup x = some b := by
      rw [lookup_forgetBlocks, if_neg hx, hb]
    refine .concat ?_ hlookup hprev
    rcases hlink with _ | @⟨l, z, b', hl', hb', hp'⟩
    · exact .nil
    · refine @ih z l (fun hz => hx ?_) rfl
      -- A block after one that is forgotten is forgotten.
      obtain ⟨-, hzactive, hdeep⟩ := (h.mem_prunable hne hp (hl'.concat hb' hp')).1 hz
      have hxchain := (hl'.concat hb' hp').concat hb hprev
      have hxactive : x ∉ s.activeChain := by
        intro hxa
        obtain ⟨i, -, he⟩ := h.active.eq_take (h.zero_notMem hne) hxchain hxa
        have hz : z ∈ s.activeChain.take (i + 1) := by
          rw [← he]
          simp
        exact hzactive (List.mem_of_mem_take hz)
      refine (h.mem_prunable hne hp hxchain).2 ⟨hall x (Finmap.mem_iff.2 ⟨b, hb⟩), hxactive, ?_⟩
      rwa [forkIndexOf_append_of_notMem fun w hw => by rwa [List.mem_singleton.1 hw]]

theorem Tree.of_sameChain {s₀ : Blockchain} (h : SameChain s₀ s) (ht : Tree c s₀) : Tree c s := by
  refine ⟨ht.toKeyed.of_sameChain h, ?_, ?_⟩
  · rw [h.blocks]
    exact ht.rooted
  · rw [h.blocks, h.activeChain]
    exact ht.active

theorem ofChain_tree : OfChain (Tree c) :=
  ⟨fun _ _ => Tree.of_sameChain, fun _ _ hs => ⟨⟨hs.blocks, hs.orphans, hs.known⟩, hs.rooted,
    hs.active⟩⟩

include hinj hne in
/-- What the steps of an acceptance do to the tree. -/
theorem moves_tree (amb : Ambient) (P : Blockchain → Block → Prop) :
    Moves c amb P (Tree c) (Tree c) where
  push s block hs _ htip := by
    have hp : block.header.prevBlockHash = tipOf s.activeChain := htip.parent
    refine ⟨hs.toKeyed.pushBlock amb.now block, ?_, ?_⟩
    · rw [pushBlock_blocks]
      exact hs.rooted_storeBlock hinj hs.active hp
    · rw [pushBlock_blocks, pushBlock_activeChain]
      exact hs.toKeyed.linked_concat hinj hs.active hp
  adjust s _ _ _ hs _ _ _ _ _ := ⟨⟨hs.blocks, hs.orphans, hs.known⟩, hs.rooted, hs.active⟩
  prune s prunable hs hp := by
    have hall : ∀ x ∈ s.blocks, x ∈ amb.order.keys s.blocks.keys := fun x hx =>
      (amb.order.mem_keys _ _).2 (Finmap.mem_keys.2 hx)
    refine ⟨hs.toKeyed.forgetBlocks hp, fun x hx => ?_, ?_⟩
    · obtain ⟨b, hb⟩ := Finmap.mem_iff.1 hx
      rw [lookup_forgetBlocks] at hb
      split_ifs at hb with hxp
      obtain ⟨chain, hchain⟩ := hs.rooted x (Finmap.mem_iff.2 ⟨b, hb⟩)
      exact ⟨chain, hs.linked_forgetBlocks hne hp hall hchain hxp⟩
    · exact hs.active.congr fun x hx => (lookup_forgetBlocks_of_active hp hx).symm
  store s block forkIndex branch hs _ hoff := by
    obtain ⟨hc, hp⟩ := hs.linked_candidateChain hne hoff.toBranchesOff
    exact ⟨hs.toKeyed.storeBlock block, hs.rooted_storeBlock hinj hc hp,
      hs.toKeyed.linked_storeBlock hinj hs.active⟩
  switch s block forkIndex branch target utxos confirmed hs _ hoff _ _ _ := by
    obtain ⟨hc, hp⟩ := hs.linked_candidateChain hne hoff.toBranchesOff
    exact ⟨(hs.toKeyed.storeBlock block).switchTo (hoff.mem_newChain hs.toKeyed) _ _ _ _,
      hs.rooted_storeBlock hinj hc hp, hs.toKeyed.linked_concat hinj hc hp⟩
  pool tx _ := ofChain_tree.addToMempool amb.now tx
  keep s block hs _ _ := by
    have h := hs.toKeyed.keepOrphan block
    rw [keepOrphan] at h ⊢
    split
    · exact hs
    · next hroom => exact ⟨by rwa [if_neg hroom] at h, hs.rooted, hs.active⟩
  take s block hs := ⟨hs.toKeyed.takeOrphan block, hs.rooted, hs.active⟩

theorem tree_new : Tree c new where
  toKeyed := keyed_new
  rooted _ hh := absurd hh Finmap.notMem_empty
  active := .nil

/-! ## Properties of a block on its chain -/

include hne in
/-- A new block is the last one of every chain it is on: nothing known comes
    after it. -/
theorem Tree.linked_of_storeBlock (h : Tree c s) (hnew : c.hashBlock block ∉ s.blocks)
    {chain : List Hash} {x : Hash} (hc : Linked (s.storeBlock c block).blocks (chain ++ [x])) :
    Linked s.blocks chain ∧ (x = c.hashBlock block ∨ Linked s.blocks (chain ++ [x])) := by
  have hne' : ∀ {y b}, y ≠ c.hashBlock block → (s.storeBlock c block).blocks.lookup y = some b →
      s.blocks.lookup y = some b := fun hy hb => by
    rwa [storeBlock, Finmap.lookup_insert_of_ne _ hy] at hb
  generalize hl : chain ++ [x] = l at hc
  induction hc generalizing chain x with
  | nil => exact absurd hl (by simp)
  | @concat l y b hlink hb hp ih =>
    obtain ⟨rfl, hy⟩ := List.append_inj' hl rfl
    obtain rfl := List.singleton_inj.1 hy
    -- The chain before `x` does not go through the new block.
    have hbefore : Linked s.blocks chain := by
      rcases hlink with _ | @⟨l, z, b', hl', hb', hp'⟩
      · exact .nil
      · obtain ⟨hl, rfl | hz⟩ := ih rfl
        · exfalso
          rw [tipOf_concat] at hp
          by_cases hx : x = c.hashBlock block
          · -- The new block would be its own parent.
            subst hx
            have := ((hl'.concat hb' hp').concat hb (by rw [tipOf_concat, hp])).nodup
              ((h.toKeyed.storeBlock block).zero_notMem hne)
            simp [List.nodup_append] at this
          · obtain ⟨chain', hchain'⟩ := h.rooted x (Finmap.mem_iff.2 ⟨b, hne' hx hb⟩)
            obtain ⟨hlink', b'', hb'', hp''⟩ := hchain'.concat_inv
            obtain rfl := Option.some.inj ((hne' hx hb).symm.trans hb'')
            rcases hlink' with _ | @⟨l', w, bw, hl'', hbw, hpw⟩
            · exact hne block (hp.symm.trans hp'')
            · rw [tipOf_concat, hp] at hp''
              exact hnew (hp'' ▸ Finmap.mem_iff.2 ⟨bw, hbw⟩)
        · exact hz
    refine ⟨hbefore, ?_⟩
    by_cases hx : x = c.hashBlock block
    · exact .inl hx
    · exact .inr (hbefore.concat (hne' hx hb) hp)

include hinj hne in
/-- The chains of known blocks once a block is stored: those before, and the chain
    to it. -/
theorem Tree.linked_storeBlock_cases (h : Tree c s) (hchain : Linked s.blocks chain)
    (hp : block.header.prevBlockHash = tipOf chain)
    (hc : Linked (s.storeBlock c block).blocks chain') :
    Linked s.blocks chain' ∨ chain' = chain ++ [c.hashBlock block] := by
  by_cases hmem : c.hashBlock block ∈ s.blocks
  · rw [h.toKeyed.storeBlock_eq hinj hmem] at hc
    exact .inl hc
  · rcases List.eq_nil_or_concat' chain' with rfl | ⟨l, x, rfl⟩
    · exact .inl .nil
    · obtain ⟨hl, rfl | hx⟩ := h.linked_of_storeBlock hne hmem hc
      · -- The chain before the new block is the chain to its parent.
        obtain ⟨-, b, hb, hprev⟩ := hc.concat_inv
        obtain rfl := Option.some.inj (lookup_storeBlock_self.symm.trans hb)
        rw [hchain.unique (h.zero_notMem hne) hl (hp.symm.trans hprev)]
        exact .inr rfl
      · exact .inl hx

end

/-- A property of a block on the chain to its parent, which reads only the blocks
    of that chain. -/
def OnChain (Φ : (Finmap fun _ : Hash => Block) → List Hash → Block → Prop) : Prop :=
  ∀ blocks blocks' chain block, (∀ x ∈ chain, blocks.lookup x = blocks'.lookup x) →
    Φ blocks chain block → Φ blocks' chain block

/-- Every known block has the property `Φ` on the chain to its parent. -/
def Each (Φ : (Finmap fun _ : Hash => Block) → List Hash → Block → Prop) (s : Blockchain) : Prop :=
  ∀ chain h block, Linked s.blocks (chain ++ [h]) → s.blocks.lookup h = some block →
    Φ s.blocks chain block

section

variable {Φ : (Finmap fun _ : Hash => Block) → List Hash → Block → Prop}

/-- Storing a block that has the property. -/
theorem Each.storeBlock (hinj : Function.Injective c.hashBlock)
    (hne : ∀ block, c.hashBlock block ≠ Hash.zero) (hΦ : OnChain Φ) (h : Each Φ s) (ht : Tree c s)
    (hc : Linked s.blocks chain) (hp : block.header.prevBlockHash = tipOf chain)
    (hb : Φ s.blocks chain block) : Each Φ (s.storeBlock c block) := by
  intro chain' x b hc' hx
  by_cases hnew : c.hashBlock block ∈ s.blocks
  · rw [ht.toKeyed.storeBlock_eq hinj hnew] at hc' hx ⊢
    exact h chain' x b hc' hx
  · obtain ⟨hchain', hxnew⟩ := ht.linked_of_storeBlock hne hnew hc'
    refine hΦ s.blocks _ chain' b
      (fun y hy => (ht.toKeyed.lookup_storeBlock hinj (hchain'.mem y hy)).symm) ?_
    rcases hxnew with rfl | hxold
    · obtain ⟨-, b', hb', hp'⟩ := hc'.concat_inv
      obtain rfl := Option.some.inj (hx.symm.trans hb')
      obtain rfl := Option.some.inj (lookup_storeBlock_self.symm.trans hx)
      obtain rfl := hc.unique (ht.zero_notMem hne) hchain' (hp.symm.trans hp')
      exact hb
    · rw [ht.toKeyed.lookup_storeBlock hinj (hxold.mem x (by simp))] at hx
      exact h chain' x b hxold hx

theorem Each.forgetBlocks (hΦ : OnChain Φ) (h : Each Φ s) (prunable : List Hash) :
    Each Φ (s.forgetBlocks prunable) := by
  intro chain x b hc hb
  have hsame : ∀ y ∈ chain ++ [x],
      (s.forgetBlocks prunable).blocks.lookup y = s.blocks.lookup y := fun y hy =>
    lookup_forgetBlocks_of_mem (hc.mem y hy)
  refine hΦ s.blocks _ chain b (fun y hy => (hsame y (List.mem_append_left _ hy)).symm)
    (h chain x b (hc.congr hsame) ?_)
  rw [← hsame x (by simp), hb]

theorem ofChain_each : OfChain (Each Φ) :=
  ⟨fun s₀ s h hs => by rw [Each, h.blocks]; exact hs, fun _ _ hs => hs⟩

theorem each_new : Each Φ new := fun _ _ _ hc _ =>
  absurd (hc.mem _ (List.mem_append_right _ (List.mem_singleton_self _))) Finmap.notMem_empty

/-- If the blocks that are accepted have a property on the chain to their parent,
    every known block keeps having it. -/
theorem Moves.each {amb : Ambient} {P : Blockchain → Block → Prop} {I N : Blockchain → Prop}
    (hinj : Function.Injective c.hashBlock) (hne : ∀ block, c.hashBlock block ≠ Hash.zero)
    (h : Moves c amb P I N) (ht : ∀ s, I s → Tree c s) (hΦ : OnChain Φ)
    (htip : ∀ s block, I s → P s block → ExtendsTip c amb.now s block →
      Φ s.blocks s.activeChain block)
    (hoff : ∀ s block forkIndex branch, I s → P s block → OffTip c amb.now s block forkIndex branch →
      Φ s.blocks (s.candidateChain forkIndex branch) block) :
    Moves c amb P (fun s => I s ∧ Each Φ s) fun s => N s ∧ Each Φ s where
  push s block hs hP hext := by
    have hstore : Each Φ (s.storeBlock c block) := hs.2.storeBlock hinj hne hΦ (ht s hs.1)
      (ht s hs.1).active hext.parent (htip s block hs.1 hP hext)
    exact ⟨h.push s block hs.1 hP hext, hstore⟩
  adjust s _ _ target hs h₁ h₂ h₃ h₄ h₅ := ⟨h.adjust s _ _ target hs.1 h₁ h₂ h₃ h₄ h₅, hs.2⟩
  prune s prunable hs hp := ⟨h.prune s prunable hs.1 hp, hs.2.forgetBlocks hΦ prunable⟩
  store s block forkIndex branch hs hP ho := by
    obtain ⟨hc, hp⟩ := (ht s hs.1).linked_candidateChain hne ho.toBranchesOff
    exact ⟨h.store s block _ _ hs.1 hP ho, hs.2.storeBlock hinj hne hΦ (ht s hs.1) hc hp
      (hoff s block _ _ hs.1 hP ho)⟩
  switch s block forkIndex branch target utxos confirmed hs hP ho h₁ h₂ h₃ := by
    obtain ⟨hc, hp⟩ := (ht s hs.1).linked_candidateChain hne ho.toBranchesOff
    exact ⟨h.switch s block _ _ target utxos confirmed hs.1 hP ho h₁ h₂ h₃,
      hs.2.storeBlock hinj hne hΦ (ht s hs.1) hc hp (hoff s block _ _ hs.1 hP ho)⟩
  pool tx htx := (h.pool tx (htx.imp fun _ hs => hs.1)).and (ofChain_each.addToMempool amb.now tx)
  keep s block hs hP hmem := by
    refine ⟨h.keep s block hs.1 hP hmem, ?_⟩
    rw [keepOrphan]
    split
    exacts [hs.2, hs.2]
  take s block hs := ⟨h.take s block hs.1, hs.2⟩

end

end Itx.Blockchain
