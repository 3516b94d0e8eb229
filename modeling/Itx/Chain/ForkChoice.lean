import Itx.Chain.BlockTree

/-!
# The active chain has the most work

Only the branch of a block that has just been stored is weighed against the active
chain. That is enough: the active chain has the most work of all the chains of
known blocks (`Heaviest`), since one more block makes one more chain, and pushing
a block on the tip adds to the work of the active chain alone. So the active chain
gives way to another branch only when the block just stored has given that branch
more work (`fork_choice`).

The work of a chain is a saturating sum. It cannot be computed when a block of it
has the target zero, which only a header hashing to zero could meet.
-/

namespace Itx.Blockchain

open Call

variable {c : Crypto} {s : Blockchain} {block : Block} {x : Hash}
  {blocks blocks' : Finmap fun _ : Hash => Block} {chain : List Hash} {w w' : U256}

/-! ## Work -/

theorem workOfChain_concat : workOfChain blocks (chain ++ [x]) = (workOfChain blocks chain).bind
    fun acc => (blocks.lookup x).bind fun block => block.header.work.bind fun work =>
      some (min (acc + work) (u256Bound - 1)) := by
  rw [workOfChain, List.foldlM_append, ← workOfChain]
  simp only [List.foldlM_cons, List.foldlM_nil, Option.bind_eq_bind, Option.pure_def,
    Option.bind_fun_some]

/-- The work of a chain depends on the blocks of that chain only. -/
theorem workOfChain_congr (h : ∀ x ∈ chain, blocks.lookup x = blocks'.lookup x) :
    workOfChain blocks chain = workOfChain blocks' chain := by
  induction chain using List.reverseRecOn with
  | nil => rfl
  | append_singleton chain x ih =>
    rw [workOfChain_concat, workOfChain_concat, ih fun y hy => h y (List.mem_append_left _ hy),
      h x (List.mem_append_right _ (List.mem_singleton_self _))]

theorem workOfChain_le (h : workOfChain blocks chain = some w) : w ≤ u256Bound - 1 := by
  rcases List.eq_nil_or_concat' chain with rfl | ⟨l, x, rfl⟩
  · obtain rfl := Option.some.inj h
    exact Nat.zero_le _
  · rw [workOfChain_concat] at h
    obtain ⟨acc, -, h⟩ := Option.bind_eq_some_iff.1 h
    obtain ⟨b, -, h⟩ := Option.bind_eq_some_iff.1 h
    obtain ⟨work, -, h⟩ := Option.bind_eq_some_iff.1 h
    rw [← Option.some.inj h]
    exact min_le_right _ _

/-- One more block takes no work away. -/
theorem workOfChain_concat_ge (h : workOfChain blocks (chain ++ [x]) = some w') :
    ∃ w, workOfChain blocks chain = some w ∧ w ≤ w' := by
  rw [workOfChain_concat] at h
  obtain ⟨acc, hacc, h⟩ := Option.bind_eq_some_iff.1 h
  obtain ⟨b, -, h⟩ := Option.bind_eq_some_iff.1 h
  obtain ⟨work, -, h⟩ := Option.bind_eq_some_iff.1 h
  refine ⟨acc, hacc, ?_⟩
  rw [← Option.some.inj h]
  exact le_min (Nat.le_add_right _ _) (workOfChain_le hacc)

/-! ## The heaviest chain -/

/-- No chain of known blocks has more work than the active one. -/
def Heaviest (s : Blockchain) : Prop :=
  ∀ chain w w', Linked s.blocks chain → workOfChain s.blocks chain = some w →
    workOfChain s.blocks s.activeChain = some w' → w ≤ w'

theorem ofChain_heaviest : OfChain Heaviest := by
  refine ⟨fun s₀ s h hs => ?_, fun _ _ hs => hs⟩
  rw [Heaviest, h.blocks, h.activeChain]
  exact hs

theorem heaviest_new : Heaviest new := by
  intro chain w w' hchain hw hw'
  cases hchain with
  | nil => rw [Option.some.inj (hw.symm.trans hw')]
  | concat _ hb _ => cases hb

section

variable (hinj : Function.Injective c.hashBlock) (hne : ∀ block, c.hashBlock block ≠ Hash.zero)

include hinj in
theorem Keyed.workOfChain_storeBlock (h : Keyed c s) (block : Block)
    (hchain : ∀ x ∈ chain, x ∈ s.blocks) :
    workOfChain (s.storeBlock c block).blocks chain = workOfChain s.blocks chain :=
  workOfChain_congr fun x hx => h.lookup_storeBlock hinj (hchain x hx)

include hinj hne in
/-- Once a block is stored, a chain that has no less work than the active chain and
    the chain to the block has no less than any. -/
theorem Heaviest.storeBlock (hs : Heaviest s) (h : Steady c s) (hchain : Linked s.blocks chain)
    (hp : block.header.prevBlockHash = tipOf chain)
    (hold : ∃ w₀, workOfChain (s.storeBlock c block).blocks s.activeChain = some w₀ ∧ w₀ ≤ w')
    (hnew : ∀ w₀, workOfChain (s.storeBlock c block).blocks (chain ++ [c.hashBlock block]) =
      some w₀ → w₀ ≤ w') {l : List Hash} (hl : Linked (s.storeBlock c block).blocks l)
    (hw : workOfChain (s.storeBlock c block).blocks l = some w) : w ≤ w' := by
  rcases h.toTree.linked_storeBlock_cases hinj hne hchain hp hl with hl | rfl
  · obtain ⟨w₀, hw₀, hle⟩ := hold
    rw [h.toKeyed.workOfChain_storeBlock hinj block hl.mem] at hw
    rw [h.toKeyed.workOfChain_storeBlock hinj block h.known] at hw₀
    exact (hs l w w₀ hl hw hw₀).trans hle
  · exact hnew w hw

include hinj hne in
theorem accepting_heaviest : Accepting c Heaviest where
  take _ _ hs := hs
  accept amb s block s' o h hs ha := by
    cases ha with
    | refused _ _ _ => exact hs
    | buffered _ _ _ =>
      rw [keepOrphan]
      split
      exacts [hs, hs]
    | @extended target prunable hext ht hp =>
      intro l w w' hl hw hw'
      -- The chains that are left, and the active one, were there before pruning.
      have hkept : ∀ x ∈ l, (((s.pushBlock c amb.now block).setTarget target).forgetBlocks
          prunable).blocks.lookup x = (s.storeBlock c block).blocks.lookup x := fun x hx =>
        lookup_forgetBlocks_of_mem (hl.mem x hx)
      rw [workOfChain_congr hkept] at hw
      have hw' : workOfChain (s.storeBlock c block).blocks (s.activeChain ++ [c.hashBlock block]) =
          some w' :=
        (workOfChain_congr fun x hx => (lookup_forgetBlocks_outdated hp hx).symm).trans hw'
      refine hs.storeBlock hinj hne h h.active hext.parent (workOfChain_concat_ge hw')
        (fun w₀ hw₀ => ?_) (hl.congr hkept) hw
      rw [Option.some.inj (hw₀.symm.trans hw')]
    | stored ho hbehind _ =>
      intro l w w' hl hw hw'
      obtain ⟨hc, hp⟩ := h.toTree.linked_candidateChain hne ho.toBranchesOff
      exact hs.storeBlock hinj hne h hc hp ⟨w', hw', le_rfl⟩ (fun w₀ hw₀ => hbehind w₀ w' hw₀ hw') hl hw
    | @switched _ _ newWork chainWork _ _ _ _ ho hnew hold hlt _ _ hsame =>
      refine ofChain_heaviest.1 _ _ hsame fun l w w' hl hw hw' => ?_
      obtain rfl := Option.some.inj (hnew.symm.trans hw')
      obtain ⟨hc, hp⟩ := h.toTree.linked_candidateChain hne ho.toBranchesOff
      refine hs.storeBlock hinj hne h hc hp ⟨chainWork, hold, hlt.le⟩ (fun w₀ hw₀ => ?_) hl hw
      rw [Option.some.inj (hw₀.symm.trans hnew)]

/-- An acceptance leaves the active chain alone, extends it with the block, or
    replaces it by the branch of the block, which has just outweighed it. -/
def Outweighs (c : Crypto) (amb : Ambient) (s : Blockchain) (block : Block) : Prop :=
  ∀ s' o, acceptBlock c amb block s = (s', o) →
    s'.activeChain = s.activeChain ∨ s'.activeChain = s.activeChain ++ [c.hashBlock block] ∨
      ∃ chain oldWork newWork, s'.activeChain = chain ++ [c.hashBlock block] ∧
        Linked s.blocks chain ∧ c.hashBlock block ∉ s.blocks ∧
        workOfChain s.blocks s.activeChain = some oldWork ∧
        (∀ w, workOfChain s.blocks chain = some w → w ≤ oldWork) ∧
        workOfChain s'.blocks s'.activeChain = some newWork ∧ oldWork < newWork

include hinj hne in
theorem Heaviest.outweighs (hs : Heaviest s) (h : Steady c s) (amb : Ambient) (block : Block) :
    Outweighs c amb s block := by
  intro s' o he
  have ha := h.accepts hinj hne amb block
  rw [he] at ha
  cases ha with
  | refused _ _ _ => exact .inl rfl
  | buffered _ _ _ => exact .inl keepOrphan_activeChain
  | extended _ _ _ => exact .inr (.inl rfl)
  | stored _ _ _ => exact .inl rfl
  | @switched forkIndex branch newWork chainWork _ _ _ _ ho hnew hold hlt _ _ hsame =>
    obtain ⟨hc, hp⟩ := h.toTree.linked_candidateChain hne ho.toBranchesOff
    rw [h.toKeyed.workOfChain_storeBlock hinj block h.known] at hold
    refine .inr (.inr ⟨_, chainWork, newWork, hsame.activeChain, hc, fun hmem => ?_, hold,
      fun w hw => hs _ w chainWork hc hw hold, ?_, hlt⟩)
    · -- A known block gives no branch more work.
      have hl := h.toKeyed.linked_concat hinj hc hp
      rw [h.toKeyed.storeBlock_eq hinj hmem] at hl hnew
      exact absurd (hs _ newWork chainWork hl hnew hold) (not_le.2 hlt)
    · rw [hsame.blocks, hsame.activeChain]
      exact hnew

include hinj hne in
/-- In every state of a run, and in every state in which a block of a further call is
    taken up, the active chain has the most work of all the chains of known blocks;
    the works can be computed unless some known block has the target zero; and the
    active chain is replaced by another branch only in the step that gives this
    branch more work. -/
theorem fork_choice (hs : (chainSystem c).Reachable s) :
    (∀ chain w w', Linked s.blocks chain → workOfChain s.blocks chain = some w →
      workOfChain s.blocks s.activeChain = some w' → w ≤ w') ∧
    ((∀ h b, s.blocks.lookup h = some b → b.header.target ≠ 0) →
      ∀ chain, Linked s.blocks chain → ∃ w, workOfChain s.blocks chain = some w) ∧
    ∀ amb block, TakesUp c amb (fun t b => Heaviest t ∧ Outweighs c amb t b) block s := by
  have hsteady := steady_of_reachable hinj hne hs
  have hheaviest := (accepting_heaviest hinj hne).invariant hinj hne ofChain_heaviest
    heaviest_new hs
  refine ⟨hheaviest, fun hzero chain hchain => ?_, fun amb block => ?_⟩
  · refine Option.ne_none_iff_exists'.1 (workOfChain_ne_none fun x hx => ?_)
    obtain ⟨b, hb⟩ := Finmap.mem_iff.1 (hchain.mem x hx)
    obtain ⟨l, hl⟩ := hsteady.rooted x (Finmap.mem_iff.2 ⟨b, hb⟩)
    have hpass := (passes_of_reachable hinj hne hs).2 l x b hl hb
    exact ⟨b, hb, Nat.one_le_iff_ne_zero.2 (hzero x b hb), recomputeTargetForChain_le hpass.target⟩
  · exact (accepting_heaviest hinj hne).takesUp hinj hne
      (fun t b ht hw => ⟨hw, hw.outweighs hinj hne ht amb b⟩) hsteady hheaviest amb block

end

/-- The second branch of the sample chain has the most work. -/
theorem fork_choice_forked : Sample.forked.activeChain = [1, 3, 4] ∧
    ∀ chain w w', Linked Sample.forked.blocks chain →
      workOfChain Sample.forked.blocks chain = some w →
      workOfChain Sample.forked.blocks Sample.forked.activeChain = some w' → w ≤ w' :=
  ⟨by decide +kernel, (fork_choice (c := Sample.forkCrypto) (tableHash_injective _)
    (tableHash_ne_zero _) (reachable_run _)).1⟩

end Itx.Blockchain
