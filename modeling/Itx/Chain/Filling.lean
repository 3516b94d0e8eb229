import Itx.Chain.FeeOrder

/-!
# What a template is filled with

A template takes the transactions of the mempool in order, each that still fits within
`BLOCK_BYTE_CAP` (`create_block_template`). What it leaves out did not fit next to those of
higher fees (`fillBlock_append`). Nothing that is larger than the cap ever fits, and
`add_to_mempool` does not look at the size of what it admits.

* `template_filled`: a template has a transaction of the highest fee exactly where one of these
  is within the cap; and in every run in which only transactions within the cap are offered, the
  templates have one. What reorganisations offer again comes from blocks, which are within it.
-/

namespace Itx.Blockchain

open Utxos Call

variable {c : Crypto} {s : Blockchain} {tx : Transaction}

/-! ## Filling a block -/

/-- What is chosen up to some point, then what is chosen after it. -/
theorem fillBlock_append (pre post : List (DateTime × Transaction)) (totalBytes : ℕ) :
    fillBlock c (pre ++ post) totalBytes = fillBlock c pre totalBytes ++
      fillBlock c post (totalBytes + ((fillBlock c pre totalBytes).map c.serializedSize).sum) := by
  induction pre generalizing totalBytes with
  | nil => rfl
  | cons entry pre ih =>
    obtain ⟨t, tx⟩ := entry
    rw [List.cons_append, fillBlock, fillBlock]
    split_ifs with h
    · exact ih totalBytes
    · rw [ih, List.cons_append, List.map_cons, List.sum_cons, add_assoc]

theorem serializedSize_le_of_mem_fillBlock {mempool : List (DateTime × Transaction)} {totalBytes : ℕ}
    (h : tx ∈ fillBlock c mempool totalBytes) : c.serializedSize tx ≤ blockByteCap := by
  induction mempool generalizing totalBytes with
  | nil => cases h
  | cons entry mempool ih =>
    rw [fillBlock] at h
    split_ifs at h with hfits
    · exact ih h
    · rcases List.mem_cons.1 h with rfl | h
      · omega
      · exact ih h

/-- Nothing is chosen of what is larger than the cap. -/
theorem fillBlock_eq_nil {mempool : List (DateTime × Transaction)} {totalBytes : ℕ}
    (h : ∀ entry ∈ mempool, blockByteCap < c.serializedSize entry.2) : fillBlock c mempool totalBytes = [] := by
  refine List.eq_nil_iff_forall_not_mem.2 fun tx htx => ?_
  obtain ⟨entry, he, rfl⟩ := mem_fillBlock htx
  exact (h entry he).not_ge (serializedSize_le_of_mem_fillBlock htx)

/-- A transaction is chosen, or does not fit next to what is chosen before it. -/
theorem fillBlock_cases (pre post : List (DateTime × Transaction)) (entry : DateTime × Transaction) :
    (∃ rest, fillBlock c (pre ++ entry :: post) 0 = fillBlock c pre 0 ++ entry.2 :: rest) ∨
    blockByteCap < ((fillBlock c pre 0).map c.serializedSize).sum + c.serializedSize entry.2 := by
  rw [fillBlock_append, zero_add, fillBlock]
  split_ifs with h
  · exact .inr h
  · exact .inl ⟨_, rfl⟩

/-- No transaction of the mempool pays more. -/
def Highest (s : Blockchain) (entry : DateTime × Transaction) : Prop :=
  entry ∈ s.mempool ∧ ∀ other ∈ s.mempool, sortingFee s.utxos other.2 ≤ sortingFee s.utxos entry.2

/-- In the order of the fees, a transaction of the highest fee is chosen exactly where one is
    within the cap. -/
theorem highest_chosen_iff (h : FeeOrdered c s) :
    (∃ entry, s.Highest entry ∧ entry.2 ∈ fillBlock c s.mempool 0) ↔
      ∃ entry, s.Highest entry ∧ c.serializedSize entry.2 ≤ blockByteCap := by
  constructor
  · rintro ⟨entry, hhigh, hmem⟩
    exact ⟨entry, hhigh, serializedSize_le_of_mem_fillBlock hmem⟩
  · rintro ⟨entry, hhigh, hsize⟩
    -- The first that is within the cap: those before it pay as much, and are larger than the cap.
    have hfind : (s.mempool.find? fun e => c.serializedSize e.2 ≤ blockByteCap).isSome :=
      List.find?_isSome.2 ⟨entry, hhigh.1, decide_eq_true hsize⟩
    obtain ⟨first, hfirst⟩ := Option.isSome_iff_exists.1 hfind
    obtain ⟨hfits, pre, post, hpool, hpre⟩ := List.find?_eq_some_iff_append.1 hfirst
    have hlarge : ∀ e ∈ pre, blockByteCap < c.serializedSize e.2 := fun e he => by
      simpa using hpre e he
    have hmem : first ∈ s.mempool := by rw [hpool]; simp
    have hpays : sortingFee s.utxos entry.2 ≤ sortingFee s.utxos first.2 := by
      have hentry : entry ∈ pre ++ first :: post := hpool ▸ hhigh.1
      have hsorted := h.sorted
      rw [hpool] at hsorted
      rcases List.mem_append.1 hentry with he | he
      · exact absurd (hlarge entry he) (not_lt.2 hsize)
      · rcases List.mem_cons.1 he with rfl | he
        · exact le_rfl
        · exact (List.pairwise_cons.1 (List.pairwise_append.1 hsorted).2.1).1 entry he
    refine ⟨first, ⟨hmem, fun other ho => (hhigh.2 other ho).trans hpays⟩, ?_⟩
    rw [hpool, fillBlock_append, fillBlock_eq_nil hlarge]
    simp [fillBlock, not_lt.2 (of_decide_eq_true hfits)]

/-! ## What may be waiting -/

/-- The transactions of the blocks, but for the coinbases, and those of the mempool are within
    the cap. -/
structure Small (c : Crypto) (s : Blockchain) : Prop where
  blocks : ∀ x block, s.blocks.lookup x = some block → ∀ tx ∈ block.transactions.tail,
    c.serializedSize tx ≤ blockByteCap
  mempool : ∀ entry ∈ s.mempool, c.serializedSize entry.2 ≤ blockByteCap

/-- The transactions of a block that passes are within the cap. -/
theorem serializedSize_le_of_checkBlockSize {block : Block} (h : checkBlockSize c block = .ok ())
    (htx : tx ∈ block.transactions.tail) : c.serializedSize tx ≤ blockByteCap := by
  obtain ⟨txBytes, hbytes, h⟩ := Outcome.bind_eq_ok.1 h
  obtain ⟨rfl, -⟩ := checkedSum_eq_some.1 (Outcome.expect_eq_ok.1 hbytes)
  exact (List.le_sum_of_mem (List.mem_map_of_mem htx)).trans (Outcome.ensure_eq_ok.1 h)

theorem Small.store (h : Small c s) {block : Block} (hsize : checkBlockSize c block = .ok ())
    {mempool : List (DateTime × Transaction)} (hmempool : ∀ entry ∈ mempool, entry ∈ s.mempool)
    {s' : Blockchain} (hblocks : s'.blocks = (s.storeBlock c block).blocks) (hpool : s'.mempool = mempool) :
    Small c s' where
  blocks x b hb := by
    rw [hblocks, storeBlock, Finmap.lookup_insert_eq] at hb
    split_ifs at hb
    · obtain rfl := Option.some.inj hb
      exact fun tx htx => serializedSize_le_of_checkBlockSize hsize htx
    · exact h.blocks x b hb
  mempool entry he := h.mempool entry (hmempool entry (hpool ▸ he))

/-- Offering a transaction within the cap. -/
theorem small_addToMempool (now : DateTime) (hsize : c.serializedSize tx ≤ blockByteCap)
    {N : Blockchain → Prop} : Triple (fun s => Admitted s ∧ Small c s) (addToMempool c now tx)
      (fun _ s => Admitted s ∧ Small c s) (fun _ s => Admitted s ∧ Small c s) N := by
  refine .of_state fun s hs => ?_
  have hblocks : Preserves (SameChain s) (addToMempool c now tx) := sameChain_addToMempool s tx
  refine (((triple_addToMempool now tx).and (triple_offer hs.1 now tx)).and hblocks).conseq
    (fun t e => ?_) (fun _ t ht => ⟨ht.1.1, ?_, fun entry he => ?_⟩)
    (fun _ t ht => ⟨ht.1.1, ?_, fun entry he => ?_⟩) fun _ ht => ht.1.1.elim
  · subst e
    exact ⟨⟨hs.1, rfl⟩, .refl _⟩
  · rw [ht.2.blocks]
    exact hs.2.blocks
  · rcases ht.1.2.2.2 entry he with he | rfl
    · exact hs.2.mempool entry he
    · exact hsize
  · rw [ht.2.blocks]
    exact hs.2.blocks
  · exact hs.2.mempool entry (ht.1.2.2 entry he)

theorem moves_small (amb : Ambient) (P : Blockchain → Block → Prop) {N : Blockchain → Prop} :
    Moves c amb P (fun s => Admitted s ∧ Small c s) N := by
  have h := moves_admitted (c := c) amb P
  have hevicted : ∀ {mempool : List (DateTime × Transaction)} {p q : DateTime × Transaction → Bool},
      ∀ entry ∈ (mempool.filter p).filter q, entry ∈ mempool := fun _ he =>
    (List.mem_filter.1 (List.mem_filter.1 he).1).1
  exact
    { push := fun s block hs hP hext => ⟨h.push s block hs.1 hP hext,
        hs.2.store (checkExtendingTip_eq_ok.1 hext.checked).2.2.2.1 hevicted rfl rfl⟩
      adjust := fun s a b target hs h₁ h₂ h₃ h₄ h₅ =>
        ⟨h.adjust s a b target hs.1 h₁ h₂ h₃ h₄ h₅, hs.2.blocks, hs.2.mempool⟩
      prune := fun s prunable hs hp => by
        refine ⟨h.prune s prunable hs.1 hp, fun x b hb => ?_, hs.2.mempool⟩
        rw [lookup_forgetBlocks] at hb
        split_ifs at hb
        exact hs.2.blocks x b hb
      store := fun s block i l hs hP hoff => ⟨h.store s block i l hs.1 hP hoff,
        hs.2.store (checkOffTip_eq_ok.1 hoff.checked).2.2.1 (fun _ => id) rfl rfl⟩
      switch := fun s block i l target utxos confirmed hs hP hoff h₁ h₂ h₃ =>
        ⟨h.switch s block i l target utxos confirmed hs.1 hP hoff h₁ h₂ h₃,
          hs.2.store (checkOffTip_eq_ok.1 hoff.checked).2.2.1 hevicted rfl rfl⟩
      pool := fun tx ⟨s, x, block, hs, hblock, htx⟩ =>
        small_addToMempool amb.now (hs.2.blocks x block hblock tx htx)
      keep := fun s block hs h₁ h₂ => by
        refine ⟨h.keep s block hs.1 h₁ h₂, ?_⟩
        rw [keepOrphan]
        split
        exacts [hs.2, ⟨hs.2.blocks, hs.2.mempool⟩]
      take := fun s block hs => ⟨h.take s block hs.1, hs.2.blocks, hs.2.mempool⟩ }

/-- The transactions that are offered are within the cap. -/
def Fitting (c : Crypto) : Blockchain → Op → Prop
  | _, .addToMempool _ tx => c.serializedSize tx ≤ blockByteCap
  | _, _ => True

theorem small_of_reachable (hs : (chainSystem c).ReachableBy (Fitting c) s) : Small c s := by
  have hinv : Keyed c s ∧ Admitted s ∧ Small c s := by
    refine hs.invariant (I := fun s => Keyed c s ∧ Admitted s ∧ Small c s) (fun s hs => ?_)
      fun s op s' hI hop hst => ?_
    · rw [Set.mem_singleton_iff.1 hs]
      exact ⟨keyed_new, admitted_new, by simp [new], by simp [new]⟩
    · rw [show s' = (op.call c s).1 from hst]
      refine preserves_of_moves (P := fun _ _ _ => True)
        (fun amb => (moves_keyed amb _).and (moves_small amb _))
        (fun _ hs => hs.1) (fun now s hs => ?_) (fun offset s hs => ?_) (fun now tx he => ?_) hI
        (taking_of_forall (fun _ _ _ => trivial) s op)
      · exact ⟨ofChain_keyed.1 _ _ ((SameChain.refl s).cleanupMempool now) hs.1, hs.2.1.cleanupMempool now,
          hs.2.2.blocks, fun entry he => hs.2.2.mempool entry (List.mem_filter.1 he).1⟩
      · exact ⟨ofChain_keyed.2 s offset hs.1, ⟨hs.2.1.nodup, hs.2.1.present⟩, hs.2.2.blocks, hs.2.2.mempool⟩
      · subst he
        exact (ofChain_keyed.addToMempool now tx).and (small_addToMempool now hop)
  exact hinv.2.2

/-! ## Templates -/

/-- What a template should choose from a mempool that is not empty: something, a transaction of
    the highest fee, and each that fits next to those before it, which pay as much. -/
structure Filled (c : Crypto) (s : Blockchain) (chosen : List Transaction) : Prop where
  some : chosen ≠ []
  highest : ∃ entry, s.Highest entry ∧ entry.2 ∈ chosen
  left : ∀ pre entry post, s.mempool = pre ++ entry :: post →
    (∀ e ∈ pre, sortingFee s.utxos entry.2 ≤ sortingFee s.utxos e.2) ∧
    ∃ before, (∀ tx ∈ before, ∃ e ∈ pre, e.2 = tx) ∧ ((∃ rest, chosen = before ++ entry.2 :: rest) ∨
      (∃ rest, chosen = before ++ rest) ∧
        blockByteCap < (before.map c.serializedSize).sum + c.serializedSize entry.2)

theorem filled_iff (h : FeeOrdered c s) : Filled c s (fillBlock c s.mempool 0) ↔
    ∃ entry, s.Highest entry ∧ c.serializedSize entry.2 ≤ blockByteCap := by
  rw [← highest_chosen_iff h]
  constructor
  · exact fun hf => hf.highest
  · rintro ⟨entry, hhigh, hmem⟩
    refine ⟨List.ne_nil_of_mem hmem, ⟨entry, hhigh, hmem⟩, fun pre entry post hpool => ⟨fun e he => ?_, ?_⟩⟩
    · have hsorted := h.sorted
      rw [hpool] at hsorted
      exact (List.pairwise_append.1 hsorted).2.2 e he entry List.mem_cons_self
    · refine ⟨fillBlock c pre 0, fun tx htx => mem_fillBlock htx, ?_⟩
      rw [hpool]
      refine (fillBlock_cases pre post entry).imp_right fun hlarge => ⟨?_, hlarge⟩
      rw [fillBlock_append]
      exact ⟨_, rfl⟩

/-- In every state that is reached, what a template is filled with from a mempool that is not
    empty is what it should be if and only if some transaction of the highest fee is within the
    cap. In every run in which only transactions within the cap are offered, it is. -/
theorem template_filled (houtput : Function.Injective c.hashOutput) :
    (∀ s now uniqueId pubkey template, createBlockTemplate c now uniqueId pubkey s = .ok template →
      template.transactions.tail = fillBlock c s.mempool 0) ∧
    (∀ s, (chainSystem c).Reachable s → s.mempool ≠ [] → (Filled c s (fillBlock c s.mempool 0) ↔
      ∃ entry, s.Highest entry ∧ c.serializedSize entry.2 ≤ blockByteCap)) ∧
    ∀ s, (chainSystem c).ReachableBy (Fitting c) s → s.mempool ≠ [] →
      Filled c s (fillBlock c s.mempool 0) := by
  refine ⟨fun s now uniqueId pubkey template h => ?_, fun s hs _ => ?_, fun s hs hne => ?_⟩
  · obtain ⟨minerFees, root, -, -, -, htransactions, -⟩ := createBlockTemplate_eq_ok.1 h
    rw [htransactions]
    rfl
  · exact filled_iff (feeOrdered_of_reachable houtput hs)
  · have hordered := feeOrdered_of_reachable houtput hs.reachable
    refine (filled_iff hordered).2 ?_
    -- Everything is within the cap, and the first transaction is one of the highest fee.
    obtain ⟨entry, rest, hpool⟩ := List.exists_cons_of_ne_nil hne
    have hmem : entry ∈ s.mempool := hpool ▸ List.mem_cons_self
    refine ⟨entry, ⟨hmem, fun other ho => ?_⟩, (small_of_reachable hs).mempool entry hmem⟩
    have hsorted := hordered.sorted
    rw [hpool] at hsorted ho
    rcases List.mem_cons.1 ho with rfl | ho
    · exact le_rfl
    · exact (List.pairwise_cons.1 hsorted).1 other ho

/-- Two transactions are waiting, and a template takes both. -/
theorem template_filled_offered : offered.mempool.map Prod.snd = [dear, cheap] ∧
    Filled feeCrypto offered (fillBlock feeCrypto offered.mempool 0) := by
  obtain ⟨-, -, hall⟩ := template_filled (c := feeCrypto) (tableHash_injective _)
  have hpool : offered.mempool.map Prod.snd = [dear, cheap] := by decide +kernel
  refine ⟨hpool, hall offered (reachableBy_run fun op hop s => ?_) fun hnil => ?_⟩
  · simp only [Sample.delivering, List.map_cons, List.map_nil, List.mem_append, List.mem_cons, List.not_mem_nil,
      or_false] at hop
    rcases hop with (rfl | rfl | rfl) | rfl | rfl
    any_goals trivial
    all_goals
      rw [Fitting]
      decide
  · rw [hnil] at hpool
    cases hpool

/-- A transaction with many outputs. -/
def bulky : Transaction where
  inputs := [{ prevTransactionOutputHash := 2, signature := 8 }]
  outputs := List.replicate 11111 { value := 0, uniqueId := 4, pubkey := 11 }

noncomputable def stuffed : Blockchain :=
  run feeCrypto (Sample.delivering [Sample.genesis, paying₈] ++ [.addToMempool (Duration.seconds 3600) bulky])

/-- It is admitted, being well signed, and is larger than any block. A template has nothing. -/
theorem bulky_never_chosen : (chainSystem feeCrypto).Reachable stuffed ∧ stuffed.mempool ≠ [] ∧
    ¬ Filled feeCrypto stuffed (fillBlock feeCrypto stuffed.mempool 0) := by
  have hpool : stuffed.mempool.map (fun e => (e.2.inputs.length, e.2.outputs.length)) = [(1, 11111)] := by
    decide +kernel
  refine ⟨reachable_run _, fun hnil => ?_, fun hfilled => hfilled.some (fillBlock_eq_nil fun entry he => ?_)⟩
  · rw [hnil] at hpool
    cases hpool
  · have hmem : (entry.2.inputs.length, entry.2.outputs.length) ∈ [(1, 11111)] :=
      hpool ▸ List.mem_map_of_mem
        (f := fun e : DateTime × Transaction => (e.2.inputs.length, e.2.outputs.length)) he
    obtain ⟨hinputs, houtputs⟩ := Prod.mk.inj (List.mem_singleton.1 hmem)
    change blockByteCap < 18 + 170 * entry.2.inputs.length + 90 * entry.2.outputs.length
    rw [hinputs, houtputs]
    decide

end Itx.Blockchain
