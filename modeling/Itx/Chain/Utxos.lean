import Itx.Chain.Blockchain

/-!
# Unspent outputs

How the unspent outputs read back after marking and after applying
transactions, and what does not depend on the marks: two sets with the same
outputs under the same hashes (`SameOutputs`) stay so when the same
transactions are applied to them, and validate the same blocks.

* `lookup_setMarks`: marking changes no output;
* `lookup_applyTransactions`: what a block does not create it removes or leaves
  alone, mark included; what it creates is unmarked, or spent again;
* `replayUtxos_concat`: replaying one more block applies it.
-/

namespace Itx

open Blockchain

variable {c : Crypto}

namespace Utxos

/-! ## Marks -/

/-- The same outputs under the same hashes, whatever the marks. -/
def SameOutputs (u v : Utxos) : Prop :=
  ∀ h, (u.lookup h).map Prod.snd = (v.lookup h).map Prod.snd

/-- The outputs are those they are. -/
theorem SameOutputs.refl (u : Utxos) : SameOutputs u u := fun _ => rfl

/-- It does not matter which of the two is looked at first. -/
theorem SameOutputs.symm {u v : Utxos} (h : SameOutputs u v) : SameOutputs v u :=
  fun x => (h x).symm

/-- What agrees with one that agrees agrees. -/
theorem SameOutputs.trans {u v w : Utxos} (h : SameOutputs u v) (h' : SameOutputs v w) :
    SameOutputs u w := fun x => (h x).trans (h' x)

/-- The same outputs are unspent. -/
theorem SameOutputs.mem_iff {u v : Utxos} (h : SameOutputs u v) {x : Hash} : x ∈ u ↔ x ∈ v := by
  have := congrArg Option.isSome (h x)
  rw [Option.isSome_map, Option.isSome_map] at this
  rw [← Finmap.lookup_isSome, this, Finmap.lookup_isSome]

/-- An unspent output is found in the other set too, marked or not. -/
theorem SameOutputs.lookup {u v : Utxos} (h : SameOutputs u v) {x : Hash}
    {p : Bool × TransactionOutput} (hp : u.lookup x = some p) :
    ∃ m, v.lookup x = some (m, p.2) := by
  have := h x
  rw [hp, Option.map_some] at this
  obtain ⟨⟨m, o⟩, hq, rfl⟩ := Option.map_eq_some_iff.1 this.symm
  exact ⟨m, hq⟩

/-- And one that is spent is in neither. -/
theorem SameOutputs.lookup_none {u v : Utxos} (h : SameOutputs u v) {x : Hash}
    (hx : u.lookup x = none) : v.lookup x = none := by
  rw [Finmap.lookup_eq_none] at hx ⊢
  exact fun hv => hx (h.mem_iff.2 hv)

/-- The listed outputs are marked, or unmarked, if they are there at all. -/
theorem lookup_setMarks (u : Utxos) (marked : Bool) (hs : List Hash) (x : Hash) :
    (u.setMarks marked hs).lookup x =
      if x ∈ hs then (u.lookup x).map fun p => (marked, p.2) else u.lookup x := by
  induction hs generalizing u with
  | nil => rfl
  | cons h hs ih =>
    rw [setMarks, List.foldl_cons, ← setMarks, ih, Finmap.lookup_modify]
    -- The head may be listed again after it; either way it is marked once.
    by_cases hx : x = h <;> by_cases hxs : x ∈ hs <;> simp [hx, hxs, Function.comp_def]

/-- Marking changes the marks only. -/
theorem sameOutputs_setMarks (u : Utxos) (marked : Bool) (hs : List Hash) :
    SameOutputs (u.setMarks marked hs) u := by
  intro x
  rw [lookup_setMarks]
  split_ifs
  · rw [Option.map_map]; rfl
  · rfl

/-- Nothing is added by it, or taken away. -/
theorem mem_setMarks {u : Utxos} {marked : Bool} {hs : List Hash} {x : Hash} :
    x ∈ u.setMarks marked hs ↔ x ∈ u :=
  (sameOutputs_setMarks u marked hs).mem_iff

end Utxos

open Utxos

/-! ## Applying transactions -/

/-- An output that is not inserted stays as it is. -/
theorem lookup_insertOutputs_of_notMem {u : Utxos} {outputs : List TransactionOutput} {x : Hash}
    (hx : x ∉ outputs.map c.hashOutput) :
    (outputs.foldl (fun u o => u.insert (c.hashOutput o) (false, o)) u).lookup x = u.lookup x := by
  induction outputs generalizing u with
  | nil => rfl
  | cons o outputs ih =>
    rw [List.map_cons, List.mem_cons, not_or] at hx
    rw [List.foldl_cons, ih hx.2, Finmap.lookup_insert_of_ne _ hx.1]

/-- One that is inserted is unmarked. It is the last of those with its hash. -/
theorem lookup_insertOutputs_of_mem {u : Utxos} {outputs : List TransactionOutput} {x : Hash}
    (hx : x ∈ outputs.map c.hashOutput) : ∃ o ∈ outputs, c.hashOutput o = x ∧
    (outputs.foldl (fun u o => u.insert (c.hashOutput o) (false, o)) u).lookup x =
      some (false, o) := by
  induction outputs generalizing u with
  | nil => exact absurd hx List.not_mem_nil
  | cons o outputs ih =>
    rw [List.foldl_cons]
    by_cases hx' : x ∈ outputs.map c.hashOutput
    · -- A later output with this hash overrides the first.
      obtain ⟨o', ho', he, hl⟩ := ih hx'
      exact ⟨o', List.mem_cons_of_mem _ ho', he, hl⟩
    · -- Nothing after the first output overrides it.
      have he : c.hashOutput o = x := by
        rw [List.map_cons, List.mem_cons] at hx
        exact (hx.resolve_right hx').symm
      refine ⟨o, List.mem_cons_self, he, ?_⟩
      rw [lookup_insertOutputs_of_notMem hx', he, Finmap.lookup_insert]

/-- The hashes of the outputs a transaction creates. -/
def Transaction.creates (c : Crypto) (tx : Transaction) : List Hash := tx.outputs.map c.hashOutput

/-- The hashes of the outputs a block creates. -/
def Block.creates (c : Crypto) (block : Block) : List Hash := block.outputs.map c.hashOutput

/-- A block creates what one of its transactions creates. -/
theorem Block.mem_creates {block : Block} {x : Hash} :
    x ∈ block.creates c ↔ ∃ tx ∈ block.transactions, x ∈ tx.creates c := by
  simp only [creates, outputs, Transaction.creates, List.map_flatMap, List.mem_flatMap]

/-- And it spends what one of them spends. -/
theorem Block.mem_spends {block : Block} {x : Hash} :
    x ∈ block.spends ↔ ∃ tx ∈ block.transactions, x ∈ tx.spends := List.mem_flatMap

/-- What a transaction does not create is there after it unless it is spent. -/
theorem lookup_applyTransaction_of_notMem {u : Utxos} {tx : Transaction} {x : Hash}
    (hx : x ∉ tx.creates c) :
    (applyTransaction c u tx).lookup x = if x ∈ tx.spends then none else u.lookup x := by
  rw [applyTransaction, lookup_insertOutputs_of_notMem hx, Finmap.lookup_eraseAll]

/-- What it creates is there, unmarked. -/
theorem lookup_applyTransaction_of_mem {u : Utxos} {tx : Transaction} {x : Hash}
    (hx : x ∈ tx.creates c) : ∃ o ∈ tx.outputs, c.hashOutput o = x ∧
      (applyTransaction c u tx).lookup x = some (false, o) :=
  lookup_insertOutputs_of_mem hx

/-- What a list of transactions does not create, it removes or leaves alone. -/
theorem lookup_applyAll_of_notMem {u : Utxos} {txs : List Transaction} {x : Hash}
    (hx : ∀ tx ∈ txs, x ∉ tx.creates c) :
    (txs.foldl (applyTransaction c) u).lookup x =
      if ∃ tx ∈ txs, x ∈ tx.spends then none else u.lookup x := by
  induction txs generalizing u with
  | nil => simp
  | cons tx txs ih =>
    rw [List.foldl_cons, ih fun t ht => hx t (List.mem_cons_of_mem _ ht),
      lookup_applyTransaction_of_notMem (hx tx List.mem_cons_self)]
    -- What the first transaction spends is gone, whether a later one spends it or not.
    by_cases h₁ : x ∈ tx.spends <;> by_cases h₂ : ∃ t ∈ txs, x ∈ t.spends <;> simp [h₁, h₂]

/-- What a list of transactions creates is unmarked, or spent by a later one. -/
theorem lookup_applyAll_of_mem {u : Utxos} {txs : List Transaction} {x : Hash}
    (hx : ∃ tx ∈ txs, x ∈ tx.creates c) :
    (txs.foldl (applyTransaction c) u).lookup x = none ∨
      ∃ o, (∃ tx ∈ txs, o ∈ tx.outputs) ∧ c.hashOutput o = x ∧
        (txs.foldl (applyTransaction c) u).lookup x = some (false, o) := by
  induction txs generalizing u with
  | nil => obtain ⟨_, h, _⟩ := hx; exact absurd h List.not_mem_nil
  | cons tx txs ih =>
    rw [List.foldl_cons]
    by_cases hlater : ∃ t ∈ txs, x ∈ t.creates c
    · -- A later transaction creates it again, and what it was before does not count.
      rcases ih hlater with h | ⟨o, ⟨t, ht, ho⟩, he, hl⟩
      · exact .inl h
      · exact .inr ⟨o, ⟨t, List.mem_cons_of_mem _ ht, ho⟩, he, hl⟩
    · push Not at hlater
      -- The first transaction creates it, and those after can only spend it.
      have hx : x ∈ tx.creates c := by
        obtain ⟨t, ht, hxt⟩ := hx
        rcases List.mem_cons.1 ht with rfl | ht
        exacts [hxt, absurd hxt (hlater t ht)]
      obtain ⟨o, ho, he, hl⟩ := lookup_applyTransaction_of_mem (u := u) hx
      rw [lookup_applyAll_of_notMem hlater, hl]
      by_cases hs : ∃ t ∈ txs, x ∈ t.spends
      · exact .inl (if_pos hs)
      · exact .inr ⟨o, ⟨tx, List.mem_cons_self, ho⟩, he, if_neg hs⟩

/-- What no transaction of a block creates is there after it unless one of them spends it. -/
theorem lookup_applyTransactions_of_notMem {u : Utxos} {block : Block} {x : Hash}
    (hx : x ∉ block.creates c) :
    (applyTransactions c u block).lookup x = if x ∈ block.spends then none else u.lookup x := by
  rw [Block.mem_creates] at hx
  push Not at hx
  rw [applyTransactions, lookup_applyAll_of_notMem hx]
  simp only [Block.mem_spends]

/-- What one of them creates is there after it, unless a later one spends it. -/
theorem lookup_applyTransactions_of_mem {u : Utxos} {block : Block} {x : Hash}
    (hx : x ∈ block.creates c) :
    (applyTransactions c u block).lookup x = none ∨ ∃ o ∈ block.outputs, c.hashOutput o = x ∧
      (applyTransactions c u block).lookup x = some (false, o) := by
  rw [Block.mem_creates] at hx
  rcases lookup_applyAll_of_mem (u := u) hx with h | ⟨o, ho, he, hl⟩
  exacts [.inl h, .inr ⟨o, List.mem_flatMap.2 ho, he, hl⟩]

/-- A transaction leads from the same outputs to the same outputs. -/
theorem Utxos.SameOutputs.applyTransaction {u v : Utxos} (h : SameOutputs u v) (tx : Transaction) :
    SameOutputs (applyTransaction c u tx) (applyTransaction c v tx) := by
  intro x
  by_cases hx : x ∈ tx.creates c
  · -- An output of the transaction, the last of those with this hash: the same
    -- on both sides, by induction on the outputs.
    unfold Blockchain.applyTransaction
    have : SameOutputs (u.eraseAll tx.spends)
        (v.eraseAll tx.spends) := by
      intro y
      rw [Finmap.lookup_eraseAll, Finmap.lookup_eraseAll]
      split_ifs
      exacts [rfl, h y]
    generalize u.eraseAll tx.spends = u' at this
    generalize v.eraseAll tx.spends = v' at this
    clear hx
    induction tx.outputs generalizing u' v' with
    | nil => exact this x
    | cons o outputs ih =>
      refine ih _ _ fun y => ?_
      rw [Finmap.lookup_insert_eq, Finmap.lookup_insert_eq]
      split_ifs
      exacts [rfl, this y]
  · -- Any other output is spent on both sides or on neither.
    rw [lookup_applyTransaction_of_notMem hx, lookup_applyTransaction_of_notMem hx]
    split_ifs
    exacts [rfl, h x]

/-- So does a block. -/
theorem Utxos.SameOutputs.applyTransactions {u v : Utxos} (h : SameOutputs u v) (block : Block) :
    SameOutputs (applyTransactions c u block) (applyTransactions c v block) := by
  unfold Blockchain.applyTransactions
  induction block.transactions generalizing u v with
  | nil => exact h
  | cons tx txs ih => exact ih (h.applyTransaction tx)

/-! ## Replaying a chain -/

variable {blocks blocks' : Finmap fun _ : Hash => Block} {chain : List Hash} {h : Hash}

/-- The last block of a chain is applied after the others. -/
theorem replayUtxos_concat :
    replayUtxos c blocks (chain ++ [h]) = (replayUtxos c blocks chain).bind fun u =>
      (blocks.lookup h).map (applyTransactions c u) := by
  rw [replayUtxos, List.foldlM_append, ← replayUtxos]
  simp only [List.foldlM_cons, List.foldlM_nil, Option.bind_eq_bind, Option.pure_def,
    Option.bind_fun_some]

/-- A replay reads only the blocks of the chain. -/
theorem replayUtxos_congr (h : ∀ x ∈ chain, blocks.lookup x = blocks'.lookup x) :
    replayUtxos c blocks chain = replayUtxos c blocks' chain := by
  induction chain using List.reverseRecOn with
  | nil => rfl
  | append_singleton chain x ih =>
    -- The last block is looked up in both, and is the same.
    rw [replayUtxos_concat, replayUtxos_concat,
      ih fun y hy => h y (List.mem_append_left _ hy),
      h x (List.mem_append_right _ (List.mem_singleton_self _))]

/-- A chain of known blocks can be replayed. -/
theorem exists_replayUtxos (h : ∀ x ∈ chain, x ∈ blocks) :
    ∃ u, replayUtxos c blocks chain = some u := by
  induction chain using List.reverseRecOn with
  | nil => exact ⟨∅, rfl⟩
  | append_singleton chain x ih =>
    obtain ⟨u, hu⟩ := ih fun y hy => h y (List.mem_append_left _ hy)
    obtain ⟨b, hb⟩ := Finmap.mem_iff.1 (h x (List.mem_append_right _ (List.mem_singleton_self _)))
    exact ⟨_, by rw [replayUtxos_concat, hu, hb]; rfl⟩

end Itx
