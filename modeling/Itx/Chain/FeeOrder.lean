import Itx.Chain.Marks
import Itx.Chain.Template

/-!
# The order of the mempool

The transactions of the mempool are kept by the fees they pay, the highest first. They are
sorted when one is admitted, by the fees computed then; afterwards blocks and
reorganisations replace the unspent outputs the fees are computed from. What a hash stands
for never changes, so neither does the fee of a transaction whose inputs exist
(`transactionFee_congr`), and evictions leave the others in order (`FeeOrdered.thin`).

* `mempool_total_ordered`: in every state that is reached, offering a transaction returns;
  the transactions of the mempool spend existing outputs, each once, and stand in the order
  of their fees.
-/

namespace Itx.Blockchain

open Utxos Call

variable {c : Crypto} {u v : Utxos} {s s' : Blockchain} {tx : Transaction}

/-! ## Fees -/

/-- Two sets of outputs agree on what a transaction spends. -/
def AgreeOn (u v : Utxos) (tx : Transaction) : Prop :=
  ∀ x ∈ tx.spends, (u.lookup x).map Prod.snd = (v.lookup x).map Prod.snd

theorem inputValue_congr {inputs : List TransactionInput} {acc : ℕ}
    (h : ∀ input ∈ inputs, (u.lookup input.prevTransactionOutputHash).map Prod.snd =
      (v.lookup input.prevTransactionOutputHash).map Prod.snd) :
    inputValue u inputs acc = inputValue v inputs acc := by
  induction inputs generalizing acc with
  | nil => rfl
  | cons input inputs ih =>
    have hrest : ∀ acc, inputValue u inputs acc = inputValue v inputs acc := fun _ =>
      ih fun i hi => h i (List.mem_cons_of_mem _ hi)
    have hhead := h input List.mem_cons_self
    rw [inputValue, inputValue]
    cases hu : u.lookup input.prevTransactionOutputHash with
    | none =>
      rw [hu, Option.map_none, eq_comm, Option.map_eq_none_iff] at hhead
      rw [hhead]
      rfl
    | some p =>
      rw [hu, Option.map_some, eq_comm, Option.map_eq_some_iff] at hhead
      obtain ⟨q, hq, he⟩ := hhead
      simp only [hq, Outcome.expect, Outcome.ok_bind, he, hrest]

/-- The fee of a transaction depends on the outputs it spends only. -/
theorem transactionFee_congr (h : AgreeOn u v tx) : transactionFee u tx = transactionFee v tx := by
  rw [transactionFee, transactionFee,
    inputValue_congr fun input hi => h _ (List.mem_map_of_mem hi)]

theorem agreeOn_of_sameOutputs (h : SameOutputs u v) : AgreeOn u v tx := fun x _ => h x

/-- What a hash stands for is the same in any two sets of outputs. -/
theorem agreeOn_of_keyed (houtput : Function.Injective c.hashOutput) (hu : u.Keyed c) (hv : v.Keyed c)
    (hmem : ∀ x ∈ tx.spends, x ∈ u) (hmem' : ∀ x ∈ tx.spends, x ∈ v) : AgreeOn u v tx := by
  intro x hx
  obtain ⟨p, hp⟩ := Finmap.mem_iff.1 (hmem x hx)
  obtain ⟨q, hq⟩ := Finmap.mem_iff.1 (hmem' x hx)
  have he : p.2 = q.2 := houtput ((hu x p hp).trans (hv x q hq).symm)
  rw [hp, hq, Option.map_some, Option.map_some, he]

/-! ## The order -/

/-- The transactions of the mempool are admitted, and stand in the order of their fees. -/
structure FeeOrdered (c : Crypto) (s : Blockchain) : Prop extends Admitted s where
  outputs : s.utxos.Keyed c
  priced : ∀ entry ∈ s.mempool, ∃ fee, transactionFee s.utxos entry.2 = .ok fee
  sorted : s.mempool.Pairwise fun a b => sortingFee s.utxos b.2 ≤ sortingFee s.utxos a.2

namespace FeeOrdered

/-- Some transactions leave, and the fees of the others do not change. -/
theorem thin (h : FeeOrdered c s) (hadmitted : Admitted s') (houtputs : s'.utxos.Keyed c)
    (hmempool : s'.mempool.Sublist s.mempool)
    (hagree : ∀ entry ∈ s'.mempool, AgreeOn s'.utxos s.utxos entry.2) : FeeOrdered c s' where
  toAdmitted := hadmitted
  outputs := houtputs
  priced entry he := by
    rw [transactionFee_congr (hagree entry he)]
    exact h.priced entry (hmempool.subset he)
  sorted := by
    refine (h.sorted.sublist hmempool).imp_of_mem fun {a b} ha hb hle => ?_
    rw [sortingFee, sortingFee, transactionFee_congr (hagree a ha), transactionFee_congr (hagree b hb)]
    exact hle

/-- Some transactions leave, and the outputs are the same. -/
theorem thin_of_sameOutputs (h : FeeOrdered c s) (hmempool : s'.mempool.Sublist s.mempool)
    (hu : SameOutputs s'.utxos s.utxos) : FeeOrdered c s' :=
  h.thin (h.toAdmitted.of_subset (fun _ he => hmempool.subset he) hu) (h.outputs.congr hu.symm) hmempool
    fun _ _ => agreeOn_of_sameOutputs hu

/-- The outputs change, and what spends others leaves. -/
theorem thin_of_keyed (houtput : Function.Injective c.hashOutput) (h : FeeOrdered c s)
    (hadmitted : Admitted s') (houtputs : s'.utxos.Keyed c)
    (hmempool : s'.mempool.Sublist s.mempool) : FeeOrdered c s' :=
  h.thin hadmitted houtputs hmempool fun entry he => agreeOn_of_keyed houtput houtputs h.outputs
    (hadmitted.present entry he) (h.present entry (hmempool.subset he))

theorem cleanupMempool (h : FeeOrdered c s) (now : DateTime) : FeeOrdered c (s.cleanupMempool now) :=
  h.thin_of_sameOutputs List.filter_sublist ((SameChain.refl s).cleanupMempool now).outputs

theorem pushBlock (houtput : Function.Injective c.hashOutput) (h : FeeOrdered c s) (now : DateTime)
    (block : Block) : FeeOrdered c (s.pushBlock c now block) := by
  refine h.thin_of_keyed houtput (h.toAdmitted.pushBlock now block) ?_ ?_
  · exact (h.outputs.applyTransactions block).congr (sameOutputs_setMarks _ _ _).symm
  · exact List.filter_sublist.trans List.filter_sublist

theorem switchTo (houtput : Function.Injective c.hashOutput) (h : FeeOrdered c s)
    {blocks : Finmap fun _ : Hash => Block} {newChain : List Hash}
    (hutxos : replayUtxos c blocks newChain = some u)
    (now : DateTime) (target : U256) (confirmed : List Hash) :
    FeeOrdered c (s.switchTo c now newChain target u confirmed) := by
  have hsame : SameChain { s with activeChain := newChain, target, utxos := u }
      (s.switchTo c now newChain target u confirmed) :=
    ((SameChain.refl _).evictStaleMempoolEntries now confirmed).markPending
  refine h.thin_of_keyed houtput (h.toAdmitted.switchTo now newChain target u confirmed) ?_ ?_
  · exact (keyed_replayUtxos hutxos).congr hsame.outputs.symm
  · exact List.filter_sublist.trans List.filter_sublist

end FeeOrdered

/-! ## Admission -/

/-- Fewer transactions, and the same outputs. -/
def Thinned (s s' : Blockchain) : Prop :=
  s'.mempool.Sublist s.mempool ∧ SameOutputs s'.utxos s.utxos

theorem thinned_conflictingIndices (s : Blockchain) (newFee : ℕ) (inputs : List TransactionInput)
    (indices : List ℕ) : Preserves (Thinned s) (conflictingIndices newFee inputs indices) := by
  induction inputs generalizing indices with
  | nil => exact .pure _
  | cons input inputs ih =>
    refine .bind .get fun t => ?_
    split
    · split
      · exact .bind (.lift _) fun _ => .bind (.lift _) fun _ => .bind (.lift _) fun _ => ih _
      · exact .bind (.modify fun _ ht => ⟨ht.1, (sameOutputs_setMarks _ _ _).trans ht.2⟩) fun _ => ih _
    · exact ih _

theorem thinned_removeFromMempool (s : Blockchain) (idx : ℕ) :
    Preserves (Thinned s) (removeFromMempool idx) :=
  .bind .get fun _ => .bind (.lift _) fun _ => .modify fun t ht =>
    ⟨(List.eraseIdx_sublist t.mempool idx).trans ht.1, (sameOutputs_setMarks _ _ _).trans ht.2⟩

/-- Sorting puts the mempool in the order of the fees. -/
theorem triple_sortMempool_sorted :
    Triple (fun _ => True) sortMempool
      (fun _ t => t.mempool.Pairwise fun a b => sortingFee t.utxos b.2 ≤ sortingFee t.utxos a.2)
      (fun _ _ => False) fun _ => True := by
  refine .get_bind fun s _ => .lift_known (fun _ _ => .modify ?_) (fun e he => ?_) fun _ => trivial
  · rintro t -
    have : Std.Total fun a b : DateTime × Transaction =>
        sortingFee t.utxos b.2 ≤ sortingFee t.utxos a.2 := ⟨fun _ _ => le_total _ _⟩
    have : IsTrans (DateTime × Transaction) fun a b =>
        sortingFee t.utxos b.2 ≤ sortingFee t.utxos a.2 := ⟨fun _ _ _ hab hbc => hbc.trans hab⟩
    exact List.pairwise_insertionSort _ _
  · split_ifs at he

/-- A transaction that is taken has a fee and the mempool is sorted; one that is not leaves
    some of the mempool, in the same order. -/
theorem triple_offer_sorted (s : Blockchain) (now : DateTime) (tx : Transaction) :
    Triple (· = s) (addToMempool c now tx)
      (fun _ t => (∃ fee, transactionFee s.utxos tx = .ok fee) ∧
        t.mempool.Pairwise fun a b => sortingFee t.utxos b.2 ≤ sortingFee t.utxos a.2)
      (fun _ t => Thinned s t) fun _ => True := by
  have hclean : Thinned s (s.cleanupMempool now) :=
    ⟨List.filter_sublist, ((SameChain.refl s).cleanupMempool now).outputs⟩
  refine .bind (R := fun _ t => t = s.cleanupMempool now) (.modify ?_) fun _ => .get_bind fun r e => ?_
  · rintro _ rfl
    rfl
  subst e
  refine .lift_known (fun _ _ => ?_) (fun _ _ => hclean) fun _ => trivial
  refine .lift_known (fun newFee hfee => ?_) (fun _ _ => hclean) fun _ => trivial
  rw [transactionFee_congr (agreeOn_of_sameOutputs hclean.2)] at hfee
  refine .bind (R := fun _ => Thinned s) ((thinned_conflictingIndices s newFee _ _).conseq
    (fun t e => e ▸ hclean) (fun _ _ => id) (fun _ _ => id) fun _ _ => trivial) fun indices => ?_
  refine .bind (R := fun _ => Thinned s) ((Preserves.forEach fun idx _ =>
    thinned_removeFromMempool s idx).conseq (fun _ => id) (fun _ _ => id) (fun _ _ => id)
      fun _ _ => trivial) fun _ => .get_bind fun t ht => ?_
  refine .lift_known (fun _ _ => ?_) (fun _ _ => ht) fun _ => trivial
  refine .lift_known (fun _ _ => ?_) (fun _ _ => ht) fun _ => trivial
  refine .lift_known (fun _ _ => .modify_bind ?_) (fun _ _ => ht) fun _ => trivial
  exact triple_sortMempool_sorted.conseq (fun _ _ => trivial) (fun _ _ h => ⟨⟨newFee, hfee⟩, h⟩)
    (fun _ _ => False.elim) fun _ => id

/-- Offering a transaction keeps the order, whether or not it is taken. -/
theorem feeOrdered_addToMempool (now : DateTime) (tx : Transaction) :
    Triple (FeeOrdered c) (addToMempool c now tx) (fun _ => FeeOrdered c) (fun _ => FeeOrdered c)
      fun _ => False := by
  refine .of_state fun s hs => ?_
  refine (((triple_addToMempool now tx).and (triple_offer hs.toAdmitted now tx)).and
    (triple_offer_sorted s now tx)).conseq (fun t (e : t = s) => ⟨⟨e ▸ hs.toAdmitted, e⟩, e⟩)
    (fun _ t ht => ?_) (fun _ t ht => hs.thin_of_sameOutputs ht.2.1 ht.2.2) fun _ ht => ht.1.1
  obtain ⟨⟨hadmitted, hu, -, hmem⟩, hfee, hsorted⟩ := ht
  refine ⟨hadmitted, hs.outputs.congr hu.symm, fun entry he => ?_, hsorted⟩
  rw [transactionFee_congr (agreeOn_of_sameOutputs hu)]
  rcases hmem entry he with he | rfl
  · exact hs.priced entry he
  · exact hfee

/-! ## Runs -/

theorem moves_feeOrdered (houtput : Function.Injective c.hashOutput) (amb : Ambient)
    (P : Blockchain → Block → Prop) : Moves c amb P (FeeOrdered c) fun _ => False where
  push s block hs _ _ := hs.pushBlock houtput amb.now block
  adjust s _ _ _ hs _ _ _ _ _ := hs.thin_of_sameOutputs (.refl _) (.refl _)
  prune s _ hs _ := hs.thin_of_sameOutputs (.refl _) (.refl _)
  store s _ _ _ hs _ _ := hs.thin_of_sameOutputs (.refl _) (.refl _)
  switch s block _ _ target utxos confirmed hs _ _ _ hutxos _ :=
    FeeOrdered.switchTo (s := s.storeBlock c block) houtput
      (hs.thin_of_sameOutputs (.refl _) (.refl _)) hutxos _ _ _
  pool tx _ := feeOrdered_addToMempool amb.now tx
  keep s block hs _ _ := by
    rw [keepOrphan]
    split
    · exact hs
    · exact hs.thin_of_sameOutputs (.refl _) (.refl _)
  take s _ hs := hs.thin_of_sameOutputs (.refl _) (.refl _)

theorem feeOrdered_new : FeeOrdered c new where
  toAdmitted := admitted_new
  outputs x p hp := by simp [new] at hp
  priced entry he := by simp [new] at he
  sorted := List.Pairwise.nil

theorem feeOrdered_of_reachable (houtput : Function.Injective c.hashOutput)
    (hs : (chainSystem c).Reachable s) : FeeOrdered c s := by
  have hinv : Keyed c s ∧ FeeOrdered c s := by
    refine invariant_of_moves (I := fun s => Keyed c s ∧ FeeOrdered c s) (P := fun _ _ _ => True)
      ⟨keyed_new, feeOrdered_new⟩ (fun amb => ?_) (fun _ hs => hs.1) (fun now tx => ?_)
      (fun now s hs => ?_) (fun offset s hs => ?_)
      (hs.mono fun s op _ => taking_of_forall (fun _ _ _ => trivial) s op)
    · exact ((moves_keyed amb _).and (moves_feeOrdered houtput amb _)).congr (fun _ => Iff.rfl)
        fun _ hs => hs.2.elim
    · exact (ofChain_keyed.addToMempool now tx).and ((feeOrdered_addToMempool now tx).conseq
        (fun _ => id) (fun _ _ => id) (fun _ _ => id) fun _ => False.elim)
    · exact ⟨ofChain_keyed.1 _ _ ((SameChain.refl s).cleanupMempool now) hs.1,
        hs.2.cleanupMempool now⟩
    · exact ⟨ofChain_keyed.2 s offset hs.1, hs.2.thin_of_sameOutputs (.refl _) (.refl _)⟩
  exact hinv.2

/-- In every state that is reached, offering a transaction to the mempool returns, and the
    transactions of the mempool spend existing outputs, each once, and stand in the order of
    their fees. -/
theorem mempool_total_ordered (houtput : Function.Injective c.hashOutput)
    (hs : (chainSystem c).Reachable s) :
    (∀ now tx, (addToMempool c now tx s).2 ≠ .panic) ∧
    (∀ entry ∈ s.mempool, entry.2.spends.Nodup ∧ ∀ x ∈ entry.2.spends, x ∈ s.utxos) ∧
    ∃ fees : List ℕ, s.mempool.map (fun entry => transactionFee s.utxos entry.2) = fees.map Outcome.ok ∧
      fees.Pairwise (· ≥ ·) := by
  have h := feeOrdered_of_reachable houtput hs
  refine ⟨fun now tx hpanic => ?_, fun entry he => ⟨h.nodup entry he, h.present entry he⟩,
    s.mempool.map fun entry => sortingFee s.utxos entry.2, ?_, List.pairwise_map.2 h.sorted⟩
  · have hend := feeOrdered_addToMempool now tx s h
    generalize addToMempool c now tx s = r at hend hpanic
    obtain ⟨t, o⟩ := r
    obtain rfl : o = .panic := hpanic
    exact hend
  · rw [List.map_map]
    refine List.map_congr_left fun entry he => ?_
    obtain ⟨fee, hfee⟩ := h.priced entry he
    rw [Function.comp_apply, sortingFee, hfee]

/-! Two transactions are offered, the second of which pays more. -/

def cheap : Transaction := Sample.payment [⟨2, 8⟩] 4 (50 * 10 ^ 8 - 100) 11
def dear : Transaction := Sample.payment [⟨3, 9⟩] 5 (50 * 10 ^ 8 - 300) 12

noncomputable def feeCrypto : Crypto :=
  Sample.crypto (paying₈.transactions ++ paying₉.transactions ++ [cheap, dear]) [paying₈, paying₉]

noncomputable def offered : Blockchain :=
  run feeCrypto (Sample.delivering [Sample.genesis, paying₈, paying₉] ++
    [.addToMempool (Duration.seconds 3600) cheap, .addToMempool (Duration.seconds 3600) dear])

theorem mempool_total_ordered_offered : offered.mempool.map Prod.snd = [dear, cheap] ∧
    ∃ fees : List ℕ, offered.mempool.map (fun entry => transactionFee offered.utxos entry.2) =
      fees.map Outcome.ok ∧ fees.Pairwise (· ≥ ·) :=
  ⟨by decide +kernel, (mempool_total_ordered (tableHash_injective _) (reachable_run _)).2.2⟩

end Itx.Blockchain
