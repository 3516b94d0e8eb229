import Itx.Hub.Selection
import Itx.Chain.Offer

/-!
# What becomes of a payment

A payment is built from outputs of one key, and offered to a node. Its outputs are recorded by
their position (`submit_task_payout`, `hub/src/handlers.rs`), so what is built matters as much as
that it is built.

* `offered_unmarked`: the chain takes a transaction that spends unmarked outputs, each once,
  signed for, and no more than they are worth;
* `payment_exact`: what is built, when it is not, and that a chain with those outputs takes it.
-/

namespace Itx

variable {c : Crypto} {g : Signing}

/-! ## On the chain -/

namespace Blockchain

open Utxos

variable {u : Utxos} {s : Blockchain} {tx : Transaction}

/-- Inputs that exist, are distinct and are signed for pass. -/
theorem checkInputs_of {outputs : List TransactionOutput} {inputs : List TransactionInput} {known : List Hash}
    (hnodup : (inputs.map TransactionInput.prevTransactionOutputHash).Nodup)
    (h : ∀ input ∈ inputs, input.prevTransactionOutputHash ∉ known ∧
      ∃ p, u.lookup input.prevTransactionOutputHash = some p ∧ input.verifies c outputs p.2.pubkey = true) :
    checkInputs c u outputs inputs known = .ok () := by
  induction inputs generalizing known with
  | nil => rfl
  | cons input inputs ih =>
    obtain ⟨hnew, hnodup⟩ := List.nodup_cons.1 hnodup
    obtain ⟨hknown, p, hp, hsigned⟩ := h input List.mem_cons_self
    rw [checkInputs, hp, Outcome.okOr_eq_ok.2 rfl, Outcome.ok_bind, Outcome.ensure_of hknown, Outcome.ok_bind,
      Outcome.ensure_of hsigned, Outcome.ok_bind]
    refine ih hnodup fun i hi => ⟨fun hmem => ?_, (h i (List.mem_cons_of_mem _ hi)).2⟩
    rcases List.mem_cons.1 hmem with he | hmem
    · exact hnew (he ▸ List.mem_map_of_mem hi)
    · exact (h i (List.mem_cons_of_mem _ hi)).1 hmem

/-- A transaction that pays at most what it spends has a fee. -/
theorem transactionFee_of_le (hpresent : ∀ x ∈ tx.spends, x ∈ u) (hle : tx.outputSum ≤ tx.inputSum u)
    (hlt : tx.inputSum u < u64Bound) : transactionFee u tx = .ok (tx.inputSum u - tx.outputSum) := by
  have hin : inputValue u tx.inputs 0 = .ok (tx.inputSum u) := by
    rw [Transaction.inputSum_eq] at hlt ⊢
    rw [inputValue_of_lt (fun i hi => hpresent _ (List.mem_map_of_mem hi)) (by rwa [zero_add]), zero_add]
  have hout : tx.outputValue = .ok tx.outputSum := Transaction.outputValue_eq_ok.2 ⟨rfl, hle.trans_lt hlt⟩
  rw [transactionFee, hin, Outcome.ok_bind, hout, Outcome.ok_bind, Outcome.ensure_of hle]
  rfl

/-- What is unmarked stays so as others expire. -/
theorem lookup_cleanupMempool {x : Hash} {o : TransactionOutput} (h : s.utxos.lookup x = some (false, o))
    (now : DateTime) : (s.cleanupMempool now).utxos.lookup x = some (false, o) := by
  rw [cleanupMempool, lookup_setMarks, h]
  exact ite_self _

/-- The chain takes a transaction that spends unmarked outputs, each once, signed for, and pays at
    most what they are worth. -/
theorem offered_unmarked (hs : Admitted s) (now : DateTime) (hnodup : tx.spends.Nodup)
    (hfree : ∀ input ∈ tx.inputs, ∃ o, s.utxos.lookup input.prevTransactionOutputHash = some (false, o) ∧
      input.verifies c tx.outputs o.pubkey = true)
    (hle : tx.outputSum ≤ tx.inputSum s.utxos) (hlt : tx.inputSum s.utxos < u64Bound) :
    (addToMempool c now tx s).2 = .ok () ∧ (now, tx) ∈ (addToMempool c now tx s).1.mempool := by
  have hoffer := triple_offer_exact (c := c) hs now tx s rfl
  have hsame : SameOutputs (s.cleanupMempool now).utxos s.utxos :=
    ((SameChain.refl s).cleanupMempool now).outputs
  have hcleaned : ∀ input ∈ tx.inputs, ∃ o,
      (s.cleanupMempool now).utxos.lookup input.prevTransactionOutputHash = some (false, o) ∧
        input.verifies c tx.outputs o.pubkey = true := fun input hinput => by
    obtain ⟨o, ho, hsigned⟩ := hfree input hinput
    exact ⟨o, lookup_cleanupMempool ho now, hsigned⟩
  have hpasses : ∃ newFee, Passes c (s.cleanupMempool now) tx newFee := by
    refine ⟨_, checkInputs_of hnodup fun input hinput => ⟨List.not_mem_nil, ?_⟩, transactionFee_of_le ?_ ?_ ?_⟩
    · obtain ⟨o, ho, hsigned⟩ := hcleaned input hinput
      exact ⟨_, ho, hsigned⟩
    · intro x hx
      obtain ⟨input, hinput, rfl⟩ := List.mem_map.1 hx
      obtain ⟨o, ho, -⟩ := hcleaned input hinput
      exact Finmap.mem_iff.2 ⟨_, ho⟩
    · rwa [hsame.inputSum]
    · rwa [hsame.inputSum]
  -- What it spends is unmarked, so there is nothing it has to outbid.
  have hyields : ∀ newFee, ∀ x ∈ tx.spends, ¬ Resists (s.cleanupMempool now) newFee x := by
    rintro newFee x hx ⟨_, _, ⟨⟨o', ho'⟩, -⟩, -⟩
    obtain ⟨input, hinput, rfl⟩ := List.mem_map.1 hx
    obtain ⟨o, ho, -⟩ := hcleaned input hinput
    cases ho.symm.trans ho'
  generalize addToMempool c now tx s = res at hoffer
  obtain ⟨t, _ | e | _⟩ := res
  · obtain ⟨_, _, -, -, -, hperm⟩ := hoffer
    exact ⟨rfl, hperm.mem_iff.2 (List.mem_append_right _ List.mem_cons_self)⟩
  · rcases hoffer with ⟨-, hfails⟩ | ⟨newFee, -, pre, h, post, hspends, -, hresists, -⟩
    · obtain ⟨newFee, hp⟩ := hpasses
      exact absurd hp (hfails newFee)
    · exact absurd hresists (hyields newFee h (by simp [hspends]))
  · exact hoffer.elim

end Blockchain

/-! ## What is built -/

section

variable {ids : ℕ → Uuid} {utxos : UtxoReply} {key : PrivateKey} {recipients : List (PublicKey × ℕ)}
  {fee change totalNeeded : ℕ} {changePubkey : PublicKey} {spent : List TransactionOutput}

/-- The outputs pay the recipients, each at its position, and after them there is at most a positive
    change. -/
def PaysInOrder (recipients : List (PublicKey × ℕ)) (changePubkey : PublicKey)
    (outputs : List TransactionOutput) : Prop :=
  ∃ change : List (PublicKey × ℕ), outputs.map (fun o => (o.pubkey, o.value)) = recipients ++ change ∧
    change.length ≤ 1 ∧ ∀ p ∈ change, p.1 = changePubkey ∧ 0 < p.2

theorem payments_paid (ids : ℕ → Uuid) (recipients : List (PublicKey × ℕ)) : (recipients.zipIdx.map fun p =>
    ({ value := p.1.2, uniqueId := ids p.2, pubkey := p.1.1 } : TransactionOutput)).map
      (fun o => (o.pubkey, o.value)) = recipients := by
  rw [List.map_map]
  exact List.zipIdx_map_fst 0 recipients

theorem paymentOutputs_paysInOrder :
    PaysInOrder recipients changePubkey (paymentOutputs ids recipients change changePubkey) := by
  rw [paymentOutputs]
  split_ifs with hpos
  · refine ⟨[(changePubkey, change)], ?_, le_rfl, ?_⟩
    · rw [List.map_append, payments_paid]
      rfl
    · rintro p hp
      obtain rfl := List.mem_singleton.1 hp
      exact ⟨rfl, hpos⟩
  · exact ⟨[], (payments_paid ids recipients).trans (List.append_nil _).symm, Nat.zero_le _, by simp⟩

theorem paymentOutputs_sum : ((paymentOutputs ids recipients change changePubkey).map
    TransactionOutput.value).sum = (recipients.map Prod.snd).sum + change := by
  have hpaid := congrArg (List.map Prod.snd) (payments_paid ids recipients)
  rw [List.map_map] at hpaid
  rw [paymentOutputs]
  split_ifs with hpos
  · rw [List.map_append, List.sum_append]
    exact congrArg₂ _ (congrArg List.sum hpaid) List.sum_singleton
  · obtain rfl : change = 0 := Nat.eq_zero_of_not_pos hpos
    exact congrArg List.sum hpaid

/-- It spends each output once, if no two have the same hash. -/
theorem nodup_picked (hnodup : (utxos.map fun p => c.hashOutput p.2).Nodup) :
    ((picked totalNeeded 0 utxos).map c.hashOutput).Nodup := by
  have hsub : ((unmarked utxos).map c.hashOutput).Sublist (utxos.map fun p => c.hashOutput p.2) := by
    rw [unmarked, List.map_map]
    exact List.filter_sublist.map _
  exact hnodup.sublist ((collect_isPrefix.sublist.map _).trans hsub)

/-- The inputs of a payment are signed by its key. -/
theorem builtPayment_signed (hg : g.Sound c) {input : TransactionInput}
    (hinput : input ∈ (builtPayment c g ids key recipients changePubkey spent change).inputs) :
    input.verifies c (builtPayment c g ids key recipients changePubkey spent change).outputs
      (g.publicKey key) = true := by
  obtain ⟨x, -, rfl⟩ := List.mem_map.1 hinput
  exact hg _ _

/-- What a payment spends is worth what its outputs are, on a chain that has them. -/
theorem builtPayment_inputSum {u : Utxos} {tx : Transaction} (hspends : tx.spends = spent.map c.hashOutput)
    (hfree : ∀ o ∈ spent, u.lookup (c.hashOutput o) = some (false, o)) : tx.inputSum u = totalValue spent := by
  rw [Transaction.inputSum, hspends, List.map_map, totalValue]
  exact congrArg List.sum (List.map_congr_left fun o ho => Utxos.valueAt_of_lookup (hfree o ho))

/-- A payment is refused where the unmarked outputs are not enough, and nowhere else. -/
theorem buildMultiPayment_eq_err_iff (hneeded : (recipients.map Prod.snd).sum + fee = totalNeeded)
    (hbound : totalNeeded < u64Bound) (hsum : totalValue (unmarked utxos) < u64Bound) :
    (∃ e, buildMultiPayment c g ids utxos key recipients fee changePubkey = .err e) ↔
      totalValue (unmarked utxos) < totalNeeded := by
  rw [buildMultiPayment_eq hneeded hbound, if_pos (totalValue_picked_le.trans_lt hsum)]
  constructor
  · rintro ⟨e, he⟩
    by_contra hcovered
    rw [if_pos (le_totalValue_picked (not_lt.1 hcovered))] at he
    cases he
  · intro hshort
    exact ⟨_, if_neg (totalValue_picked_le.trans_lt hshort).not_ge⟩

/-- Otherwise it spends just what it pays. -/
theorem buildMultiPayment_covered (hneeded : (recipients.map Prod.snd).sum + fee = totalNeeded)
    (hbound : totalNeeded < u64Bound) (hsum : totalValue (unmarked utxos) < u64Bound)
    (hcovered : totalNeeded ≤ totalValue (unmarked utxos)) : ∃ spent change,
      buildMultiPayment c g ids utxos key recipients fee changePubkey =
        .ok (builtPayment c g ids key recipients changePubkey spent change) ∧
      spent = picked totalNeeded 0 utxos ∧ totalValue spent = totalNeeded + change := by
  have henough := le_totalValue_picked hcovered
  refine ⟨_, _, ?_, rfl, (Nat.add_sub_of_le henough).symm⟩
  rw [buildMultiPayment_eq hneeded hbound, if_pos (totalValue_picked_le.trans_lt hsum), if_pos henough]

end

/-- A payment from outputs of its key, no two of them with the same hash, is refused if the unmarked
    ones are worth less than what it pays with the fee. Otherwise it pays each recipient at its
    position and at most a positive change after them, spends unmarked outputs, each once, of just
    the value of its outputs and the fee, and is signed for; and every chain on which what it spends
    is unmarked takes it. -/
theorem payment_exact (hg : g.Sound c) (ids : ℕ → Uuid) (utxos : UtxoReply) (key : PrivateKey)
    (recipients : List (PublicKey × ℕ)) (fee : ℕ) (changePubkey : PublicKey)
    (hnodup : (utxos.map fun p => c.hashOutput p.2).Nodup)
    (howned : ∀ p ∈ utxos, p.2.pubkey = g.publicKey key)
    (hsum : totalValue (unmarked utxos) < u64Bound)
    (hbound : (recipients.map Prod.snd).sum + fee < u64Bound) :
    ((∃ e, buildMultiPayment c g ids utxos key recipients fee changePubkey = .err e) ↔
      totalValue (unmarked utxos) < (recipients.map Prod.snd).sum + fee) ∧
    ((recipients.map Prod.snd).sum + fee ≤ totalValue (unmarked utxos) → ∃ tx spent,
      buildMultiPayment c g ids utxos key recipients fee changePubkey = .ok tx ∧
      PaysInOrder recipients changePubkey tx.outputs ∧
      tx.spends = spent.map c.hashOutput ∧ tx.spends.Nodup ∧ spent.Sublist (unmarked utxos) ∧
      totalValue spent = tx.outputSum + fee ∧
      (∀ input ∈ tx.inputs, ∃ o ∈ spent, input.prevTransactionOutputHash = c.hashOutput o ∧
        input.verifies c tx.outputs o.pubkey = true) ∧
      ∀ s, (Blockchain.chainSystem c).Reachable s →
        (∀ o ∈ spent, s.utxos.lookup (c.hashOutput o) = some (false, o)) → ∀ now,
        (Blockchain.addToMempool c now tx s).2 = .ok () ∧
        (now, tx) ∈ (Blockchain.addToMempool c now tx s).1.mempool) := by
  refine ⟨buildMultiPayment_eq_err_iff rfl hbound hsum, fun hcovered => ?_⟩
  obtain ⟨spent, change, hbuilt, hpicked, htotal⟩ : ∃ spent change,
      buildMultiPayment c g ids utxos key recipients fee changePubkey =
        .ok (builtPayment c g ids key recipients changePubkey spent change) ∧
      spent = picked _ 0 utxos ∧ totalValue spent = (recipients.map Prod.snd).sum + fee + change :=
    buildMultiPayment_covered rfl hbound hsum hcovered
  have hspends : (builtPayment c g ids key recipients changePubkey spent change).spends =
      spent.map c.hashOutput :=
    builtPayment_spends spent change
  have hinputs : ∀ input ∈ (builtPayment c g ids key recipients changePubkey spent change).inputs,
      input.verifies c (builtPayment c g ids key recipients changePubkey spent change).outputs
        (g.publicKey key) = true := fun input => builtPayment_signed hg
  have houtputs : (builtPayment c g ids key recipients changePubkey spent change).outputSum =
      (recipients.map Prod.snd).sum + change := paymentOutputs_sum
  have hpays : PaysInOrder recipients changePubkey
      (builtPayment c g ids key recipients changePubkey spent change).outputs := paymentOutputs_paysInOrder
  -- From here on the payment is known by these facts only.
  generalize builtPayment c g ids key recipients changePubkey spent change = tx
    at hbuilt hspends hinputs houtputs hpays
  have hsub : spent.Sublist (unmarked utxos) := hpicked ▸ collect_isPrefix.sublist
  have hdistinct : tx.spends.Nodup := by
    rw [hspends, hpicked]
    exact nodup_picked hnodup
  have hsigned : ∀ input ∈ tx.inputs, ∃ o ∈ spent, input.prevTransactionOutputHash = c.hashOutput o ∧
      input.verifies c tx.outputs o.pubkey = true := by
    intro input hinput
    have hmem : input.prevTransactionOutputHash ∈ tx.spends := List.mem_map_of_mem hinput
    rw [hspends] at hmem
    obtain ⟨o, ho, he⟩ := List.mem_map.1 hmem
    refine ⟨o, ho, he.symm, ?_⟩
    rw [howned _ (mem_unmarked.1 (hsub.subset ho))]
    exact hinputs input hinput
  refine ⟨tx, spent, hbuilt, hpays, hspends, hdistinct, hsub, by omega, hsigned, fun s hs hfree now => ?_⟩
  have hworth : tx.inputSum s.utxos = totalValue spent := builtPayment_inputSum hspends hfree
  refine Blockchain.offered_unmarked (Blockchain.admitted_of_reachable hs) now hdistinct ?_ ?_ ?_
  · intro input hinput
    obtain ⟨o, ho, he, hv⟩ := hsigned input hinput
    exact ⟨o, he ▸ hfree o ho, hv⟩
  · rw [hworth, houtputs]
    omega
  · rw [hworth]
    exact ((hsub.map _).sum_le_sum fun _ _ => Nat.zero_le _).trans_lt hsum

open Relayed Blockchain in
/-- A payment from the output of the genesis is taken after the genesis. -/
theorem payment_exact_relayed : ∃ tx,
    buildMultiPayment crypto signing (fun i => 21 + i) [(false, coin)] 7 [(8, 10 * 10 ^ 8)] 1000 7 = .ok tx ∧
    PaysInOrder [(8, 10 * 10 ^ 8)] 7 tx.outputs ∧
    (addToMempool crypto 0 tx (run crypto (Sample.delivering [Sample.genesis]))).2 = .ok () := by
  have htotal : totalValue (unmarked [(false, coin)]) = 50 * 10 ^ 8 := by decide
  obtain ⟨-, hcovered⟩ :=
    payment_exact sound_signing (fun i => 21 + i) [(false, coin)] 7 [(8, 10 * 10 ^ 8)] 1000
    7 (List.nodup_singleton _) (by decide) (by rw [htotal]; decide) (by decide)
  obtain ⟨tx, spent, hbuilt, hpays, -, -, hsub, -, -, htaken⟩ := hcovered (by rw [htotal]; decide)
  refine ⟨tx, hbuilt, hpays, (htaken _ (reachable_run _) (fun o ho => ?_) 0).1⟩
  obtain rfl : o = coin := List.mem_singleton.1 (hsub.subset ho)
  decide +kernel

end Itx
