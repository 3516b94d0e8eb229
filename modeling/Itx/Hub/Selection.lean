import Itx.Lib.Greedy
import Itx.Hub.Building

/-!
# Which outputs a payment spends

A payment takes the unmarked outputs it is given from the front until they are enough
(`build_multi_payment`, `lib/src/payment.rs`), and the hub gives them in an order that makes
this a good choice (`ordered_for_payment`, `hub/src/operator_wallet.rs`).

* `buildMultiPayment_eq`: what is built, by what is picked;
* `coin_selection_optimal`: a payment of the hub spends the smallest output that is enough on its
  own, if there is one, and otherwise as few outputs as possible.
-/

namespace Itx

variable {c : Crypto} {g : Signing} {totalNeeded inputSum : ℕ} {utxos utxos' : UtxoReply}

/-- The outputs that nothing spends yet. -/
def unmarked (utxos : UtxoReply) : List TransactionOutput := (utxos.filter fun p => !p.1).map Prod.snd

/-- The value of outputs together. -/
def totalValue (outputs : List TransactionOutput) : ℕ := (outputs.map TransactionOutput.value).sum

/-- The unmarked outputs a payment takes, when it has `inputSum` already. -/
def picked (totalNeeded inputSum : ℕ) (utxos : UtxoReply) : List TransactionOutput :=
  collect TransactionOutput.value (fun _ => totalNeeded) 0 inputSum (unmarked utxos)

theorem mem_unmarked {o : TransactionOutput} : o ∈ unmarked utxos ↔ (false, o) ∈ utxos := by
  simp [unmarked]

theorem unmarked_cons_free (utxo : TransactionOutput) :
    unmarked ((false, utxo) :: utxos) = utxo :: unmarked utxos := rfl

theorem unmarked_perm (h : utxos.Perm utxos') : (unmarked utxos).Perm (unmarked utxos') :=
  (h.filter _).map _

theorem picked_cons_free (utxo : TransactionOutput) : picked totalNeeded inputSum ((false, utxo) :: utxos) =
    if totalNeeded ≤ inputSum then [] else utxo :: picked totalNeeded (inputSum + utxo.value) utxos := by
  rw [picked, unmarked_cons_free, collect, collect_const_count]
  rfl

theorem picked_of_le (h : totalNeeded ≤ inputSum) : picked totalNeeded inputSum utxos = [] := by
  rw [picked]
  cases unmarked utxos with
  | nil => rfl
  | cons o l => exact if_pos h

theorem totalValue_picked_le : totalValue (picked totalNeeded inputSum utxos) ≤ totalValue (unmarked utxos) :=
  collect_sum_le

/-- What is picked is enough, if the unmarked outputs are. -/
theorem le_totalValue_picked (h : totalNeeded ≤ totalValue (unmarked utxos)) :
    totalNeeded ≤ totalValue (picked totalNeeded 0 utxos) := by
  have henough : totalNeeded ≤ 0 + totalValue (picked totalNeeded 0 utxos) := le_collect_sum (by rwa [zero_add])
  rwa [zero_add] at henough

/-- The selection takes what is picked, unless its sum is too large to be one. -/
theorem selectInputs_eq (hsum : inputSum < u64Bound) : selectInputs c totalNeeded utxos inputSum =
    if inputSum + totalValue (picked totalNeeded inputSum utxos) < u64Bound then
      .ok ((picked totalNeeded inputSum utxos).map c.hashOutput,
        inputSum + totalValue (picked totalNeeded inputSum utxos))
    else .panic := by
  induction utxos generalizing inputSum with
  | nil => exact (if_pos hsum).symm
  | cons p utxos ih =>
    obtain ⟨marked, utxo⟩ := p
    by_cases henough : totalNeeded ≤ inputSum
    · rw [selectInputs, if_pos henough, picked_of_le henough]
      simp [totalValue, hsum]
    cases marked with
    | true =>
      rw [selectInputs, if_neg henough, if_pos rfl, ih hsum]
      rfl
    | false =>
      rw [selectInputs, if_neg henough, if_neg Bool.false_ne_true, picked_cons_free, if_neg henough, totalValue,
        List.map_cons, List.sum_cons, ← add_assoc, ← totalValue]
      by_cases hadd : inputSum + utxo.value < u64Bound
      · rw [checkedAdd_eq_some.2 ⟨rfl, hadd⟩]
        change (selectInputs c totalNeeded utxos (inputSum + utxo.value) >>= _) = _
        rw [ih hadd]
        split_ifs <;> rfl
      -- The addition panics, and the sum of all that is picked would be out of range as well.
      · have hnone : checkedAdd inputSum utxo.value = none := checked_eq_none.2 (not_lt.1 hadd)
        rw [hnone, if_neg fun h => hadd (lt_of_le_of_lt (Nat.le_add_right _ _) h)]
        rfl

section

variable {ids : ℕ → Uuid} {key : PrivateKey} {recipients : List (PublicKey × ℕ)} {fee : ℕ}
  {changePubkey : PublicKey}

variable (c g ids key recipients changePubkey) in
/-- The payment that spends some outputs, and has some change. -/
def builtPayment (spent : List TransactionOutput) (change : ℕ) : Transaction where
  inputs := (spent.map c.hashOutput).map fun hash =>
    .signed c g hash (paymentOutputs ids recipients change changePubkey) key
  outputs := paymentOutputs ids recipients change changePubkey

theorem builtPayment_spends (spent : List TransactionOutput) (change : ℕ) :
    (builtPayment c g ids key recipients changePubkey spent change).spends = spent.map c.hashOutput := by
  refine @spends_of_signed c g _ _ key ?_
  rfl

/-- A payment spends what is picked, if that is enough. -/
theorem buildMultiPayment_eq (hneeded : (recipients.map Prod.snd).sum + fee = totalNeeded)
    (hbound : totalNeeded < u64Bound) : buildMultiPayment c g ids utxos key recipients fee changePubkey =
      if totalValue (picked totalNeeded 0 utxos) < u64Bound then
        if totalNeeded ≤ totalValue (picked totalNeeded 0 utxos) then
          .ok (builtPayment c g ids key recipients changePubkey (picked totalNeeded 0 utxos)
            (totalValue (picked totalNeeded 0 utxos) - totalNeeded))
        else .err (.insufficientFunds (totalValue (picked totalNeeded 0 utxos)) totalNeeded)
      else .panic := by
  have htotal : checkedSum (recipients.map Prod.snd) = some (recipients.map Prod.snd).sum :=
    checkedSum_eq_some.2 ⟨rfl, by omega⟩
  have hadd : checkedAdd (recipients.map Prod.snd).sum fee = some totalNeeded :=
    checkedAdd_eq_some.2 ⟨hneeded, by omega⟩
  rw [buildMultiPayment, htotal]
  change (Outcome.expect (checkedAdd _ fee) >>= _) = _
  rw [hadd]
  change (selectInputs c totalNeeded utxos 0 >>= _) = _
  rw [selectInputs_eq (by decide), zero_add]
  by_cases hsum : totalValue (picked totalNeeded 0 utxos) < u64Bound
  · rw [if_pos hsum, if_pos hsum, Outcome.ok_bind]
    dsimp only
    by_cases henough : totalNeeded ≤ totalValue (picked totalNeeded 0 utxos)
    · rw [if_pos henough, Outcome.ensure_of henough]
      rfl
    · rw [if_neg henough]
      simp only [Outcome.ensure, if_neg henough, Outcome.err_bind]
  · rw [if_neg hsum, if_neg hsum, Outcome.panic_bind]

end

/-! ## The order -/

/-- What the outputs are ordered by. -/
def orderKey (p : Bool × TransactionOutput) : ℕᵒᵈ ×ₗ ℕ := toLex (OrderDual.toDual p.2.value, p.2.uniqueId)

theorem largestFirst_iff {a b : Bool × TransactionOutput} : largestFirst a b ↔ orderKey a ≤ orderKey b := by
  rw [Prod.Lex.le_iff, largestFirst]
  exact or_congr Iff.rfl (and_congr_left' eq_comm)

instance : Std.Total largestFirst where
  total a b := by
    rw [largestFirst_iff, largestFirst_iff]
    exact le_total _ _

instance : IsTrans (Bool × TransactionOutput) largestFirst where
  trans a b d := by
    simp only [largestFirst_iff]
    exact le_trans

theorem pairwise_sorted (utxos : UtxoReply) : (utxos.insertionSort largestFirst).Pairwise largestFirst :=
  List.pairwise_insertionSort largestFirst utxos

/-- If an unmarked output is enough on its own, the smallest such comes first. Otherwise the
    largest come first. -/
theorem orderedForPayment_cases (utxos : UtxoReply) (totalNeeded : ℕ) :
    (∃ o rest, orderedForPayment utxos totalNeeded = (false, o) :: rest ∧ o ∈ unmarked utxos ∧
      totalNeeded ≤ o.value ∧ ∀ o' ∈ unmarked utxos, totalNeeded ≤ o'.value → o.value ≤ o'.value) ∨
    (∀ o ∈ unmarked utxos, o.value < totalNeeded) ∧
      orderedForPayment utxos totalNeeded = utxos.insertionSort largestFirst := by
  -- Each output that is enough on its own is a candidate, at its position in the order.
  have hcandidate : ∀ o ∈ unmarked utxos, totalNeeded ≤ o.value →
      ∃ i, ((false, o), i) ∈ (utxos.insertionSort largestFirst).zipIdx.filter fun p =>
        !p.1.1 && decide (totalNeeded ≤ p.1.2.value) := by
    intro o ho henough
    have hmem := (List.mem_insertionSort largestFirst).2 (mem_unmarked.1 ho)
    obtain ⟨i, hi⟩ := List.mem_iff_getElem?.1 hmem
    exact ⟨i, List.mem_filter.2 ⟨List.mem_zipIdx_iff_getElem?.2 hi, by simpa using henough⟩⟩
  rw [orderedForPayment]
  split
  · next chosen index hbest =>
    obtain ⟨hmem, hok⟩ := List.mem_filter.1 (List.argmin_mem hbest)
    obtain ⟨marked, o⟩ := chosen
    obtain ⟨hmarked, henough⟩ := Bool.and_eq_true_iff.1 hok
    obtain rfl : marked = false := by simpa using hmarked
    have hutxo := List.mem_of_getElem? (List.mem_zipIdx_iff_getElem?.1 hmem)
    refine .inl ⟨o, _, rfl, mem_unmarked.2 ((List.mem_insertionSort _).1 hutxo), of_decide_eq_true henough,
      fun o' ho' henough' => ?_⟩
    obtain ⟨i, hi⟩ := hcandidate o' ho' henough'
    have hle := List.le_of_mem_argmin hi hbest
    rcases Prod.Lex.le_iff.1 hle with hlt | ⟨heq, -⟩
    · exact hlt.le
    · exact heq.le
  · next hnone =>
    have hnil := List.argmin_eq_none.1 hnone
    refine .inr ⟨fun o ho => ?_, rfl⟩
    by_contra henough
    obtain ⟨i, hi⟩ := hcandidate o ho (not_lt.1 henough)
    rw [hnil] at hi
    exact absurd hi List.not_mem_nil

/-- The order is that of the outputs, whatever order they were reported in. -/
theorem orderedForPayment_eq_of_perm (h : utxos.Perm utxos')
    (hnodup : (utxos.map fun p => (p.2.value, p.2.uniqueId)).Nodup) :
    orderedForPayment utxos totalNeeded = orderedForPayment utxos' totalNeeded := by
  have hsorted : utxos.insertionSort largestFirst = utxos'.insertionSort largestFirst := by
    refine List.Perm.eq_of_pairwise (fun a b ha hb hab hba => ?_) (pairwise_sorted utxos)
      (pairwise_sorted utxos') ?_
    · rw [List.mem_insertionSort] at ha hb
      refine List.inj_on_of_nodup_map hnodup ha (h.mem_iff.2 hb) ?_
      have hkey := toLex_inj.1 (le_antisymm (largestFirst_iff.1 hab) (largestFirst_iff.1 hba))
      exact Prod.ext (congrArg (OrderDual.ofDual ∘ Prod.fst) hkey) (congrArg Prod.snd hkey)
    · exact (List.perm_insertionSort _ _).trans (h.trans (List.perm_insertionSort _ _).symm)
  rw [orderedForPayment, orderedForPayment, hsorted]

/-! ## What the hub spends -/

section

variable {ids : ℕ → Uuid} {key : PrivateKey} {recipients : List (PublicKey × ℕ)} {fee : ℕ}
  {changePubkey : PublicKey}

theorem unmarked_sorted (utxos : UtxoReply) : (unmarked (utxos.insertionSort largestFirst)).Pairwise
    fun a b => b.value ≤ a.value := by
  refine List.pairwise_map.2 (((pairwise_sorted utxos).filter _).imp fun {a b} hab => ?_)
  rcases hab with hlt | ⟨heq, -⟩
  · exact hlt.le
  · exact heq.le

theorem totalValue_perm {l l' : List TransactionOutput} (h : l.Perm l') : totalValue l = totalValue l' :=
  (h.map _).sum_eq

/-- Where an output is enough on its own, the smallest such is spent. -/
theorem spends_smallest (hneeded : (recipients.map Prod.snd).sum + fee = totalNeeded) (hpos : 0 < totalNeeded)
    (hbound : totalNeeded < u64Bound) (hvalues : ∀ o ∈ unmarked utxos, o.value < u64Bound)
    (h : ∃ o ∈ unmarked utxos, totalNeeded ≤ o.value) : ∃ tx o,
    buildMultiPayment c g ids (orderedForPayment utxos totalNeeded) key recipients fee changePubkey = .ok tx ∧
      tx.spends = [c.hashOutput o] ∧ o ∈ unmarked utxos ∧ totalNeeded ≤ o.value ∧
      ∀ o' ∈ unmarked utxos, totalNeeded ≤ o'.value → o.value ≤ o'.value := by
  rcases orderedForPayment_cases utxos totalNeeded with ⟨o, rest, hordered, ho, henough, hmin⟩ | ⟨hnone, -⟩
  · have hpicked : picked totalNeeded 0 ((false, o) :: rest) = [o] := by
      rw [picked_cons_free, if_neg hpos.not_ge, picked_of_le (by rwa [zero_add])]
    have htotal : totalValue [o] = o.value := List.sum_singleton
    rw [hordered, buildMultiPayment_eq hneeded hbound, hpicked, htotal, if_pos (hvalues o ho), if_pos henough]
    exact ⟨_, o, rfl, builtPayment_spends _ _, ho, henough, hmin⟩
  · obtain ⟨o, ho, henough⟩ := h
    exact absurd (hnone o ho) (not_lt.2 henough)

/-- Otherwise as few outputs are spent as possible, if their sum can be computed. -/
theorem spends_fewest (hneeded : (recipients.map Prod.snd).sum + fee = totalNeeded)
    (hbound : totalNeeded < u64Bound) (hcovered : totalNeeded ≤ totalValue (unmarked utxos))
    (h : ∀ o ∈ unmarked utxos, o.value < totalNeeded) :
    (buildMultiPayment c g ids (orderedForPayment utxos totalNeeded) key recipients fee changePubkey = .panic ∧
      u64Bound ≤ totalValue (picked totalNeeded 0 (orderedForPayment utxos totalNeeded)) ∧
      u64Bound ≤ totalValue (unmarked utxos)) ∨
    ∃ tx spent,
      buildMultiPayment c g ids (orderedForPayment utxos totalNeeded) key recipients fee changePubkey = .ok tx ∧
      tx.spends = spent.map c.hashOutput ∧ spent.Subperm (unmarked utxos) ∧ totalNeeded ≤ totalValue spent ∧
      ∀ s, s.Subperm (unmarked utxos) → totalNeeded ≤ totalValue s → spent.length ≤ s.length := by
  obtain ⟨-, hordered⟩ : _ ∧ orderedForPayment utxos totalNeeded = utxos.insertionSort largestFirst := by
    refine (orderedForPayment_cases utxos totalNeeded).resolve_left ?_
    rintro ⟨o, rest, -, ho, henough, -⟩
    exact (h o ho).not_ge henough
  have hperm := unmarked_perm (List.perm_insertionSort largestFirst utxos)
  have henough : totalNeeded ≤ totalValue (picked totalNeeded 0 (utxos.insertionSort largestFirst)) :=
    le_totalValue_picked (hcovered.trans_eq (totalValue_perm hperm).symm)
  rw [hordered, buildMultiPayment_eq hneeded hbound, if_pos henough]
  by_cases hsum : totalValue (picked totalNeeded 0 (utxos.insertionSort largestFirst)) < u64Bound
  · rw [if_pos hsum]
    refine .inr ⟨_, _, rfl, builtPayment_spends _ _, ?_, henough, fun s hs hs' => ?_⟩
    · exact collect_isPrefix.sublist.subperm.trans hperm.subperm
    · exact collect_length_le (unmarked_sorted utxos) (hs.trans hperm.symm.subperm) (by rwa [zero_add])
  · rw [if_neg hsum]
    have hlarge := not_lt.1 hsum
    exact .inl ⟨rfl, hlarge, hlarge.trans (totalValue_picked_le.trans_eq (totalValue_perm hperm))⟩

end

/-- The hub chooses well. Of the unmarked outputs, a payment that they cover spends the smallest
    one that is enough on its own, if there is one, and otherwise as few as possible; but it
    panics if what it takes is `2^64` or more together, too much for a sum.
    The order of the outputs is one of the same outputs, and whatever order they are reported in,
    it is the same. -/
theorem coin_selection_optimal (c : Crypto) (g : Signing) :
    (∀ (ids : ℕ → Uuid) (utxos : UtxoReply) (key : PrivateKey) (recipients : List (PublicKey × ℕ))
      (fee : ℕ) (changePubkey : PublicKey) (totalNeeded : ℕ),
      (recipients.map Prod.snd).sum + fee = totalNeeded → 0 < totalNeeded → totalNeeded < u64Bound →
      (∀ o ∈ unmarked utxos, o.value < u64Bound) → totalNeeded ≤ totalValue (unmarked utxos) →
      ((∃ o ∈ unmarked utxos, totalNeeded ≤ o.value) → ∃ tx o,
        buildMultiPayment c g ids (orderedForPayment utxos totalNeeded) key recipients fee changePubkey =
          .ok tx ∧ tx.spends = [c.hashOutput o] ∧ o ∈ unmarked utxos ∧ totalNeeded ≤ o.value ∧
        ∀ o' ∈ unmarked utxos, totalNeeded ≤ o'.value → o.value ≤ o'.value) ∧
      ((∀ o ∈ unmarked utxos, o.value < totalNeeded) →
        (buildMultiPayment c g ids (orderedForPayment utxos totalNeeded) key recipients fee changePubkey =
          .panic ∧ u64Bound ≤ totalValue (picked totalNeeded 0 (orderedForPayment utxos totalNeeded)) ∧
          u64Bound ≤ totalValue (unmarked utxos)) ∨
        ∃ tx spent,
          buildMultiPayment c g ids (orderedForPayment utxos totalNeeded) key recipients fee changePubkey =
            .ok tx ∧ tx.spends = spent.map c.hashOutput ∧ spent.Subperm (unmarked utxos) ∧
          totalNeeded ≤ totalValue spent ∧ ∀ s, s.Subperm (unmarked utxos) →
            totalNeeded ≤ totalValue s → spent.length ≤ s.length)) ∧
    (∀ utxos totalNeeded, (orderedForPayment utxos totalNeeded).Perm utxos) ∧
    ∀ utxos utxos' totalNeeded, utxos.Perm utxos' → (utxos.map fun p => (p.2.value, p.2.uniqueId)).Nodup →
      orderedForPayment utxos totalNeeded = orderedForPayment utxos' totalNeeded := by
  refine ⟨?_, orderedForPayment_perm, fun _ _ _ => orderedForPayment_eq_of_perm⟩
  intro ids utxos key recipients fee changePubkey totalNeeded hneeded hpos hbound hvalues hcovered
  exact ⟨spends_smallest hneeded hpos hbound hvalues, spends_fewest hneeded hbound hcovered⟩

namespace SelectionSample

/-- An output of the key `7`. -/
def coin (value uniqueId : ℕ) : TransactionOutput := { value, uniqueId, pubkey := 7 }

def wallet : UtxoReply := [(false, coin 5 0), (true, coin 9 1), (false, coin 8 2), (false, coin 6 3)]

def signing : Signing where
  publicKey key := key
  signOutput _ key := key

end SelectionSample

open SelectionSample in
/-- A wallet of 5, 8 and 6, and a 9 that is taken: it pays 6 with the 6, and 12 with two outputs. -/
theorem coin_selection_optimal_wallet :
    (∃ tx o, buildMultiPayment pairingCrypto signing id (orderedForPayment wallet 6) 7 [(8, 5)] 1 7 = .ok tx ∧
      tx.spends = [pairingCrypto.hashOutput o] ∧ o ∈ unmarked wallet ∧ o.value ≤ 6) ∧
    ∃ (tx : Transaction) (spent : List TransactionOutput),
      buildMultiPayment pairingCrypto signing id (orderedForPayment wallet 12) 7 [(8, 11)] 1 7 = .ok tx ∧
      tx.spends = spent.map pairingCrypto.hashOutput ∧ spent.length ≤ 2 := by
  have hvalues : ∀ o ∈ unmarked wallet, o.value < u64Bound := by decide
  obtain ⟨hall, -, -⟩ := coin_selection_optimal pairingCrypto signing
  obtain ⟨hsmall, -⟩ := hall id wallet 7 [(8, 5)] 1 7 6 rfl (by decide) (by decide) hvalues (by decide)
  obtain ⟨tx, o, hbuilt, hspends, ho, -, hmin⟩ := hsmall (by decide)
  refine ⟨⟨tx, o, hbuilt, hspends, ho, hmin (coin 6 3) (by decide) (by decide)⟩, ?_⟩
  obtain ⟨-, hfew⟩ := hall id wallet 7 [(8, 11)] 1 7 12 rfl (by decide) (by decide) hvalues (by decide)
  obtain ⟨-, hpanic⟩ | ⟨tx, spent, hbuilt, hspends, -, -, hmin⟩ := hfew (by decide)
  · exact absurd hpanic (by decide)
  · refine ⟨tx, spent, hbuilt, hspends, hmin [coin 5 0, coin 8 2] ?_ (by decide)⟩
    exact ⟨_, List.Perm.refl _, by decide⟩

open SelectionSample in
/-- Two outputs of `2^63` cover a payment of `2^64 - 1`, and no single one does. It is not built. -/
theorem coin_selection_overflows :
    2 ^ 64 - 1 ≤ totalValue (unmarked [(false, coin (2 ^ 63) 0), (false, coin (2 ^ 63) 1)]) ∧
    ([(8, 2 ^ 64 - 2)].map Prod.snd).sum + 1 = 2 ^ 64 - 1 ∧ 2 ^ 64 - 1 < u64Bound ∧
    (∀ o ∈ unmarked [(false, coin (2 ^ 63) 0), (false, coin (2 ^ 63) 1)],
      o.value < u64Bound ∧ o.value < 2 ^ 64 - 1) ∧
    buildMultiPayment pairingCrypto signing id
      (orderedForPayment [(false, coin (2 ^ 63) 0), (false, coin (2 ^ 63) 1)] (2 ^ 64 - 1)) 7
      [(8, 2 ^ 64 - 2)] 1 7 = .panic := by
  decide +kernel

end Itx
