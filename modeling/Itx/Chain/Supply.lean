import Itx.Chain.Mempool

/-!
# No inflation

The unspent outputs are never worth more than the rewards of the blocks of the
active chain (`supply_le_rewards`): a valid block adds at most its reward to what
is unspent before it (`Block.Valid.supply_applyTransactions`), since what its
transactions do not pay of what they spend is paid by its coinbase. Two outputs
with the same hash make it less, the one replacing the other.

All the rewards together are less than `2 ^ 47`, so the sums over existing
outputs made in validation stay in range (`InRange`): over distinct outputs,
since these are worth at most the supply; over the inputs of the transactions of
a block, before they are known to be distinct, since a block has room for few.
-/

namespace Itx

open Blockchain Utxos

variable {c : Crypto} {u v : Utxos}

/-! ## Rewards -/

/-- The reward after some halvings. -/
def rewardAfter (halvings : ℕ) : ℕ := (initialReward * 10 ^ 8) >>> halvings

theorem blockRewardAtHeight_le (height : ℕ) :
    blockRewardAtHeight height ≤ rewardAfter (height / halvingInterval) := by
  rw [blockRewardAtHeight]
  split_ifs
  exacts [Nat.zero_le _, le_rfl]

theorem two_mul_rewardAfter_succ (k : ℕ) : 2 * rewardAfter (k + 1) ≤ rewardAfter k := by
  rw [rewardAfter, rewardAfter, Nat.shiftRight_succ]
  exact Nat.mul_div_le _ 2

theorem sum_rewardAfter (k : ℕ) :
    ∑ i ∈ Finset.range k, rewardAfter i + 2 * rewardAfter k ≤ 2 * (initialReward * 10 ^ 8) := by
  induction k with
  | zero => simp [rewardAfter]
  | succ k ih =>
    rw [Finset.sum_range_succ]
    have := two_mul_rewardAfter_succ k
    omega

/-- The rewards below a height, by whole halving intervals. -/
theorem sum_rewards_le (n : ℕ) :
    ∑ h ∈ Finset.range n, blockRewardAtHeight h ≤
      halvingInterval * ∑ i ∈ Finset.range (n / halvingInterval), rewardAfter i +
        n % halvingInterval * rewardAfter (n / halvingInterval) := by
  induction n with
  | zero => simp
  | succ n ih =>
    have hr := blockRewardAtHeight_le n
    rw [Finset.sum_range_succ]
    have hpos : 0 < halvingInterval := by decide
    by_cases hmod : n % halvingInterval + 1 = halvingInterval
    · have hd : (n + 1) / halvingInterval = n / halvingInterval + 1 := by
        rw [Nat.succ_div_of_dvd]
        rw [Nat.dvd_iff_mod_eq_zero, Nat.add_mod, Nat.mod_eq_of_lt (show 1 < halvingInterval by decide),
          hmod, Nat.mod_self]
      have hm : (n + 1) % halvingInterval = 0 := by
        rw [Nat.add_mod, Nat.mod_eq_of_lt (show 1 < halvingInterval by decide), hmod, Nat.mod_self]
      rw [hd, hm, Finset.sum_range_succ, Nat.mul_add, zero_mul, add_zero]
      calc _ ≤ halvingInterval * ∑ i ∈ Finset.range (n / halvingInterval), rewardAfter i +
            (n % halvingInterval * rewardAfter (n / halvingInterval) +
              rewardAfter (n / halvingInterval)) := by omega
        _ = _ := by rw [← Nat.succ_mul, Nat.succ_eq_add_one, hmod]
    · have hlt : n % halvingInterval + 1 < halvingInterval :=
        lt_of_le_of_ne (Nat.mod_lt n hpos) hmod
      have hm : (n + 1) % halvingInterval = n % halvingInterval + 1 := by
        rw [Nat.add_mod, Nat.mod_eq_of_lt (show 1 < halvingInterval by decide), Nat.mod_eq_of_lt hlt]
      have hd : (n + 1) / halvingInterval = n / halvingInterval := by
        rw [Nat.succ_div_of_not_dvd]
        rw [Nat.dvd_iff_mod_eq_zero, hm]
        omega
      rw [hd, hm, Nat.succ_mul]
      omega

/-- The value that all the rewards together do not exceed. -/
def maxSupply : ℕ := halvingInterval * (2 * (initialReward * 10 ^ 8))

/-- All the rewards together. -/
theorem sum_rewards_le_maxSupply (n : ℕ) :
    ∑ h ∈ Finset.range n, blockRewardAtHeight h ≤ maxSupply := by
  have hmod : n % halvingInterval ≤ halvingInterval := (Nat.mod_lt n (by decide)).le
  calc ∑ h ∈ Finset.range n, blockRewardAtHeight h
      ≤ _ := sum_rewards_le n
    _ ≤ halvingInterval * ∑ i ∈ Finset.range (n / halvingInterval), rewardAfter i +
          halvingInterval * rewardAfter (n / halvingInterval) :=
        Nat.add_le_add_left (Nat.mul_le_mul_right _ hmod) _
    _ ≤ maxSupply := by
        rw [← Nat.mul_add]
        have := sum_rewardAfter (n / halvingInterval)
        exact Nat.mul_le_mul_left _ (by omega)

/-! ## A valid block adds its reward -/

theorem Utxos.supply_insert_le (u : Utxos) (h : Hash) (p : Bool × TransactionOutput) :
    supply (u.insert h p) ≤ supply u + p.2.value := by
  have := Finmap.total_insert (f := fun (_ : Hash) (p : Bool × TransactionOutput) => p.2.value)
    (m := u) (a := h) (b := p)
  rw [Utxos.supply, Utxos.supply]
  omega

theorem Utxos.supply_eraseAll (u : Utxos) {l : List Hash} (hl : l.Nodup) :
    supply (u.eraseAll l) + (l.map u.valueAt).sum = supply u :=
  Finmap.total_eraseAll hl

/-- An output that is created and possibly spent later adds at most its value: it
    may be spent, or replace another one. -/
theorem supply_eraseAll_insert (o : TransactionOutput) (l : List Hash) (u : Utxos) :
    supply ((u.insert (c.hashOutput o) (false, o)).eraseAll l) ≤ supply (u.eraseAll l) + o.value := by
  by_cases hl : c.hashOutput o ∈ l
  · have : (u.insert (c.hashOutput o) (false, o)).eraseAll l = u.eraseAll l := by
      refine Finmap.ext_lookup fun x => ?_
      rw [Finmap.lookup_eraseAll, Finmap.lookup_eraseAll, Finmap.lookup_insert_eq]
      split_ifs with hx he
      exacts [rfl, absurd (he ▸ hl) hx, rfl]
    rw [this]
    exact Nat.le_add_right _ _
  · have : (u.insert (c.hashOutput o) (false, o)).eraseAll l =
        (u.eraseAll l).insert (c.hashOutput o) (false, o) := by
      refine Finmap.ext_lookup fun x => ?_
      rw [Finmap.lookup_eraseAll, Finmap.lookup_insert_eq, Finmap.lookup_insert_eq,
        Finmap.lookup_eraseAll]
      split_ifs with hx he
      exacts [absurd (he ▸ hx) hl, rfl, rfl, rfl]
    rw [this]
    exact supply_insert_le _ _ _

theorem supply_eraseAll_insertOutputs (outputs : List TransactionOutput) (l : List Hash) (u : Utxos) :
    supply ((outputs.foldl (fun u o => u.insert (c.hashOutput o) (false, o)) u).eraseAll l) ≤
      supply (u.eraseAll l) + (outputs.map TransactionOutput.value).sum := by
  induction outputs generalizing u with
  | nil => simp
  | cons o outputs ih =>
    have hrest := ih (u.insert (c.hashOutput o) (false, o))
    have hone := supply_eraseAll_insert (c := c) o l u
    rw [List.foldl_cons, List.map_cons, List.sum_cons]
    omega

/-- Applying transactions to a set, against erasing from it all they spend. -/
theorem supply_applyAll (txs : List Transaction) (u : Utxos) :
    supply (txs.foldl (applyTransaction c) u) ≤
      supply (u.eraseAll (txs.flatMap Transaction.spends)) +
        (txs.map Transaction.outputSum).sum := by
  induction txs generalizing u with
  | nil => simp [Finmap.eraseAll]
  | cons tx txs ih =>
    have hrest := ih (applyTransaction c u tx)
    have hfirst : supply ((applyTransaction c u tx).eraseAll (txs.flatMap Transaction.spends)) ≤
        supply ((u.eraseAll tx.spends).eraseAll (txs.flatMap Transaction.spends)) + tx.outputSum :=
      supply_eraseAll_insertOutputs tx.outputs _ _
    rw [List.foldl_cons, List.flatMap_cons, Finmap.eraseAll_append, List.map_cons, List.sum_cons]
    omega

/-- A valid block adds at most its reward. -/
theorem Block.Valid.supply_applyTransactions {block : Block} {height : ℕ}
    (h : block.Valid c height u) :
    supply (applyTransactions c u block) ≤ supply u + blockRewardAtHeight height := by
  obtain ⟨coinbase, txs, htxs, hinputs, hsum⟩ := h.coinbase
  have hcovered : ∀ tx ∈ txs, tx.outputSum ≤ tx.inputSum u := fun tx htx =>
    (h.covered tx (by rw [htxs]; exact htx)).outputSum_le
  have happly : supply (applyTransactions c u block) ≤
      supply (u.eraseAll block.spends) + (block.transactions.map Transaction.outputSum).sum :=
    supply_applyAll block.transactions u
  have herase := u.supply_eraseAll h.spends_nodup
  -- What is spent is worth the inputs of the transactions.
  have hspent : (block.spends.map u.valueAt).sum = (txs.map fun tx => tx.inputSum u).sum := by
    rw [Block.spends, htxs, List.flatMap_cons, Transaction.spends, hinputs, List.map_nil,
      List.nil_append, List.flatMap, List.map_flatten, List.sum_flatten, List.map_map, List.map_map]
    rfl
  -- What is paid is the reward and what is spent.
  have hpaid : (block.transactions.map Transaction.outputSum).sum =
      blockRewardAtHeight height + (txs.map fun tx => tx.inputSum u).sum := by
    rw [htxs, List.map_cons, List.sum_cons, hsum, add_assoc, ← List.sum_map_add,
      List.map_congr_left fun tx htx => Nat.sub_add_cancel (hcovered tx htx)]
  omega

/-! ## Along a chain -/

theorem Utxos.SameOutputs.supply (h : SameOutputs u v) : u.supply = v.supply := by
  have hkeys : u.keys = v.keys := by
    ext x
    rw [Finmap.mem_keys, Finmap.mem_keys, h.mem_iff]
  rw [Utxos.supply, Utxos.supply, Finmap.total_eq_sum, Finmap.total_eq_sum, hkeys]
  exact Finset.sum_congr rfl fun x _ => h.valueAt x

namespace Blockchain

variable {s : Blockchain}

/-- On every chain of known blocks, what is unspent is worth at most the rewards. -/
theorem ValidTree.supply_replay (h : ValidTree c s) {chain : List Hash} (hc : Linked s.blocks chain)
    {utxos : Utxos} (hu : replayUtxos c s.blocks chain = some utxos) :
    utxos.supply ≤ ∑ h ∈ Finset.range chain.length, blockRewardAtHeight h := by
  induction hc generalizing utxos with
  | nil =>
    obtain rfl := Option.some.inj hu
    exact Nat.zero_le _
  | @concat chain x b hc hb hp ih =>
    rw [replayUtxos_concat] at hu
    obtain ⟨before, hbefore, hu⟩ := Option.bind_eq_some_iff.1 hu
    rw [hb] at hu
    obtain rfl := Option.some.inj hu
    have hv := h.valid chain x b (hc.concat hb hp) hb before hbefore
    rw [List.length_append, List.length_singleton, Finset.sum_range_succ]
    exact hv.supply_applyTransactions.trans (Nat.add_le_add_right (ih hbefore) _)

theorem ValidTree.supply_le (h : ValidTree c s) :
    s.utxos.supply ≤ ∑ h ∈ Finset.range s.activeChain.length, blockRewardAtHeight h := by
  obtain ⟨utxos, hu, hsame⟩ := h.replay
  rw [hsame.supply]
  exact h.supply_replay h.active hu

end Blockchain

/-! ## Sums in range -/

theorem calculateInputValue_of_lt {inputs : List TransactionInput} {acc : ℕ}
    (h : ∀ input ∈ inputs, input.prevTransactionOutputHash ∈ u)
    (hlt : acc + (inputs.map fun input => u.valueAt input.prevTransactionOutputHash).sum < u64Bound) :
    calculateInputValue u inputs acc =
      .ok (acc + (inputs.map fun input => u.valueAt input.prevTransactionOutputHash).sum) := by
  induction inputs generalizing acc with
  | nil => simp [calculateInputValue]
  | cons input inputs ih =>
    obtain ⟨p, hp⟩ := Finmap.mem_iff.1 (h input List.mem_cons_self)
    rw [List.map_cons, List.sum_cons, ← add_assoc, valueAt_of_lookup hp] at hlt ⊢
    have hadd : checkedAdd acc p.2.value = some (acc + p.2.value) :=
      checkedAdd_eq_some.2 ⟨rfl, by omega⟩
    rw [calculateInputValue, hp, Outcome.okOr_eq_ok.2 rfl, Outcome.ok_bind, hadd,
      Outcome.okOr_eq_ok.2 rfl, Outcome.ok_bind]
    exact ih (fun i hi => h i (List.mem_cons_of_mem _ hi)) hlt

theorem inputValue_of_lt {inputs : List TransactionInput} {acc : ℕ}
    (h : ∀ input ∈ inputs, input.prevTransactionOutputHash ∈ u)
    (hlt : acc + (inputs.map fun input => u.valueAt input.prevTransactionOutputHash).sum < u64Bound) :
    inputValue u inputs acc =
      .ok (acc + (inputs.map fun input => u.valueAt input.prevTransactionOutputHash).sum) := by
  induction inputs generalizing acc with
  | nil => simp [inputValue]
  | cons input inputs ih =>
    obtain ⟨p, hp⟩ := Finmap.mem_iff.1 (h input List.mem_cons_self)
    rw [List.map_cons, List.sum_cons, ← add_assoc, valueAt_of_lookup hp] at hlt ⊢
    have hadd : checkedAdd acc p.2.value = some (acc + p.2.value) :=
      checkedAdd_eq_some.2 ⟨rfl, by omega⟩
    rw [inputValue, hp, Outcome.expect_eq_ok.2 rfl, Outcome.ok_bind, hadd,
      Outcome.okOr_eq_ok.2 rfl, Outcome.ok_bind]
    exact ih (fun i hi => h i (List.mem_cons_of_mem _ hi)) hlt

theorem Block.verifyInputs_of_lt {outputs : List TransactionOutput} {inputs : List TransactionInput}
    {spent : List Hash} {acc : ℕ}
    (h : ∀ input ∈ inputs, ∃ p, u.lookup input.prevTransactionOutputHash = some p ∧
      input.verifies c outputs p.2.pubkey = true)
    (hnodup : (inputs.map TransactionInput.prevTransactionOutputHash).Nodup)
    (hspent : ∀ input ∈ inputs, input.prevTransactionOutputHash ∉ spent)
    (hlt : acc + (inputs.map fun input => u.valueAt input.prevTransactionOutputHash).sum < u64Bound) :
    Block.verifyInputs c u outputs inputs spent acc =
      .ok ((inputs.map TransactionInput.prevTransactionOutputHash).reverse ++ spent,
        acc + (inputs.map fun input => u.valueAt input.prevTransactionOutputHash).sum) := by
  induction inputs generalizing acc spent with
  | nil => simp [Block.verifyInputs]
  | cons input inputs ih =>
    obtain ⟨p, hp, hsig⟩ := h input List.mem_cons_self
    obtain ⟨hnew, hnodup⟩ := List.nodup_cons.1 hnodup
    simp only [List.map_cons, List.sum_cons, ← add_assoc, valueAt_of_lookup hp] at hlt ⊢
    have hadd : checkedAdd acc p.2.value = some (acc + p.2.value) :=
      checkedAdd_eq_some.2 ⟨rfl, by omega⟩
    rw [Block.verifyInputs, hp, Outcome.okOr_eq_ok.2 rfl, Outcome.ok_bind,
      Outcome.ensure_of (hspent input List.mem_cons_self), Outcome.ok_bind,
      Outcome.ensure_of hsig, Outcome.ok_bind, hadd, Outcome.okOr_eq_ok.2 rfl, Outcome.ok_bind,
      ih (fun i hi => h i (List.mem_cons_of_mem _ hi)) hnodup ?_ hlt]
    · simp
    · intro i hi hm
      rcases List.mem_cons.1 hm with he | hm
      · exact hnew (he ▸ List.mem_map_of_mem hi)
      · exact hspent i (List.mem_cons_of_mem _ hi) hm

/-- Distinct outputs are worth at most the supply. -/
theorem Utxos.sum_valueAt_le {l : List Hash} (hl : l.Nodup) : (l.map u.valueAt).sum ≤ u.supply :=
  Finmap.sum_weight_le_total hl

/-- Outputs that need not be distinct are worth at most the supply each. -/
theorem Utxos.sum_valueAt_le_mul (u : Utxos) (l : List Hash) :
    (l.map u.valueAt).sum ≤ l.length * u.supply := by
  have := List.sum_le_card_nsmul (l.map u.valueAt) u.supply fun x hx => by
    obtain ⟨h, -, rfl⟩ := List.mem_map.1 hx
    exact Finmap.weight_le_total
  simpa using this

theorem Transaction.inputSum_eq (u : Utxos) (tx : Transaction) :
    tx.inputSum u = (tx.inputs.map fun input => u.valueAt input.prevTransactionOutputHash).sum := by
  rw [inputSum, spends, List.map_map]
  rfl

/-- The fees of transactions that pay at most what they spend, all together in
    range. -/
theorem calculateMinerFeesFrom_of_lt {txs : List Transaction} (acc : ℕ)
    (h : ∀ tx ∈ txs, (∀ x ∈ tx.spends, x ∈ u) ∧ tx.outputSum ≤ tx.inputSum u)
    (hlt : acc + (txs.map fun tx => tx.inputSum u).sum < u64Bound) :
    calculateMinerFeesFrom u txs acc =
      .ok (acc + (txs.map fun tx => tx.inputSum u - tx.outputSum).sum) := by
  induction txs generalizing acc with
  | nil => simp [calculateMinerFeesFrom]
  | cons tx txs ih =>
    obtain ⟨hpresent, hle⟩ := h tx List.mem_cons_self
    rw [List.map_cons, List.sum_cons] at hlt
    have hin : calculateInputValue u tx.inputs 0 = .ok (tx.inputSum u) := by
      rw [calculateInputValue_of_lt (fun i hi => hpresent _ (List.mem_map_of_mem hi)), zero_add,
        Transaction.inputSum_eq]
      rw [zero_add, ← Transaction.inputSum_eq]
      omega
    have hout : tx.outputValue = .ok tx.outputSum :=
      Transaction.outputValue_eq_ok.2 ⟨rfl, by omega⟩
    have hadd : checkedAdd acc (tx.inputSum u - tx.outputSum) =
        some (acc + (tx.inputSum u - tx.outputSum)) := checkedAdd_eq_some.2 ⟨rfl, by omega⟩
    rw [calculateMinerFeesFrom, hin, Outcome.ok_bind, hout, Outcome.ok_bind,
      Outcome.ensure_of hle, Outcome.ok_bind, hadd, Outcome.okOr_eq_ok.2 rfl, Outcome.ok_bind,
      ih _ (fun t ht => h t (List.mem_cons_of_mem _ ht)) (by omega), List.map_cons, List.sum_cons,
      add_assoc]

/-- No sum over existing outputs made in validation lacks range: each is computed
    whenever the checks made along with it pass. -/
structure InRange (c : Crypto) (u : Utxos) : Prop where
  /-- The inputs of a transaction of a block, as its fees are computed: they need
      not be distinct yet. -/
  calculateInputValue : ∀ tx, c.serializedSize tx ≤ blockByteCap → (∀ h ∈ tx.spends, h ∈ u) →
    calculateInputValue u tx.inputs 0 = .ok (tx.inputSum u)
  /-- The fees of the transactions of a block. -/
  calculateMinerFees : ∀ txs, (txs.map c.serializedSize).sum ≤ blockByteCap →
    (∀ tx ∈ txs, (∀ h ∈ tx.spends, h ∈ u) ∧ tx.outputSum ≤ tx.inputSum u) →
    calculateMinerFeesForTransactions txs u =
      .ok (txs.map fun tx => tx.inputSum u - tx.outputSum).sum
  /-- The inputs of a transaction of a block, as they are verified. -/
  verifyInputs : ∀ (tx : Transaction) spent, tx.spends.Nodup → (∀ h ∈ tx.spends, h ∉ spent) →
    (∀ input ∈ tx.inputs, ∃ p, u.lookup input.prevTransactionOutputHash = some p ∧
      input.verifies c tx.outputs p.2.pubkey = true) →
    Block.verifyInputs c u tx.outputs tx.inputs spent 0 =
      .ok (tx.spends.reverse ++ spent, tx.inputSum u)
  /-- The inputs of a transaction offered to the mempool. -/
  inputValue : ∀ tx : Transaction, tx.spends.Nodup → (∀ h ∈ tx.spends, h ∈ u) →
    inputValue u tx.inputs 0 = .ok (tx.inputSum u)

/-- A supply within all the rewards, and inputs of at least `64` bytes, the size
    of a signature, keep the sums in range. -/
theorem inRange_of_supply (hsize : ∀ tx, 64 * tx.inputs.length ≤ c.serializedSize tx)
    (hu : u.supply ≤ maxSupply) : InRange c u := by
  have hmax : blockByteCap / 64 * maxSupply < u64Bound := by decide
  have hroom : ∀ n, 64 * n ≤ blockByteCap → n * u.supply < u64Bound := fun n hn => by
    have : n ≤ blockByteCap / 64 := (Nat.le_div_iff_mul_le (by decide)).2 (by omega)
    exact (Nat.mul_le_mul this hu).trans_lt hmax
  have hlen : ∀ tx : Transaction, tx.spends.length = tx.inputs.length := fun tx => List.length_map _
  have hnodup : ∀ tx : Transaction, tx.spends.Nodup → tx.inputSum u < u64Bound := fun tx h =>
    (sum_valueAt_le h).trans_lt (hu.trans_lt (by decide))
  refine ⟨fun tx htx hpresent => ?_, fun txs htxs h => ?_, fun tx spent hn hspent h => ?_,
    fun tx hn hpresent => ?_⟩
  · have hlt : tx.inputSum u < u64Bound :=
      (u.sum_valueAt_le_mul tx.spends).trans_lt (hroom _ (by rw [hlen]; exact (hsize tx).trans htx))
    rw [Transaction.inputSum_eq] at hlt ⊢
    rw [calculateInputValue_of_lt (fun i hi => hpresent _ (List.mem_map_of_mem hi)) (by simpa using hlt),
      zero_add]
  · have hlt : (txs.map fun tx => tx.inputSum u).sum < u64Bound := by
      have hsum : (txs.map fun tx => tx.inputSum u).sum ≤
          (txs.map fun tx => tx.inputs.length).sum * u.supply := by
        rw [← List.sum_map_mul_right]
        refine List.sum_le_sum fun tx _ => ?_
        rw [← hlen]
        exact u.sum_valueAt_le_mul tx.spends
      refine hsum.trans_lt (hroom _ ?_)
      rw [← List.sum_map_mul_left]
      exact (List.sum_le_sum fun tx _ => hsize tx).trans htxs
    rw [calculateMinerFeesForTransactions, calculateMinerFeesFrom_of_lt 0 h (by simpa using hlt),
      zero_add]
  · have hlt := hnodup tx hn
    rw [Transaction.inputSum_eq] at hlt ⊢
    rw [Block.verifyInputs_of_lt h hn (fun i hi => hspent _ (List.mem_map_of_mem hi))
      (by simpa using hlt), zero_add]
    rfl
  · have hlt := hnodup tx hn
    rw [Transaction.inputSum_eq] at hlt ⊢
    rw [inputValue_of_lt (fun i hi => hpresent _ (List.mem_map_of_mem hi)) (by simpa using hlt),
      zero_add]

namespace Blockchain

/-- In every run the unspent outputs are worth at most the rewards of the blocks
    of the active chain, and the sums over existing outputs made in validation,
    on the active chain and on every other chain of known blocks, stay in range,
    as do those over the inputs of the transactions of the mempool. -/
theorem supply_le_rewards (hinj : Function.Injective c.hashBlock)
    (hne : ∀ block, c.hashBlock block ≠ Hash.zero)
    (hsize : ∀ tx, 64 * tx.inputs.length ≤ c.serializedSize tx) {s : Blockchain}
    (hs : (chainSystem c).Reachable s) :
    s.utxos.supply ≤ ∑ h ∈ Finset.range s.activeChain.length, blockRewardAtHeight h ∧
      InRange c s.utxos ∧
      (∀ chain utxos, Linked s.blocks chain → replayUtxos c s.blocks chain = some utxos →
        InRange c utxos) ∧
      ∀ entry ∈ s.mempool, inputValue s.utxos entry.2.inputs 0 = .ok (entry.2.inputSum s.utxos) := by
  have hsound := sound_of_reachable hinj hne hs
  have hsupply := hsound.toValidTree.supply_le
  have hrange : InRange c s.utxos :=
    inRange_of_supply hsize (hsupply.trans (sum_rewards_le_maxSupply _))
  refine ⟨hsupply, hrange, fun chain utxos hc hu => ?_, fun entry he => ?_⟩
  · exact inRange_of_supply hsize
      ((hsound.toValidTree.supply_replay hc hu).trans (sum_rewards_le_maxSupply _))
  · exact hrange.inputValue entry.2 (hsound.nodup entry he) (hsound.present entry he)

/-- The theorem after a reorganisation. -/
theorem supply_le_rewards_forked : Sample.forked.activeChain.length = 3 ∧
    Sample.forked.utxos.supply ≤
      ∑ h ∈ Finset.range Sample.forked.activeChain.length, blockRewardAtHeight h := by
  refine ⟨by decide +kernel, (supply_le_rewards (tableHash_injective _) (tableHash_ne_zero _)
    (fun tx => ?_) (reachable_run _)).1⟩
  change 64 * tx.inputs.length ≤ 18 + 170 * tx.inputs.length + 90 * tx.outputs.length
  omega

end Blockchain

end Itx
