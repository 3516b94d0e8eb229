import Itx.Chain.Valid

/-!
# The mempool

A transaction of the mempool spends outputs that exist, each once (`Admitted`).
Admission checks it (`checkInputs_eq_ok`), and what a block or a reorganisation
takes away leaves with it. Under this invariant nothing in `addToMempool` is
missing: not the outputs the fees are computed from, nor the entries to be
replaced, removed from the last one on (`triple_removeAll`). So offering a
transaction never panics (`triple_addToMempool`).
-/

namespace Itx.Blockchain

open Utxos Call

variable {c : Crypto} {u v : Utxos} {now : DateTime} {s s₀ : Blockchain} {tx : Transaction}

/-! ## Checks and fees -/

/-- The inputs of an offered transaction pass: they exist, are distinct and are
    signed for. -/
theorem checkInputs_eq_ok {outputs : List TransactionOutput} {inputs : List TransactionInput}
    {known : List Hash} (h : checkInputs c u outputs inputs known = .ok ()) :
    (inputs.map TransactionInput.prevTransactionOutputHash).Nodup ∧
      ∀ input ∈ inputs, input.prevTransactionOutputHash ∉ known ∧
        ∃ p, u.lookup input.prevTransactionOutputHash = some p ∧
          input.verifies c outputs p.2.pubkey = true := by
  induction inputs generalizing known with
  | nil => simp
  | cons input inputs ih =>
    obtain ⟨p, hp, h⟩ := Outcome.bind_eq_ok.1 h
    obtain ⟨_, hnew, h⟩ := Outcome.bind_eq_ok.1 h
    obtain ⟨_, hsig, h⟩ := Outcome.bind_eq_ok.1 h
    obtain ⟨hnodup, hall⟩ := ih h
    refine ⟨?_, ?_⟩
    · refine List.nodup_cons.2 ⟨fun hm => ?_, hnodup⟩
      obtain ⟨i, hi, he⟩ := List.mem_map.1 hm
      exact (hall i hi).1 (he ▸ List.mem_cons_self)
    · rintro i hi
      rcases List.mem_cons.1 hi with rfl | hi
      · exact ⟨Outcome.ensure_eq_ok.1 hnew, p, Outcome.okOr_eq_ok.1 hp, Outcome.ensure_eq_ok.1 hsig⟩
      · exact ⟨fun hk => (hall i hi).1 (List.mem_cons_of_mem _ hk), (hall i hi).2⟩

theorem checkInputs_ne_panic {outputs : List TransactionOutput} {inputs : List TransactionInput}
    {known : List Hash} : checkInputs c u outputs inputs known ≠ .panic := by
  induction inputs generalizing known with
  | nil => simp [checkInputs]
  | cons input inputs ih =>
    refine Outcome.bind_ne_panic Outcome.okOr_ne_panic fun p _ => ?_
    refine Outcome.bind_ne_panic Outcome.ensure_ne_panic fun _ _ => ?_
    exact Outcome.bind_ne_panic Outcome.ensure_ne_panic fun _ _ => ih

theorem mem_of_checkInputs (h : checkInputs c u tx.outputs tx.inputs [] = .ok ()) :
    ∀ x ∈ tx.spends, x ∈ u := by
  intro x hx
  obtain ⟨input, hinput, rfl⟩ := List.mem_map.1 hx
  obtain ⟨-, p, hp, -⟩ := (checkInputs_eq_ok h).2 input hinput
  exact Finmap.mem_iff.2 ⟨p, hp⟩

theorem inputValue_ne_panic {inputs : List TransactionInput} {acc : ℕ}
    (h : ∀ input ∈ inputs, input.prevTransactionOutputHash ∈ u) :
    inputValue u inputs acc ≠ .panic := by
  induction inputs generalizing acc with
  | nil => simp [inputValue]
  | cons input inputs ih =>
    obtain ⟨p, hp⟩ := Finmap.mem_iff.1 (h input List.mem_cons_self)
    refine Outcome.bind_ne_panic ?_ fun p _ => Outcome.bind_ne_panic Outcome.okOr_ne_panic fun _ _ =>
      ih fun i hi => h i (List.mem_cons_of_mem _ hi)
    rw [hp]
    simp [Outcome.expect]

theorem outputValue_ne_panic : tx.outputValue ≠ .panic := Outcome.okOr_ne_panic

/-- The fee of a transaction whose inputs exist can be computed, or is an error. -/
theorem transactionFee_ne_panic (h : ∀ x ∈ tx.spends, x ∈ u) : transactionFee u tx ≠ .panic := by
  refine Outcome.bind_ne_panic (inputValue_ne_panic fun i hi => h _ (List.mem_map_of_mem hi))
    fun _ _ => Outcome.bind_ne_panic outputValue_ne_panic fun _ _ => ?_
  exact Outcome.bind_ne_panic Outcome.ensure_ne_panic fun _ _ => by simp

theorem inputValue_eq_ok {inputs : List TransactionInput} {acc n : ℕ}
    (h : inputValue u inputs acc = .ok n) :
    n = acc + (inputs.map fun input => u.valueAt input.prevTransactionOutputHash).sum := by
  induction inputs generalizing acc with
  | nil =>
    obtain rfl := Outcome.ok.inj h
    simp
  | cons input inputs ih =>
    obtain ⟨p, hp, h⟩ := Outcome.bind_eq_ok.1 h
    obtain ⟨acc', hacc, h⟩ := Outcome.bind_eq_ok.1 h
    obtain ⟨rfl, -⟩ := checkedAdd_eq_some.1 (Outcome.okOr_eq_ok.1 hacc)
    rw [ih h, List.map_cons, List.sum_cons, valueAt_of_lookup (Outcome.expect_eq_ok.1 hp), add_assoc]

/-- A transaction with a fee pays at most what it spends. -/
theorem transactionFee_eq_ok {fee : ℕ} (h : transactionFee u tx = .ok fee) :
    tx.outputSum ≤ tx.inputSum u := by
  obtain ⟨i, hi, h⟩ := Outcome.bind_eq_ok.1 h
  obtain ⟨o, ho, h⟩ := Outcome.bind_eq_ok.1 h
  obtain ⟨_, hle, -⟩ := Outcome.bind_eq_ok.1 h
  have hle := Outcome.ensure_eq_ok.1 hle
  rw [← (Transaction.outputValue_eq_ok.1 ho).1, inputValue_eq_ok hi, zero_add] at hle
  rw [Transaction.inputSum, Transaction.spends, List.map_map]
  exact hle

/-! ## Admitted transactions -/

/-- The transactions of the mempool spend existing outputs, each once. -/
structure Admitted (s : Blockchain) : Prop where
  nodup : ∀ entry ∈ s.mempool, entry.2.spends.Nodup
  present : ∀ entry ∈ s.mempool, ∀ h ∈ entry.2.spends, h ∈ s.utxos

namespace Admitted

/-- Fewer transactions, and the same outputs. -/
theorem of_subset (h : Admitted s₀) (hm : ∀ entry ∈ s.mempool, entry ∈ s₀.mempool)
    (hu : SameOutputs s.utxos s₀.utxos) : Admitted s where
  nodup entry he := h.nodup entry (hm entry he)
  present entry he x hx := hu.mem_iff.2 (h.present entry (hm entry he) x hx)

theorem cleanupMempool (h : Admitted s) (now : DateTime) : Admitted (s.cleanupMempool now) :=
  h.of_subset (fun _ he => (List.mem_filter.1 he).1)
    ((SameChain.refl s).cleanupMempool now).outputs

/-- What an eviction leaves spends what exists then. -/
theorem evictStaleMempoolEntries (h : ∀ entry ∈ s.mempool, entry.2.spends.Nodup) (now : DateTime)
    (confirmed : List Hash) : Admitted (s.evictStaleMempoolEntries c now confirmed) where
  nodup entry he := h entry (List.mem_filter.1 (List.mem_filter.1 he).1).1
  present entry he x hx := by
    obtain ⟨-, hp⟩ := List.mem_filter.1 he
    exact (of_decide_eq_true hp).2 x hx

theorem markPending (h : Admitted s) : Admitted s.markPending :=
  h.of_subset (fun _ he => he) ((SameChain.refl s).markPending).outputs

theorem pushBlock (h : Admitted s) (now : DateTime) (block : Block) :
    Admitted (s.pushBlock c now block) :=
  (evictStaleMempoolEntries (s := { s with utxos := applyTransactions c s.utxos block }) h.nodup now
    (block.transactions.map c.hashTransaction)).of_subset (fun _ he => he) (.refl _)

theorem switchTo (h : Admitted s) (now : DateTime) (newChain : List Hash) (target : U256)
    (utxos : Utxos) (confirmed : List Hash) :
    Admitted (s.switchTo c now newChain target utxos confirmed) :=
  (evictStaleMempoolEntries (s := { s with activeChain := newChain, target, utxos }) h.nodup now
    confirmed).markPending

/-- Another transaction that spends existing outputs, each once, joins the mempool. -/
theorem offered (h : Admitted s) (hnodup : tx.spends.Nodup) (hpresent : ∀ x ∈ tx.spends, x ∈ s.utxos)
    (now : DateTime) : Admitted { s with
      utxos := s.utxos.setMarks true tx.spends
      mempool := s.mempool ++ [(now, tx)] } := by
  refine ⟨fun entry he => ?_, fun entry he x hx => mem_setMarks.2 ?_⟩
  all_goals
    rcases List.mem_append.1 he with he | he
  · exact h.nodup entry he
  · rw [List.mem_singleton.1 he]
    exact hnodup
  · exact h.present entry he x hx
  · rw [List.mem_singleton.1 he] at hx
    exact hpresent x hx

end Admitted

theorem admitted_new : Admitted new := ⟨by simp [new], by simp [new]⟩

/-! ## Replaced transactions -/

/-- Looking for conflicts changes marks only, and finds positions of the mempool. -/
theorem triple_conflictingIndices (h : Admitted s₀) (newFee : ℕ) {inputs : List TransactionInput}
    {indices : List ℕ} (hnodup : indices.Nodup) (hlt : ∀ i ∈ indices, i < s₀.mempool.length) :
    Triple (fun s => SameChain s₀ s ∧ s.mempool = s₀.mempool)
      (conflictingIndices newFee inputs indices)
      (fun indices s => (SameChain s₀ s ∧ s.mempool = s₀.mempool) ∧ indices.Nodup ∧
        ∀ i ∈ indices, i < s₀.mempool.length)
      (fun _ s => SameChain s₀ s ∧ s.mempool = s₀.mempool) fun _ => False := by
  induction inputs generalizing indices with
  | nil => exact .pure fun s hs => ⟨hs, hnodup, hlt⟩
  | cons input inputs ih =>
    refine .get_bind fun s hs => ?_
    have hrest : ∀ {indices : List ℕ}, indices.Nodup → (∀ i ∈ indices, i < s₀.mempool.length) →
        Triple (· = s) (conflictingIndices newFee inputs indices) _ _ _ := fun h₁ h₂ =>
      (ih h₁ h₂).conseq (fun _ e => e ▸ hs) (fun _ _ => id) (fun _ _ => id) fun _ => id
    split
    · split
      · next idx hidx =>
        obtain ⟨hi, -, -⟩ := List.findIdx?_eq_some_iff_getElem.1 hidx
        refine .lift_bind (Outcome.expect_eq_ok.2 (List.getElem?_eq_getElem hi)) ?_
        refine .lift_known (fun oldFee _ => .lift_known (fun _ _ => ?_) (fun _ _ => hs)
          fun he => absurd he Outcome.ensure_ne_panic) (fun _ _ => hs) fun he => ?_
        · refine hrest (hnodup.insert) fun i hi' => ?_
          rcases List.mem_insert_iff.1 hi' with rfl | hi'
          · rwa [← hs.2]
          · exact hlt i hi'
        · -- The inputs of the transactions of the mempool exist.
          have hentry : s.mempool[idx] ∈ s₀.mempool := hs.2 ▸ List.getElem_mem hi
          exact transactionFee_ne_panic
            (fun x hx => hs.1.outputs.mem_iff.2 (h.present _ hentry x hx)) he
      · refine .modify_bind ((ih hnodup hlt).conseq (fun t e => ?_) (fun _ _ => id) (fun _ _ => id)
          fun _ => id)
        subst e
        exact ⟨hs.1.setMarks _ _ _, hs.2⟩
    · exact hrest hnodup hlt

/-- Removing entries from the last one on: each is there, and those left are at
    the other positions. -/
theorem triple_removeAll {l : List ℕ} (hl : l.Pairwise (· > ·)) {s : Blockchain}
    (hlt : ∀ i ∈ l, i < s.mempool.length) :
    Triple (· = s) (Call.forEach l removeFromMempool)
      (fun _ s' => SameChain s s' ∧ ∀ entry ∈ s'.mempool, ∃ i ∉ l, s.mempool[i]? = some entry)
      (fun _ _ => False) fun _ => False := by
  induction l generalizing s with
  | nil =>
    refine .pure fun s' e => ?_
    subst e
    refine ⟨.refl _, fun entry he => ?_⟩
    obtain ⟨i, hi, rfl⟩ := List.getElem_of_mem he
    exact ⟨i, List.not_mem_nil, List.getElem?_eq_getElem hi⟩
  | cons idx l ih =>
    obtain ⟨hgt, hl⟩ := List.pairwise_cons.1 hl
    have hidx := hlt idx List.mem_cons_self
    refine .bind (R := fun _ s' => s' = { s with
        mempool := s.mempool.eraseIdx idx
        utxos := s.utxos.setMarks false s.mempool[idx].2.spends }) ?_ fun _ => ?_
    · refine .get_bind fun s' e => ?_
      subst e
      refine .lift_bind (Outcome.expect_eq_ok.2 (List.getElem?_eq_getElem hidx)) (.modify ?_)
      rintro _ rfl
      rfl
    · refine (ih hl ?_).conseq (fun _ => id) (fun _ s' hs' => ?_) (fun _ _ => id) fun _ => id
      · intro i hi
        have := hgt i hi
        rw [List.length_eraseIdx_of_lt hidx]
        omega
      · obtain ⟨hsame, hleft⟩ := hs'
        refine ⟨?_, fun entry he => ?_⟩
        · have hfirst : SameChain s { s with
              mempool := s.mempool.eraseIdx idx
              utxos := s.utxos.setMarks false s.mempool[idx].2.spends } :=
            (SameChain.refl s).setMarks _ _ _
          exact hfirst.trans hsame
        -- Positions from the removed one on have moved up by one.
        · obtain ⟨i, hi, he⟩ := hleft entry he
          rw [List.getElem?_eraseIdx] at he
          split at he
          · next hlt =>
            refine ⟨i, ?_, he⟩
            rw [List.mem_cons, not_or]
            exact ⟨by omega, hi⟩
          · next hge =>
            refine ⟨i + 1, ?_, he⟩
            rw [List.mem_cons, not_or]
            refine ⟨by omega, fun hm => ?_⟩
            have := hgt _ hm
            omega

/-- The order in which conflicting entries are removed. -/
theorem pairwise_removalOrder {indices : List ℕ} (h : indices.Nodup) :
    (indices.insertionSort (· ≥ ·)).Pairwise (· > ·) := by
  have hsorted := List.pairwise_insertionSort (· ≥ ·) indices
  have hnodup : (indices.insertionSort (· ≥ ·)).Nodup :=
    (List.perm_insertionSort _ indices).nodup_iff.2 h
  exact (hsorted.and hnodup).imp fun h => lt_of_le_of_ne h.1 (Ne.symm h.2)

theorem triple_sortMempool (h : Admitted s₀) :
    Triple (· = s₀) sortMempool
      (fun _ s => SameChain s₀ s ∧ s.mempool.Perm s₀.mempool) (fun _ _ => False) fun _ => False := by
  refine .get_bind fun s e => ?_
  subst e
  have hfees : ∀ entry ∈ s.mempool, transactionFee s.utxos entry.2 ≠ .panic := fun entry he =>
    transactionFee_ne_panic (h.present entry he)
  refine .lift_bind (if_pos hfees) (.modify ?_)
  rintro _ rfl
  exact ⟨(SameChain.refl _).update _ (.refl _), List.perm_insertionSort _ _⟩

/-! ## Admission -/

/-- Offering a transaction to a mempool of admitted transactions does not panic. It
    joins the transactions that are left if it spends existing outputs, each once,
    with the consent of their owners, and pays at most what they are worth. -/
theorem triple_offer (hs : Admitted s) (now : DateTime) (tx : Transaction) :
    Triple (· = s) (addToMempool c now tx)
      (fun _ t => SameOutputs t.utxos s.utxos ∧ (tx.spends.Nodup ∧ tx.Covered c s.utxos) ∧
        ∀ entry ∈ t.mempool, entry ∈ s.mempool ∨ entry = (now, tx))
      (fun _ t => SameOutputs t.utxos s.utxos ∧ ∀ entry ∈ t.mempool, entry ∈ s.mempool)
      fun _ => False := by
  have hclean : SameOutputs (s.cleanupMempool now).utxos s.utxos :=
    ((SameChain.refl s).cleanupMempool now).outputs
  have hkept : ∀ entry ∈ (s.cleanupMempool now).mempool, entry ∈ s.mempool :=
    fun _ he => (List.mem_filter.1 he).1
  refine .bind (R := fun _ t => t = s.cleanupMempool now) (.modify ?_) fun _ => .get_bind fun r e => ?_
  · rintro _ rfl
    rfl
  subst e
  have hr := hs.cleanupMempool now
  generalize s.cleanupMempool now = r at hclean hkept hr
  refine .lift_known (fun _ hcheck => ?_) (fun _ _ => ⟨hclean, hkept⟩)
    fun he => checkInputs_ne_panic he
  have hpresent := mem_of_checkInputs hcheck
  refine .lift_known (fun newFee hfee => ?_) (fun _ _ => ⟨hclean, hkept⟩)
    fun he => transactionFee_ne_panic hpresent he
  refine .bind (R := fun indices t => (SameChain r t ∧ t.mempool = r.mempool) ∧ indices.Nodup ∧
      ∀ i ∈ indices, i < r.mempool.length)
    ((triple_conflictingIndices hr newFee List.nodup_nil (by simp)).conseq
      (fun t e => e ▸ ⟨.refl _, rfl⟩) (fun _ _ => id)
      (fun _ t ht => ⟨ht.1.outputs.trans hclean, fun _ he => hkept _ (ht.2 ▸ he)⟩) fun _ => id)
    fun indices => ?_
  refine .of_state fun t ht => ?_
  obtain ⟨⟨hst, hmempool⟩, hnodup, hlt⟩ := ht
  have hsorted : ∀ i ∈ indices.insertionSort (· ≥ ·), i < t.mempool.length := fun i hi => by
    rw [hmempool]
    exact hlt i ((List.mem_insertionSort _).1 hi)
  refine .bind (R := fun _ t' => SameOutputs t'.utxos r.utxos ∧ ∀ entry ∈ t'.mempool, entry ∈ r.mempool)
    ((triple_removeAll (pairwise_removalOrder hnodup) hsorted).conseq (fun _ => id)
      (fun _ t' ht' => ?_) (fun _ _ => False.elim) fun _ => id) fun _ => .get_bind fun t' ht' => ?_
  · obtain ⟨hsame, hleft⟩ := ht'
    refine ⟨hsame.outputs.trans hst.outputs, fun entry he => ?_⟩
    obtain ⟨i, -, hi⟩ := hleft entry he
    exact hmempool ▸ List.mem_of_getElem? hi
  -- The conflicts are removed. The fee is computed against the same outputs once more.
  obtain ⟨hu, hleft⟩ := ht'
  have hleft' : ∀ entry ∈ t'.mempool, entry ∈ s.mempool := fun entry he =>
    hkept entry (hleft entry he)
  have hpresent' : ∀ x ∈ tx.spends, x ∈ t'.utxos := fun x hx => hu.mem_iff.2 (hpresent x hx)
  refine .lift_known (fun _ _ => ?_) (fun _ _ => ⟨hu.trans hclean, hleft'⟩) fun he =>
    inputValue_ne_panic (fun i hi => hpresent' _ (List.mem_map_of_mem hi)) he
  refine .lift_known (fun _ _ => ?_) (fun _ _ => ⟨hu.trans hclean, hleft'⟩) fun he =>
    outputValue_ne_panic he
  refine .lift_known (fun _ _ => .modify_bind ?_) (fun _ _ => ⟨hu.trans hclean, hleft'⟩) fun he =>
    Outcome.ensure_ne_panic he
  have hcovered : tx.Covered c r.utxos :=
    ⟨fun input hi => ((checkInputs_eq_ok hcheck).2 input hi).2, transactionFee_eq_ok hfee⟩
  have hadmit := (hr.of_subset hleft hu).offered (checkInputs_eq_ok hcheck).1 hpresent' now
  refine (triple_sortMempool hadmit).conseq (fun _ => id) (fun _ t'' ht'' => ⟨?_, ?_, ?_⟩)
    (fun _ _ => False.elim) fun _ => id
  · exact (ht''.1.outputs.trans (sameOutputs_setMarks _ _ _)).trans (hu.trans hclean)
  · exact ⟨(checkInputs_eq_ok hcheck).1, hcovered.congr hclean⟩
  · intro entry he
    rcases List.mem_append.1 (ht''.2.mem_iff.1 he) with he | he
    exacts [.inl (hleft' entry he), .inr (List.mem_singleton.1 he)]

/-- The transactions of the mempool are admitted, whether or not one that is offered
    is taken. -/
theorem triple_addToMempool (now : DateTime) (tx : Transaction) :
    Triple Admitted (addToMempool c now tx) (fun _ => Admitted) (fun _ => Admitted)
      fun _ => False := by
  refine .of_state fun s hs => (triple_offer hs now tx).conseq (fun _ => id) (fun _ t ht => ?_)
    (fun _ t ht => hs.of_subset ht.2 ht.1) fun _ => id
  obtain ⟨hu, ⟨hnodup, hcovered⟩, hmem⟩ := ht
  refine ⟨fun entry he => ?_, fun entry he x hx => hu.mem_iff.2 ?_⟩
  all_goals
    rcases hmem entry he with he | rfl
  · exact hs.nodup entry he
  · exact hnodup
  · exact hs.present entry he x hx
  · exact hcovered.mem_of_mem_spends hx

/-! ## Sound states -/

/-- The blocks form a tree of valid blocks, and the mempool has admitted
    transactions. -/
structure Sound (c : Crypto) (s : Blockchain) : Prop extends ValidTree c s, Admitted s

theorem sound_iff : ValidTree c s ∧ Admitted s ↔ Sound c s :=
  ⟨fun h => ⟨h.1, h.2⟩, fun h => ⟨h.toValidTree, h.toAdmitted⟩⟩

theorem sound_addToMempool {N : Blockchain → Prop} (now : DateTime) (tx : Transaction) :
    Triple (Sound c) (addToMempool c now tx) (fun _ => Sound c) (fun _ => Sound c) N :=
  ((ofChain_validTree.addToMempool now tx).and (triple_addToMempool now tx)).conseq
    (fun _ => sound_iff.2) (fun _ _ => sound_iff.1) (fun _ _ => sound_iff.1) fun _ hs => hs.2.elim

/-- What the steps of an acceptance do to the mempool. -/
theorem moves_admitted (amb : Ambient) (P : Blockchain → Block → Prop) :
    Moves c amb P Admitted fun _ => False where
  push s block hs _ _ := hs.pushBlock amb.now block
  adjust s _ _ _ hs _ _ _ _ _ := ⟨hs.nodup, hs.present⟩
  prune s _ hs _ := ⟨hs.nodup, hs.present⟩
  store s _ _ _ hs _ _ := ⟨hs.nodup, hs.present⟩
  switch s block _ _ target utxos confirmed hs _ _ _ _ _ :=
    Admitted.switchTo (s := s.storeBlock c block) ⟨hs.nodup, hs.present⟩ _ _ _ _ _
  pool tx _ := triple_addToMempool amb.now tx
  keep s block hs _ _ := by
    rw [keepOrphan]
    split
    exacts [hs, ⟨hs.nodup, hs.present⟩]
  take s _ hs := ⟨hs.nodup, hs.present⟩

/-- What the steps of an acceptance do to the mempool and to the blocks. -/
theorem moves_sound (hinj : Function.Injective c.hashBlock)
    (hne : ∀ block, c.hashBlock block ≠ Hash.zero) (amb : Ambient)
    (P : Blockchain → Block → Prop) {N : Blockchain → Prop} : Moves c amb P (Sound c) N :=
  ((moves_validTree hinj hne amb P).and (moves_admitted amb P)).congr (fun _ => sound_iff)
    fun _ hs => hs.2.elim

theorem sound_new : Sound c new := ⟨validTree_new, admitted_new⟩

/-- In every run the states are sound. -/
theorem sound_of_reachable (hinj : Function.Injective c.hashBlock)
    (hne : ∀ block, c.hashBlock block ≠ Hash.zero) {s : Blockchain}
    (hs : (chainSystem c).Reachable s) : Sound c s := by
  refine invariant_of_moves (P := fun _ _ _ => True) sound_new
    (fun amb => moves_sound hinj hne amb _) (fun _ hs => hs.toKeyed) (fun now tx => ?_)
    (fun now s hs => ?_) (fun offset s hs => ?_)
    (hs.mono fun s op _ => taking_of_forall (fun _ _ _ => trivial) s op)
  · exact sound_addToMempool now tx
  · exact ⟨ofChain_validTree.1 _ _ ((SameChain.refl s).cleanupMempool now) hs.toValidTree,
      hs.toAdmitted.cleanupMempool now⟩
  · exact ⟨ofChain_validTree.2 s offset hs.toValidTree, hs.nodup, hs.present⟩

end Itx.Blockchain
