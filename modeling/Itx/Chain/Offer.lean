import Itx.Chain.FeeOrder

/-!
# What an offer does

A transaction offered to the mempool is checked, then its inputs are looked at in turn
(`conflictingIndices`). A marked input leads to the first transaction of the mempool that spends
it (`FoundAt`), which has to pay less; if it does not, the offer is refused (`Resists`). A mark
that nothing accounts for (`Stale`) is cleared on the way. At the end what was found is removed,
and the transaction joins the others.

* `triple_offer_exact`: what is left of the mempool and of the marks, for each outcome;
* `refused_changes_nothing`: a refused offer leaves both as they are, and one that is taken
  replaces what it conflicts with, exactly where the marks are in order (`InOrder`).
-/

namespace Itx.Blockchain

open Utxos Call

variable {c : Crypto} {u : Utxos} {s r : Blockchain} {tx : Transaction} {h x : Hash}

/-! ## Looking for conflicts -/

/-- The output exists and is marked. -/
def MarkedAt (u : Utxos) (h : Hash) : Prop := ∃ o, u.lookup h = some (true, o)

/-- The position of what spends a marked output. -/
def FoundAt (s : Blockchain) (h : Hash) (i : ℕ) : Prop :=
  MarkedAt s.utxos h ∧ s.findMempoolIndexSpending h = some i

/-- A mark for which there is no transaction. -/
def Stale (s : Blockchain) (h : Hash) : Prop :=
  MarkedAt s.utxos h ∧ s.findMempoolIndexSpending h = none

/-- What spends a marked output does not pay less than the new transaction. -/
def Resists (s : Blockchain) (newFee : ℕ) (h : Hash) : Prop :=
  ∃ i entry, FoundAt s h i ∧ s.mempool[i]? = some entry ∧
    ∀ oldFee, transactionFee s.utxos entry.2 = .ok oldFee → newFee ≤ oldFee

/-- The marks of some outputs are cleared. -/
def Clears (s : Blockchain) (P : Hash → Prop) (t : Blockchain) : Prop :=
  ∃ hs : List Hash, (∀ x, x ∈ hs ↔ P x) ∧ t = { s with utxos := s.utxos.setMarks false hs }

theorem Clears.none {P : Hash → Prop} (hP : ∀ x, ¬ P x) : Clears s P s :=
  ⟨[], fun x => ⟨fun hx => absurd hx List.not_mem_nil, fun hx => absurd hx (hP x)⟩, rfl⟩

theorem Clears.congr {P Q : Hash → Prop} {t : Blockchain} (ht : Clears s P t) (hPQ : ∀ x, P x ↔ Q x) :
    Clears s Q t := by
  obtain ⟨hs, hmem, rfl⟩ := ht
  exact ⟨hs, fun x => (hmem x).trans (hPQ x), rfl⟩

/-- One more mark is cleared. -/
theorem Clears.insert {P : Hash → Prop} {t : Blockchain} (ht : Clears s P t) (h : Hash) :
    Clears s (fun x => P x ∨ x = h) { t with utxos := t.utxos.setMarks false [h] } := by
  obtain ⟨hs, hmem, rfl⟩ := ht
  refine ⟨hs ++ [h], fun x => ?_, ?_⟩
  · rw [List.mem_append, hmem, List.mem_singleton]
  · rw [setMarks, setMarks, setMarks, List.foldl_append]

theorem Clears.lookup {P : Hash → Prop} {t : Blockchain} (ht : Clears s P t) (hx : ¬ P x) :
    t.utxos.lookup x = s.utxos.lookup x := by
  obtain ⟨hs, hmem, rfl⟩ := ht
  rw [lookup_setMarks, if_neg (mt (hmem x).1 hx)]

theorem Clears.mempool {P : Hash → Prop} {t : Blockchain} (ht : Clears s P t) : t.mempool = s.mempool := by
  obtain ⟨hs, -, rfl⟩ := ht
  rfl

theorem Clears.outputs {P : Hash → Prop} {t : Blockchain} (ht : Clears s P t) :
    SameOutputs t.utxos s.utxos := by
  obtain ⟨hs, -, rfl⟩ := ht
  exact sameOutputs_setMarks _ _ _

/-- Nothing has changed iff nothing that was marked is cleared. -/
theorem Clears.eq_iff {P : Hash → Prop} {t : Blockchain} (ht : Clears s P t)
    (hP : ∀ x, P x → MarkedAt s.utxos x) :
    t.utxos = s.utxos ↔ ∀ x, ¬ P x := by
  obtain ⟨hs, hmem, rfl⟩ := ht
  constructor
  · intro heq x hx
    obtain ⟨o, ho⟩ := hP x hx
    have hlookup := congrArg (Finmap.lookup x) heq
    rw [lookup_setMarks, if_pos ((hmem x).2 hx), ho] at hlookup
    cases hlookup
  · intro hnone
    obtain rfl : hs = [] := List.eq_nil_iff_forall_not_mem.2 fun x hx => hnone x ((hmem x).1 hx)
    rfl

/-- No input resists: the stale marks among them are cleared, and the positions are collected. -/
structure FindsConflicts (s : Blockchain) (newFee : ℕ) (done hs : List Hash) (indices indices' : List ℕ)
    (t : Blockchain) : Prop where
  yields : ∀ x ∈ hs, ¬ Resists s newFee x
  clears : Clears s (fun x => x ∈ done ++ hs ∧ Stale s x) t
  found : ∀ i, i ∈ indices' ↔ i ∈ indices ∨ ∃ x ∈ hs, FoundAt s x i

/-- Some input resists: the stale marks before it are cleared. -/
def MeetsResistance (s : Blockchain) (newFee : ℕ) (done hs : List Hash) (t : Blockchain) : Prop :=
  ∃ pre h post, hs = pre ++ h :: post ∧ (∀ x ∈ pre, ¬ Resists s newFee x) ∧ Resists s newFee h ∧
    Clears s (fun x => x ∈ done ++ pre ∧ Stale s x) t

theorem FindsConflicts.cons {newFee : ℕ} {done hs : List Hash} {indices indices' indices'' : List ℕ}
    {t : Blockchain} (hyields : ¬ Resists s newFee h)
    (hfound : ∀ i, i ∈ indices' ↔ i ∈ indices ∨ FoundAt s h i)
    (hf : FindsConflicts s newFee (done ++ [h]) hs indices' indices'' t) :
    FindsConflicts s newFee done (h :: hs) indices indices'' t where
  yields := List.forall_mem_cons.2 ⟨hyields, hf.yields⟩
  clears := hf.clears.congr fun x => by rw [List.append_assoc, List.singleton_append]
  found i := by
    rw [hf.found, hfound, or_assoc]
    simp only [List.mem_cons, exists_eq_or_imp]

theorem MeetsResistance.cons {newFee : ℕ} {done hs : List Hash} {t : Blockchain}
    (hyields : ¬ Resists s newFee h) (hm : MeetsResistance s newFee (done ++ [h]) hs t) :
    MeetsResistance s newFee done (h :: hs) t := by
  obtain ⟨pre, h', post, rfl, hpre, hres, hclears⟩ := hm
  refine ⟨h :: pre, h', post, rfl, List.forall_mem_cons.2 ⟨hyields, hpre⟩, hres, hclears.congr fun x => ?_⟩
  rw [List.append_assoc, List.singleton_append]

/-- Looking for conflicts, exactly: it ends at the first input that resists. -/
theorem triple_conflictingIndices_exact (hs : Admitted s) (newFee : ℕ) {inputs : List TransactionInput}
    (done : List Hash) {indices : List ℕ}
    (hnodup : (done ++ inputs.map TransactionInput.prevTransactionOutputHash).Nodup) :
    Triple (Clears s fun x => x ∈ done ∧ Stale s x) (conflictingIndices newFee inputs indices)
      (FindsConflicts s newFee done (inputs.map TransactionInput.prevTransactionOutputHash) indices)
      (fun _ => MeetsResistance s newFee done (inputs.map TransactionInput.prevTransactionOutputHash))
      fun _ => False := by
  induction inputs generalizing done indices with
  | nil => exact .pure fun t ht => ⟨by simp, by simpa using ht, by simp⟩
  | cons input inputs ih =>
    rw [List.map_cons] at hnodup ⊢
    have hnew : input.prevTransactionOutputHash ∉ done := fun hd =>
      (List.nodup_append.1 hnodup).2.2 _ hd _ List.mem_cons_self rfl
    have hrest : (done ++ [input.prevTransactionOutputHash] ++
        inputs.map TransactionInput.prevTransactionOutputHash).Nodup := by
      rwa [List.append_assoc]
    refine .get_bind fun t ht => ?_
    have hlookup : t.utxos.lookup input.prevTransactionOutputHash =
        s.utxos.lookup input.prevTransactionOutputHash := ht.lookup fun hx => hnew hx.1
    have hfind : t.findMempoolIndexSpending = s.findMempoolIndexSpending := by
      funext x
      rw [findMempoolIndexSpending, findMempoolIndexSpending, ht.mempool]
    -- The mark is not stale: the state is as before, as far as the rest is concerned.
    have hkeep : ¬ Stale s input.prevTransactionOutputHash →
        Clears s (fun x => x ∈ done ++ [input.prevTransactionOutputHash] ∧ Stale s x) t := by
      refine fun hstale => ht.congr fun x => ⟨fun hx => ⟨List.mem_append_left _ hx.1, hx.2⟩, fun hx => ?_⟩
      rcases List.mem_append.1 hx.1 with hd | he
      · exact ⟨hd, hx.2⟩
      · exact absurd (List.mem_singleton.1 he ▸ hx.2) hstale
    rw [hlookup, hfind]
    split
    · next o hmark =>
      have hmarked : MarkedAt s.utxos input.prevTransactionOutputHash := ⟨o, hmark⟩
      split
      -- A transaction spends the output: it has to pay less, or else it resists.
      · next idx hidx =>
        have hfound : FoundAt s input.prevTransactionOutputHash idx := ⟨hmarked, hidx⟩
        obtain ⟨hi, -, -⟩ := List.findIdx?_eq_some_iff_getElem.1 hidx
        rw [ht.mempool]
        have hget : s.mempool[idx]? = some s.mempool[idx] := List.getElem?_eq_getElem hi
        have hfee : transactionFee t.utxos s.mempool[idx].2 = transactionFee s.utxos s.mempool[idx].2 :=
          transactionFee_congr (agreeOn_of_sameOutputs ht.outputs)
        refine .lift_bind (Outcome.expect_eq_ok.2 hget) ?_
        have hresists : (∀ oldFee, transactionFee s.utxos s.mempool[idx].2 = .ok oldFee → newFee ≤ oldFee) →
            MeetsResistance s newFee done (input.prevTransactionOutputHash ::
              inputs.map TransactionInput.prevTransactionOutputHash) t := fun hle =>
          ⟨[], _, _, rfl, by simp, ⟨idx, _, hfound, hget, hle⟩, by simpa using ht⟩
        rw [hfee]
        refine .lift_known (fun oldFee hold => .lift_known (fun _ hless => ?_) (fun e hle => hresists ?_) ?_)
          (fun e he => hresists fun oldFee hold => ?_) fun he => ?_
        · have hless := Outcome.ensure_eq_ok.1 hless
          have hyields : ¬ Resists s newFee input.prevTransactionOutputHash := by
            rintro ⟨i, entry, hi', hentry, hle⟩
            obtain rfl := Option.some.inj (hi'.2.symm.trans hidx)
            obtain rfl := Option.some.inj (hget.symm.trans hentry)
            exact hless.not_ge (hle oldFee hold)
          refine (ih _ hrest).conseq (fun _ e => e ▸ hkeep fun hstale => ?_)
            (fun _ _ => .cons hyields fun i => ?_)
            (fun _ _ => .cons hyields) fun _ => id
          · rw [hstale.2] at hidx
            cases hidx
          · rw [List.mem_insert_iff, or_comm]
            refine or_congr_right ⟨fun he => he ▸ hfound, fun hi' => ?_⟩
            exact Option.some.inj (hi'.2.symm.trans hidx)
        · intro oldFee' hold'
          obtain rfl := Outcome.ok.inj (hold.symm.trans hold')
          refine not_lt.1 fun hless => ?_
          rw [Outcome.ensure_of hless] at hle
          cases hle
        · exact fun he => absurd he Outcome.ensure_ne_panic
        · rw [he] at hold
          cases hold
        · exact transactionFee_ne_panic (hs.present _ (List.getElem_mem hi)) he
      -- None does: the mark is cleared, and nothing is to be removed for this input.
      · next hnone =>
        have hstale : Stale s input.prevTransactionOutputHash := ⟨hmarked, hnone⟩
        have hfound : ∀ i, ¬ FoundAt s input.prevTransactionOutputHash i := fun i hi => by
          rw [hi.2] at hnone
          cases hnone
        have hyields : ¬ Resists s newFee input.prevTransactionOutputHash := fun ⟨i, _, hi, _⟩ => hfound i hi
        refine .modify_bind ((ih _ hrest).conseq (fun _ e => ?_) (fun _ _ => .cons hyields fun i => ?_)
          (fun _ _ => .cons hyields) fun _ => id)
        · subst e
          refine (ht.insert _).congr fun x => ?_
          rw [List.mem_append, List.mem_singleton, or_and_right]
          exact or_congr_right ⟨fun he => ⟨he, he ▸ hstale⟩, fun hx => hx.1⟩
        · exact (or_iff_left (hfound i)).symm
    · next hunmarked =>
      have hnot : ¬ MarkedAt s.utxos input.prevTransactionOutputHash := fun ⟨o, ho⟩ => hunmarked o ho
      have hyields : ¬ Resists s newFee input.prevTransactionOutputHash := fun ⟨_, _, hi, _⟩ => hnot hi.1
      refine (ih _ hrest).conseq (fun _ e => e ▸ hkeep fun hstale => hnot hstale.1)
        (fun _ _ => .cons hyields fun i => ?_) (fun _ _ => .cons hyields) fun _ => id
      exact (or_iff_left fun hi : FoundAt s _ i => hnot hi.1).symm

/-! ## Removing what was found -/

section

variable {α : Type*} {l : List ℕ} {xs : List α}

/-- What is left of a list, counted from `n`, without some positions. -/
def keepFrom (n : ℕ) (l : List ℕ) (xs : List α) : List α :=
  ((xs.zipIdx n).filter fun p => p.2 ∉ l).map Prod.fst

theorem keepFrom_cons (n : ℕ) (l : List ℕ) (x : α) (xs : List α) : keepFrom n l (x :: xs) =
    if n ∈ l then keepFrom (n + 1) l xs else x :: keepFrom (n + 1) l xs := by
  rw [keepFrom, List.zipIdx_cons, List.filter_cons]
  split_ifs with h₁ h₂ h₂
  · exact absurd h₂ (of_decide_eq_true h₁)
  · rfl
  · rfl
  · exact absurd (decide_eq_true h₂) h₁

theorem mem_of_mem_keepFrom {n : ℕ} {x : α} (hx : x ∈ keepFrom n l xs) : x ∈ xs := by
  obtain ⟨p, hp, rfl⟩ := List.mem_map.1 hx
  exact List.fst_mem_of_mem_zipIdx (List.mem_filter.1 hp).1

theorem keepFrom_eq_self {n : ℕ} (hlt : ∀ i ∈ l, i < n) : keepFrom n l xs = xs := by
  induction xs generalizing n with
  | nil => rfl
  | cons x xs ih =>
    rw [keepFrom_cons, if_neg fun hn => (hlt n hn).false, ih fun i hi => (hlt i hi).trans n.lt_succ_self]

/-- Without a later position first, then without the others. -/
theorem keepFrom_eraseIdx {n k : ℕ} (hlt : ∀ i ∈ l, i < n + k) (hk : k < xs.length) :
    keepFrom n l (xs.eraseIdx k) = keepFrom n ((n + k) :: l) xs := by
  induction xs generalizing n k with
  | nil => exact absurd hk (Nat.not_lt_zero k)
  | cons x xs ih =>
    rcases k with _ | k
    · rw [Nat.add_zero] at hlt ⊢
      rw [keepFrom_cons, if_pos List.mem_cons_self, List.eraseIdx_cons_zero, keepFrom_eq_self hlt,
        keepFrom_eq_self (List.forall_mem_cons.2
          ⟨Nat.lt_succ_self _, fun i hi => (hlt i hi).trans n.lt_succ_self⟩)]
    · have hrest := ih (n := n + 1) (fun i hi => (hlt i hi).trans_eq (by omega)) (Nat.lt_of_succ_lt_succ hk)
      have hhead : n ∈ (n + (k + 1)) :: l ↔ n ∈ l := by
        rw [List.mem_cons]
        exact or_iff_right (by omega)
      rw [List.eraseIdx_cons_succ, keepFrom_cons, keepFrom_cons, hrest, add_right_comm, add_assoc]
      simp only [hhead]

/-- What is left is what has some property, if the positions are those of what does not. -/
theorem keepFrom_perm_filter {q : α → Bool} (hl : ∀ i ∈ l, ∀ a, xs[i]? = some a → q a = false) :
    (keepFrom 0 l xs).Perm (xs.filter q) ↔ ∀ i a, xs[i]? = some a → q a = false → i ∈ l := by
  have hfilter : xs.filter q = ((xs.zipIdx.filter fun p => q p.1)).map Prod.fst := by
    conv_lhs => rw [← List.zipIdx_map_fst 0 xs, List.filter_map]
    rfl
  have himp : ∀ p ∈ xs.zipIdx, q p.1 = true → decide (p.2 ∉ l) = true := by
    intro p hp hq
    refine decide_eq_true fun hmem => ?_
    rw [hl _ hmem _ (List.mem_zipIdx_iff_getElem?.1 hp)] at hq
    cases hq
  -- What has the property is among what is left, and is all of it if there is as much of both.
  have hsub : (xs.zipIdx.filter fun p => q p.1).Sublist (xs.zipIdx.filter fun p => p.2 ∉ l) := by
    have hnarrow : (xs.zipIdx.filter fun p => q p.1) =
        (xs.zipIdx.filter fun p => p.2 ∉ l).filter fun p => q p.1 := by
      rw [List.filter_filter]
      refine List.filter_congr fun p hp => ?_
      cases hq : q p.1
      · rfl
      · rw [himp p hp hq]
        rfl
    rw [hnarrow]
    exact List.filter_sublist
  rw [keepFrom, hfilter]
  constructor
  · intro hperm i a ha hq
    have heq := hsub.eq_of_length (by simpa using hperm.length_eq.symm)
    by_contra hi
    have hmem : (a, i) ∈ xs.zipIdx.filter fun p => p.2 ∉ l :=
      List.mem_filter.2 ⟨List.mem_zipIdx_iff_getElem?.2 ha, decide_eq_true hi⟩
    rw [← heq] at hmem
    exact Bool.false_ne_true (hq.symm.trans (List.mem_filter.1 hmem).2)
  · intro hall
    refine .of_eq (congrArg _ (List.filter_congr fun p hp => ?_))
    cases hq : q p.1
    · exact decide_eq_false (not_not.2 (hall _ _ (List.mem_zipIdx_iff_getElem?.1 hp) hq))
    · exact himp p hp hq

end

/-- Removing entries from the last one on, exactly. -/
theorem triple_removeAll_exact {l : List ℕ} (hl : l.Pairwise (· > ·)) (hlt : ∀ i ∈ l, i < s.mempool.length) :
    Triple (· = s) (Call.forEach l removeFromMempool) (fun _ t => t.mempool = keepFrom 0 l s.mempool)
      (fun _ _ => False) fun _ => False := by
  induction l generalizing s with
  | nil =>
    refine .pure fun t e => ?_
    rw [e, keepFrom_eq_self (by simp)]
  | cons idx l ih =>
    obtain ⟨hgt, hl⟩ := List.pairwise_cons.1 hl
    have hidx := hlt idx List.mem_cons_self
    refine .bind (R := fun _ t => t = { s with
        mempool := s.mempool.eraseIdx idx
        utxos := s.utxos.setMarks false s.mempool[idx].2.spends }) ?_ fun _ => ?_
    · refine .get_bind fun t e => ?_
      subst e
      refine .lift_bind (Outcome.expect_eq_ok.2 (List.getElem?_eq_getElem hidx)) (.modify ?_)
      rintro _ rfl
      rfl
    · refine (ih hl fun i hi => ?_).conseq (fun _ => id) (fun _ t ht => ?_) (fun _ _ => id) fun _ => id
      · have := hgt i hi
        rw [List.length_eraseIdx_of_lt hidx]
        omega
      · rw [ht]
        have herase := keepFrom_eraseIdx (n := 0) (fun i hi => (hgt i hi).trans_eq (Nat.zero_add idx).symm) hidx
        rwa [Nat.zero_add] at herase

/-! ## The offer -/

/-- The transaction passes its checks, with a fee. -/
def Passes (c : Crypto) (s : Blockchain) (tx : Transaction) (newFee : ℕ) : Prop :=
  checkInputs c s.utxos tx.outputs tx.inputs [] = .ok () ∧ transactionFee s.utxos tx = .ok newFee

/-- What an offer does, exactly, to what an expiry leaves. -/
theorem triple_offer_exact (hs : Admitted s) (now : DateTime) (tx : Transaction) :
    Triple (· = s) (addToMempool c now tx)
      (fun _ t => ∃ newFee indices, Passes c (s.cleanupMempool now) tx newFee ∧
        (∀ x ∈ tx.spends, ¬ Resists (s.cleanupMempool now) newFee x) ∧
        (∀ i, i ∈ indices ↔ ∃ x ∈ tx.spends, FoundAt (s.cleanupMempool now) x i) ∧
        t.mempool.Perm (keepFrom 0 indices (s.cleanupMempool now).mempool ++ [(now, tx)]))
      (fun _ t => (t = s.cleanupMempool now ∧ ∀ newFee, ¬ Passes c (s.cleanupMempool now) tx newFee) ∨
        ∃ newFee, Passes c (s.cleanupMempool now) tx newFee ∧
          MeetsResistance (s.cleanupMempool now) newFee [] tx.spends t)
      fun _ => False := by
  refine .bind (R := fun _ t => t = s.cleanupMempool now) (.modify ?_) fun _ => .get_bind fun r e => ?_
  · rintro _ rfl
    rfl
  subst e
  have hr := hs.cleanupMempool now
  generalize s.cleanupMempool now = r at hr
  -- If the checks fail, nothing has been touched but by the expiry.
  refine .lift_known (fun _ hcheck => ?_) (fun e he => .inl ⟨rfl, fun _ hp => ?_⟩)
    fun he => checkInputs_ne_panic he
  swap
  · rw [hp.1] at he
    cases he
  refine .lift_known (fun newFee hfee => ?_) (fun e he => .inl ⟨rfl, fun _ hp => ?_⟩)
    fun he => transactionFee_ne_panic (mem_of_checkInputs hcheck) he
  swap
  · rw [hp.2] at he
    cases he
  have hpasses : Passes c r tx newFee := ⟨hcheck, hfee⟩
  have hnodup : tx.spends.Nodup := (checkInputs_eq_ok hcheck).1
  refine .bind (R := fun indices t => FindsConflicts r newFee [] tx.spends [] indices t ∧
      (indices.Nodup ∧ ∀ i ∈ indices, i < r.mempool.length))
    (((triple_conflictingIndices_exact hr newFee [] hnodup).and
      (triple_conflictingIndices hr newFee List.nodup_nil (by simp))).conseq (fun t e => ?_)
        (fun _ t ht => ⟨ht.1, ht.2.2⟩) (fun _ t ht => .inr ⟨newFee, hpasses, ht.1⟩) fun _ ht => ht.1)
    fun indices => .of_state fun t ht => ?_
  · subst e
    exact ⟨Clears.none (by simp), .refl _, rfl⟩
  obtain ⟨hfinds, hdistinct, hlt⟩ := ht
  have hmempool : t.mempool = r.mempool := hfinds.clears.mempool
  have hsorted : ∀ i ∈ indices.insertionSort (· ≥ ·), i < t.mempool.length := fun i hi => by
    rw [hmempool]
    exact hlt i ((List.mem_insertionSort _).1 hi)
  -- What was found is removed from the last position on, so that the others stay where they are.
  refine .bind (R := fun _ t' => SameChain t t' ∧
      t'.mempool = keepFrom 0 (indices.insertionSort (· ≥ ·)) r.mempool)
    (((triple_removeAll (pairwise_removalOrder hdistinct) hsorted).and
      (triple_removeAll_exact (pairwise_removalOrder hdistinct) hsorted)).conseq (fun _ e => ⟨e, e⟩)
        (fun _ t' ht' => ⟨ht'.1.1, hmempool ▸ ht'.2⟩) (fun _ _ ht' => ht'.1.elim) fun _ ht' => ht'.1)
    fun _ => .get_bind fun t' ht' => ?_
  obtain ⟨hsame, hleft⟩ := ht'
  have hu : SameOutputs t'.utxos r.utxos := hsame.outputs.trans hfinds.clears.outputs
  -- The fee is computed once more. The outputs are the same, so it is in range as before.
  obtain ⟨inputs, hinputs, hfee⟩ := Outcome.bind_eq_ok.1 hfee
  obtain ⟨outputs, houtputs, hfee⟩ := Outcome.bind_eq_ok.1 hfee
  obtain ⟨_, hle, -⟩ := Outcome.bind_eq_ok.1 hfee
  have hinputs' : inputValue t'.utxos tx.inputs 0 = .ok inputs := by
    rw [← hinputs]
    exact inputValue_congr fun input hi => agreeOn_of_sameOutputs hu _ (List.mem_map_of_mem hi)
  refine .lift_bind hinputs' (.lift_bind houtputs (.lift_bind hle (.modify_bind ?_)))
  have hpresent : ∀ x ∈ tx.spends, x ∈ t'.utxos := fun x hx => hu.mem_iff.2 (mem_of_checkInputs hcheck x hx)
  have hkept : ∀ entry ∈ t'.mempool, entry ∈ r.mempool := fun entry he => mem_of_mem_keepFrom (hleft ▸ he)
  have hadmit := (hr.of_subset hkept hu).offered hnodup hpresent now
  refine (triple_sortMempool hadmit).conseq (fun _ => id) (fun _ t'' ht'' => ?_)
    (fun _ _ => False.elim) fun _ => id
  refine ⟨newFee, indices.insertionSort (· ≥ ·), hpasses, hfinds.yields, fun i => ?_, ?_⟩
  · rw [List.mem_insertionSort, hfinds.found]
    simp
  · rw [← hleft]
    exact ht''.2

/-! ## What it should do -/

/-- What an offer should do: if it is refused, what an expiry leaves stays as it is, and if it is
    taken, the transaction replaces those that share an input with it, all of which pay less. -/
def Settles (c : Crypto) (now : DateTime) (tx : Transaction) (s : Blockchain) : Prop :=
  (∀ t e, addToMempool c now tx s = (t, .err e) →
    t.mempool = (s.cleanupMempool now).mempool ∧ t.utxos = (s.cleanupMempool now).utxos) ∧
  ∀ t, addToMempool c now tx s = (t, .ok ()) →
    t.mempool.Perm ((s.cleanupMempool now).mempool.filter
      (fun old => decide (∀ x ∈ old.2.spends, x ∉ tx.spends)) ++ [(now, tx)]) ∧
    ∀ old ∈ (s.cleanupMempool now).mempool, (∃ x ∈ old.2.spends, x ∈ tx.spends) → ∃ oldFee newFee,
      transactionFee (s.cleanupMempool now).utxos old.2 = .ok oldFee ∧
      transactionFee (s.cleanupMempool now).utxos tx = .ok newFee ∧ oldFee < newFee

/-- The marks are in order, for an offer that passes its checks. If one of its inputs resists, no
    mark before the first such is stale; if none does, each transaction that shares an input with
    it is what is found for some input. -/
structure InOrder (c : Crypto) (s : Blockchain) (tx : Transaction) : Prop where
  refused : ∀ newFee, Passes c s tx newFee → ∀ pre h post, tx.spends = pre ++ h :: post →
    (∀ x ∈ pre, ¬ Resists s newFee x) → Resists s newFee h → ∀ x ∈ pre, ¬ Stale s x
  taken : ∀ newFee, Passes c s tx newFee → (∀ x ∈ tx.spends, ¬ Resists s newFee x) →
    ∀ i old, s.mempool[i]? = some old → (∃ x ∈ old.2.spends, x ∈ tx.spends) → ∃ x ∈ tx.spends, FoundAt s x i

theorem Passes.unique {fee fee' : ℕ} (h : Passes c s tx fee) (h' : Passes c s tx fee') : fee = fee' :=
  Outcome.ok.inj (h.2.symm.trans h'.2)

/-- What precedes the first element with a property is determined. -/
theorem prefix_unique {α : Type*} {P : α → Prop} {pre pre' post post' : List α} {a a' : α}
    (h : pre ++ a :: post = pre' ++ a' :: post') (hpre : ∀ x ∈ pre, ¬ P x) (ha : P a)
    (hpre' : ∀ x ∈ pre', ¬ P x) (ha' : P a') : pre = pre' := by
  induction pre generalizing pre' with
  | nil =>
    cases pre' with
    | nil => rfl
    | cons b pre' => exact absurd ((List.cons.inj h).1 ▸ ha) (hpre' b List.mem_cons_self)
  | cons b pre ih =>
    cases pre' with
    | nil => exact absurd ((List.cons.inj h).1 ▸ ha') (hpre b List.mem_cons_self)
    | cons b' pre' =>
      obtain ⟨rfl, htail⟩ := List.cons.inj h
      rw [ih htail (fun x hx => hpre x (List.mem_cons_of_mem _ hx)) fun x hx =>
        hpre' x (List.mem_cons_of_mem _ hx)]

/-- A transaction found for an input spends it. -/
theorem FoundAt.spends {i : ℕ} {old : DateTime × Transaction} (hf : FoundAt s h i)
    (hold : s.mempool[i]? = some old) : h ∈ old.2.spends := by
  obtain ⟨hi, hspends, -⟩ := List.findIdx?_eq_some_iff_getElem.1 hf.2
  obtain rfl := Option.some.inj ((List.getElem?_eq_getElem hi).symm.trans hold)
  exact of_decide_eq_true hspends

/-- A refused offer changes nothing iff it clears no stale mark. -/
theorem settles_refused_iff {newFee : ℕ} (hp : Passes c s tx newFee) {t : Blockchain}
    (hm : MeetsResistance s newFee [] tx.spends t) :
    (t.mempool = s.mempool ∧ t.utxos = s.utxos) ↔ InOrder c s tx := by
  obtain ⟨pre, h, post, hspends, hpre, hres, hclears⟩ := hm
  have hiff : t.utxos = s.utxos ↔ ∀ x ∈ pre, ¬ Stale s x := by
    rw [hclears.eq_iff fun x hx => hx.2.1]
    simp only [List.nil_append, not_and]
  rw [hiff, and_iff_right hclears.mempool]
  constructor
  · intro hstale
    refine ⟨fun newFee' hp' pre' h' post' hspends' hpre' hres' => ?_, fun newFee' hp' hyields => ?_⟩
    · obtain rfl := hp.unique hp'
      rw [← prefix_unique (hspends.symm.trans hspends') hpre hres hpre' hres']
      exact hstale
    · obtain rfl := hp.unique hp'
      exact absurd hres (hyields h (by simp [hspends]))
  · intro horder
    exact horder.refused newFee hp pre h post hspends hpre hres

/-- An offer that is taken replaces what it conflicts with iff all of that is found. -/
theorem settles_taken_iff {newFee : ℕ} {indices : List ℕ} (hp : Passes c s tx newFee)
    (hyields : ∀ x ∈ tx.spends, ¬ Resists s newFee x)
    (hfound : ∀ i, i ∈ indices ↔ ∃ x ∈ tx.spends, FoundAt s x i) :
    ((keepFrom 0 indices s.mempool).Perm
        (s.mempool.filter fun old => decide (∀ x ∈ old.2.spends, x ∉ tx.spends)) ∧
      ∀ old ∈ s.mempool, (∃ x ∈ old.2.spends, x ∈ tx.spends) → ∃ oldFee newFee,
        transactionFee s.utxos old.2 = .ok oldFee ∧ transactionFee s.utxos tx = .ok newFee ∧ oldFee < newFee) ↔
      InOrder c s tx := by
  have hshares : ∀ old : DateTime × Transaction,
      decide (∀ x ∈ old.2.spends, x ∉ tx.spends) = false ↔ ∃ x ∈ old.2.spends, x ∈ tx.spends := by simp
  rw [keepFrom_perm_filter fun i hi old hold => by
    obtain ⟨x, hx, hf⟩ := (hfound i).1 hi
    exact (hshares old).2 ⟨x, hf.spends hold, hx⟩]
  constructor
  · rintro ⟨hall, -⟩
    refine ⟨fun newFee' hp' pre h post hspends _ hres => ?_, fun newFee' hp' _ i old hold hs => ?_⟩
    · obtain rfl := hp.unique hp'
      exact absurd hres (hyields h (by simp [hspends]))
    · exact (hfound i).1 (hall i old hold ((hshares old).2 hs))
  · intro horder
    have htaken := horder.taken newFee hp hyields
    refine ⟨fun i old hold hs => (hfound i).2 (htaken i old hold ((hshares old).1 hs)), fun old hold hs => ?_⟩
    obtain ⟨i, hi⟩ := List.getElem?_of_mem hold
    obtain ⟨x, hx, hf⟩ := htaken i old hi hs
    by_contra hnone
    refine hyields x hx ⟨i, old, hf, hi, fun oldFee hfee => ?_⟩
    exact not_lt.1 fun hlt => hnone ⟨oldFee, newFee, hfee, hp.2, hlt⟩

/-- An offer does what it should exactly where the marks are in order. -/
theorem settles_iff (hs : Admitted s) (now : DateTime) (tx : Transaction) :
    Settles c now tx s ↔ InOrder c (s.cleanupMempool now) tx := by
  have hend := triple_offer_exact (c := c) hs now tx s rfl
  rw [Settles]
  generalize addToMempool c now tx s = res at hend
  obtain ⟨t, _ | e | _⟩ := res
  · obtain ⟨newFee, indices, hp, hyields, hfound, hperm⟩ := hend
    rw [← settles_taken_iff hp hyields hfound]
    constructor
    · rintro ⟨-, h⟩
      obtain ⟨hleft, hfees⟩ := h t rfl
      exact ⟨(List.perm_append_right_iff _).1 (hperm.symm.trans hleft), hfees⟩
    · rintro ⟨hleft, hfees⟩
      refine ⟨fun t' e he => ?_, fun t' he => ?_⟩
      · cases (Prod.mk.inj he).2
      · obtain ⟨rfl, -⟩ := Prod.mk.inj he
        exact ⟨hperm.trans (hleft.append_right _), hfees⟩
  -- It is refused, so only the first half of what it should do is of interest.
  · have hstate : ∀ (P : Blockchain → Prop) (Q : Blockchain → Prop),
        ((∀ t' e', (t, (.err e : Outcome BtcError Unit)) = (t', .err e') → P t') ∧
          ∀ t', (t, (.err e : Outcome BtcError Unit)) = (t', .ok ()) → Q t') ↔ P t := by
      intro P Q
      refine ⟨fun h => h.1 t e rfl, fun h => ⟨fun t' e' he => (Prod.mk.inj he).1 ▸ h, fun t' he => ?_⟩⟩
      cases (Prod.mk.inj he).2
    rw [hstate]
    rcases hend with ⟨rfl, hfails⟩ | ⟨newFee, hp, hm⟩
    · exact ⟨fun _ => ⟨fun newFee hp => absurd hp (hfails newFee), fun newFee hp => absurd hp (hfails newFee)⟩,
        fun _ => ⟨rfl, rfl⟩⟩
    · exact settles_refused_iff hp hm
  · exact hend.elim

/-- Exact marks are in order for every offer. -/
theorem Marked.inOrder (hm : Marked s) : InOrder c s tx := by
  refine ⟨fun _ _ pre h post _ _ _ x _ hstale => ?_, fun _ _ _ i old hold hs => ?_⟩
  · obtain ⟨⟨o, ho⟩, hnone⟩ := hstale
    obtain ⟨entry, hentry, hmem⟩ := (hm.exact _ _ ho).1 rfl
    exact absurd hmem (by simpa using List.findIdx?_eq_none_iff.1 hnone entry hentry)
  · obtain ⟨x, hx, hxtx⟩ := hs
    have hentry := List.mem_of_getElem? hold
    obtain ⟨⟨marked, o⟩, ho⟩ := Finmap.mem_iff.1 (hm.present old hentry x hx)
    obtain rfl : marked = true := (hm.exact _ _ ho).2 ⟨old, hentry, hx⟩
    refine ⟨x, hxtx, ⟨o, ho⟩, ?_⟩
    cases hfind : s.findMempoolIndexSpending x with
    | none => exact absurd hx (by simpa using List.findIdx?_eq_none_iff.1 hfind old hentry)
    | some j =>
      obtain ⟨hj, hspends, -⟩ := List.findIdx?_eq_some_iff_getElem.1 hfind
      rw [hm.index_unique (List.getElem?_eq_getElem hj) hold (of_decide_eq_true hspends) hx]

theorem admitted_of_reachable (hs : (chainSystem c).Reachable s) : Admitted s := by
  have hinv : Keyed c s ∧ Admitted s := by
    refine invariant_of_moves (P := fun _ _ _ => True) (I := fun s => Keyed c s ∧ Admitted s)
      ⟨keyed_new, admitted_new⟩ (fun amb => (moves_keyed amb _).and
        ((moves_admitted amb _).congr (fun _ => Iff.rfl) fun _ => False.elim)) (fun _ hs => hs.1)
      (fun now tx => ?_) (fun now s hs => ?_) (fun offset s hs => ?_)
      (hs.mono fun s op _ => taking_of_forall (fun _ _ _ => trivial) s op)
    · exact (ofChain_keyed.addToMempool now tx).and ((triple_addToMempool now tx).conseq (fun _ => id)
        (fun _ _ => id) (fun _ _ => id) fun _ => False.elim)
    · exact ⟨ofChain_keyed.1 _ _ ((SameChain.refl s).cleanupMempool now) hs.1, hs.2.cleanupMempool now⟩
    · exact ⟨ofChain_keyed.2 s offset hs.1, hs.2.nodup, hs.2.present⟩
  exact hinv.2

/-- In every state that is reached, a refused transaction changes nothing but what expires, and
    one that is taken replaces just the transactions it shares an input with, all of which pay
    less, if and only if the marks are in order for it. They are, for every transaction, in every
    run whose blocks, when they extend the tip, spend the inputs of each pending transaction all
    or none and create none of them again. -/
theorem refused_changes_nothing (htx : Function.Injective c.hashTransaction) :
    (∀ s, (chainSystem c).Reachable s → ∀ now tx,
      Settles c now tx s ↔ InOrder c (s.cleanupMempool now) tx) ∧
    ∀ s, (chainSystem c).ReachableBy (Taking c (AllOrNone c)) s → ∀ now tx, Settles c now tx s := by
  constructor
  · intro s hs now tx
    exact settles_iff (admitted_of_reachable hs) now tx
  · intro s hs now tx
    have hm := marked_of_reachable htx hs
    exact (settles_iff hm.toAdmitted now tx).2 (hm.cleanupMempool now).inOrder

/-! ## A refused offer that clears a mark -/

/-- Two outputs are pending together, and one of them is offered again, for a fee. -/
def better : Transaction := Sample.payment [⟨3, 9⟩] 6 (50 * 10 ^ 8 - 10) 13

/-- It replaces the transaction that spends both. -/
theorem refused_changes_nothing_replaced :
    let s := run markCrypto (Sample.delivering [Sample.genesis, paying₈, paying₉] ++
      [.addToMempool (Duration.seconds 3600) both])
    s.mempool.map Prod.snd = [both] ∧ Settles markCrypto (Duration.seconds 3600) better s ∧
      InOrder markCrypto (s.cleanupMempool (Duration.seconds 3600)) better := by
  obtain ⟨hiff, hall⟩ := refused_changes_nothing (c := markCrypto) (tableHash_injective _)
  have hreached : (chainSystem markCrypto).ReachableBy (Taking markCrypto (AllOrNone markCrypto))
      (run markCrypto (Sample.delivering [Sample.genesis, paying₈, paying₉] ++
        [.addToMempool (Duration.seconds 3600) both])) :=
    reachableBy_run_concat _ reachableBy_paying trivial
  have hsettles := hall _ hreached (Duration.seconds 3600) better
  exact ⟨by decide +kernel, hsettles, (hiff _ (reachable_run _) _ _).1 hsettles⟩

/-- The output that the third block creates is pending, for a fee of 100. -/
def unbeaten : Transaction := Sample.payment [⟨5, 11⟩] 6 (50 * 10 ^ 8 - 100) 13

/-- It is offered again for the same fee, after the output whose mark outlived its transaction. -/
def late : Transaction := Sample.payment [⟨3, 9⟩, ⟨5, 11⟩] 7 (100 * 10 ^ 8 - 100) 14

noncomputable def contested : Blockchain :=
  run markCrypto (Sample.delivering [Sample.genesis, paying₈, paying₉] ++
    [.addToMempool (Duration.seconds 3600) both] ++ Sample.delivering [spendingFirst] ++
    [.addToMempool (Duration.seconds 3600) unbeaten])

/-- The offer is refused, and the mark is cleared. -/
theorem refused_clears_mark : (chainSystem markCrypto).Reachable contested ∧
    ¬ Settles markCrypto (Duration.seconds 3600) late contested := by
  refine ⟨reachable_run _, fun hsettles => ?_⟩
  have herr : (addToMempool markCrypto (Duration.seconds 3600) late contested).2 =
      .err .invalidTransaction := by
    decide +kernel
  have hutxos := (hsettles.1 (addToMempool markCrypto (Duration.seconds 3600) late contested).1 _
    (Prod.ext rfl herr)).2
  have hafter : ((addToMempool markCrypto (Duration.seconds 3600) late contested).1.utxos.lookup 3).map
      Prod.fst = some false := by
    decide +kernel
  rw [hutxos] at hafter
  have hbefore : ((contested.cleanupMempool (Duration.seconds 3600)).utxos.lookup 3).map Prod.fst =
      some true := by
    decide +kernel
  rw [hbefore] at hafter
  cases hafter

end Itx.Blockchain
