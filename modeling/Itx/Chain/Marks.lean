import Itx.Chain.Mempool

/-!
# The marks

An unspent output is *marked* to say that a transaction of the mempool spends it.
The marks are set on admission, cleared when a transaction expires or is
replaced, and set anew when the active chain is switched. On those paths they
are exact (`Marked`), since two transactions of the mempool spend nothing in
common.

A block extending the tip evicts the transactions it takes an input of, and does
not clear the marks of their other inputs; and it creates its outputs unmarked,
even those a pending transaction spends already (`mark_outlives_transaction`).
Where such a block spends the inputs of each pending transaction all or none, and
creates none of them again (`AllOrNone`), the marks are exact in every run
(`marks_exact`).
-/

namespace Itx.Blockchain

open Utxos Call

variable {c : Crypto} {u : Utxos} {now : DateTime} {s s₀ : Blockchain} {block : Block} {h : Hash}

/-- Some transaction of the mempool spends the output. -/
def Pending (mempool : List (DateTime × Transaction)) (h : Hash) : Prop :=
  ∃ entry ∈ mempool, h ∈ entry.2.spends

/-- The transactions of the mempool are admitted and spend nothing in common, and
    the marks say what they spend. -/
structure Marked (s : Blockchain) : Prop extends Admitted s where
  disjoint : s.mempool.Pairwise fun a b => a.2.spends.Disjoint b.2.spends
  exact : ∀ h p, s.utxos.lookup h = some p → (p.1 = true ↔ Pending s.mempool h)

/-! ## Leaving the mempool -/

/-- Some transactions leave, and what they spend is unmarked. -/
theorem Marked.drop (hm : Marked s) {kept dropped : List (DateTime × Transaction)}
    (hperm : (kept ++ dropped).Perm s.mempool) :
    Marked { s with
      mempool := kept
      utxos := s.utxos.setMarks false (dropped.flatMap fun entry => entry.2.spends) } := by
  have hkept : ∀ entry ∈ kept, entry ∈ s.mempool := fun entry he =>
    hperm.mem_iff.1 (List.mem_append_left _ he)
  have hpair := (hperm.pairwise_iff fun {_ _} hd => List.Disjoint.symm hd).2 hm.disjoint
  obtain ⟨hk, -, hcross⟩ := List.pairwise_append.1 hpair
  refine ⟨hm.toAdmitted.of_subset hkept (sameOutputs_setMarks _ _ _), hk, fun h p hp => ?_⟩
  rw [lookup_setMarks] at hp
  split_ifs at hp with hd
  · -- Unmarked, and nothing that is kept spends it.
    obtain ⟨q, -, rfl⟩ := Option.map_eq_some_iff.1 hp
    obtain ⟨e, he, hh⟩ := List.mem_flatMap.1 hd
    refine ⟨nofun, ?_⟩
    rintro ⟨e', he', hh'⟩
    exact (hcross e' he' e he hh' hh).elim
  · rw [hm.exact h p hp]
    refine ⟨?_, fun ⟨e, he, hh⟩ => ⟨e, hkept e he, hh⟩⟩
    rintro ⟨e, he, hh⟩
    rcases List.mem_append.1 (hperm.mem_iff.2 he) with he | he
    · exact ⟨e, he, hh⟩
    · exact absurd (List.mem_flatMap.2 ⟨e, he, hh⟩) hd

theorem Marked.cleanupMempool (hm : Marked s) (now : DateTime) : Marked (s.cleanupMempool now) := by
  refine hm.drop ((List.perm_append_comm).trans ?_)
  exact List.filter_append_perm (expired now) s.mempool

theorem marked_removeFromMempool (idx : ℕ) : Preserves Marked (removeFromMempool idx) := by
  refine .get_bind fun s hs => .lift_known (fun removed hr => .modify fun s' e => ?_)
    (fun _ _ => hs) fun _ => hs
  subst e
  obtain ⟨hi, rfl⟩ := List.getElem?_eq_some_iff.1 (Outcome.expect_eq_ok.1 hr)
  have hperm : (s'.mempool.eraseIdx idx ++ [s'.mempool[idx]]).Perm s'.mempool :=
    List.perm_append_comm.trans (List.getElem_cons_eraseIdx_perm hi)
  have hdrop := hs.drop hperm
  simpa using hdrop

/-! ## Entering the mempool -/

/-- Two positions of the mempool spending the same output are one. -/
theorem Marked.index_unique (hm : Marked s) {i j : ℕ} {a b : DateTime × Transaction}
    (ha : s.mempool[i]? = some a) (hb : s.mempool[j]? = some b) (hha : h ∈ a.2.spends)
    (hhb : h ∈ b.2.spends) : i = j := by
  obtain ⟨hi, rfl⟩ := List.getElem?_eq_some_iff.1 ha
  obtain ⟨hj, rfl⟩ := List.getElem?_eq_some_iff.1 hb
  have hpair := List.pairwise_iff_getElem.1 hm.disjoint
  rcases lt_trichotomy i j with hlt | he | hlt
  · exact (hpair i j hi hj hlt hha hhb).elim
  · exact he
  · exact (hpair j i hj hi hlt hhb hha).elim

/-- With exact marks, looking for conflicts changes nothing and finds them all. -/
theorem Marked.triple_conflictingIndices (hm : Marked s) (newFee : ℕ)
    {inputs : List TransactionInput} {indices : List ℕ} :
    Triple (· = s) (conflictingIndices newFee inputs indices)
      (fun indices' s' => s' = s ∧ (∀ i ∈ indices, i ∈ indices') ∧
        ∀ input ∈ inputs, ∀ i entry, s.mempool[i]? = some entry →
          input.prevTransactionOutputHash ∈ entry.2.spends → i ∈ indices')
      (fun _ s' => s' = s) fun _ => True := by
  induction inputs generalizing indices with
  | nil => exact .pure fun s' e => ⟨e, fun i hi => hi, by simp⟩
  | cons input inputs ih =>
    refine .get_bind fun s' e => ?_
    subst e
    split
    · next o hlookup =>
      split
      · next idx hidx =>
        obtain ⟨hi, hspends, -⟩ := List.findIdx?_eq_some_iff_getElem.1 hidx
        refine .lift_bind (Outcome.expect_eq_ok.2 (List.getElem?_eq_getElem hi)) ?_
        refine .lift_known (fun _ _ => .lift_known (fun _ _ => ?_) (fun _ _ => rfl) fun _ => trivial)
          (fun _ _ => rfl) fun _ => trivial
        refine ih.conseq (fun _ => id) (fun indices' t ht => ?_) (fun _ _ => id) fun _ => id
        obtain ⟨rfl, hsub, hall⟩ := ht
        refine ⟨rfl, fun i hi => hsub i (List.mem_insert_of_mem hi), fun i hi => ?_⟩
        rcases List.mem_cons.1 hi with rfl | hi
        · intro j entry hj hmem
          rw [← hm.index_unique (List.getElem?_eq_getElem (by assumption)) hj
            (of_decide_eq_true hspends) hmem]
          exact hsub _ List.mem_insert_self
        · exact hall i hi
      · next hnone =>
        -- A marked output is spent by some transaction.
        obtain ⟨entry, hentry, hmem⟩ := (hm.exact _ _ hlookup).1 rfl
        exact absurd hmem (by simpa using List.findIdx?_eq_none_iff.1 hnone entry hentry)
    · next hunmarked =>
      refine ih.conseq (fun _ => id) (fun indices' t ht => ?_) (fun _ _ => id) fun _ => id
      obtain ⟨rfl, hsub, hall⟩ := ht
      refine ⟨rfl, hsub, fun i hi => ?_⟩
      rcases List.mem_cons.1 hi with rfl | hi
      · -- An output some transaction spends exists and is marked.
        intro j entry hj hmem
        have hentry := List.mem_of_getElem? hj
        obtain ⟨p, hp⟩ := Finmap.mem_iff.1 (hm.present entry hentry _ hmem)
        have hmarked : p.1 = true := (hm.exact _ _ hp).2 ⟨entry, hentry, hmem⟩
        exact (hunmarked p.2 (by rw [hp, ← hmarked])).elim
      · exact hall i hi

/-- The last step of an admission: what the transaction spends is marked. -/
theorem Marked.admit (hm : Marked s) {tx : Transaction} (hnodup : tx.spends.Nodup)
    (hpresent : ∀ x ∈ tx.spends, x ∈ s.utxos)
    (hfree : ∀ entry ∈ s.mempool, entry.2.spends.Disjoint tx.spends) :
    Marked { s with
      utxos := s.utxos.setMarks true tx.spends
      mempool := s.mempool ++ [(now, tx)] } := by
  refine ⟨hm.toAdmitted.offered hnodup hpresent now, ?_, fun h p hp => ?_⟩
  · refine List.pairwise_append.2 ⟨hm.disjoint, List.pairwise_singleton _ _, fun a ha b hb => ?_⟩
    rw [List.mem_singleton.1 hb]
    exact hfree a ha
  · rw [lookup_setMarks] at hp
    split_ifs at hp with hspent
    · obtain ⟨q, -, rfl⟩ := Option.map_eq_some_iff.1 hp
      exact ⟨fun _ => ⟨(now, tx), by simp, hspent⟩, fun _ => rfl⟩
    · rw [hm.exact h p hp]
      refine ⟨fun ⟨e, he, hh⟩ => ⟨e, List.mem_append_left _ he, hh⟩, ?_⟩
      rintro ⟨e, he, hh⟩
      rcases List.mem_append.1 he with he | he
      · exact ⟨e, he, hh⟩
      · rw [List.mem_singleton.1 he] at hh
        exact absurd hh hspent

theorem Marked.of_perm (hm : Marked s₀) (hperm : s.mempool.Perm s₀.mempool)
    (hu : s.utxos = s₀.utxos) : Marked s where
  toAdmitted := hm.toAdmitted.of_subset (fun _ he => hperm.mem_iff.1 he) (hu ▸ .refl _)
  disjoint := (hperm.pairwise_iff fun {_ _} hd => List.Disjoint.symm hd).2 hm.disjoint
  exact h p hp := by
    rw [hm.exact h p (hu ▸ hp)]
    exact ⟨fun ⟨e, he, hh⟩ => ⟨e, hperm.mem_iff.2 he, hh⟩,
      fun ⟨e, he, hh⟩ => ⟨e, hperm.mem_iff.1 he, hh⟩⟩

theorem marked_sortMempool : Preserves Marked sortMempool := by
  refine .get_bind fun s hs => .lift_known (fun _ _ => .modify fun s' e => ?_) (fun _ _ => hs)
    fun _ => hs
  subst e
  exact hs.of_perm (List.perm_insertionSort _ _) rfl

/-- Offering a transaction keeps the marks exact, whether or not it is taken. -/
theorem marks_addToMempool (now : DateTime) (tx : Transaction) :
    Triple Marked (addToMempool c now tx) (fun _ => Marked) (fun _ => Marked) fun _ => True := by
  have weaken : ∀ {α : Type} {x : ChainCall α}, Preserves Marked x →
      Triple Marked x (fun _ => Marked) (fun _ => Marked) fun _ => True := fun h =>
    h.conseq (fun _ => id) (fun _ _ => id) (fun _ _ => id) fun _ _ => trivial
  refine .bind (R := fun _ => Marked) (.modify fun s hs => hs.cleanupMempool now) fun _ => ?_
  refine .get_bind fun s hs => ?_
  refine .lift_known (fun _ hcheck => ?_) (fun _ _ => hs) fun _ => trivial
  refine .lift_known (fun newFee _ => ?_) (fun _ _ => hs) fun _ => trivial
  -- The positions found are those of all the conflicting transactions.
  refine .bind (R := fun indices s' => s' = s ∧ (indices.Nodup ∧ ∀ i ∈ indices, i < s.mempool.length) ∧
      ∀ input ∈ tx.inputs, ∀ i entry, s.mempool[i]? = some entry →
        input.prevTransactionOutputHash ∈ entry.2.spends → i ∈ indices)
    (((hs.triple_conflictingIndices newFee).and
      (Blockchain.triple_conflictingIndices hs.toAdmitted newFee List.nodup_nil (by simp))).conseq
        (fun t e => ⟨e, by subst e; exact ⟨.refl _, rfl⟩⟩) (fun _ t ht => ⟨ht.1.1, ht.2.2, ht.1.2.2⟩)
        (fun _ t ht => ht.1 ▸ hs) fun _ _ => trivial) fun indices => .of_state fun t ht => ?_
  obtain ⟨rfl, ⟨hnodup, hlt⟩, hall⟩ := ht
  refine .bind (R := fun _ t' => Marked t' ∧ SameChain t t' ∧
      ∀ entry ∈ t'.mempool, ∃ i ∉ indices, t.mempool[i]? = some entry)
    (((triple_removeAll (pairwise_removalOrder hnodup)
      fun i hi => hlt i ((List.mem_insertionSort _).1 hi)).and
        (Preserves.forEach fun idx _ => marked_removeFromMempool idx)).conseq
          (fun _ e => ⟨e, e ▸ hs⟩) (fun _ t' ht' => ⟨ht'.2, ht'.1.1, fun entry he => ?_⟩)
          (fun _ _ ht' => ht'.2) fun _ _ => trivial) fun _ => .get_bind fun t' ht' => ?_
  · obtain ⟨i, hi, he⟩ := ht'.1.2 entry he
    exact ⟨i, fun hm => hi ((List.mem_insertionSort _).2 hm), he⟩
  obtain ⟨ht', hsame, hleft⟩ := ht'
  refine .lift_known (fun _ _ => ?_) (fun _ _ => ht') fun _ => trivial
  refine .lift_known (fun _ _ => ?_) (fun _ _ => ht') fun _ => trivial
  refine .lift_known (fun _ _ => .modify_bind ?_) (fun _ _ => ht') fun _ => trivial
  refine (weaken marked_sortMempool).conseq (fun t'' e => ?_) (fun _ _ => id) (fun _ _ => id)
    fun _ => id
  subst e
  refine ht'.admit (checkInputs_eq_ok hcheck).1
    (fun x hx => hsame.outputs.mem_iff.2 (mem_of_checkInputs hcheck x hx)) fun entry he x hx hx' => ?_
  obtain ⟨i, hi, he⟩ := hleft entry he
  obtain ⟨input, hinput, rfl⟩ := List.mem_map.1 hx'
  exact hi (hall input hinput i entry he hx)

theorem marked_addToMempool {N : Blockchain → Prop} (now : DateTime) (tx : Transaction) :
    Triple Marked (addToMempool c now tx) (fun _ => Marked) (fun _ => Marked) N :=
  ((marks_addToMempool now tx).and (triple_addToMempool now tx)).conseq
    (fun _ hs => ⟨hs, hs.toAdmitted⟩) (fun _ _ hs => hs.1) (fun _ _ hs => hs.1) fun _ hs => hs.2.elim

/-! ## Switching the active chain -/

theorem markPending_eq (s : Blockchain) : s.markPending = { s with
    utxos := s.utxos.setMarks true (s.mempool.flatMap fun entry => entry.2.spends) } := by
  rw [markPending, setMarks, List.foldl_flatMap]
  rfl

/-- A replay marks nothing. -/
theorem unmarked_replayUtxos {blocks : Finmap fun _ : Hash => Block} {chain : List Hash}
    (hu : replayUtxos c blocks chain = some u) {p : Bool × TransactionOutput}
    (hp : u.lookup h = some p) : p.1 = false := by
  induction chain using List.reverseRecOn generalizing u p with
  | nil =>
    obtain rfl := Option.some.inj hu
    cases hp
  | append_singleton chain x ih =>
    rw [replayUtxos_concat] at hu
    obtain ⟨u', hu', hu⟩ := Option.bind_eq_some_iff.1 hu
    obtain ⟨b, -, rfl⟩ := Option.map_eq_some_iff.1 hu
    by_cases hc : h ∈ b.creates c
    · rcases lookup_applyTransactions_of_mem (u := u') hc with hn | ⟨o, -, -, ho⟩
      · rw [hn] at hp
        cases hp
      · rw [ho] at hp
        rw [← Option.some.inj hp]
    · rw [lookup_applyTransactions_of_notMem hc] at hp
      split_ifs at hp
      exact ih hu' hp

theorem Marked.switchTo (hm : Marked s) {newChain confirmed : List Hash} {target : U256}
    {blocks : Finmap fun _ : Hash => Block} (hu : replayUtxos c blocks newChain = some u) :
    Marked (s.switchTo c now newChain target u confirmed) := by
  refine ⟨hm.toAdmitted.switchTo now newChain target u confirmed, ?_, fun h p hp => ?_⟩
  · exact (hm.disjoint.filter _).filter _
  · rw [Blockchain.switchTo, markPending_eq, lookup_setMarks] at hp
    rw [Blockchain.switchTo, markPending_eq]
    split_ifs at hp with hpending
    · obtain ⟨q, -, rfl⟩ := Option.map_eq_some_iff.1 hp
      exact ⟨fun _ => List.mem_flatMap.1 hpending, fun _ => rfl⟩
    · -- Neither the replay nor an eviction marks anything.
      have hunmarked : p.1 = false := by
        have hp : (u.setMarks false _).lookup h = some p := hp
        rw [lookup_setMarks] at hp
        split_ifs at hp
        · obtain ⟨q, -, rfl⟩ := Option.map_eq_some_iff.1 hp
          rfl
        · exact unmarked_replayUtxos hu hp
      rw [hunmarked]
      exact ⟨nofun, fun ⟨e, he, hh⟩ => absurd (List.mem_flatMap.2 ⟨e, he, hh⟩) hpending⟩

/-! ## Blocks extending the tip -/

/-- A block that passes its checks as the next tip spends the inputs of each
    pending transaction all or none, and creates none of them again. -/
def AllOrNone (c : Crypto) (amb : Ambient) (s : Blockchain) (block : Block) : Prop :=
  ExtendsTip c amb.now s block → ∀ entry ∈ s.mempool, expired amb.now entry = false →
    (∀ h ∈ entry.2.spends, h ∉ block.creates c) ∧
      ((∃ h ∈ entry.2.spends, h ∈ block.spends) → ∀ h ∈ entry.2.spends, h ∈ block.spends)

theorem Marked.pushBlock (hm : Marked s) (htx : Function.Injective c.hashTransaction)
    (hall : ∀ entry ∈ s.mempool, expired now entry = false →
      (∀ h ∈ entry.2.spends, h ∉ block.creates c) ∧
        ((∃ h ∈ entry.2.spends, h ∈ block.spends) → ∀ h ∈ entry.2.spends, h ∈ block.spends)) :
    Marked (s.pushBlock c now block) := by
  refine ⟨hm.toAdmitted.pushBlock now block, (hm.disjoint.filter _).filter _, fun h p hp => ?_⟩
  have hp : ((applyTransactions c s.utxos block).setMarks false
    ((s.mempool.filter (expired now)).flatMap fun entry => entry.2.spends)).lookup h = some p := hp
  -- Two transactions of the mempool spending the same output expire together.
  have hsame : ∀ a ∈ s.mempool, ∀ b ∈ s.mempool, h ∈ a.2.spends → h ∈ b.2.spends →
      expired now a = expired now b := by
    intro a ha b hb hha hhb
    obtain ⟨i, hi⟩ := List.getElem?_of_mem ha
    obtain ⟨j, hj⟩ := List.getElem?_of_mem hb
    obtain rfl := hm.index_unique hi hj hha hhb
    rw [Option.some.inj (hi.symm.trans hj)]
  -- A transaction that is left has not expired.
  have hlive : ∀ {entry}, entry ∈ (s.pushBlock c now block).mempool →
      entry ∈ s.mempool ∧ expired now entry = false := fun he => by
    obtain ⟨he, hl⟩ := List.mem_filter.1 (List.mem_filter.1 he).1
    exact ⟨he, by simpa using hl⟩
  by_cases hc : h ∈ block.creates c
  · -- The output is new: unmarked, and spent by nothing pending.
    have hunmarked : p.1 = false := by
      rw [lookup_setMarks] at hp
      rcases lookup_applyTransactions_of_mem (u := s.utxos) hc with hn | ⟨o, -, -, ho⟩
      · rw [hn] at hp
        split_ifs at hp <;> cases hp
      · rw [ho] at hp
        split_ifs at hp <;> rw [← Option.some.inj hp]
    rw [hunmarked]
    refine ⟨nofun, fun ⟨e, he, hh⟩ => ?_⟩
    exact absurd hc ((hall e (hlive he).1 (hlive he).2).1 h hh)
  · rw [lookup_setMarks, lookup_applyTransactions_of_notMem hc] at hp
    by_cases hs : h ∈ block.spends
    · rw [if_pos hs] at hp
      split_ifs at hp <;> cases hp
    rw [if_neg hs] at hp
    split_ifs at hp with hexp
    · -- What spent it has expired, and so has every other transaction spending it.
      obtain ⟨q, -, rfl⟩ := Option.map_eq_some_iff.1 hp
      obtain ⟨a, ha, hha⟩ := List.mem_flatMap.1 hexp
      obtain ⟨ha, hea⟩ := List.mem_filter.1 ha
      refine ⟨nofun, fun ⟨e, he, hh⟩ => ?_⟩
      rw [hsame a ha e (hlive he).1 hha hh, (hlive he).2] at hea
      cases hea
    · rw [hm.exact h p hp]
      refine ⟨?_, fun ⟨e, he, hh⟩ => ⟨e, (hlive he).1, hh⟩⟩
      rintro ⟨e, he, hh⟩
      have hle : expired now e = false := by
        by_contra hexpired
        rw [Bool.not_eq_false] at hexpired
        exact hexp (List.mem_flatMap.2 ⟨e, List.mem_filter.2 ⟨he, hexpired⟩, hh⟩)
      obtain ⟨hnew, hwhole⟩ := hall e he hle
      -- The block takes none of its inputs, so the transaction stays.
      have hnone : ∀ x ∈ e.2.spends, x ∉ block.spends := fun x hx hxs => hs (hwhole ⟨x, hx, hxs⟩ h hh)
      refine ⟨e, List.mem_filter.2 ⟨List.mem_filter.2 ⟨he, by simp [hle]⟩, decide_eq_true ⟨?_, ?_⟩⟩, hh⟩
      · intro hconf
        obtain ⟨tx, htxb, hte⟩ := List.mem_map.1 hconf
        rw [htx hte] at htxb
        exact hs (Block.mem_spends.2 ⟨e.2, htxb, hh⟩)
      · intro x hx
        refine mem_setMarks.2 ?_
        obtain ⟨q, hq⟩ := Finmap.mem_iff.1 (hm.present e he x hx)
        refine Finmap.mem_iff.2 ⟨q, ?_⟩
        change (applyTransactions c s.utxos block).lookup x = some q
        rw [lookup_applyTransactions_of_notMem (hnew x hx), if_neg (hnone x hx), hq]

/-! ## Runs -/

theorem moves_marked (htx : Function.Injective c.hashTransaction) (amb : Ambient) :
    Moves c amb (AllOrNone c amb) Marked Marked where
  push _ _ hs hP htip := hs.pushBlock htx (hP htip)
  adjust _ _ _ _ hs _ _ _ _ _ := ⟨⟨hs.nodup, hs.present⟩, hs.disjoint, hs.exact⟩
  prune _ _ hs _ := ⟨⟨hs.nodup, hs.present⟩, hs.disjoint, hs.exact⟩
  store _ _ _ _ hs _ _ := ⟨⟨hs.nodup, hs.present⟩, hs.disjoint, hs.exact⟩
  switch s block _ _ _ _ _ hs _ _ _ hu _ :=
    Marked.switchTo (s := s.storeBlock c block) ⟨⟨hs.nodup, hs.present⟩, hs.disjoint, hs.exact⟩ hu
  pool tx _ := marked_addToMempool amb.now tx
  keep s block hs _ _ := by
    rw [keepOrphan]
    split
    exacts [hs, ⟨⟨hs.nodup, hs.present⟩, hs.disjoint, hs.exact⟩]
  take _ _ hs := ⟨⟨hs.nodup, hs.present⟩, hs.disjoint, hs.exact⟩

theorem marked_new : Marked new where
  toAdmitted := admitted_new
  disjoint := List.Pairwise.nil
  exact _ _ hp := nomatch hp

theorem marked_of_reachable (htx : Function.Injective c.hashTransaction) {s : Blockchain}
    (hs : (chainSystem c).ReachableBy (Taking c (AllOrNone c)) s) : Marked s := by
  have hinv : Keyed c s ∧ Marked s := by
    refine invariant_of_moves (I := fun s => Keyed c s ∧ Marked s) ⟨keyed_new, marked_new⟩
      (fun amb => (moves_keyed amb _).and (moves_marked htx amb)) (fun _ hs => hs.1)
      (fun now tx => ?_) (fun now s hs => ?_) (fun offset s hs => ?_) hs
    · exact (ofChain_keyed.addToMempool now tx).and (marked_addToMempool now tx)
    · exact ⟨ofChain_keyed.1 _ _ ((SameChain.refl s).cleanupMempool now) hs.1,
        hs.2.cleanupMempool now⟩
    · exact ⟨ofChain_keyed.2 s offset hs.1, ⟨hs.2.nodup, hs.2.present⟩, hs.2.disjoint, hs.2.exact⟩
  exact hinv.2

/-- In every run whose blocks, when they extend the tip, spend the inputs of each
    pending transaction all or none and create none of them again, an unspent
    output is marked exactly when a transaction of the mempool spends it. -/
theorem marks_exact (htx : Function.Injective c.hashTransaction) {s : Blockchain}
    (hs : (chainSystem c).ReachableBy (Taking c (AllOrNone c)) s) :
    ∀ h p, s.utxos.lookup h = some p →
      (p.1 = true ↔ ∃ entry ∈ s.mempool, h ∈ entry.2.spends) :=
  (marked_of_reachable htx hs).exact

/-! ## A mark that outlives its transaction -/

/-- Two blocks pay the keys `8` and `9`. A transaction spending both outputs is
    pending when the third block spends the first output by another one. -/
def paying₈ : Block := Sample.block 1 1 2 [Sample.payment [] 1 (50 * 10 ^ 8) 8]
def paying₉ : Block := Sample.block 2 2 3 [Sample.payment [] 2 (50 * 10 ^ 8) 9]
def both : Transaction := Sample.payment [⟨2, 8⟩, ⟨3, 9⟩] 3 (100 * 10 ^ 8) 10
def first : Transaction := Sample.payment [⟨2, 8⟩] 4 (50 * 10 ^ 8) 11
def spendingFirst : Block :=
  Sample.block 3 3 (Nat.pair 4 5 + 1) [Sample.payment [] 5 (50 * 10 ^ 8) 12, first]

noncomputable def markCrypto : Crypto :=
  Sample.crypto
    (paying₈.transactions ++ paying₉.transactions ++ spendingFirst.transactions ++ [both])
    [paying₈, paying₉, spendingFirst]

noncomputable def outlived : Blockchain :=
  run markCrypto (Sample.delivering [Sample.genesis, paying₈, paying₉] ++
    [.addToMempool (Duration.seconds 3600) both] ++ Sample.delivering [spendingFirst])

theorem mark_outlives_transaction : (chainSystem markCrypto).Reachable outlived ∧
    ¬ ∀ h p, outlived.utxos.lookup h = some p →
      (p.1 = true ↔ ∃ entry ∈ outlived.mempool, h ∈ entry.2.spends) := by
  refine ⟨reachable_run _, fun hexact => ?_⟩
  have hpool : outlived.mempool = [] := by decide +kernel
  -- The output of the second block is marked, and nothing is pending.
  obtain ⟨p, hp, hmark⟩ := Option.map_eq_some_iff.1
    (show (outlived.utxos.lookup 3).map Prod.fst = some true by decide +kernel)
  obtain ⟨entry, hentry, -⟩ := (hexact 3 p hp).1 hmark
  rw [hpool] at hentry
  exact absurd hentry List.not_mem_nil

/-- Nothing is pending when the first blocks are delivered. -/
theorem reachableBy_paying : (chainSystem markCrypto).ReachableBy (Taking markCrypto (AllOrNone markCrypto))
    (run markCrypto (Sample.delivering [Sample.genesis, paying₈, paying₉])) := by
  have hempty : ∀ {s : Blockchain} {block : Block}, s.mempool = [] →
      AllOrNone markCrypto Sample.ambient s block := fun hm _ entry he => by
    rw [hm] at he
    exact absurd he List.not_mem_nil
  refine Sample.reachableBy_concat [Sample.genesis, paying₈] ?_ (by decide +kernel)
    (hempty (by decide +kernel))
  refine Sample.reachableBy_concat [Sample.genesis] ?_ (by decide +kernel)
    (hempty (by decide +kernel))
  exact Sample.reachableBy_concat [] reachableBy_run_nil (by decide +kernel)
    (hempty (by decide +kernel))

theorem marks_exact_pending :
    let s := run markCrypto (Sample.delivering [Sample.genesis, paying₈, paying₉] ++
      [.addToMempool (Duration.seconds 3600) both])
    (s.mempool.map Prod.snd = [both] ∧ (s.utxos.lookup 3).map Prod.fst = some true) ∧
      ∀ h p, s.utxos.lookup h = some p →
        (p.1 = true ↔ ∃ entry ∈ s.mempool, h ∈ entry.2.spends) := by
  refine ⟨by decide +kernel, marks_exact (c := markCrypto) (tableHash_injective _) ?_⟩
  exact reachableBy_run_concat _ reachableBy_paying trivial

end Itx.Blockchain
