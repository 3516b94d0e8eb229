import Itx.Chain.Marks
import Itx.Chain.Outputs
import Itx.Chain.Template
import Itx.Hub.Payments
import Itx.Node.Unspent

/-!
# Resolving a payout

The hub learns what became of a payment from two answers of its node: the outputs of the
recipient, then those of the source (`resolve_payout_attempt` and `resolve`). The chain may
have moved on between the two, by any blocks, switches and changes of the mempool.

It is sound all the same (`resolution_sound`), since each outcome rests on one of the answers
alone. An output among those of the recipient is unspent where they were read. An output among
those of the source is unspent where they were read, so nothing on that chain has spent it if
the chain creates no output twice; and if it is not marked, nothing pending spends it.
-/

namespace Itx

namespace Blockchain

/-- `NodeClient::fetch_utxos`, once the answer has arrived. -/
def utxoReply (order : MapOrder) (key : PublicKey) (s : Blockchain) : UtxoReply :=
  (s.fetchUtxos order key).map fun p => (p.2, p.1)

/-- A transaction is on the active chain. -/
def Confirms (s : Blockchain) (tx : Transaction) : Prop :=
  ∃ x ∈ s.activeChain, ∃ block, s.blocks.lookup x = some block ∧ tx ∈ block.transactions

/-- A transaction is in the mempool. -/
def Holds (s : Blockchain) (tx : Transaction) : Prop := tx ∈ s.mempool.map Prod.snd

/-- An unspent output is marked exactly when a transaction of the mempool spends it. -/
def MarksExact (s : Blockchain) : Prop :=
  ∀ h p, s.utxos.lookup h = some p → (p.1 = true ↔ Pending s.mempool h)

variable {c : Crypto} {s : Blockchain} {order : MapOrder} {key : PublicKey} {tx : Transaction}
  {x : Hash} {marked : Bool} {o : TransactionOutput}

theorem mem_utxoReply : (marked, o) ∈ s.utxoReply order key ↔
    (∃ h, s.utxos.lookup h = some (marked, o)) ∧ o.pubkey = key := by
  simp only [utxoReply, fetchUtxos, List.map_map, List.mem_map, List.mem_filter, List.mem_filterMap,
    order.mem_keys, Finmap.mem_keys, decide_eq_true_eq, Function.comp_apply, Prod.mk.eta]
  constructor
  · rintro ⟨p, ⟨⟨h, -, hp⟩, hkey⟩, rfl⟩
    exact ⟨⟨h, hp⟩, hkey⟩
  · rintro ⟨⟨h, hp⟩, hkey⟩
    exact ⟨_, ⟨⟨h, Finmap.mem_iff.2 ⟨_, hp⟩, hp⟩, hkey⟩, rfl⟩

section

variable (hs : Sound c s)

include hs

/-- An answer lists unspent outputs, each by its hash. -/
theorem Sound.lookup_of_reply (h : (marked, o) ∈ s.utxoReply order key) :
    s.utxos.lookup (c.hashOutput o) = some (marked, o) := by
  obtain ⟨⟨x, hx⟩, -⟩ := mem_utxoReply.1 h
  rwa [hs.keyed x _ hx]

/-- What the active chain has spent is not unspent, if it creates no output twice. -/
theorem Sound.not_confirms {created : List Hash} (hcreated : createdOn c s.blocks s.activeChain = some created)
    (hnodup : created.Nodup) (hx : x ∈ s.utxos) (hspends : x ∈ tx.spends) : ¬ s.Confirms tx := by
  rintro ⟨y, hy, block, hblock, htx⟩
  obtain ⟨u, spent, hu, hspent, hledger⟩ := hs.toValidTree.ledger hs.active hcreated hnodup
  obtain ⟨u', hu', hsame⟩ := hs.replay
  obtain rfl := Option.some.inj (hu.symm.trans hu')
  refine (hledger.unspent x (hsame.mem_iff.1 hx)).2 ?_
  exact (mem_collectFrom hspent).2 ⟨y, hy, block, hblock, List.mem_flatMap.2 ⟨tx, htx, hspends⟩⟩

end

end Blockchain

/-! ## What an outcome rests on -/

section

variable {c : Crypto} {outputHash wanted : Hash} {spentInputs : List Hash} {recipient source : UtxoReply}

theorem resolveAgainst_confirmed (h : resolveAgainst c outputHash spentInputs recipient source = .confirmed) :
    ∃ p ∈ recipient, c.hashOutput p.2 = outputHash := by
  rw [resolveAgainst] at h
  split_ifs at h with hheld
  simpa using hheld

/-- Both outcomes that say the payment is not on the chain rest on the source: it still has
    every input, and there is one. -/
theorem resolveAgainst_present {outcome : PayoutOutcome}
    (h : resolveAgainst c outputHash spentInputs recipient source = outcome)
    (houtcome : outcome = .neverLanded ∨ outcome = .heldInMempool) :
    spentInputs ≠ [] ∧ ∀ wanted ∈ spentInputs, ∃ p ∈ source, c.hashOutput p.2 = wanted ∧
      (outcome = .neverLanded → p.1 = false) := by
  simp only [resolveAgainst] at h
  split_ifs at h with hheld hnil hgone hmarked
  · simp [← h] at houtcome
  · simp [← h] at houtcome
  · simp [← h] at houtcome
  all_goals
    refine ⟨hnil, fun wanted hwanted => ?_⟩
    obtain ⟨p, hp⟩ : ∃ p, (source.find? fun p => c.hashOutput p.2 = wanted) = some p := by
      refine Option.ne_none_iff_exists'.1 fun hnone => hgone ?_
      exact List.any_eq_true.2 ⟨wanted, hwanted, by rw [hnone]; rfl⟩
    have hhash : c.hashOutput p.2 = wanted := by simpa using List.find?_some hp
    refine ⟨p, List.mem_of_find?_eq_some hp, hhash, fun hnever => ?_⟩
  · simp [← h] at hnever
  · by_contra hp'
    exact hmarked (List.any_eq_true.2 ⟨wanted, hwanted, by rw [hp]; simpa using hp'⟩)

end

/-! ## Soundness -/

section

open Blockchain

variable {c : Crypto} {A B : Blockchain} {order order' : MapOrder} {recipient source : PublicKey}
  {tx : Transaction} {o : TransactionOutput}

/-- **Resolution is sound.** Let the outputs of the recipient be read in a state `A` and those
    of the source in a state `B`, which the chain may have reached from `A` in any way. A
    payment counts as confirmed only if its output is unspent on the active chain of `A`, as
    never landed only if it is neither on the active chain of `B` nor pending there, and as
    held only if it is not on the active chain of `B`. One without inputs is neither. -/
theorem resolution_sound (hinj : Function.Injective c.hashBlock)
    (hne : ∀ block, c.hashBlock block ≠ Hash.zero) (hout : Function.Injective c.hashOutput)
    (hA : (chainSystem c).Reachable A) (hB : (chainSystem c).Reachable B) (hmarks : B.MarksExact)
    {created : List Hash} (hcreated : createdOn c B.blocks B.activeChain = some created)
    (hnodup : created.Nodup) {outcome : PayoutOutcome}
    (houtcome : resolveAgainst c (c.hashOutput o) tx.spends (A.utxoReply order recipient)
      (B.utxoReply order' source) = outcome) :
    (outcome = .confirmed → ∃ u, replayUtxos c A.blocks A.activeChain = some u ∧
      u.lookup (c.hashOutput o) = some (false, o)) ∧
    (outcome = .neverLanded → ¬ B.Confirms tx ∧ ¬ B.Holds tx) ∧
    (outcome = .heldInMempool → ¬ B.Confirms tx) ∧
    (tx.inputs = [] → outcome ≠ .neverLanded ∧ outcome ≠ .heldInMempool) := by
  have hsoundA := sound_of_reachable hinj hne hA
  have hsoundB := sound_of_reachable hinj hne hB
  -- Where every input is still at the source, some input is unspent.
  have hinput : outcome = .neverLanded ∨ outcome = .heldInMempool → ∃ x ∈ tx.spends, ∃ p,
      B.utxos.lookup x = some p ∧ (outcome = .neverLanded → p.1 = false) := by
    intro h
    obtain ⟨hspends, hpresent⟩ := resolveAgainst_present houtcome h
    obtain ⟨x, hx⟩ := List.exists_mem_of_ne_nil _ hspends
    obtain ⟨p, hp, rfl, hunmarked⟩ := hpresent x hx
    exact ⟨_, hx, p, hsoundB.lookup_of_reply hp, hunmarked⟩
  have hchain : outcome = .neverLanded ∨ outcome = .heldInMempool → ¬ B.Confirms tx := by
    intro h
    obtain ⟨x, hx, p, hp, -⟩ := hinput h
    exact hsoundB.not_confirms hcreated hnodup (Finmap.mem_iff.2 ⟨p, hp⟩) hx
  refine ⟨fun h => ?_, fun h => ⟨hchain (.inl h), fun hholds => ?_⟩, fun h => hchain (.inr h), fun hnil => ?_⟩
  · obtain ⟨⟨marked, o'⟩, hmem, hhash⟩ := resolveAgainst_confirmed (houtcome.trans h)
    obtain rfl := hout hhash
    obtain ⟨u, hu, hsame⟩ := hsoundA.replay
    obtain ⟨marked', hlookup⟩ := hsame.lookup (hsoundA.lookup_of_reply hmem)
    have hunmarked : marked' = false := unmarked_replayUtxos hu hlookup
    exact ⟨u, hu, hunmarked ▸ hlookup⟩
  · -- What is pending is marked.
    obtain ⟨x, hx, p, hp, hunmarked⟩ := hinput (.inl h)
    obtain ⟨entry, hentry, rfl⟩ := List.mem_map.1 hholds
    have hmarked := (hmarks x p hp).2 ⟨entry, hentry, hx⟩
    rw [hunmarked h] at hmarked
    cases hmarked
  · have hspends : tx.spends = [] := by rw [Transaction.spends, hnil, List.map_nil]
    constructor
    · intro h
      exact (resolveAgainst_present houtcome (.inl h)).1 hspends
    · intro h
      exact (resolveAgainst_present houtcome (.inr h)).1 hspends

/-- A payment the node never heard of: its input is unspent and not marked. -/
theorem resolution_sound_sample :
    let s := run markCrypto (Sample.delivering [Sample.genesis, paying₈, paying₉])
    first.outputs.map (fun o => resolveAgainst markCrypto (markCrypto.hashOutput o) first.spends
      (s.utxoReply .ascending 11) (s.utxoReply .ascending 8)) = [.neverLanded] ∧
      ¬ s.Confirms first ∧ ¬ s.Holds first := by
  intro s
  have houtcome : first.outputs.map (fun o => resolveAgainst markCrypto (markCrypto.hashOutput o) first.spends
      (s.utxoReply .ascending 11) (s.utxoReply .ascending 8)) = [.neverLanded] := by decide +kernel
  have hreach : (chainSystem markCrypto).Reachable s := reachable_run _
  obtain ⟨created, hcreated, hnodup⟩ : ∃ created, createdOn markCrypto s.blocks s.activeChain = some created ∧
      created.Nodup := ⟨[1, 2, 3], by decide +kernel, by decide⟩
  have hmarks : s.MarksExact := (marked_of_reachable (tableHash_injective _) reachableBy_paying).exact
  exact ⟨houtcome, (resolution_sound (tableHash_injective _) (tableHash_ne_zero _) (tableHash_injective _)
    hreach hreach hmarks hcreated hnodup (List.head_eq_of_cons_eq houtcome)).2.1 rfl⟩

end

end Itx
