import Itx.Chain.Spends
import Itx.Chain.Ideal
import Itx.Hub.Payouts

/-!
# Building a payment

The hub pays from addresses whose keys it holds. It asks the node for the outputs of an
address, each with a mark if the mempool of the node spends it (`fetch_utxos`), marks
those that one of its own obligations spends (`reserveInputs`), puts them in the order it
wants to spend them in (`orderedForPayment`), and takes unmarked ones until they are
enough (`buildMultiPayment`). The outputs of the transaction are those of its recipients,
in order, then the change.

* `spends_of_buildPaymentFrom`: what is spent was reported unmarked, and is reserved by no
  obligation but those that are being replaced;
* `spends_not_malleable`: what the chain makes of a transaction of the hub pays the same,
  and creates the outputs the hub recorded as far as it kept their ids.
-/

namespace Itx

abbrev PrivateKey := ℕ

/-- Key pairs, and signing with them. -/
structure Signing where
  /-- `PrivateKey::public_key`. -/
  publicKey : PrivateKey → PublicKey
  /-- `Signature::sign_output`. -/
  signOutput : Hash → PrivateKey → Signature

/-- What is signed with a key is good for the key. -/
def Signing.Sound (g : Signing) (c : Crypto) : Prop :=
  ∀ message key, c.verify (g.signOutput message key) message (g.publicKey key) = true

/-- Why a payment is not built. -/
inductive BuildError
  | insufficientFunds (available needed : ℕ)
  deriving DecidableEq, Repr

section

variable (c : Crypto) (g : Signing)

/-- `TransactionInput::signed`. -/
def TransactionInput.signed (prevOutputHash : Hash) (outputs : List TransactionOutput)
    (signingKey : PrivateKey) : TransactionInput where
  prevTransactionOutputHash := prevOutputHash
  signature := g.signOutput (spendCommitment c prevOutputHash outputs) signingKey

/-- The selection of `build_multi_payment`: the hashes of what is taken, and their sum. -/
def selectInputs (totalNeeded : ℕ) : UtxoReply → ℕ → Outcome BuildError (List Hash × ℕ)
  | [], inputSum => .ok ([], inputSum)
  | (marked, utxo) :: utxos, inputSum =>
    if inputSum ≥ totalNeeded then .ok ([], inputSum)
    else if marked then selectInputs totalNeeded utxos inputSum
    else do
      let inputSum ← .expect (checkedAdd inputSum utxo.value)
      let (selected, inputSum) ← selectInputs totalNeeded utxos inputSum
      pure (c.hashOutput utxo :: selected, inputSum)

/-- The outputs of `build_multi_payment`: one for each recipient, in order, then the change
    if there is any. The ids are those it draws. -/
def paymentOutputs (ids : ℕ → Uuid) (recipients : List (PublicKey × ℕ)) (change : ℕ)
    (changePubkey : PublicKey) : List TransactionOutput :=
  let outputs : List TransactionOutput := recipients.zipIdx.map fun p =>
    { value := p.1.2, uniqueId := ids p.2, pubkey := p.1.1 }
  if change > 0 then
    outputs ++ [{ value := change, uniqueId := ids recipients.length, pubkey := changePubkey }]
  else outputs

/-- `build_multi_payment`. -/
def buildMultiPayment (ids : ℕ → Uuid) (availableUtxos : UtxoReply) (signingKey : PrivateKey)
    (recipients : List (PublicKey × ℕ)) (fee : ℕ) (changePubkey : PublicKey) :
    Outcome BuildError Transaction := do
  let recipientsTotal ← .expect (checkedSum (recipients.map Prod.snd))
  let totalNeeded ← .expect (checkedAdd recipientsTotal fee)
  let (selected, inputSum) ← selectInputs c totalNeeded availableUtxos 0
  Outcome.ensure (totalNeeded ≤ inputSum) (.insufficientFunds inputSum totalNeeded)
  let outputs := paymentOutputs ids recipients (inputSum - totalNeeded) changePubkey
  pure ⟨selected.map fun hash => .signed c g hash outputs signingKey, outputs⟩

end

/-- The largest output first, then by the id. -/
def largestFirst (a b : Bool × TransactionOutput) : Prop :=
  b.2.value < a.2.value ∨ b.2.value = a.2.value ∧ a.2.uniqueId ≤ b.2.uniqueId

instance : DecidableRel largestFirst := fun _ _ => inferInstanceAs (Decidable (_ ∨ _))

/-- `ordered_for_payment`: the largest outputs first, but for the smallest one that is
    enough on its own, which comes before them. -/
def orderedForPayment (utxos : UtxoReply) (totalNeeded : ℕ) : UtxoReply :=
  let ordered := utxos.insertionSort largestFirst
  let candidates := ordered.zipIdx.filter fun p => !p.1.1 && decide (totalNeeded ≤ p.1.2.value)
  match candidates.argmin fun p => toLex (p.1.2.value, p.1.2.uniqueId) with
  | some (chosen, index) => chosen :: ordered.eraseIdx index
  | none => ordered

namespace TaskBoard

/-- Whether an unresolved payment from the source, or an outstanding attempt from it that is
    not among those being rebuilt, spends an output. -/
def reserves (board : TaskBoard) (source : PublicKey) (rebuilding : List (Uuid × PublicKey))
    (hash : Hash) : Prop :=
  (∃ p ∈ board.payments.values, p.source = source ∧ p.status ≠ .confirmed ∧
    hash ∈ p.spentInputs) ∨
  ∃ key ∈ board.payoutAttempts.keys, ∃ a ∈ board.payoutAttempts.lookup key,
    a.source = source ∧ (a.taskId, a.recipient) ∉ rebuilding ∧ hash ∈ a.spentInputs

instance (board : TaskBoard) (source : PublicKey) (rebuilding : List (Uuid × PublicKey))
    (hash : Hash) : Decidable (board.reserves source rebuilding hash) :=
  inferInstanceAs (Decidable (_ ∨ _))

end TaskBoard

section

variable (c : Crypto) (g : Signing)

/-- `reserve_inputs`. -/
def reserveInputs (board : TaskBoard) (source : PublicKey) (rebuilding : List (Uuid × PublicKey))
    (utxos : UtxoReply) : UtxoReply :=
  utxos.map fun p => (p.1 || decide (board.reserves source rebuilding (c.hashOutput p.2)), p.2)

/-- `build_payment_from`, once the node has answered: the board is the one the obligations
    are read from. -/
def buildPaymentFrom (board : TaskBoard) (ids : ℕ → Uuid) (utxos : UtxoReply)
    (signingKey : PrivateKey) (sourcePubkey : PublicKey) (recipients : List (PublicKey × ℕ))
    (changePubkey : PublicKey) (rebuilding : List (Uuid × PublicKey)) :
    Outcome BuildError Transaction := do
  let utxos := reserveInputs c board sourcePubkey rebuilding utxos
  let total ← .expect (checkedSum (recipients.map Prod.snd))
  let totalNeeded ← .expect (checkedAdd total hubTransactionFee)
  buildMultiPayment c g ids (orderedForPayment utxos totalNeeded) signingKey recipients
    hubTransactionFee changePubkey

end

variable {c : Crypto} {g : Signing}

/-! ## What is spent -/

/-- The order is one of the same outputs. -/
theorem orderedForPayment_perm (utxos : UtxoReply) (totalNeeded : ℕ) :
    (orderedForPayment utxos totalNeeded).Perm utxos := by
  have hsort := List.perm_insertionSort largestFirst utxos
  rw [orderedForPayment]
  split
  · next chosen index hbest =>
    have hmem := List.mem_of_mem_filter (List.argmin_mem hbest)
    obtain ⟨hi, hget⟩ := List.getElem?_eq_some_iff.1 (List.mem_zipIdx_iff_getElem?.1 hmem)
    dsimp only at hi hget
    rw [← hget]
    exact (List.getElem_cons_eraseIdx_perm hi).trans hsort
  · exact hsort

/-- What is selected was not marked. -/
theorem mem_selectInputs {totalNeeded inputSum total : ℕ} {utxos : UtxoReply} {selected : List Hash}
    (h : selectInputs c totalNeeded utxos inputSum = .ok (selected, total)) {x : Hash}
    (hx : x ∈ selected) : ∃ utxo, (false, utxo) ∈ utxos ∧ c.hashOutput utxo = x := by
  induction utxos generalizing inputSum total selected with
  | nil =>
    obtain ⟨rfl, -⟩ := Prod.mk.inj (Outcome.ok.inj h)
    exact absurd hx List.not_mem_nil
  | cons p utxos ih =>
    obtain ⟨marked, utxo⟩ := p
    rw [selectInputs] at h
    -- Nothing more is needed, the output is marked, or it is taken.
    split_ifs at h with henough hmarked
    · obtain ⟨rfl, -⟩ := Prod.mk.inj (Outcome.ok.inj h)
      exact absurd hx List.not_mem_nil
    · obtain ⟨o, ho, he⟩ := ih h hx
      exact ⟨o, List.mem_cons_of_mem _ ho, he⟩
    · obtain ⟨sum, -, h⟩ := Outcome.bind_eq_ok.1 h
      obtain ⟨⟨rest, total'⟩, hrest, h⟩ := Outcome.bind_eq_ok.1 h
      obtain ⟨rfl, -⟩ := Prod.mk.inj (Outcome.ok.inj h)
      rcases List.mem_cons.1 hx with rfl | hx
      · rw [Bool.eq_false_of_not_eq_true hmarked]
        exact ⟨utxo, List.mem_cons_self, rfl⟩
      · obtain ⟨o, ho, he⟩ := ih hrest hx
        exact ⟨o, List.mem_cons_of_mem _ ho, he⟩

/-- What `build_multi_payment` makes: inputs signed over its outputs, which pay its
    recipients in order. -/
theorem buildMultiPayment_eq_ok {ids : ℕ → Uuid} {utxos : UtxoReply} {key : PrivateKey}
    {recipients : List (PublicKey × ℕ)} {fee : ℕ} {changePubkey : PublicKey} {tx : Transaction}
    (h : buildMultiPayment c g ids utxos key recipients fee changePubkey = .ok tx) :
    ∃ (selected : List Hash) (change : ℕ), tx.inputs = selected.map (fun x => .signed c g x tx.outputs key) ∧
      tx.outputs = paymentOutputs ids recipients change changePubkey ∧
      ∀ x ∈ selected, ∃ utxo, (false, utxo) ∈ utxos ∧ c.hashOutput utxo = x := by
  obtain ⟨total, -, h⟩ := Outcome.bind_eq_ok.1 h
  obtain ⟨totalNeeded, -, h⟩ := Outcome.bind_eq_ok.1 h
  obtain ⟨⟨selected, inputSum⟩, hselected, h⟩ := Outcome.bind_eq_ok.1 h
  obtain ⟨_, -, h⟩ := Outcome.bind_eq_ok.1 h
  obtain rfl := Outcome.ok.inj h
  exact ⟨selected, inputSum - totalNeeded, rfl, rfl, fun x hx => mem_selectInputs hselected hx⟩

/-- What is spent is what was signed for. -/
theorem spends_of_signed {tx : Transaction} {selected : List Hash} {key : PrivateKey}
    (h : tx.inputs = selected.map fun x => .signed c g x tx.outputs key) : tx.spends = selected := by
  rw [Transaction.spends, h, List.map_map]
  exact List.map_id'' (fun _ => rfl) selected

/-- What a payment spends was reported unmarked, and is reserved by no obligation of the
    same source but those it replaces. -/
theorem spends_of_buildPaymentFrom {board : TaskBoard} {ids : ℕ → Uuid} {utxos : UtxoReply}
    {key : PrivateKey} {source : PublicKey} {recipients : List (PublicKey × ℕ)}
    {changePubkey : PublicKey} {rebuilding : List (Uuid × PublicKey)} {tx : Transaction}
    (h : buildPaymentFrom c g board ids utxos key source recipients changePubkey rebuilding =
      .ok tx) {x : Hash} (hx : x ∈ tx.spends) :
    (∃ utxo, (false, utxo) ∈ utxos ∧ c.hashOutput utxo = x) ∧
      ¬ board.reserves source rebuilding x := by
  obtain ⟨total, -, h⟩ := Outcome.bind_eq_ok.1 h
  obtain ⟨totalNeeded, -, h⟩ := Outcome.bind_eq_ok.1 h
  obtain ⟨selected, change, hinputs, -, hselected⟩ := buildMultiPayment_eq_ok h
  rw [spends_of_signed hinputs] at hx
  obtain ⟨utxo, hutxo, rfl⟩ := hselected x hx
  rw [(orderedForPayment_perm _ _).mem_iff] at hutxo
  obtain ⟨⟨marked, utxo'⟩, hmem, he⟩ := List.mem_map.1 hutxo
  obtain ⟨hmark, rfl⟩ := Prod.mk.inj he
  obtain ⟨rfl, hfree⟩ := Bool.or_eq_false_iff.1 hmark
  exact ⟨⟨utxo', hmem, rfl⟩, of_decide_eq_false hfree⟩

/-! ## What the chain makes of it -/

section

variable {tx tx' : Transaction}

/-- An output with the same value and owner has the same hash when it has the same id. -/
theorem hashOutput_eq_iff (hout : Function.Injective c.hashOutput) {o o' : TransactionOutput}
    (hpaid : o.paid = o'.paid) : c.hashOutput o' = c.hashOutput o ↔ o'.uniqueId = o.uniqueId := by
  obtain ⟨value, uniqueId, pubkey⟩ := o
  obtain ⟨value', uniqueId', pubkey'⟩ := o'
  obtain ⟨rfl, rfl⟩ := Prod.mk.inj hpaid
  rw [hout.eq_iff]
  simp

/-- Position by position, outputs that pay the same have the same hash when they have the
    same id. -/
theorem hash_of_paid_eq (hout : Function.Injective c.hashOutput)
    (hpaid : tx.outputs.map TransactionOutput.paid = tx'.outputs.map TransactionOutput.paid)
    {i : ℕ} {o : TransactionOutput} (ho : tx.outputs[i]? = some o) :
    ∃ o', tx'.outputs[i]? = some o' ∧ o'.paid = o.paid ∧
      (c.hashOutput o' = c.hashOutput o ↔ o'.uniqueId = o.uniqueId) := by
  have hi := congrArg (fun l => l[i]?) hpaid
  simp only [List.getElem?_map, ho, Option.map_some] at hi
  obtain ⟨o', ho', hpaid'⟩ := Option.map_eq_some_iff.1 hi.symm
  exact ⟨o', ho', hpaid', hashOutput_eq_iff hout hpaid'.symm⟩

/-- A transaction of the hub is signed for by the owner of what it spends. -/
theorem verifies_of_buildMultiPayment (hout : Function.Injective c.hashOutput) (hg : g.Sound c)
    {ids : ℕ → Uuid} {utxos : UtxoReply} {key : PrivateKey} {recipients : List (PublicKey × ℕ)}
    {fee : ℕ} {changePubkey : PublicKey}
    (h : buildMultiPayment c g ids utxos key recipients fee changePubkey = .ok tx)
    (howned : ∀ p ∈ utxos, p.2.pubkey = g.publicKey key) {input : TransactionInput}
    (hinput : input ∈ tx.inputs) {o : TransactionOutput}
    (ho : c.hashOutput o = input.prevTransactionOutputHash) :
    input.verifies c tx.outputs o.pubkey = true := by
  obtain ⟨selected, change, hinputs, -, hselected⟩ := buildMultiPayment_eq_ok h
  rw [hinputs] at hinput
  obtain ⟨x, hx, rfl⟩ := List.mem_map.1 hinput
  obtain ⟨utxo, hutxo, he⟩ := hselected x hx
  obtain rfl := hout (ho.trans he.symm)
  rw [howned _ hutxo]
  exact hg _ _

end

/-- Signed spends are not malleable in what they pay: transactions with the same inputs
    that are both signed for pay the same values to the same owners, in the same order.
    If the chain confirms a transaction with the inputs of one the hub built, it creates
    the outputs the hub recorded at the positions where it kept their ids, and there only.
    The ids are the one thing a signature does not cover. -/
theorem spends_not_malleable (hinj : Function.Injective c.hashBlock)
    (hne : ∀ block, c.hashBlock block ≠ Hash.zero) (hout : Function.Injective c.hashOutput)
    (hbytes : Function.Injective c.hashBytes) (hsec1 : Function.Injective c.toSec1Bytes)
    (hsig : ∀ signature message message' pubkey, c.verify signature message pubkey = true →
      c.verify signature message' pubkey = true → message = message') (hg : g.Sound c) :
    (∀ (utxos : Utxos) (tx tx' : Transaction), tx'.inputs = tx.inputs → tx.inputs ≠ [] →
      (∀ o ∈ tx.outputs, o.Encodes c) → (∀ o ∈ tx'.outputs, o.Encodes c) →
      tx.SignedIn c utxos → tx'.SignedIn c utxos →
      tx.outputs.map TransactionOutput.paid = tx'.outputs.map TransactionOutput.paid) ∧
    ∀ (s : Blockchain) (x : Hash) (block : Block) (ids : ℕ → Uuid) (utxos : UtxoReply)
      (key : PrivateKey) (recipients : List (PublicKey × ℕ)) (fee : ℕ) (changePubkey : PublicKey)
      (tx tx' : Transaction), (Blockchain.chainSystem c).Reachable s → x ∈ s.activeChain →
      s.blocks.lookup x = some block → tx' ∈ block.transactions →
      buildMultiPayment c g ids utxos key recipients fee changePubkey = .ok tx →
      (∀ p ∈ utxos, p.2.pubkey = g.publicKey key) → tx'.inputs = tx.inputs → tx.inputs ≠ [] →
      (∀ o ∈ tx.outputs, o.Encodes c) → (∀ o ∈ tx'.outputs, o.Encodes c) →
      tx.outputs.map TransactionOutput.paid = tx'.outputs.map TransactionOutput.paid ∧
      ∀ (i : ℕ) o, tx.outputs[i]? = some o → ∃ o', tx'.outputs[i]? = some o' ∧ o'.paid = o.paid ∧
        (c.hashOutput o' = c.hashOutput o ↔ o'.uniqueId = o.uniqueId) := by
  constructor
  · intro utxos tx tx' hinputs hnil ho ho' h h'
    exact paid_eq_of_signedIn hbytes hsec1 hsig hinputs hnil ho ho' h h'
  · intro s x block ids utxos key recipients fee changePubkey tx tx' hs hx hb htx' hbuilt howned
      hinputs hnil ho ho'
    -- One input is enough: its signature is over what the outputs pay.
    have hpaid : tx.outputs.map TransactionOutput.paid = tx'.outputs.map TransactionOutput.paid := by
      obtain ⟨input, hinput⟩ := List.exists_mem_of_ne_nil _ hnil
      obtain ⟨spent, hspent, hv'⟩ := Blockchain.signed_of_confirmed hinj hne hs hx hb htx'
        (hinputs ▸ hinput : input ∈ tx'.inputs)
      have hv := verifies_of_buildMultiPayment hout hg hbuilt howned hinput hspent
      exact paid_eq_of_verifies hbytes hsec1 hsig ho ho' hv hv'
    exact ⟨hpaid, fun i o hoi => hash_of_paid_eq hout hpaid hoi⟩

/-! ## A relayed payment -/

namespace Relayed

open Blockchain Sample

/-- What the hub has: the output of the genesis. -/
def coin : TransactionOutput := { value := 50 * 10 ^ 8, uniqueId := 0, pubkey := 7 }

/-- The outputs of a payment of ten coins to the key `8`, the first of them with the given
    id. -/
def outputs (uniqueId : Uuid) : List TransactionOutput :=
  [{ value := 10 * 10 ^ 8, uniqueId, pubkey := 8 },
    { value := 40 * 10 ^ 8 - 1000, uniqueId := 22, pubkey := 7 }]

/-- A signature is the message and the key. -/
def signing : Signing where
  publicKey key := key
  signOutput message key := Nat.pair message key

/-- The payment with a given id, signed over what is the first preimage of the table. -/
def paying (uniqueId : Uuid) : Transaction where
  inputs := [{ prevTransactionOutputHash := 1, signature := Nat.pair 1 7 }]
  outputs := outputs uniqueId

def reward : Transaction := payment [] 30 (50 * 10 ^ 8 + 1000) 9

/-- The block in which a miner has put the payment with another id. -/
def mined : Block := Sample.block 1 1 (Nat.pair 2 3 + 1) [reward, paying 23]

/-- What the hub's payment and the one that is mined are signed over. -/
def preimage : List UInt8 :=
  spendCommitmentPreimage { pairingCrypto with toSec1Bytes := fun k => .replicate k 0 } 1 (outputs 21)

noncomputable def crypto : Crypto :=
  { Sample.crypto [reward, paying 23, paying 21] [mined] with
    hashBytes := tableHash [preimage]
    toSec1Bytes := fun k => .replicate k 0
    verify := fun signature message pubkey => signature = Nat.pair message pubkey }

noncomputable def confirmed : Blockchain := run crypto (delivering [genesis, mined])

theorem sound_signing : signing.Sound crypto := fun _ _ => by simp [crypto, signing]

theorem verify_unique (signature : Signature) (message message' : Hash) (pubkey : PublicKey)
    (h : crypto.verify signature message pubkey = true)
    (h' : crypto.verify signature message' pubkey = true) : message = message' :=
  (Nat.pair_eq_pair.1 ((of_decide_eq_true h).symm.trans (of_decide_eq_true h'))).1

theorem toSec1Bytes_injective : Function.Injective crypto.toSec1Bytes := fun k k' h => by
  simpa [crypto] using congrArg List.length h

theorem encodes (uniqueId : Uuid) : ∀ o ∈ outputs uniqueId, o.Encodes crypto := by
  intro o ho
  rcases List.mem_cons.1 ho with rfl | ho
  · exact ⟨by change 10 * 10 ^ 8 < u64Bound; decide, by simp [crypto]⟩
  · obtain rfl := List.mem_singleton.1 ho
    exact ⟨by decide, by simp [crypto]⟩

/-- The hub's payment has the id `21`. -/
theorem built : buildMultiPayment crypto signing (fun i => 21 + i) [(false, coin)] 7
    [(8, 10 * 10 ^ 8)] 1000 7 = .ok (paying 21) := by
  decide +kernel

theorem active : confirmed.activeChain = [1, 2] := by decide +kernel

theorem lookup_mined : confirmed.blocks.lookup 2 = some mined := by decide +kernel

theorem reachable_confirmed : (chainSystem crypto).Reachable confirmed := reachable_run _

/-- The outputs of the chain before the payment. -/
def unspent : Utxos := (∅ : Utxos).insert 1 (false, coin)

theorem signedIn (uniqueId : Uuid) (hmessage : spendCommitment crypto 1 (outputs uniqueId) = 1) :
    (paying uniqueId).SignedIn crypto unspent := by
  intro input hinput
  obtain rfl := List.mem_singleton.1 hinput
  refine ⟨(false, coin), Finmap.lookup_insert _, ?_⟩
  rw [TransactionInput.verifies]
  change decide (Nat.pair 1 7 = Nat.pair (spendCommitment crypto 1 (outputs uniqueId)) 7) = true
  rw [hmessage]
  rfl

theorem message : spendCommitment crypto 1 (outputs 21) = 1 ∧ spendCommitment crypto 1 (outputs 23) = 1 := by
  decide +kernel

end Relayed

open Relayed Blockchain in
/-- The payment that is mined pays what the hub's does, position by position. -/
theorem spends_not_malleable_relayed :
    (paying 21).outputs.map TransactionOutput.paid = (paying 23).outputs.map TransactionOutput.paid ∧
    ∃ o', (paying 23).outputs[0]? = some o' ∧ o'.pubkey = 8 := by
  obtain ⟨-, h⟩ := spends_not_malleable (tableHash_injective _) (tableHash_ne_zero _) (tableHash_injective _)
    (tableHash_injective _) toSec1Bytes_injective verify_unique sound_signing
  have howned : ∀ p ∈ [(false, coin)], p.2.pubkey = signing.publicKey 7 := by decide
  have hmined : paying 23 ∈ mined.transactions := List.mem_cons_of_mem _ List.mem_cons_self
  obtain ⟨hpaid, houtputs⟩ := h confirmed 2 mined _ _ _ _ _ _ (paying 21) (paying 23) reachable_confirmed
    (by rw [active]; decide) lookup_mined hmined built howned rfl (List.cons_ne_nil _ _)
    (encodes 21) (encodes 23)
  obtain ⟨o', ho', hpaid', -⟩ := houtputs 0 _ rfl
  exact ⟨hpaid, o', ho', congrArg Prod.snd hpaid'⟩

open Relayed Blockchain in
/-- It is another transaction all the same: the signature is good for both, and the first output
    that the hub has recorded is created by no block of the chain. -/
theorem relayed_with_another_id : (paying 23).inputs = (paying 21).inputs ∧ (paying 21).inputs ≠ [] ∧
    (paying 21).SignedIn crypto unspent ∧ (paying 23).SignedIn crypto unspent ∧
    (paying 21).outputs ≠ (paying 23).outputs ∧
    buildMultiPayment crypto signing (fun i => 21 + i) [(false, coin)] 7 [(8, 10 * 10 ^ 8)] 1000 7 =
      .ok (paying 21) ∧
    (chainSystem crypto).Reachable confirmed ∧ confirmed.activeChain = [1, 2] ∧
    confirmed.blocks.lookup 2 = some mined ∧ paying 23 ∈ mined.transactions ∧
    ∃ o ∈ (paying 21).outputs, crypto.hashOutput o ∉ Sample.genesis.creates crypto ∧
      crypto.hashOutput o ∉ mined.creates crypto := by
  refine ⟨rfl, List.cons_ne_nil _ _, signedIn 21 message.1, signedIn 23 message.2, by decide, built,
    reachable_confirmed, active, lookup_mined, List.mem_cons_of_mem _ List.mem_cons_self, _,
    List.mem_cons_self, ?_, ?_⟩
  · decide +kernel
  · decide +kernel

end Itx
