import Itx.Chain.Template
import Itx.Chain.Valid

/-!
# What a signature covers

An input is signed over the output it spends and over what its transaction pays, the
value and the owner of each output in order (`Transaction::spend_commitment`). The bytes
signed can be read back in one way only: their variable parts come after their lengths
(`spendCommitmentPreimage_inj`).

So with a hash without collisions, and signatures each of which is good for one message,
the inputs of a transaction determine what it pays (`paid_eq_of_signedIn`). They do not
determine its outputs: the `unique_id` of an output is deliberately not signed, and the
hash of an output is over all of it.
-/

namespace Itx

variable {c : Crypto} {tx tx' : Transaction} {utxos : Utxos}

/-- What is signed of an output: its value and its owner. -/
def TransactionOutput.paid (output : TransactionOutput) : ℕ × PublicKey :=
  (output.value, output.pubkey)

/-- The value of an output is a `u64`, and the SEC1 bytes of its owner are few enough for
    their length to be one byte (33 or 65 of them). -/
structure TransactionOutput.Encodes (c : Crypto) (output : TransactionOutput) : Prop where
  value : output.value < u64Bound
  pubkey : (c.toSec1Bytes output.pubkey).length < 256

/-- Every input spends an existing output with the consent of its owner: the check both of
    a block and of the mempool. -/
def Transaction.SignedIn (c : Crypto) (utxos : Utxos) (tx : Transaction) : Prop :=
  ∀ input ∈ tx.inputs, ∃ p, utxos.lookup input.prevTransactionOutputHash = some p ∧
    input.verifies c tx.outputs p.2.pubkey = true

/-! ## The bytes that are signed -/

theorem toLeBytes_length (n x : ℕ) : (toLeBytes n x).length = n := by simp [toLeBytes]

theorem toBeBytes_length (n x : ℕ) : (toBeBytes n x).length = n := by
  rw [toBeBytes, List.length_reverse, toLeBytes_length]

/-- A number is determined by its bytes. -/
theorem eq_of_bytes {n x y : ℕ} (hx : x < 256 ^ n) (hy : y < 256 ^ n)
    (h : ∀ i < n, x / 256 ^ i % 256 = y / 256 ^ i % 256) : x = y := by
  induction n generalizing x y with
  | zero => omega
  | succ n ih =>
    have hlow := h 0 (Nat.succ_pos n)
    have hhigh : x / 256 = y / 256 := by
      refine ih (by rw [pow_succ] at hx; omega) (by rw [pow_succ] at hy; omega) fun i hi => ?_
      rw [Nat.div_div_eq_div_mul, Nat.div_div_eq_div_mul, ← pow_succ']
      exact h (i + 1) (Nat.succ_lt_succ hi)
    simp only [pow_zero, Nat.div_one] at hlow
    omega

theorem toLeBytes_inj {n x y : ℕ} (hx : x < 256 ^ n) (hy : y < 256 ^ n)
    (h : toLeBytes n x = toLeBytes n y) : x = y := by
  refine eq_of_bytes hx hy fun i hi => ?_
  have hbyte := List.map_inj_left.1 h i (List.mem_range.2 hi)
  simpa using congrArg UInt8.toNat hbyte

theorem toBeBytes_inj {n x y : ℕ} (hx : x < 256 ^ n) (hy : y < 256 ^ n)
    (h : toBeBytes n x = toBeBytes n y) : x = y :=
  toLeBytes_inj hx hy (List.reverse_injective h)

/-- The bytes of an output in the commitment. -/
def TransactionOutput.commitmentBytes (c : Crypto) (output : TransactionOutput) : List UInt8 :=
  toBeBytes 8 output.value ++
    UInt8.ofNat (c.toSec1Bytes output.pubkey).length :: c.toSec1Bytes output.pubkey

/-- What is signed of an output, as bytes: those of its owner are its SEC1 key. -/
def TransactionOutput.paidBytes (c : Crypto) (output : TransactionOutput) : ℕ × List UInt8 :=
  (output.value, c.toSec1Bytes output.pubkey)

/-- The bytes of an output determine what it pays, and where they end. -/
theorem commitmentBytes_append_inj {o o' : TransactionOutput} (ho : o.Encodes c)
    (ho' : o'.Encodes c) {l l' : List UInt8}
    (h : o.commitmentBytes c ++ l = o'.commitmentBytes c ++ l') :
    o.paidBytes c = o'.paidBytes c ∧ l = l' := by
  simp only [TransactionOutput.commitmentBytes, List.append_assoc, List.cons_append] at h
  obtain ⟨hvalue, h⟩ := List.append_inj h (by rw [toBeBytes_length, toBeBytes_length])
  obtain ⟨hlen, h⟩ := List.cons.inj h
  have hlen := congrArg UInt8.toNat hlen
  rw [UInt8.toNat_ofNat_of_lt' ho.pubkey, UInt8.toNat_ofNat_of_lt' ho'.pubkey] at hlen
  obtain ⟨hkey, hl⟩ := List.append_inj h hlen
  have hvalue := toBeBytes_inj (n := 8) (by exact ho.value) (by exact ho'.value) hvalue
  exact ⟨Prod.ext hvalue hkey, hl⟩

theorem paidBytes_eq_of_commitmentBytes {outputs outputs' : List TransactionOutput}
    (ho : ∀ o ∈ outputs, o.Encodes c) (ho' : ∀ o ∈ outputs', o.Encodes c)
    (h : outputs.flatMap (TransactionOutput.commitmentBytes c) =
      outputs'.flatMap (TransactionOutput.commitmentBytes c)) :
    outputs.map (TransactionOutput.paidBytes c) = outputs'.map (TransactionOutput.paidBytes c) := by
  have hne : ∀ o l, [] ≠ TransactionOutput.commitmentBytes c o ++ l := fun o l he => by
    have := congrArg List.length he
    simp [TransactionOutput.commitmentBytes, toBeBytes_length] at this
  induction outputs generalizing outputs' with
  | nil =>
    cases outputs' with
    | nil => rfl
    | cons o' outputs' => exact absurd h (hne _ _)
  | cons o outputs ih =>
    cases outputs' with
    | nil => exact absurd h.symm (hne _ _)
    | cons o' outputs' =>
      obtain ⟨hpaid, hrest⟩ := commitmentBytes_append_inj (ho o List.mem_cons_self)
        (ho' o' List.mem_cons_self) h
      rw [List.map_cons, List.map_cons, hpaid, ih (fun o h => ho o (List.mem_cons_of_mem _ h))
        (fun o h => ho' o (List.mem_cons_of_mem _ h)) hrest]

/-- The bytes signed determine those of the spent hash, and what is paid: the layout is
    length-prefixed at every variable part. -/
theorem spendCommitmentPreimage_inj {prev prev' : Hash} {outputs outputs' : List TransactionOutput}
    (ho : ∀ o ∈ outputs, o.Encodes c) (ho' : ∀ o ∈ outputs', o.Encodes c)
    (h : spendCommitmentPreimage c prev outputs = spendCommitmentPreimage c prev' outputs') :
    toLeBytes 32 prev = toLeBytes 32 prev' ∧
      outputs.map (TransactionOutput.paidBytes c) = outputs'.map (TransactionOutput.paidBytes c) := by
  simp only [spendCommitmentPreimage, List.append_assoc, List.append_cancel_left_eq] at h
  obtain ⟨hprev, h⟩ := List.append_inj h (by rw [toLeBytes_length, toLeBytes_length])
  have h := (List.append_inj h (by rw [toBeBytes_length, toBeBytes_length])).2
  exact ⟨hprev, paidBytes_eq_of_commitmentBytes ho ho' h⟩

/-- Distinct keys have distinct bytes, so these stand for what is paid. -/
theorem paid_eq_of_paidBytes (hsec1 : Function.Injective c.toSec1Bytes)
    {outputs outputs' : List TransactionOutput}
    (h : outputs.map (TransactionOutput.paidBytes c) = outputs'.map (TransactionOutput.paidBytes c)) :
    outputs.map TransactionOutput.paid = outputs'.map TransactionOutput.paid := by
  have hbytes : TransactionOutput.paidBytes c = Prod.map id c.toSec1Bytes ∘ TransactionOutput.paid := rfl
  rw [hbytes, ← List.map_map, ← List.map_map] at h
  exact List.map_injective_iff.2 (Function.injective_id.prodMap hsec1) h

/-! ## What the inputs determine -/

section

variable (hbytes : Function.Injective c.hashBytes) (hsec1 : Function.Injective c.toSec1Bytes)
  (hsig : ∀ signature message message' pubkey, c.verify signature message pubkey = true →
    c.verify signature message' pubkey = true → message = message')

include hbytes hsec1 hsig

/-- An input that is good for two lists of outputs pays the same with both. -/
theorem paid_eq_of_verifies {input : TransactionInput} {pubkey : PublicKey}
    {outputs outputs' : List TransactionOutput} (ho : ∀ o ∈ outputs, o.Encodes c)
    (ho' : ∀ o ∈ outputs', o.Encodes c) (h : input.verifies c outputs pubkey = true)
    (h' : input.verifies c outputs' pubkey = true) :
    outputs.map TransactionOutput.paid = outputs'.map TransactionOutput.paid :=
  paid_eq_of_paidBytes hsec1 (spendCommitmentPreimage_inj ho ho' (hbytes (hsig _ _ _ _ h h'))).2

/-- Two transactions with the same inputs, both signed for, pay the same. -/
theorem paid_eq_of_signedIn (hinputs : tx'.inputs = tx.inputs) (hne : tx.inputs ≠ [])
    (ho : ∀ o ∈ tx.outputs, o.Encodes c) (ho' : ∀ o ∈ tx'.outputs, o.Encodes c)
    (h : tx.SignedIn c utxos) (h' : tx'.SignedIn c utxos) :
    tx.outputs.map TransactionOutput.paid = tx'.outputs.map TransactionOutput.paid := by
  obtain ⟨input, hinput⟩ := List.exists_mem_of_ne_nil _ hne
  obtain ⟨p, hp, hv⟩ := h input hinput
  obtain ⟨p', hp', hv'⟩ := h' input (hinputs ▸ hinput)
  obtain rfl := Option.some.inj (hp.symm.trans hp')
  exact paid_eq_of_verifies hbytes hsec1 hsig ho ho' hv hv'

end

/-! ## Outputs of the chain -/

namespace Blockchain

/-- A confirmed transaction that spends something was signed for, by the owners of what
    it spends. -/
theorem signed_of_confirmed (hinj : Function.Injective c.hashBlock)
    (hne : ∀ block, c.hashBlock block ≠ Hash.zero) {s : Blockchain}
    (hs : (chainSystem c).Reachable s) {x : Hash} (hx : x ∈ s.activeChain) {block : Block}
    (hb : s.blocks.lookup x = some block) (htx : tx ∈ block.transactions) {input : TransactionInput}
    (hinput : input ∈ tx.inputs) :
    ∃ o, c.hashOutput o = input.prevTransactionOutputHash ∧
      input.verifies c tx.outputs o.pubkey = true := by
  have hvalid := validTree_of_reachable hinj hne hs
  obtain ⟨i, hi, rfl⟩ := List.getElem_of_mem hx
  have hlinked := hvalid.active.take (i + 1)
  rw [List.take_succ_eq_append_getElem hi] at hlinked
  obtain ⟨utxos, hutxos⟩ := exists_replayUtxos (c := c) hlinked.concat_inv.1.mem
  have hblock := hvalid.valid _ _ block hlinked hb utxos hutxos
  obtain ⟨coinbase, txs, htxs, hnone, -⟩ := hblock.coinbase
  have hcovered := hblock.covered tx (by
    rw [htxs] at htx ⊢
    rcases List.mem_cons.1 htx with rfl | htx
    · rw [hnone] at hinput
      exact absurd hinput List.not_mem_nil
    · exact htx)
  obtain ⟨p, hp, hv⟩ := hcovered.signed input hinput
  exact ⟨p.2, keyed_replayUtxos hutxos _ _ hp, hv⟩

end Blockchain

end Itx
