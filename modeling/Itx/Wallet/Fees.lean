import Itx.Hub.Building
import Itx.Node.Wire

/-!
# What the wallet takes a transaction's size to be

A wallet that pays by the byte has to know the size of a transaction before it has one
(`wallet/src/core.rs`). It measures an empty transaction, one input and one output, and adds up
(`estimatedTransactionSize`). But the head of an item of CBOR is longer for a larger number, and a
sample has one value, one hash and one of each only.

* `estimate_exact_iff`: the estimate is the size where the heads take as many bytes as the sample's.
-/

namespace Itx

open Cbor

namespace Encoding

variable (e : Encoding)

/-- `Transaction::serialized_size`. -/
def transactionSize (tx : Transaction) : ℕ := (e.transaction tx).length

/-- Keys and signatures have fixed widths. -/
structure Fixed (keyWidth signatureWidth : ℕ) : Prop where
  publicKey : ∀ key, (e.publicKey key).length = keyWidth
  signature : ∀ signature, (e.signature signature).length = signatureWidth

theorem length_input (i : TransactionInput) : (e.input i).length =
    41 + (u256 i.prevTransactionOutputHash).length + (e.signature i.signature).length := by
  rw [input, length_struct (n := 40) rfl]
  simp [headSize_of_lt]
  omega

theorem length_transaction (tx : Transaction) : e.transactionSize tx =
    16 + headSize tx.inputs.length + (tx.inputs.map fun i => (e.input i).length).sum +
      headSize tx.outputs.length + (tx.outputs.map fun o => (e.output o).length).sum := by
  rw [transactionSize, transaction, length_struct (n := 15) rfl]
  simp [headSize_of_lt, length_array, Function.comp_def]
  omega

end Encoding

/-! ## The estimate -/

/-- `TransactionSizeModel`: the bytes of an empty transaction, and those that an input and an output
    add. -/
structure TransactionSizeModel where
  base : ℕ
  perInput : ℕ
  perOutput : ℕ

/-- What the sample spends is the hash of this text. -/
def sampleText : List UInt8 := "itx wallet fee-estimation sample".toUTF8.data.toList

section

variable (c : Crypto) (g : Signing) (e : Encoding) (sampleKey : PrivateKey) (sampleId : Uuid)

/-- `transaction_size_model`, with the key and the id it draws. -/
def transactionSizeModel : TransactionSizeModel :=
  let sampleHash := c.hashBytes sampleText
  let sampleInput : TransactionInput :=
    { prevTransactionOutputHash := sampleHash, signature := g.signOutput sampleHash sampleKey }
  let sampleOutput : TransactionOutput :=
    { value := 0, uniqueId := sampleId, pubkey := g.publicKey sampleKey }
  let base := e.transactionSize ⟨[], []⟩
  { base
    perInput := e.transactionSize ⟨[sampleInput], []⟩ - base
    perOutput := e.transactionSize ⟨[], [sampleOutput]⟩ - base }

/-- `estimated_transaction_size`. -/
def estimatedTransactionSize (numInputs numOutputs : ℕ) : ℕ :=
  let model := transactionSizeModel c g e sampleKey sampleId
  model.base + numInputs * model.perInput + numOutputs * model.perOutput

end

variable {c : Crypto} {g : Signing} {e : Encoding} {keyWidth signatureWidth : ℕ}

/-- The bytes that the hashes and values of a transaction take, and its counts. -/
def headBytes (tx : Transaction) : ℕ :=
  headSize tx.inputs.length + headSize tx.outputs.length +
    (tx.inputs.map fun i => (Encoding.u256 i.prevTransactionOutputHash).length).sum +
    (tx.outputs.map fun o => headSize o.value).sum

theorem transactionSize_eq (he : e.Fixed keyWidth signatureWidth) (tx : Transaction) :
    e.transactionSize tx = 16 + headBytes tx + tx.inputs.length * (41 + signatureWidth) +
      tx.outputs.length * (41 + keyWidth) := by
  have hinputs : (tx.inputs.map fun i => (e.input i).length).sum =
      (tx.inputs.map fun i => (Encoding.u256 i.prevTransactionOutputHash).length).sum +
        tx.inputs.length * (41 + signatureWidth) := by
    rw [← smul_eq_mul, ← List.sum_replicate, ← List.map_const', ← List.sum_map_add]
    refine congrArg List.sum (List.map_congr_left fun i _ => ?_)
    rw [e.length_input, he.signature]
    omega
  have houtputs : (tx.outputs.map fun o => (e.output o).length).sum =
      (tx.outputs.map fun o => headSize o.value).sum + tx.outputs.length * (41 + keyWidth) := by
    rw [← smul_eq_mul, ← List.sum_replicate, ← List.map_const', ← List.sum_map_add]
    refine congrArg List.sum (List.map_congr_left fun o _ => ?_)
    rw [e.length_output, he.publicKey]
    omega
  rw [e.length_transaction, hinputs, houtputs, headBytes]
  omega

theorem estimate_eq (he : e.Fixed keyWidth signatureWidth) (sampleKey : PrivateKey) (sampleId : Uuid)
    (n m : ℕ) :
    estimatedTransactionSize c g e sampleKey sampleId n m =
      18 + n * ((Encoding.u256 (c.hashBytes sampleText)).length + (41 + signatureWidth)) +
        m * (1 + (41 + keyWidth)) := by
  have hone : headSize 1 = 1 := rfl
  have hzero : headSize 0 = 1 := rfl
  rw [estimatedTransactionSize, transactionSizeModel]
  simp only [transactionSize_eq he, headBytes, List.length_nil, List.length_singleton, List.map_nil,
    List.map_cons,
    List.sum_nil, List.sum_cons, hzero, hone]
  refine congrArg₂ _ (congrArg₂ _ ?_ (congrArg (n * ·) ?_)) (congrArg (m * ·) ?_)
  all_goals omega

/-- The estimate is the size where counts, hashes and values take what those of the sample do. -/
theorem estimate_eq_iff (he : e.Fixed keyWidth signatureWidth) (sampleKey : PrivateKey) (sampleId : Uuid)
    (tx : Transaction) : estimatedTransactionSize c g e sampleKey sampleId tx.inputs.length tx.outputs.length =
      e.transactionSize tx ↔
    headBytes tx =
      2 + tx.inputs.length * (Encoding.u256 (c.hashBytes sampleText)).length + tx.outputs.length := by
  rw [estimate_eq he, transactionSize_eq he, Nat.mul_add, Nat.mul_add tx.outputs.length, Nat.mul_one]
  omega

section

variable {α : Type*} {l : List α} {f : α → ℕ} {w : ℕ}

theorem length_mul_le_sum (h : ∀ a ∈ l, w ≤ f a) : l.length * w ≤ (l.map f).sum := by
  rw [← List.length_map f, ← smul_eq_mul]
  exact List.card_nsmul_le_sum _ _ (List.forall_mem_map.2 h)

/-- A sum with a lower bound for each item is as small as can be iff each item is. -/
theorem sum_eq_length_mul_iff (h : ∀ a ∈ l, w ≤ f a) :
    (l.map f).sum = l.length * w ↔ ∀ a ∈ l, f a = w := by
  induction l with
  | nil => simp
  | cons a l ih =>
    obtain ⟨ha, hl⟩ := List.forall_mem_cons.1 h
    have hle := length_mul_le_sum hl
    rw [List.map_cons, List.sum_cons, List.length_cons, Nat.succ_mul, List.forall_mem_cons, ← ih hl]
    omega

end

theorem headSize_eq_one_iff {n : ℕ} : headSize n = 1 ↔ n < 24 := by
  rw [headSize]
  split_ifs <;> omega

section

variable {tx : Transaction} {w : ℕ}
  (hw : ∀ i ∈ tx.inputs, w ≤ (Encoding.u256 i.prevTransactionOutputHash).length)

include hw

/-- Where no hash is shorter than the sample's, nothing is shorter than in the sample. -/
theorem le_headBytes : 2 + tx.inputs.length * w + tx.outputs.length ≤ headBytes tx := by
  have hinputs := length_mul_le_sum hw
  have houtputs := length_mul_le_sum fun (o : TransactionOutput) (_ : o ∈ tx.outputs) => one_le_headSize o.value
  have hn := one_le_headSize tx.inputs.length
  have hm := one_le_headSize tx.outputs.length
  rw [headBytes]
  omega

theorem headBytes_eq_iff : headBytes tx = 2 + tx.inputs.length * w + tx.outputs.length ↔
    tx.inputs.length < 24 ∧ tx.outputs.length < 24 ∧
    (∀ i ∈ tx.inputs, (Encoding.u256 i.prevTransactionOutputHash).length = w) ∧
    ∀ o ∈ tx.outputs, o.value < 24 := by
  have hvalues : ∀ o ∈ tx.outputs, 1 ≤ headSize o.value := fun o _ => one_le_headSize o.value
  have hinputs := length_mul_le_sum hw
  have houtputs := length_mul_le_sum hvalues
  have hn := one_le_headSize tx.inputs.length
  have hm := one_le_headSize tx.outputs.length
  have hsmall : (∀ o ∈ tx.outputs, o.value < 24) ↔ ∀ o ∈ tx.outputs, headSize o.value = 1 :=
    forall₂_congr fun _ _ => headSize_eq_one_iff.symm
  -- None of the four parts is below its bound, so their sum is the least iff each is.
  rw [hsmall, ← sum_eq_length_mul_iff hw, ← sum_eq_length_mul_iff hvalues, ← headSize_eq_one_iff,
    ← headSize_eq_one_iff, headBytes]
  omega

end

/-- The estimate is the size of a transaction exactly where its counts, hashes and values take as
    many bytes together as those of the samples do. If no hash takes fewer than that of the sample,
    this is where there are fewer than 24 inputs and outputs, each hash takes as many, and every
    value is below 24; elsewhere the estimate is too small. -/
theorem estimate_exact_iff (c : Crypto) (g : Signing) (he : e.Fixed keyWidth signatureWidth)
    (sampleKey : PrivateKey) (sampleId : Uuid) (tx : Transaction) :
    (estimatedTransactionSize c g e sampleKey sampleId tx.inputs.length tx.outputs.length =
      e.transactionSize tx ↔
      headBytes tx =
        2 + tx.inputs.length * (Encoding.u256 (c.hashBytes sampleText)).length + tx.outputs.length) ∧
    ((∀ i ∈ tx.inputs,
        (Encoding.u256 (c.hashBytes sampleText)).length ≤ (Encoding.u256 i.prevTransactionOutputHash).length) →
      estimatedTransactionSize c g e sampleKey sampleId tx.inputs.length tx.outputs.length ≤
        e.transactionSize tx ∧
      (estimatedTransactionSize c g e sampleKey sampleId tx.inputs.length tx.outputs.length =
          e.transactionSize tx ↔
        tx.inputs.length < 24 ∧ tx.outputs.length < 24 ∧
        (∀ i ∈ tx.inputs, (Encoding.u256 i.prevTransactionOutputHash).length =
          (Encoding.u256 (c.hashBytes sampleText)).length) ∧
        ∀ o ∈ tx.outputs, o.value < 24)) := by
  have hiff := estimate_eq_iff (c := c) (g := g) he sampleKey sampleId tx
  refine ⟨hiff, fun hw => ⟨?_, hiff.trans (headBytes_eq_iff hw)⟩⟩
  have hle := le_headBytes hw
  rw [estimate_eq he, transactionSize_eq he, Nat.mul_add, Nat.mul_add tx.outputs.length, Nat.mul_one]
  omega

namespace FeeSample

/-- A hash of four long limbs, whatever is hashed. -/
def crypto : Crypto := { pairingCrypto with hashBytes := fun _ => 2 ^ 256 - 1 }

def signing : Signing where
  publicKey key := key
  signOutput _ key := key

theorem fixed : Sample.encoding.Fixed 159 124 := ⟨Sample.length_publicKey, Sample.length_signature⟩

/-- What is spent has a hash of four long limbs, too. -/
def paying (value : ℕ) : Transaction where
  inputs := [{ prevTransactionOutputHash := 2 ^ 256 - 2, signature := 0 }]
  outputs := [{ value, uniqueId := 0, pubkey := 8 }]

end FeeSample

open FeeSample in
/-- The estimate is right for a payment of 23, with one output. -/
theorem estimate_exact_iff_small :
    estimatedTransactionSize crypto signing Sample.encoding 7 0 1 1 =
      Sample.encoding.transactionSize (paying 23) := by
  obtain ⟨hiff, -⟩ := estimate_exact_iff crypto signing fixed 7 0 (paying 23)
  exact hiff.2 (by decide +kernel)

open FeeSample in
/-- For a payment of one coin it is four bytes short. -/
theorem estimate_short : Sample.encoding.Fixed 159 124 ∧
    estimatedTransactionSize crypto signing Sample.encoding 7 0 1 1 + 4 =
      Sample.encoding.transactionSize (paying (10 ^ 8)) ∧
    estimatedTransactionSize crypto signing Sample.encoding 7 0 1 1 ≠
      Sample.encoding.transactionSize (paying (10 ^ 8)) := by
  refine ⟨fixed, ?_⟩
  rw [estimate_eq fixed, transactionSize_eq fixed]
  decide +kernel

end Itx
