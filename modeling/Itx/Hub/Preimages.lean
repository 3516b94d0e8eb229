import Itx.Hub.Building
import Itx.Hub.Replay

/-!
# What is signed, of a spend and of a request

One key signs the spends of its owner and the requests to the hub, both by signing a hash
(`Signature::sign_output`, `Signature::sign_hash`). The bytes hashed for a spend begin with a
tag, those for a request with the key in hexadecimal, and the tag does not begin with a digit.
So no bytes are both, and what is signed as one is not signed as the other
(`preimages_unambiguous`).
-/

namespace Itx

variable {c : Crypto} {T : Type} {x : Codecs T} {e : SignedEnvelope T}

/-- What is signed with a key for one hash is good for no other. -/
def Signing.Binding (g : Signing) (c : Crypto) : Prop :=
  ∀ message message' key, c.verify (g.signOutput message key) message' (g.publicKey key) = true →
    message = message'

/-- The bytes signed of a spend begin with an `i`. -/
theorem head_spendCommitmentPreimage (prev : Hash) (outputs : List TransactionOutput) :
    (spendCommitmentPreimage c prev outputs).head? = some 105 := by
  have htag : "itx.spend.v1".toUTF8.toList.head? = some 105 := by decide +kernel
  simp only [spendCommitmentPreimage, List.append_assoc]
  rw [List.head?_append, htag, Option.some_or]

theorem not_isHexDigit_tag : ¬IsHexDigit 105 := by decide

/-- The bytes signed of a request begin with those of its key. -/
theorem SignedEnvelope.head_signingString {method path hub signed : Text}
    (h : e.signingString x method path hub = .ok signed) (hne : e.pubkey ≠ []) :
    signed.head? = e.pubkey.head? := by
  obtain ⟨json, -, rfl⟩ := signingString_eq_ok.1 h
  exact List.head?_append_of_ne_nil _ hne

theorem preimage_ne_signingString {prev : Hash} {outputs : List TransactionOutput}
    {method path hub signed : Text} (h : e.signingString x method path hub = .ok signed)
    (hne : e.pubkey ≠ []) (hhex : ∀ b ∈ e.pubkey, IsHexDigit b) :
    spendCommitmentPreimage c prev outputs ≠ signed := by
  intro heq
  have hhead := SignedEnvelope.head_signingString h hne
  rw [← heq, head_spendCommitmentPreimage] at hhead
  exact not_isHexDigit_tag (hhex _ (List.mem_of_mem_head? hhead.symm))

/-- What is signed is unambiguous. The bytes of a spend determine the output that is spent,
    and the value and the SEC1 key of each output paid, in order. No such bytes are what is
    signed of a request whose key is in hexadecimal. So a signature of a request, where a
    hash has no collisions and a signature is of one hash, is none of a spend, and one of a
    spend is none of a request. -/
theorem preimages_unambiguous (c : Crypto) :
    (∀ (prev prev' : Hash) (outputs outputs' : List TransactionOutput), prev < 2 ^ 256 →
      prev' < 2 ^ 256 → (∀ o ∈ outputs, o.Encodes c) → (∀ o ∈ outputs', o.Encodes c) →
      spendCommitmentPreimage c prev outputs = spendCommitmentPreimage c prev' outputs' →
      prev = prev' ∧ outputs.map (fun o => (o.value, c.toSec1Bytes o.pubkey)) =
        outputs'.map fun o => (o.value, c.toSec1Bytes o.pubkey)) ∧
    ∀ (T : Type) (x : Codecs T) (e : SignedEnvelope T) (method path hub signed : Text),
      e.signingString x method path hub = .ok signed → e.pubkey ≠ [] →
      (∀ b ∈ e.pubkey, IsHexDigit b) → ∀ (prev : Hash) (outputs : List TransactionOutput),
      spendCommitmentPreimage c prev outputs ≠ signed ∧
      (Function.Injective c.hashBytes → ∀ g : Signing, g.Binding c → ∀ key,
        c.verify (g.signOutput (c.hashBytes signed) key) (spendCommitment c prev outputs)
          (g.publicKey key) = false ∧
        c.verify (g.signOutput (spendCommitment c prev outputs) key) (c.hashBytes signed)
          (g.publicKey key) = false) := by
  constructor
  · intro prev prev' outputs outputs' hprev hprev' ho ho' h
    obtain ⟨hbytes, hpaid⟩ := spendCommitmentPreimage_inj ho ho' h
    exact ⟨toLeBytes_inj (by simpa using hprev) (by simpa using hprev') hbytes, hpaid⟩
  · intro T x e method path hub signed hsigned hne hhex prev outputs
    have hpreimage : spendCommitmentPreimage c prev outputs ≠ signed :=
      preimage_ne_signingString hsigned hne hhex
    refine ⟨hpreimage, fun hinj g hg key => ⟨?_, ?_⟩⟩
    · refine Bool.eq_false_of_not_eq_true fun hv => ?_
      exact hpreimage (hinj (hg _ _ _ hv)).symm
    · refine Bool.eq_false_of_not_eq_true fun hv => ?_
      exact hpreimage (hinj (hg _ _ _ hv))

open Relayed ReplaySample in
/-- The request of an agent to the faucet, and the payment of the hub: one is not signed as the
    other. -/
theorem preimages_unambiguous_faucet : envelope.signingString codecs post faucet hubId = .ok signed ∧
    (outputs 21).map (fun o => (o.value, Relayed.crypto.toSec1Bytes o.pubkey)) =
      (outputs 23).map (fun o => (o.value, Relayed.crypto.toSec1Bytes o.pubkey)) ∧
    Relayed.crypto.verify (signing.signOutput (Relayed.crypto.hashBytes signed) 7)
      (spendCommitment Relayed.crypto 1 (outputs 21)) 7 = false ∧
    Relayed.crypto.verify (signing.signOutput (spendCommitment Relayed.crypto 1 (outputs 21)) 7)
      (Relayed.crypto.hashBytes signed) 7 = false := by
  obtain ⟨hinj, hsep⟩ := preimages_unambiguous Relayed.crypto
  have hsigned : envelope.signingString codecs post faucet hubId = .ok signed := rfl
  have hhex : ∀ b ∈ envelope.pubkey, IsHexDigit b := by decide +kernel
  have hbinding : signing.Binding Relayed.crypto := fun message message' key h =>
    verify_unique _ _ _ _ (sound_signing message key) h
  have houtputs := hinj 1 1 _ _ (by decide) (by decide) (encodes 21) (encodes 23) rfl
  obtain ⟨-, hcross⟩ :=
    hsep Unit codecs envelope post faucet hubId signed hsigned (by decide) hhex 1 (outputs 21)
  obtain ⟨h₁, h₂⟩ := hcross (tableHash_injective _) signing hbinding 7
  exact ⟨hsigned, houtputs.2, h₁, h₂⟩

end Itx
