import Itx.Chain.Blockchain

/-!
# Signed envelopes

A request is an envelope (`lib/src/envelope.rs`): the key of the agent making it, a
time, a payload, and a signature of the three and of the endpoint the request is made
to (`signingString`). A verifier rebuilds the string from the request it received, and
wants the time to be within `maxRequestDriftSeconds` of its own clock, on either side.

Strings are the bytes of their UTF-8 encoding. What other crates do with them (the
RFC 3339 form of a time, the JSON form of a payload, hexadecimal, the encodings of keys
and signatures) are the functions of `Codecs`.

The time of an envelope comes from its sender, and may be a leap second. The clock's
never is.

* `Timestamp.drift_span`: an envelope passes the check of its time over no more than
  twice the drift;
* `SignedEnvelope.timestamp_inj`: a signing string determines the time in it.
-/

namespace Itx

open Blockchain

/-- The bytes of a `String`. -/
abbrev Text := List UInt8

abbrev Bytes := List UInt8

/-! ## Times -/

/-- `DateTime<Utc>` as read from a request: seconds since the epoch, and nanoseconds,
    which go past the second when it is a leap second. -/
structure Timestamp where
  secs : ℤ
  nanos : ℕ
  nanos_lt : nanos < 2 * 10 ^ 9
  leap : 10 ^ 9 ≤ nanos → secs % 60 = 59
  range : minDateTime ≤ secs * 10 ^ 9 ∧ secs * 10 ^ 9 ≤ maxDateTime
  deriving DecidableEq

/-- `DateTime::signed_duration_since`, of a time outside leap seconds: a leap second is
    counted when the time of day is past it. -/
def signedDurationSince (now : DateTime) (t : Timestamp) : Duration :=
  now - (t.secs * 10 ^ 9 + t.nanos) +
    if t.secs % 86400 < now / 10 ^ 9 % 86400 ∧ 10 ^ 9 ≤ t.nanos then 10 ^ 9 else 0

/-- `DateTime::timestamp`: whole seconds, rounded down. -/
def timestamp (t : DateTime) : ℤ := t / 10 ^ 9

/-- `DateTime::from_timestamp(secs, 0)`, none out of range. -/
def fromTimestamp (secs : ℤ) : Option DateTime :=
  if minDateTime ≤ secs * 10 ^ 9 ∧ secs * 10 ^ 9 ≤ maxDateTime then some (secs * 10 ^ 9) else none

/-- `MAX_REQUEST_DRIFT_SECONDS`. -/
def maxRequestDriftSeconds : ℤ := 120

/-- Whether `t` is no further than the drift from the clock. -/
def Timestamp.Within (t : Timestamp) (now : DateTime) : Prop :=
  |signedDurationSince now t| ≤ Duration.seconds maxRequestDriftSeconds

instance (t : Timestamp) (now : DateTime) : Decidable (t.Within now) :=
  inferInstanceAs (Decidable (_ ≤ _))

/-- A time stays within the drift for no more than twice the drift. -/
theorem Timestamp.drift_span {t : Timestamp} {now later : DateTime} (hnow : t.Within now)
    (hlater : t.Within later) : later ≤ now + Duration.seconds (2 * maxRequestDriftSeconds) := by
  simp only [Within, signedDurationSince, Duration.seconds, maxRequestDriftSeconds, abs_le]
    at hnow hlater ⊢
  have := t.nanos_lt
  unfold DateTime Duration at *
  -- A leap second counted for `now` and not for `later` would lengthen the span by one.
  -- But then `now` is on the day before, so that `later` is past the leap second.
  split_ifs at hnow hlater <;> omega

/-! ## Hexadecimal -/

/-- `FromHexError`. -/
inductive FromHexError
  | invalidHexCharacter (c : UInt8) (index : ℕ)
  | oddLength
  deriving DecidableEq, Repr

/-- A hexadecimal digit, in either case. -/
def IsHexDigit (b : UInt8) : Prop := 48 ≤ b ∧ b ≤ 57 ∨ 65 ≤ b ∧ b ≤ 70 ∨ 97 ≤ b ∧ b ≤ 102

instance (b : UInt8) : Decidable (IsHexDigit b) := inferInstanceAs (Decidable (_ ∨ _))

/-- The byte of `:`. -/
def colon : UInt8 := 58

/-- The byte of a blank. -/
def blank : UInt8 := 32

theorem not_isHexDigit_colon : ¬IsHexDigit colon := by decide

/-- What precedes the first separator is determined. -/
theorem append_cons_inj {α : Type*} {a : α} {l₁ l₂ r₁ r₂ : List α} (h₁ : a ∉ l₁) (h₂ : a ∉ l₂)
    (h : l₁ ++ a :: r₁ = l₂ ++ a :: r₂) : l₁ = l₂ ∧ r₁ = r₂ := by
  induction l₁ generalizing l₂ with
  | nil =>
    rcases l₂ with _ | ⟨b, l₂⟩
    · exact ⟨rfl, List.tail_eq_of_cons_eq h⟩
    · exact absurd (List.head_eq_of_cons_eq h ▸ List.mem_cons_self) h₂
  | cons b l₁ ih =>
    rcases l₂ with _ | ⟨b', l₂⟩
    · exact absurd (List.head_eq_of_cons_eq h ▸ List.mem_cons_self) h₁
    · obtain ⟨rfl, htail⟩ := List.cons.inj h
      obtain ⟨rfl, rfl⟩ :=
        ih (List.not_mem_of_not_mem_cons h₁) (List.not_mem_of_not_mem_cons h₂) htail
      exact ⟨rfl, rfl⟩

/-! ## The recipe -/

/-- `EnvelopeError`. -/
inductive EnvelopeError
  | clockDrift
  | replayed
  | guardWarmingUp
  | guardUnavailable (message : Text)
  | badSignature
  | badPublicKey (message : Text)
  | badSignatureEncoding (message : Text)
  deriving DecidableEq, Repr

/-- The encodings of other crates. -/
structure Codecs (T : Type) where
  /-- `DateTime::to_rfc3339`. -/
  toRfc3339 : Timestamp → Text
  /-- `hex::decode`. -/
  hexDecode : Text → Outcome FromHexError Bytes
  /-- `serde_json::to_string`. -/
  toJson : T → Outcome Text Text
  /-- `PublicKey::from_sec1_bytes`. -/
  fromSec1Bytes : Bytes → Outcome Text PublicKey
  /-- `Signature::from_bytes`. -/
  signatureFromBytes : Bytes → Outcome Text Signature
  /-- `FromHexError::to_string`. -/
  fromHexMessage : FromHexError → Text

/-- Nothing but hexadecimal digits is decoded, as the `hex` crate documents. -/
def Codecs.DecodesHex {T : Type} (x : Codecs T) : Prop :=
  ∀ s bytes, x.hexDecode s = .ok bytes → ∀ b ∈ s, IsHexDigit b

theorem Codecs.DecodesHex.colon_notMem {T : Type} {x : Codecs T} (h : x.DecodesHex) {s : Text}
    {bytes : Bytes} (hs : x.hexDecode s = .ok bytes) : colon ∉ s :=
  fun hmem => not_isHexDigit_colon (h s bytes hs colon hmem)

/-- `SignedEnvelope`. -/
structure SignedEnvelope (T : Type) where
  pubkey : Text
  timestamp : Timestamp
  payload : T
  signature : Text

namespace SignedEnvelope

variable {T : Type} (c : Crypto) (x : Codecs T) (e : SignedEnvelope T)

/-- `SignedEnvelope::signing_string`. -/
def signingString (method path hub : Text) : Outcome EnvelopeError Text := do
  let payloadJson ← (x.toJson e.payload).mapErr fun message =>
    .badPublicKey ("payload not serializable: ".toUTF8.toList ++ message)
  pure (e.pubkey ++ colon :: (x.toRfc3339 e.timestamp ++ colon :: (method ++ blank :: (path ++
    colon :: (hub ++ colon :: payloadJson)))))

/-- `SignedEnvelope::verify_signature`. -/
def verifySignature (now : DateTime) (method path hub : Text) : Outcome EnvelopeError PublicKey := do
  Outcome.ensure (e.timestamp.Within now) .clockDrift
  let pubkeyBytes ← (x.hexDecode e.pubkey).mapErr fun error => .badPublicKey (x.fromHexMessage error)
  let pubkey ← (x.fromSec1Bytes pubkeyBytes).mapErr .badPublicKey
  let signatureBytes ← (x.hexDecode e.signature).mapErr fun error =>
    .badSignatureEncoding (x.fromHexMessage error)
  let signature ← (x.signatureFromBytes signatureBytes).mapErr .badSignatureEncoding
  let signed ← e.signingString x method path hub
  Outcome.ensure (c.verify signature (c.hashBytes signed) pubkey) .badSignature
  pure pubkey

end SignedEnvelope

variable {T : Type} (c : Crypto) (x : Codecs T)

/-- The bytes `σ` encode a signature of the string `signed`, which begins with the key
    that verifies it. -/
def Signs (σ : Bytes) (signed : Text) : Prop :=
  ∃ pubkey rest keyBytes key signature, signed = pubkey ++ colon :: rest ∧
    x.hexDecode pubkey = .ok keyBytes ∧ x.fromSec1Bytes keyBytes = .ok key ∧
    x.signatureFromBytes σ = .ok signature ∧ c.verify signature (c.hashBytes signed) key

variable {c x} {e e' : SignedEnvelope T} {method path hub method' path' hub' : Text}
  {signed : Text}

namespace SignedEnvelope

theorem signingString_eq_ok : e.signingString x method path hub = .ok signed ↔
    ∃ json, x.toJson e.payload = .ok json ∧ signed = e.pubkey ++ colon ::
      (x.toRfc3339 e.timestamp ++ colon :: (method ++ blank :: (path ++ colon :: (hub ++
        colon :: json)))) := by
  rw [signingString, Outcome.bind_eq_ok]
  refine exists_congr fun json => ?_
  rw [Outcome.mapErr_eq_ok, Outcome.pure_eq, Outcome.ok.injEq]
  exact and_congr_right fun _ => eq_comm

/-- An envelope that verifies is within the drift, and signed. -/
theorem verifySignature_eq_ok {now : DateTime} {key : PublicKey}
    (h : e.verifySignature c x now method path hub = .ok key) :
    e.timestamp.Within now ∧ ∃ σ signed keyBytes, x.hexDecode e.pubkey = .ok keyBytes ∧
      x.hexDecode e.signature = .ok σ ∧ e.signingString x method path hub = .ok signed ∧
      Signs c x σ signed := by
  obtain ⟨_, hdrift, h⟩ := Outcome.bind_eq_ok.1 h
  obtain ⟨keyBytes, hkeyBytes, h⟩ := Outcome.bind_eq_ok.1 h
  obtain ⟨pubkey, hpubkey, h⟩ := Outcome.bind_eq_ok.1 h
  obtain ⟨σ, hσ, h⟩ := Outcome.bind_eq_ok.1 h
  obtain ⟨signature, hsignature, h⟩ := Outcome.bind_eq_ok.1 h
  obtain ⟨signed, hsigned, h⟩ := Outcome.bind_eq_ok.1 h
  obtain ⟨_, hverify, -⟩ := Outcome.bind_eq_ok.1 h
  rw [Outcome.mapErr_eq_ok] at hkeyBytes hpubkey hσ hsignature
  obtain ⟨json, -, hrest⟩ := signingString_eq_ok.1 hsigned
  exact ⟨Outcome.ensure_eq_ok.1 hdrift, σ, signed, keyBytes, hkeyBytes, hσ, hsigned,
    e.pubkey, _, keyBytes, pubkey, signature, hrest, hkeyBytes, hpubkey, hsignature,
    Outcome.ensure_eq_ok.1 hverify⟩

/-- The signing string determines the time: the key before it is hexadecimal, and no
    form of a time begins another. -/
theorem timestamp_inj (hhex : x.DecodesHex)
    (hrfc : ∀ t t' r r', x.toRfc3339 t ++ r = x.toRfc3339 t' ++ r' → t = t') {k k' : Bytes}
    (hk : x.hexDecode e.pubkey = .ok k) (hk' : x.hexDecode e'.pubkey = .ok k')
    (h : e.signingString x method path hub = .ok signed)
    (h' : e'.signingString x method' path' hub' = .ok signed) : e.timestamp = e'.timestamp := by
  obtain ⟨json, -, rfl⟩ := signingString_eq_ok.1 h
  obtain ⟨json', -, hsame⟩ := signingString_eq_ok.1 h'
  obtain ⟨-, hrest⟩ := append_cons_inj (hhex.colon_notMem hk) (hhex.colon_notMem hk') hsame
  exact hrfc _ _ _ _ hrest

end SignedEnvelope

/-! Hexadecimal is decoded two digits at a time. -/

namespace EnvelopeSample

/-- The value of a digit, the `index`-th byte of its string. -/
def hexVal (c : UInt8) (index : ℕ) : Outcome FromHexError UInt8 :=
  if 65 ≤ c ∧ c ≤ 70 then .ok (c - 65 + 10)
  else if 97 ≤ c ∧ c ≤ 102 then .ok (c - 97 + 10)
  else if 48 ≤ c ∧ c ≤ 57 then .ok (c - 48)
  else .err (.invalidHexCharacter c index)

/-- The bytes of pairs of digits, from the `index`-th on. -/
def hexPairs : Text → ℕ → Outcome FromHexError Bytes
  | hi :: lo :: rest, index => do
    let hi ← hexVal hi index
    let lo ← hexVal lo (index + 1)
    let bytes ← hexPairs rest (index + 2)
    pure ((hi <<< 4 ||| lo) :: bytes)
  | _, _ => .ok []

/-- What `hex::decode` does. -/
def hexDecode (s : Text) : Outcome FromHexError Bytes := do
  Outcome.ensure (s.length % 2 = 0) .oddLength
  hexPairs s 0

theorem isHexDigit_of_hexVal {c v : UInt8} {index : ℕ} (h : hexVal c index = .ok v) : IsHexDigit c := by
  rw [hexVal] at h
  split_ifs at h with hupper hlower hdigit
  exacts [.inr (.inl hupper), .inr (.inr hlower), .inl hdigit]

theorem isHexDigit_of_hexPairs {s : Text} {index : ℕ} {bytes : Bytes} (hlen : s.length % 2 = 0)
    (h : hexPairs s index = .ok bytes) : ∀ b ∈ s, IsHexDigit b := by
  induction s, index using hexPairs.induct generalizing bytes with
  | case1 hi lo rest index ih =>
    obtain ⟨h₁, hhi, h⟩ := Outcome.bind_eq_ok.1 h
    obtain ⟨h₂, hlo, h⟩ := Outcome.bind_eq_ok.1 h
    obtain ⟨bs, hrest, -⟩ := Outcome.bind_eq_ok.1 h
    rw [List.length_cons, List.length_cons] at hlen
    exact List.forall_mem_cons.2 ⟨isHexDigit_of_hexVal hhi,
      List.forall_mem_cons.2 ⟨isHexDigit_of_hexVal hlo, ih (by omega) hrest⟩⟩
  | case2 s index hne =>
    -- No pair is left: the string is empty, being of even length.
    rcases s with _ | ⟨a, _ | ⟨b, rest⟩⟩
    · exact List.forall_mem_nil _
    · cases hlen
    · exact absurd rfl (hne a b rest)

theorem decodesHex {T : Type} {x : Codecs T} (hx : x.hexDecode = hexDecode) : x.DecodesHex := by
  intro s bytes h
  rw [hx] at h
  obtain ⟨_, hlen, h⟩ := Outcome.bind_eq_ok.1 h
  exact isHexDigit_of_hexPairs (Outcome.ensure_eq_ok.1 hlen) h

end EnvelopeSample

end Itx
