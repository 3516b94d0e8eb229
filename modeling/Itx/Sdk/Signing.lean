import Itx.Chain.Spends
import Itx.Hub.Envelope
import Itx.Hub.Payments
import Itx.Lib.Calendar
import Itx.Lib.Json

/-!
# What the Python client signs

A client signs its requests itself, and its spends (`itx_agent_sdk/envelope.py`). A verifier
rebuilds what was signed from what it was sent, so both have to write the same bytes. What is
signed of a request is a string with a time and a payload in it (`Agent.signingString`);
of a spend, the output it spends and the outputs it pays (`pySpendCommitmentPreimage`).

The time is written with as many digits of its fraction as it needs, by a rule of the client's
own for microseconds, and by `to_rfc3339` for what was parsed from that, in nanoseconds. The
payload is written by `json.dumps`, and by `serde_json` for what was parsed. They agree
(`client_signs_alike`), where other crates do as they say (`Codecs.Documented`).
-/

namespace Itx

open Blockchain

/-! ## Times -/

/-- A fraction of a second, by its digits. -/
def fractionDigits (count n : ℕ) : List Char := if count = 0 then [] else '.' :: padded 10 count n

/-- A date and a time of day in UTC, as RFC 3339 has them, with the year as it is written. -/
def rfc3339 (year : List Char) (t : CivilTime) (fraction : List Char) : List Char :=
  year ++ '-' :: (padded 10 2 t.month ++ '-' :: (padded 10 2 t.day ++ 'T' :: (padded 10 2 t.hour ++
    ':' :: (padded 10 2 t.minute ++ ':' :: (padded 10 2 t.second ++ (fraction ++ "+00:00".toList))))))

/-- The seconds before 1970. -/
def epochSeconds : ℕ := 719528 * 86400

/-- The time of a date, a time of day and nanoseconds, outside leap seconds. -/
def CivilTime.timestamp? (t : CivilTime) (nanos : ℕ) : Option Timestamp :=
  let secs : ℤ := t.seconds - epochSeconds
  if h : nanos < 10 ^ 9 ∧ minDateTime ≤ secs * 10 ^ 9 ∧ secs * 10 ^ 9 ≤ maxDateTime then
    some
      { secs
        nanos
        nanos_lt := by omega
        leap := by omega
        range := h.2 }
  else none

/-- `datetime`, once it is in UTC. -/
structure PyDateTime where
  civil : CivilTime
  microsecond : ℕ
  valid : civil.Valid
  year : 1 ≤ civil.year ∧ civil.year ≤ 9999
  microsecond_lt : microsecond < 10 ^ 6

/-- `_format_rfc3339`: `%Y` has no zeros in front. -/
def formatRfc3339 (dt : PyDateTime) : List Char :=
  let micros := dt.microsecond
  let fraction :=
    if micros = 0 then []
    else if micros % 1000 = 0 then '.' :: padded 10 3 (micros / 1000)
    else '.' :: padded 10 6 micros
  rfc3339 (Nat.toDigits 10 dt.civil.year) dt.civil fraction

/-- The fraction `to_rfc3339` writes: none, or of milli-, micro- or nanoseconds. -/
def chronoFraction (nanos : ℕ) : List Char :=
  if nanos = 0 then fractionDigits 0 0
  else if nanos % 10 ^ 6 = 0 then fractionDigits 3 (nanos / 10 ^ 6)
  else if nanos % 10 ^ 3 = 0 then fractionDigits 6 (nanos / 10 ^ 3)
  else fractionDigits 9 nanos

/-! ## Requests -/

/-- `_canonical_json`. -/
def canonicalJson (payload : Json) : List Char := payload.dumps

/-- What an `Agent` signs with. -/
structure Agent where
  pubkeyHex : List Char
  signMessage : List Char → List Char

/-- An envelope, as the client sends it. -/
structure PyEnvelope where
  pubkey : List Char
  timestamp : List Char
  payload : Json
  signature : List Char

namespace Agent

variable (agent : Agent)

/-- The string `build_envelope` signs. -/
def signingString (method path : List Char) (payload : Json) (hub : List Char) (timestamp : PyDateTime) :
    List Char :=
  agent.pubkeyHex ++ ':' :: (formatRfc3339 timestamp ++ ':' :: (method ++ ' ' :: (path ++ ':' :: (hub ++
    ':' :: canonicalJson payload))))

/-- `Agent.build_envelope`. -/
def buildEnvelope (method path : List Char) (payload : Json) (hub : List Char) (timestamp : PyDateTime) :
    PyEnvelope where
  pubkey := agent.pubkeyHex
  timestamp := formatRfc3339 timestamp
  payload
  signature := agent.signMessage (agent.signingString method path payload hub timestamp)

end Agent

/-- What a verifier has parsed of an envelope: the strings and the payload as they were sent,
    and the time that was. -/
structure PyEnvelope.ParsedAs (parseRfc3339 : Text → Option Timestamp) (sent : PyEnvelope)
    (e : SignedEnvelope Json) : Prop where
  pubkey : e.pubkey = utf8 sent.pubkey
  timestamp : parseRfc3339 (utf8 sent.timestamp) = some e.timestamp
  payload : e.payload = sent.payload
  signature : e.signature = utf8 sent.signature

/-- What the other crates document. -/
structure Codecs.Documented (x : Codecs Json) (parseRfc3339 : Text → Option Timestamp) : Prop where
  /-- A payload is written without blanks, by the table of escapes. -/
  toJson : ∀ value, x.toJson value = .ok value.serialize
  /-- A time is written in UTC, with the fraction it needs. -/
  toRfc3339 : ∀ t nanos τ, t.Valid → t.year ≤ 9999 → t.timestamp? nanos = some τ →
    x.toRfc3339 τ = utf8 (rfc3339 (padded 10 4 t.year) t (chronoFraction nanos))
  /-- A time is read with up to nine digits of its fraction. -/
  parse : ∀ t count n, t.Valid → t.year ≤ 9999 → count ≤ 9 → n < 10 ^ count →
    parseRfc3339 (utf8 (rfc3339 (padded 10 4 t.year) t (fractionDigits count n))) =
      t.timestamp? (n * 10 ^ (9 - count))

/-! ## Spends -/

/-- The errors of `spend_commitment_preimage`. -/
inductive PyError
  | valueError
  | overflowError
  deriving DecidableEq, Repr

/-- A hexadecimal digit, in either case. -/
def pyHexDigit (c : Char) : Option ℕ :=
  if '0' ≤ c ∧ c ≤ '9' then some (c.toNat - 48)
  else if 'a' ≤ c ∧ c ≤ 'f' then some (c.toNat - 87)
  else if 'A' ≤ c ∧ c ≤ 'F' then some (c.toNat - 55)
  else none

/-- `bytes.fromhex`: blanks may stand between the bytes. -/
def fromHex : List Char → Option Bytes
  | [] => some []
  | [c] => if c.isWhitespace then some [] else none
  | c :: d :: rest =>
    if c.isWhitespace then fromHex (d :: rest)
    else do
      let hi ← pyHexDigit c
      let lo ← pyHexDigit d
      let bytes ← fromHex rest
      some (UInt8.ofNat (16 * hi + lo) :: bytes)

/-- An output of a spend, as the payload sends it. -/
structure PyOutput where
  pubkey : List Char
  value : ℤ

/-- An output is sent with its value, and with the compressed key of its owner. -/
structure PyOutput.Sends (c : Crypto) (sent : PyOutput) (output : TransactionOutput) : Prop where
  value : sent.value = output.value
  value_lt : output.value < 2 ^ 64
  pubkey : fromHex sent.pubkey = some (c.toSec1Bytes output.pubkey)
  compressed : (c.toSec1Bytes output.pubkey).length = 33

/-- One output of the preimage. -/
def pyOutput (output : PyOutput) : Outcome PyError Bytes := do
  Outcome.ensure (0 ≤ output.value ∧ output.value ≤ 0xFFFFFFFFFFFFFFFF) .valueError
  let pubkey ← Outcome.okOr .valueError (fromHex output.pubkey)
  Outcome.ensure (pubkey ≠ [] ∧ pubkey.length ≤ 0xFF) .valueError
  pure (toBeBytes 8 output.value.toNat ++ UInt8.ofNat pubkey.length :: pubkey)

/-- `spend_commitment_preimage`. -/
def pySpendCommitmentPreimage (outputHashHex : List Char) (outputs : List PyOutput) :
    Outcome PyError Bytes := do
  let outputHash ← Outcome.okOr .valueError (fromHex outputHashHex)
  Outcome.ensure (outputHash.length = 32) .valueError
  Outcome.ensure (outputs ≠ []) .valueError
  Outcome.ensure (outputs.length < 2 ^ 32) .overflowError
  let paid ← outputs.mapM pyOutput
  pure ("itx.spend.v1".toUTF8.toList ++ outputHash ++ toBeBytes 4 outputs.length ++ paid.flatten)

/-! ## Both sign the same -/

/-- A fraction in nanoseconds, by its digits. -/
theorem exists_chronoFraction {nanos : ℕ} (h : nanos < 10 ^ 9) :
    ∃ count n, count ≤ 9 ∧ n < 10 ^ count ∧ chronoFraction nanos = fractionDigits count n ∧
      n * 10 ^ (9 - count) = nanos := by
  by_cases h₀ : nanos = 0
  · exact ⟨0, 0, by decide, by decide, by rw [chronoFraction, if_pos h₀], by rw [h₀, Nat.zero_mul]⟩
  by_cases h₆ : nanos % 10 ^ 6 = 0
  · exact ⟨3, nanos / 10 ^ 6, by decide, by omega, by rw [chronoFraction, if_neg h₀, if_pos h₆], by omega⟩
  by_cases h₃ : nanos % 10 ^ 3 = 0
  · exact ⟨6, nanos / 10 ^ 3, by decide, by omega,
      by rw [chronoFraction, if_neg h₀, if_neg h₆, if_pos h₃], by omega⟩
  · exact ⟨9, nanos, le_rfl, h, by rw [chronoFraction, if_neg h₀, if_neg h₆, if_neg h₃], by omega⟩

/-- From the year 1000 on, the client writes a time as `to_rfc3339` does. -/
theorem formatRfc3339_eq {dt : PyDateTime} (hyear : 1000 ≤ dt.civil.year) :
    formatRfc3339 dt =
      rfc3339 (padded 10 4 dt.civil.year) dt.civil (chronoFraction (dt.microsecond * 1000)) := by
  rw [padded_of_le (by decide) (by decide) hyear]
  refine congrArg (rfc3339 _ dt.civil) ?_
  simp only [chronoFraction, fractionDigits]
  -- Nanoseconds are never needed, and milliseconds are when the microseconds say so.
  split_ifs with h₀ h₃
  all_goals first | rfl | omega | skip
  · rw [show dt.microsecond * 1000 / 10 ^ 6 = dt.microsecond / 1000 by omega]
  · rw [show dt.microsecond * 1000 / 10 ^ 3 = dt.microsecond by omega]

section

variable {x : Codecs Json} {parseRfc3339 : Text → Option Timestamp} {agent : Agent} {dt : PyDateTime}

/-- A time is written again as it was sent. -/
theorem Codecs.Documented.toRfc3339_parsed (hx : x.Documented parseRfc3339) (hyear : 1000 ≤ dt.civil.year)
    {τ : Timestamp} (hτ : parseRfc3339 (utf8 (formatRfc3339 dt)) = some τ) :
    x.toRfc3339 τ = utf8 (formatRfc3339 dt) := by
  have hmicros := dt.microsecond_lt
  obtain ⟨count, n, hcount, hn, hfraction, hnanos⟩ :=
    exists_chronoFraction (show dt.microsecond * 1000 < 10 ^ 9 by omega)
  rw [formatRfc3339_eq hyear] at hτ ⊢
  rw [hfraction, hx.parse _ _ _ dt.valid dt.year.2 hcount hn, hnanos] at hτ
  exact hx.toRfc3339 _ _ _ dt.valid dt.year.2 hτ

/-- The string the client signs is the one rebuilt from what it sends. -/
theorem signingString_buildEnvelope (hx : x.Documented parseRfc3339) (hyear : 1000 ≤ dt.civil.year)
    {method path hub : List Char} {payload : Json} {e : SignedEnvelope Json}
    (he : (agent.buildEnvelope method path payload hub dt).ParsedAs parseRfc3339 e) :
    e.signingString x (utf8 method) (utf8 path) (utf8 hub) =
      .ok (utf8 (agent.signingString method path payload hub dt)) := by
  have htime := hx.toRfc3339_parsed hyear he.timestamp
  have hpayload : e.payload = payload := he.payload
  have hpubkey : e.pubkey = utf8 agent.pubkeyHex := he.pubkey
  refine SignedEnvelope.signingString_eq_ok.2 ⟨payload.serialize, hpayload ▸ hx.toJson _, ?_⟩
  rw [htime, hpubkey, Agent.signingString, canonicalJson]
  simp only [utf8_append, utf8_cons, Json.utf8_dumps, Json.utf8EncodeChar_colon]
  rfl

end

section

variable {c : Crypto} {sent : List PyOutput} {outputs : List TransactionOutput}

/-- An output is signed as the verifier reads it. -/
theorem PyOutput.Sends.pyOutput_eq {sent : PyOutput} {output : TransactionOutput} (h : sent.Sends c output) :
    pyOutput sent = .ok (toBeBytes 8 output.value ++
      UInt8.ofNat (c.toSec1Bytes output.pubkey).length :: c.toSec1Bytes output.pubkey) := by
  have hlt := h.value_lt
  have hvalue : 0 ≤ sent.value ∧ sent.value ≤ 0xFFFFFFFFFFFFFFFF := by
    rw [h.value]
    omega
  have hpubkey : c.toSec1Bytes output.pubkey ≠ [] ∧ (c.toSec1Bytes output.pubkey).length ≤ 0xFF := by
    rw [← List.length_pos_iff, h.compressed]
    decide
  rw [pyOutput, Outcome.ensure_of hvalue, h.pubkey, h.value]
  simp only [Outcome.okOr, Outcome.ok_bind, Outcome.ensure_of hpubkey, Int.toNat_natCast, Outcome.pure_eq]

/-- What the client hashes for a spend is what the verifier does. -/
theorem pySpendCommitmentPreimage_eq {outputHashHex : List Char} {outputHash : Hash}
    (hhash : fromHex outputHashHex = some (toLeBytes 32 outputHash))
    (hsends : List.Forall₂ (PyOutput.Sends c) sent outputs) (hne : outputs ≠ [])
    (hlen : outputs.length < 2 ^ 32) :
    pySpendCommitmentPreimage outputHashHex sent = .ok (spendCommitmentPreimage c outputHash outputs) := by
  have hlength := hsends.length_eq
  have hsent : sent ≠ [] := by
    rw [← List.length_pos_iff, hlength, List.length_pos_iff]
    exact hne
  have hpaid : sent.mapM pyOutput = .ok (outputs.map fun output => toBeBytes 8 output.value ++
      UInt8.ofNat (c.toSec1Bytes output.pubkey).length :: c.toSec1Bytes output.pubkey) := by
    rw [Outcome.mapM_eq_ok, List.forall₂_map_right_iff]
    exact hsends.imp fun _ _ h => h.pyOutput_eq
  rw [pySpendCommitmentPreimage, hhash, hpaid, hlength]
  simp only [Outcome.okOr, Outcome.ok_bind, Outcome.ensure_of (toLeBytes_length 32 outputHash),
    Outcome.ensure_of hsent, Outcome.ensure_of hlen, Outcome.pure_eq, spendCommitmentPreimage,
    List.flatMap_def]

end

/-- **The client signs what its verifiers rebuild.** The string it signs of a request is the
    one rebuilt from the envelope it sends, whatever the request, as long as the year has four
    digits. What it hashes for a spend is the preimage of the spend, for all outputs a spend
    can have. -/
theorem client_signs_alike (c : Crypto) {x : Codecs Json} {parseRfc3339 : Text → Option Timestamp}
    (hx : x.Documented parseRfc3339) :
    (∀ (agent : Agent) (method path : List Char) (payload : Json) (hub : List Char) (dt : PyDateTime)
      (e : SignedEnvelope Json), 1000 ≤ dt.civil.year →
      (agent.buildEnvelope method path payload hub dt).ParsedAs parseRfc3339 e →
        e.signingString x (utf8 method) (utf8 path) (utf8 hub) =
          .ok (utf8 (agent.signingString method path payload hub dt))) ∧
    ∀ (outputHashHex : List Char) (outputHash : Hash) (sent : List PyOutput)
      (outputs : List TransactionOutput), fromHex outputHashHex = some (toLeBytes 32 outputHash) →
      List.Forall₂ (PyOutput.Sends c) sent outputs → outputs ≠ [] → outputs.length < 2 ^ 32 →
        pySpendCommitmentPreimage outputHashHex sent =
          .ok (spendCommitmentPreimage c outputHash outputs) :=
  ⟨fun _ _ _ _ _ _ _ hyear he => signingString_buildEnvelope hx hyear he,
    fun _ _ _ _ hhash hsends hne hlen => pySpendCommitmentPreimage_eq hhash hsends hne hlen⟩

namespace SigningSample

/-- A number of a width, less the separator after it. -/
def readNumber (width : ℕ) (s : List Char) : ℕ × List Char :=
  (Nat.ofDigitChars 10 (s.take width) 0, s.drop (width + 1))

theorem readNumber_padded {width n : ℕ} (hwidth : 0 < width) (h : n < 10 ^ width) (c : Char)
    (rest : List Char) : readNumber width (padded 10 width n ++ c :: rest) = (n, rest) := by
  have hlength := length_padded (by decide) hwidth h
  rw [readNumber, List.take_left' hlength, ofDigitChars_padded, ← List.drop_drop, List.drop_left' hlength]
  rfl

/-- The digits of a fraction. -/
def fractionOf : List Char → List Char
  | '.' :: rest => rest.takeWhile Char.isDigit
  | _ => []

/-- A time is read in UTC. -/
def parseRfc3339 (text : Text) : Option Timestamp :=
  let (year, s) := readNumber 4 (ascii text)
  let (month, s) := readNumber 2 s
  let (day, s) := readNumber 2 s
  let (hour, s) := readNumber 2 s
  let (minute, s) := readNumber 2 s
  let second := Nat.ofDigitChars 10 (s.take 2) 0
  let fraction := fractionOf (s.drop 2)
  CivilTime.timestamp? { year, month, day, hour, minute, second }
    (Nat.ofDigitChars 10 fraction 0 * 10 ^ (9 - fraction.length))

/-- The codecs, less those of keys and signatures. -/
def codecs : Codecs Json where
  toRfc3339 τ :=
    let t := CivilTime.ofSeconds (τ.secs + epochSeconds).toNat
    utf8 (rfc3339 (padded 10 4 t.year) t (chronoFraction τ.nanos))
  toJson value := .ok value.serialize
  hexDecode := EnvelopeSample.hexDecode
  fromSec1Bytes _ := .err []
  signatureFromBytes _ := .err []
  fromHexMessage _ := []

theorem fractionOf_fractionDigits {count n : ℕ} (h : n < 10 ^ count) :
    Nat.ofDigitChars 10 (fractionOf (fractionDigits count n ++ "+00:00".toList)) 0 = n ∧
      (fractionOf (fractionDigits count n ++ "+00:00".toList)).length = count := by
  rcases Nat.eq_zero_or_pos count with rfl | hcount
  · obtain rfl : n = 0 := by omega
    exact ⟨rfl, rfl⟩
  · have hdigits : fractionOf (fractionDigits count n ++ "+00:00".toList) = padded 10 count n := by
      rw [fractionDigits, if_neg hcount.ne', List.cons_append, fractionOf,
        List.takeWhile_append_of_pos fun c hc => isDigit_of_mem_padded hc]
      exact List.append_nil _
    rw [hdigits]
    exact ⟨ofDigitChars_padded _ _, length_padded (by decide) hcount h⟩

/-- What is written of a time is ASCII. -/
theorem ascii_rfc3339 (t : CivilTime) (count n : ℕ) :
    ascii (utf8 (rfc3339 (padded 10 4 t.year) t (fractionDigits count n))) =
      rfc3339 (padded 10 4 t.year) t (fractionDigits count n) := by
  have hdigit : ∀ {width n c}, c ∈ padded 10 width n → c.toNat < 128 := fun hc =>
    toNat_lt_of_isDigit (isDigit_of_mem_padded hc)
  have hfraction : ∀ c ∈ fractionDigits count n, c.toNat < 128 := by
    intro c hc
    rw [fractionDigits] at hc
    split_ifs at hc
    · cases hc
    · rcases List.mem_cons.1 hc with rfl | hc
      · decide
      · exact hdigit hc
  have hoffset : ∀ c ∈ "+00:00".toList, decide (c.toNat < 128) := List.all_eq_true.1 (by decide +kernel)
  refine ascii_utf8 fun c hc => ?_
  simp only [rfc3339, List.mem_append, List.mem_cons] at hc
  rcases hc with hc | rfl | hc | rfl | hc | rfl | hc | rfl | hc | rfl | hc | hc | hc
  any_goals decide
  any_goals exact hdigit hc
  · exact hfraction c hc
  · exact of_decide_eq_true (hoffset c hc)

theorem documented : codecs.Documented parseRfc3339 where
  toJson _ := rfl
  toRfc3339 t nanos τ ht _ hτ := by
    rw [CivilTime.timestamp?] at hτ
    split_ifs at hτ
    obtain rfl := Option.some.inj hτ
    have hsecs : ((t.seconds : ℤ) - epochSeconds + epochSeconds).toNat = t.seconds := by omega
    simp only [codecs, hsecs, CivilTime.ofSeconds_seconds ht]
  parse t count n ht hyear _ hn := by
    have hmonth := ht.month.2
    have hday : t.day ≤ 31 := by
      have := ht.day.2
      rw [daysInMonth] at this
      split_ifs at this <;> omega
    have hhour := ht.hour
    have hminute := ht.minute
    have hsecond := ht.second
    obtain ⟨hvalue, hlength⟩ := fractionOf_fractionDigits hn
    have hseconds : (padded 10 2 t.second).length = 2 := length_padded (by decide) (by decide) (by omega)
    rw [parseRfc3339, ascii_rfc3339, rfc3339]
    simp only [readNumber_padded (show 0 < 4 by decide) (show t.year < 10 ^ 4 by omega),
      readNumber_padded (show 0 < 2 by decide) (show t.month < 10 ^ 2 by omega),
      readNumber_padded (show 0 < 2 by decide) (show t.day < 10 ^ 2 by omega),
      readNumber_padded (show 0 < 2 by decide) (show t.hour < 10 ^ 2 by omega),
      readNumber_padded (show 0 < 2 by decide) (show t.minute < 10 ^ 2 by omega),
      List.take_left' hseconds, List.drop_left' hseconds, ofDigitChars_padded, hvalue, hlength]

/-- Keys of 33 bytes. -/
def crypto : Crypto := { pairingCrypto with toSec1Bytes := fun pubkey => toBeBytes 33 (2 * 256 ^ 32 + pubkey) }

def agent : Agent := ⟨"02ab".toList, id⟩

/-- A time of the year 2026, in milliseconds. -/
def dt : PyDateTime where
  civil := ⟨2026, 6, 15, 12, 30, 45⟩
  microsecond := 123000
  valid := by constructor <;> decide
  year := by decide
  microsecond_lt := by decide

/-- A note with a quote, a control character and an accent in it. -/
def payload : Json := .object [("note".toList, .str [Char.ofNat 34, Char.ofNat 7, Char.ofNat 233]),
  ("bounty".toList, .list [.int 5, .int (-12), .bool true, .null])]

/-- The time, as it is parsed. -/
def stamp : Timestamp where
  secs := 1781526645
  nanos := 123000000
  nanos_lt := by decide
  leap := by decide
  range := by decide

def envelope : SignedEnvelope Json :=
  ⟨utf8 agent.pubkeyHex, stamp, payload,
    utf8 (agent.signMessage (agent.signingString "POST".toList "/tasks".toList payload "03".toList dt))⟩

theorem parsedAs : (agent.buildEnvelope "POST".toList "/tasks".toList payload "03".toList dt).ParsedAs
    parseRfc3339 envelope :=
  ⟨rfl, by decide +kernel, rfl, rfl⟩

/-- The hash 1, in hexadecimal, and a key. -/
def hashHex : List Char := "01".toList ++ List.replicate 62 '0'

def keyHex : List Char := "02".toList ++ List.replicate 62 '0' ++ "2A".toList

end SigningSample

open SigningSample in
theorem client_signs_alike_sample :
    envelope.signingString codecs (utf8 "POST".toList) (utf8 "/tasks".toList) (utf8 "03".toList) =
      .ok (utf8 (agent.signingString "POST".toList "/tasks".toList payload "03".toList dt)) ∧
    pySpendCommitmentPreimage hashHex [⟨keyHex, 1000⟩] =
      .ok (spendCommitmentPreimage crypto 1 [⟨1000, 5, 42⟩]) := by
  obtain ⟨hrequests, hspends⟩ := client_signs_alike crypto documented
  refine ⟨hrequests _ _ _ _ _ _ _ (by decide) parsedAs, hspends _ _ _ _ (by decide +kernel) ?_ ?_ ?_⟩
  · exact .cons ⟨rfl, by decide, by decide +kernel, by decide +kernel⟩ .nil
  · exact List.cons_ne_nil _ _
  · decide

end Itx
