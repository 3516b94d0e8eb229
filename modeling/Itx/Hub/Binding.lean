import Itx.Hub.Replay
import Itx.Sdk.Signing

/-!
# What a signature is for

The string that is signed of a request joins a key, a time, a method, a path, a hub and a payload
(`signingString`), and is never parsed. The separator occurs within the time and within the
payload, and what determines the fields is what each of them may contain (`signingString_inj`):
the key ends at the first colon; a time has three, whatever its year is and its fraction
(`chronoRfc3339_parts`), and is determined by its text (`chronoRfc3339_inj`); a method ends at the
first blank, a path at the next colon and a hub at the one after it; the payload is the rest.

So a request that verifies for a method, a path, a hub and a payload verifies for no others
(`request_bound`).
-/

namespace Itx

open Blockchain Finset

/-! ## Times as text -/

/-- The calendar repeats every `400` years, of so many seconds. -/
def eraSeconds : ℕ := 146097 * 86400

/-- The date of a second in its `400` years, and the time of day. -/
def eraCivil (secs : ℤ) : CivilTime := CivilTime.ofSeconds ((secs + epochSeconds) % eraSeconds).toNat

def yearOf (secs : ℤ) : ℤ := 400 * ((secs + epochSeconds) / eraSeconds) + (eraCivil secs).year

/-- A year has four digits at least, and a sign if they are not those of the years to `9999`. -/
def yearText (year : ℤ) : List Char :=
  if 0 ≤ year ∧ year ≤ 9999 then padded 10 4 year.toNat
  else (if year < 0 then '-' else '+') :: padded 10 4 year.natAbs

/-- `DateTime::to_rfc3339`, of a time in UTC: a leap second is the second `60`. -/
def chronoRfc3339 (τ : Timestamp) : List Char :=
  let t := eraCivil τ.secs
  let (second, nanos) := if 10 ^ 9 ≤ τ.nanos then (t.second + 1, τ.nanos - 10 ^ 9) else (t.second, τ.nanos)
  rfc3339 (yearText (yearOf τ.secs)) { t with second } (chronoFraction nanos)

example : chronoRfc3339 ⟨1781526645, 123000000, by decide, by decide, by decide⟩ =
    "2026-06-15T12:30:45.123+00:00".toList := by decide +kernel

example : chronoRfc3339 ⟨-62167219201, 1999999999, by decide, by decide, by decide⟩ =
    "-0001-12-31T23:59:60.999999999+00:00".toList := by decide +kernel

/-! ### The second of a date -/

theorem year_ofSeconds_lt {n : ℕ} (h : n < eraSeconds) : (CivilTime.ofSeconds n).year < 400 := by
  obtain ⟨-, hsum⟩ := sum_locate daysInYear (n / 86400 / 365) 0 (n / 86400)
  have hera : ∑ y ∈ range 400, daysInYear (0 + y) = 146097 := by decide +kernel
  by_contra hyear
  have hmono : ∑ y ∈ range 400, daysInYear (0 + y) ≤
      ∑ y ∈ range ((CivilTime.ofSeconds n).year - 0), daysInYear (0 + y) :=
    sum_le_sum_of_subset (range_mono (not_lt.1 hyear))
  rw [hera] at hmono
  rw [eraSeconds] at h
  simp only [CivilTime.ofSeconds] at hmono
  omega

/-- A date, a time of day and a year are of one second. -/
theorem eraCivil_inj {secs secs' : ℤ} (hcivil : eraCivil secs = eraCivil secs')
    (hyear : yearOf secs = yearOf secs') : secs = secs' := by
  have hseconds := congrArg CivilTime.seconds hcivil
  rw [eraCivil, eraCivil, CivilTime.seconds_ofSeconds, CivilTime.seconds_ofSeconds] at hseconds
  rw [yearOf, yearOf, hcivil] at hyear
  rw [eraSeconds] at *
  omega

/-- Within its year, a date and a time of day are of one year of the `400`. -/
theorem yearOf_inj {secs secs' : ℤ} (h : yearOf secs = yearOf secs') :
    (eraCivil secs).year = (eraCivil secs').year := by
  have hlt : ∀ s : ℤ, (eraCivil s).year < 400 := fun s => year_ofSeconds_lt <| by
    rw [eraSeconds]
    omega
  have h₁ := hlt secs
  have h₂ := hlt secs'
  rw [yearOf, yearOf] at h
  omega

theorem second_eraCivil (secs : ℤ) : ((eraCivil secs).second : ℤ) = secs % 60 := by
  rw [eraCivil, CivilTime.second_ofSeconds, epochSeconds, eraSeconds]
  omega

/-! ### Reading a time -/

theorem fractionDigits_inj {count count' n n' : ℕ} (hn : n < 10 ^ count) (hn' : n' < 10 ^ count')
    (h : fractionDigits count n = fractionDigits count' n') : count = count' ∧ n = n' := by
  have hlength : ∀ {count n : ℕ}, n < 10 ^ count →
      (fractionDigits count n).length = if count = 0 then 0 else count + 1 := by
    intro count n hn
    rw [fractionDigits]
    split_ifs with hcount
    · rfl
    · rw [List.length_cons, length_padded (by decide) (by omega) hn]
  have hcount : count = count' := by
    have := hlength hn
    rw [h, hlength hn'] at this
    split_ifs at this <;> omega
  subst hcount
  refine ⟨rfl, ?_⟩
  rw [fractionDigits, fractionDigits] at h
  split_ifs at h with hzero
  · subst hzero
    omega
  · rw [← ofDigitChars_padded count n, (List.cons.inj h).2, ofDigitChars_padded]

theorem chronoFraction_inj {nanos nanos' : ℕ} (hn : nanos < 10 ^ 9) (hn' : nanos' < 10 ^ 9)
    (h : chronoFraction nanos = chronoFraction nanos') : nanos = nanos' := by
  obtain ⟨count, n, -, hlt, heq, rfl⟩ := exists_chronoFraction hn
  obtain ⟨count', n', -, hlt', heq', rfl⟩ := exists_chronoFraction hn'
  obtain ⟨rfl, rfl⟩ := fractionDigits_inj hlt hlt' (heq.symm.trans (h.trans heq'))
  rfl

theorem head_chronoFraction (nanos : ℕ) :
    ∀ c ∈ (chronoFraction nanos ++ "+00:00".toList).head?, ¬c.isDigit := by
  rw [chronoFraction]
  split_ifs
  all_goals
    rintro c ⟨⟩
    decide

/-- A number begins with a digit, not with a sign. -/
theorem padded_ne_sign {width n : ℕ} {negative : Prop} [Decidable negative] {r r' : List Char} :
    padded 10 width n ++ r ≠ (if negative then '-' else '+') :: r' := by
  intro h
  obtain ⟨c, l, hl⟩ : ∃ c l, padded 10 width n = c :: l := by
    refine List.exists_cons_of_ne_nil fun hnil => ?_
    exact Nat.toDigits_ne_nil (List.append_eq_nil_iff.1 hnil).2
  have hc : c.isDigit := isDigit_of_mem_padded (hl ▸ List.mem_cons_self)
  rw [hl, List.cons_append] at h
  rw [(List.cons.inj h).1] at hc
  split_ifs at hc <;> revert hc <;> decide

/-- The year of a time ends where its month begins. -/
theorem yearText_append_inj {y y' : ℤ} {r r' : List Char}
    (h : yearText y ++ '-' :: r = yearText y' ++ '-' :: r') : y = y' ∧ r = r' := by
  have hminus : ∀ s : List Char, ∀ c ∈ ('-' :: s).head?, ¬c.isDigit := by
    rintro s c ⟨⟩
    decide
  rw [yearText, yearText] at h
  by_cases hfour : 0 ≤ y ∧ y ≤ 9999
  · rw [if_pos hfour] at h
    by_cases hfour' : 0 ≤ y' ∧ y' ≤ 9999
    · rw [if_pos hfour'] at h
      obtain ⟨hy, hr⟩ := padded_append_inj (hminus r) (hminus r') h
      exact ⟨by omega, (List.cons.inj hr).2⟩
    · rw [if_neg hfour'] at h
      exact absurd h padded_ne_sign
  · rw [if_neg hfour] at h
    by_cases hfour' : 0 ≤ y' ∧ y' ≤ 9999
    · rw [if_pos hfour'] at h
      exact absurd h.symm padded_ne_sign
    · rw [if_neg hfour'] at h
      obtain ⟨hsign, h⟩ := List.cons.inj h
      obtain ⟨hy, hr⟩ := padded_append_inj (hminus r) (hminus r') h
      refine ⟨?_, (List.cons.inj hr).2⟩
      split_ifs at hsign
      all_goals first | omega | exact absurd hsign (by decide)

/-- The second of the minute, and the nanoseconds within it. -/
def Timestamp.secondOf (τ : Timestamp) : ℕ := (eraCivil τ.secs).second + τ.nanos / 10 ^ 9

theorem chronoRfc3339_eq (τ : Timestamp) :
    chronoRfc3339 τ = rfc3339 (yearText (yearOf τ.secs)) { eraCivil τ.secs with second := τ.secondOf }
      (chronoFraction (τ.nanos % 10 ^ 9)) := by
  have hnanos := τ.nanos_lt
  rw [chronoRfc3339, Timestamp.secondOf]
  split_ifs with hleap
  · rw [show τ.nanos / 10 ^ 9 = 1 by omega, show τ.nanos % 10 ^ 9 = τ.nanos - 10 ^ 9 by omega]
  · rw [Nat.div_eq_of_lt (not_le.1 hleap), Nat.mod_eq_of_lt (not_le.1 hleap)]
    rfl

/-- The time is determined by its text. -/
theorem chronoRfc3339_inj : Function.Injective chronoRfc3339 := by
  have hhead : ∀ ch : Char, ¬ch.isDigit → ∀ s : List Char, ∀ c ∈ (ch :: s).head?, ¬c.isDigit := by
    rintro ch hch s c ⟨⟩
    exact hch
  intro τ τ' h
  rw [chronoRfc3339_eq, chronoRfc3339_eq, rfc3339, rfc3339] at h
  obtain ⟨hyear, h⟩ := yearText_append_inj h
  obtain ⟨hmonth, h⟩ := padded_append_inj (hhead '-' (by decide) _) (hhead '-' (by decide) _) h
  obtain ⟨hday, h⟩ := padded_append_inj (hhead 'T' (by decide) _) (hhead 'T' (by decide) _) (List.cons.inj h).2
  obtain ⟨hhour, h⟩ := padded_append_inj (hhead ':' (by decide) _) (hhead ':' (by decide) _) (List.cons.inj h).2
  obtain ⟨hminute, h⟩ :=
    padded_append_inj (hhead ':' (by decide) _) (hhead ':' (by decide) _) (List.cons.inj h).2
  obtain ⟨hsecond, h⟩ := padded_append_inj (head_chronoFraction _) (head_chronoFraction _) (List.cons.inj h).2
  have hnanos := chronoFraction_inj (Nat.mod_lt _ (by decide)) (Nat.mod_lt _ (by decide))
    (List.append_cancel_right h)
  -- The second `60` is a leap second, which a second before the `60`th is not.
  obtain ⟨hsecs, hsub⟩ : (eraCivil τ.secs).second = (eraCivil τ'.secs).second ∧ τ.nanos = τ'.nanos := by
    have hlt := τ.nanos_lt
    have hlt' := τ'.nanos_lt
    have hleap := τ.leap
    have hleap' := τ'.leap
    have hmod := second_eraCivil τ.secs
    have hmod' := second_eraCivil τ'.secs
    simp only [Timestamp.secondOf] at hsecond
    omega
  have hcivil : eraCivil τ.secs = eraCivil τ'.secs := by
    have hcivilYear := yearOf_inj hyear
    revert hcivilYear hmonth hday hhour hminute hsecs
    generalize eraCivil τ.secs = t
    generalize eraCivil τ'.secs = t'
    intro hmonth hday hhour hminute hsecs hcivilYear
    cases t
    cases t'
    simp_all
  have hsecs' := eraCivil_inj hcivil hyear
  cases τ
  cases τ'
  simp_all

/-! ### Where a time ends -/

/-- The characters of a time, less its colons. -/
def Plain (ch : Char) : Prop := ch.isDigit ∨ ch ∈ ['-', '+', 'T', '.']

theorem Plain.ascii {ch : Char} (h : Plain ch) : ch.toNat < 128 ∧ ch ≠ ':' := by
  rcases h with hdigit | hsign
  · refine ⟨toNat_lt_of_isDigit hdigit, ?_⟩
    rintro rfl
    exact absurd hdigit (by decide)
  · simp only [List.mem_cons, List.not_mem_nil, or_false] at hsign
    rcases hsign with rfl | rfl | rfl | rfl <;> decide

theorem plain_padded {width n : ℕ} : ∀ ch ∈ padded 10 width n, Plain ch :=
  fun _ h => .inl (isDigit_of_mem_padded h)

theorem plain_yearText (year : ℤ) : ∀ ch ∈ yearText year, Plain ch := by
  rw [yearText]
  split_ifs
  · exact plain_padded
  · exact List.forall_mem_cons.2 ⟨.inr (by decide), plain_padded⟩
  · exact List.forall_mem_cons.2 ⟨.inr (by decide), plain_padded⟩

theorem plain_fractionDigits (count n : ℕ) : ∀ ch ∈ fractionDigits count n, Plain ch := by
  rw [fractionDigits]
  split_ifs
  · exact List.forall_mem_nil _
  · exact List.forall_mem_cons.2 ⟨.inr (by decide), plain_padded⟩

theorem plain_chronoFraction (nanos : ℕ) : ∀ ch ∈ chronoFraction nanos, Plain ch := by
  rw [chronoFraction]
  split_ifs <;> exact plain_fractionDigits _ _

/-- A time has three colons, whatever its year is and its fraction. -/
theorem chronoRfc3339_parts (τ : Timestamp) : ∃ hour minute second : List Char,
    (∀ ch ∈ hour, Plain ch) ∧ (∀ ch ∈ minute, Plain ch) ∧ (∀ ch ∈ second, Plain ch) ∧
      chronoRfc3339 τ = hour ++ ':' :: (minute ++ ':' :: (second ++ ':' :: ['0', '0'])) := by
  have hsign : ∀ {ch : Char}, ch ∈ ['-', '+', 'T', '.'] → Plain ch := .inr
  refine ⟨yearText (yearOf τ.secs) ++ '-' :: (padded 10 2 (eraCivil τ.secs).month ++
      '-' :: (padded 10 2 (eraCivil τ.secs).day ++ 'T' :: padded 10 2 (eraCivil τ.secs).hour)),
    padded 10 2 (eraCivil τ.secs).minute,
    padded 10 2 τ.secondOf ++ (chronoFraction (τ.nanos % 10 ^ 9) ++ ['+', '0', '0']), ?_, plain_padded, ?_, ?_⟩
  · simp only [List.forall_mem_append, List.forall_mem_cons]
    exact ⟨plain_yearText _, hsign (by decide), plain_padded, hsign (by decide), plain_padded,
      hsign (by decide), plain_padded⟩
  · simp only [List.forall_mem_append, List.forall_mem_cons]
    exact ⟨plain_padded, plain_chronoFraction _, hsign (by decide), .inl (by decide), .inl (by decide),
      List.forall_mem_nil _⟩
  · have hoffset : "+00:00".toList = ['+', '0', '0'] ++ ':' :: ['0', '0'] := rfl
    rw [chronoRfc3339_eq, rfc3339, hoffset]
    simp only [List.append_assoc, List.cons_append]

theorem colon_notMem_utf8 {s : List Char} (h : ∀ ch ∈ s, Plain ch) : colon ∉ utf8 s := by
  intro hmem
  obtain ⟨ch, hch, hbyte⟩ := List.mem_flatMap.1 hmem
  obtain ⟨hlt, hne⟩ := (h ch hch).ascii
  rw [utf8EncodeChar_ascii hlt, List.mem_singleton] at hbyte
  have hnat := congrArg UInt8.toNat hbyte
  rw [UInt8.toNat_ofNat', Nat.mod_eq_of_lt (by omega)] at hnat
  exact hne (Char.toNat_inj.1 hnat.symm)

theorem utf8_inj {s t : List Char} (hs : ∀ ch ∈ s, Plain ch) (ht : ∀ ch ∈ t, Plain ch)
    (h : utf8 s = utf8 t) : s = t := by
  rw [← ascii_utf8 fun ch hch => (hs ch hch).ascii.1, h, ascii_utf8 fun ch hch => (ht ch hch).ascii.1]

/-- A time ends after its third colon, and two digits. -/
theorem chronoRfc3339_append_inj {τ τ' : Timestamp} {r r' : Text}
    (h : utf8 (chronoRfc3339 τ) ++ r = utf8 (chronoRfc3339 τ') ++ r') : τ = τ' ∧ r = r' := by
  obtain ⟨hour, minute, second, hhour, hminute, hsecond, hparts⟩ := chronoRfc3339_parts τ
  obtain ⟨hour', minute', second', hhour', hminute', hsecond', hparts'⟩ := chronoRfc3339_parts τ'
  have hcolon : String.utf8EncodeChar ':' = [colon] := utf8EncodeChar_ascii (by decide)
  rw [hparts, hparts'] at h
  simp only [utf8_append, utf8_cons, hcolon, List.append_assoc, List.cons_append, List.nil_append] at h
  obtain ⟨hsame₁, h⟩ := append_cons_inj (colon_notMem_utf8 hhour) (colon_notMem_utf8 hhour') h
  obtain ⟨hsame₂, h⟩ := append_cons_inj (colon_notMem_utf8 hminute) (colon_notMem_utf8 hminute') h
  obtain ⟨hsame₃, h⟩ := append_cons_inj (colon_notMem_utf8 hsecond) (colon_notMem_utf8 hsecond') h
  refine ⟨chronoRfc3339_inj ?_, by simpa only [List.append_cancel_left_eq] using h⟩
  rw [hparts, hparts', utf8_inj hhour hhour' hsame₁, utf8_inj hminute hminute' hsame₂,
    utf8_inj hsecond hsecond' hsame₃]

/-! ## What is signed determines the request -/

variable {T : Type} {c : Crypto} {x : Codecs T}

namespace SignedEnvelope

variable {e e' : SignedEnvelope T} {method path hub method' path' hub' : Text}

/-- What a request is: a key, a time, a method, a path, a hub and the text of a payload. -/
def parts (x : Codecs T) (e : SignedEnvelope T) (method path hub : Text) :
    Text × Timestamp × Text × Text × Text × Outcome Text Text :=
  (e.pubkey, e.timestamp, method, path, hub, x.toJson e.payload)

/-- What may be signed: the key is hexadecimal, and the endpoint is without separators. -/
structure Separated (x : Codecs T) (e : SignedEnvelope T) (method path hub : Text) : Prop where
  pubkey : ∃ bytes, x.hexDecode e.pubkey = .ok bytes
  method : blank ∉ method ∧ colon ∉ method
  path : colon ∉ path
  hub : colon ∉ hub

/-- The string that is signed determines the request. -/
theorem signingString_inj (hhex : x.DecodesHex) (hrfc : ∀ τ, x.toRfc3339 τ = utf8 (chronoRfc3339 τ))
    {signed : Text} (hsep : e.Separated x method path hub) (hsep' : e'.Separated x method' path' hub')
    (h : e.signingString x method path hub = .ok signed)
    (h' : e'.signingString x method' path' hub' = .ok signed) :
    e.parts x method path hub = e'.parts x method' path' hub' := by
  obtain ⟨json, hjson, rfl⟩ := signingString_eq_ok.1 h
  obtain ⟨json', hjson', hsame⟩ := signingString_eq_ok.1 h'
  obtain ⟨bytes, hbytes⟩ := hsep.pubkey
  obtain ⟨bytes', hbytes'⟩ := hsep'.pubkey
  obtain ⟨hpubkey, hsame⟩ := append_cons_inj (hhex.colon_notMem hbytes) (hhex.colon_notMem hbytes') hsame
  rw [hrfc, hrfc] at hsame
  obtain ⟨htimestamp, hsame⟩ := chronoRfc3339_append_inj hsame
  obtain ⟨hmethod, hsame⟩ := append_cons_inj hsep.method.1 hsep'.method.1 (List.cons.inj hsame).2
  obtain ⟨hpath, hsame⟩ := append_cons_inj hsep.path hsep'.path hsame
  obtain ⟨hhub, rfl⟩ := append_cons_inj hsep.hub hsep'.hub hsame
  rw [parts, parts, hpubkey, htimestamp, hmethod, hpath, hhub, hjson, hjson']

/-- What a verification has checked of the signature. -/
theorem signature_of_verifySignature {now : DateTime} {key : PublicKey}
    (h : e.verifySignature c x now method path hub = .ok key) :
    ∃ keyBytes σ signature signed, x.hexDecode e.pubkey = .ok keyBytes ∧ x.hexDecode e.signature = .ok σ ∧
      x.signatureFromBytes σ = .ok signature ∧ e.signingString x method path hub = .ok signed ∧
      c.verify signature (c.hashBytes signed) key := by
  obtain ⟨_, -, h⟩ := Outcome.bind_eq_ok.1 h
  obtain ⟨keyBytes, hkeyBytes, h⟩ := Outcome.bind_eq_ok.1 h
  obtain ⟨pubkey, -, h⟩ := Outcome.bind_eq_ok.1 h
  obtain ⟨σ, hσ, h⟩ := Outcome.bind_eq_ok.1 h
  obtain ⟨signature, hsignature, h⟩ := Outcome.bind_eq_ok.1 h
  obtain ⟨signed, hsigned, h⟩ := Outcome.bind_eq_ok.1 h
  obtain ⟨_, hverify, h⟩ := Outcome.bind_eq_ok.1 h
  obtain rfl := Outcome.ok.inj h
  rw [Outcome.mapErr_eq_ok] at hkeyBytes hσ hsignature
  exact ⟨keyBytes, σ, signature, signed, hkeyBytes, hσ, hsignature, hsigned, Outcome.ensure_eq_ok.1 hverify⟩

end SignedEnvelope

/-- No signature verifies but those that were made with the key, each of one string; `made` are these. -/
structure Unforgeable (c : Crypto) (made : PublicKey → Text → Signature → Prop) : Prop where
  forged : ∀ key signed signature, c.verify signature (c.hashBytes signed) key →
    ∃ own, made key own signature ∧ c.hashBytes own = c.hashBytes signed
  one : ∀ key signed signed' signature, made key signed signature → made key signed' signature →
    signed = signed'

/-- The string that is signed determines the request, and a signature the request it is for. -/
theorem request_bound (hhex : x.DecodesHex) (hrfc : ∀ τ, x.toRfc3339 τ = utf8 (chronoRfc3339 τ)) :
    (∀ (e e' : SignedEnvelope T) method path hub method' path' hub' signed,
      e.Separated x method path hub → e'.Separated x method' path' hub' →
      e.signingString x method path hub = .ok signed → e'.signingString x method' path' hub' = .ok signed →
      e.parts x method path hub = e'.parts x method' path' hub') ∧
    ∀ made, Function.Injective c.hashBytes → Unforgeable c made →
      ∀ (e e' : SignedEnvelope T) method path hub method' path' hub' now now' key,
        e.Separated x method path hub → e'.Separated x method' path' hub' → e.signature = e'.signature →
        e.verifySignature c x now method path hub = .ok key →
        e'.verifySignature c x now' method' path' hub' = .ok key →
        e.parts x method path hub = e'.parts x method' path' hub' := by
  refine ⟨fun _ _ _ _ _ _ _ _ _ => SignedEnvelope.signingString_inj hhex hrfc, ?_⟩
  intro made hhash hmade e e' method path hub method' path' hub' now now' key hsep hsep' hsame h h'
  obtain ⟨-, σ, signature, signed, -, hσ, hsignature, hsigned, hverify⟩ :=
    SignedEnvelope.signature_of_verifySignature h
  obtain ⟨-, σ', signature', signed', -, hσ', hsignature', hsigned', hverify'⟩ :=
    SignedEnvelope.signature_of_verifySignature h'
  obtain rfl : σ = σ' := Outcome.ok.inj (hσ.symm.trans (hsame ▸ hσ'))
  obtain rfl : signature = signature' := Outcome.ok.inj (hsignature.symm.trans hsignature')
  obtain ⟨own, hown, hhashed⟩ := hmade.forged key signed signature hverify
  obtain ⟨own', hown', hhashed'⟩ := hmade.forged key signed' signature hverify'
  obtain rfl : own = signed := hhash hhashed
  obtain rfl : own' = signed' := hhash hhashed'
  obtain rfl := hmade.one key own own' signature hown hown'
  exact SignedEnvelope.signingString_inj hhex hrfc hsep hsep' hsigned hsigned'

/-! The request of the run before, with its time as it is written: it verifies, and no other does
with its signature. -/

namespace BindingSample

open ReplaySample

def timed : Codecs Unit := { ReplaySample.codecs with toRfc3339 := fun τ => utf8 (chronoRfc3339 τ) }

/-- One string has been signed. -/
def made (_ : PublicKey) (m : Text) (σ : Signature) : Prop :=
  m = signed ∧ σ = digits (List.replicate 64 17)

theorem unforgeable : Unforgeable crypto made where
  forged key m signature h := by
    change (signature == digits (List.replicate 64 17) && digits m == digits signed && _) = true at h
    simp only [Bool.and_eq_true, beq_iff_eq] at h
    exact ⟨m, ⟨digits_injective h.1.2, h.1.1⟩, rfl⟩
  one _ _ _ _ h h' := h.1.trans h'.1.symm

theorem separated : envelope.Separated timed post faucet hubId where
  pubkey := ⟨2 :: List.replicate 32 119, by decide +kernel⟩
  method := by decide
  path := by decide
  hub := by decide

end BindingSample

open ReplaySample BindingSample in
theorem request_bound_sample :
    envelope.verifySignature crypto timed (Duration.seconds 20) post faucet hubId =
        .ok (digits (2 :: List.replicate 32 119)) ∧
      ∀ (e : SignedEnvelope Unit) method path hub now, e.Separated timed method path hub →
        e.signature = envelope.signature →
        e.verifySignature crypto timed now method path hub = .ok (digits (2 :: List.replicate 32 119)) →
        e.parts timed method path hub = envelope.parts timed post faucet hubId := by
  have hverify : envelope.verifySignature crypto timed (Duration.seconds 20) post faucet hubId =
      .ok (digits (2 :: List.replicate 32 119)) := by
    decide +kernel
  refine ⟨hverify, fun e method path hub now hsep hsame h => ?_⟩
  obtain ⟨-, hbound⟩ := request_bound (c := crypto) (x := timed) (EnvelopeSample.decodesHex rfl) fun _ => rfl
  exact hbound made digits_injective unforgeable e envelope _ _ _ _ _ _ _ _ _ hsep separated hsame h hverify

end Itx
