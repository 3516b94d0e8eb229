import Itx.Hub.Pricing
import Itx.Lib.Text

/-!
# The quote of a grant

A challenge is sent with the number of hashes it takes on average (`faucet_challenge_dto`,
`hub/src/handlers.rs`), which is read back from its target (`expected_hashes_for_target`,
`hub/src/faucet_pow.rs`). Both ways it is the greatest hash divided by the other number. The
quotient of a number of 64 bits is far greater than that number, so that rounding it loses nothing
(`expectedHashesForTarget_targetForExpectedHashes`). What is quoted is the price, and is what the
target of the challenge asks for (`quote_exact`).

The price is computed in 64 bits (`expectedHashesForPrefixChecked`). Nothing in it overflows as
long as a network has taken fewer than `2 ^ 63` grants, whatever the settings are: the step is
one at least, the shift is by no more than `maxPrefixDoublings`, and the product stops at the
greatest number.
-/

namespace Itx

open Blockchain

/-- `1u64 << shift`: none when the shift is as wide as the number. -/
def checkedShift (shift : ℕ) : Option ℕ := if shift < 64 then some (1 <<< shift) else none

/-- `expected_hashes_for_prefix`: none where an operation overflows. -/
def expectedHashesForPrefixChecked (base taken free step : ℕ) : Option ℕ :=
  if taken < free then some base
  else do
    let past ← checkedSub taken free
    let doublings ← checkedAdd 1 (past / max step 1)
    let factor ← checkedShift (min doublings maxPrefixDoublings)
    some (saturatingMul base factor)

/-- `expected_hashes_for_target`. -/
def expectedHashesForTarget (target : U256) : ℕ :=
  if target = 0 then u64Bound - 1
  else
    let expected := (u256Bound - 1) / target
    if expected > u64Bound - 1 then u64Bound - 1 else expected

namespace Challenge

variable (showUuid : Uuid → Text) (challenge : Challenge)

/-- `Challenge::target_hex`. -/
def targetHex : Text := utf8 (padded 16 64 challenge.target)

/-- `Challenge::preimage_template`. -/
def preimageTemplate : Text :=
  showUuid challenge.id ++ colon :: challenge.serverNonce ++ colon :: challenge.pubkey ++
    colon :: challenge.action ++ colon :: textOf "\x7bsolution\x7d"

end Challenge

/-- `FaucetChallengeDto`. -/
structure FaucetChallengeDto where
  challengeId : Uuid
  serverNonce : Text
  pubkey : Text
  action : Text
  target : Text
  issuedAt : DateTime
  expiresAt : DateTime
  expectedHashes : ℕ
  preimageTemplate : Text

/-- `faucet_challenge_dto`, with the time read for each time that is out of range. -/
def faucetChallengeDto (showUuid : Uuid → Text) (now : DateTime) (challenge : Challenge) :
    FaucetChallengeDto where
  challengeId := challenge.id
  serverNonce := challenge.serverNonce
  pubkey := challenge.pubkey
  action := challenge.action
  target := challenge.targetHex
  issuedAt := (fromTimestamp challenge.issuedAt).getD now
  expiresAt := (fromTimestamp challenge.expiresAt).getD now
  expectedHashes := expectedHashesForTarget challenge.target
  preimageTemplate := challenge.preimageTemplate showUuid

/-! ## There and back -/

/-- Dividing by a quotient gives the divisor back, when the quotient is no less. -/
theorem div_div_self_of_mul_le {m n : ℕ} (hn : 0 < n) (h : n * n ≤ m) : m / (m / n) = n := by
  have hle : n ≤ m / n := (Nat.le_div_iff_mul_le hn).2 h
  refine Nat.div_eq_of_lt_le (Nat.mul_div_le m n) ?_
  calc m < n * (m / n + 1) := Nat.lt_mul_div_succ m hn
    _ = n * (m / n) + n := Nat.mul_succ n _
    _ ≤ n * (m / n) + m / n := Nat.add_le_add_left hle _
    _ = (n + 1) * (m / n) := (Nat.succ_mul n _).symm

theorem expectedHashesForTarget_targetForExpectedHashes {n : ℕ} (hn : n < u64Bound) :
    expectedHashesForTarget (targetForExpectedHashes n) = max n 1 := by
  have hpos : 0 < max n 1 := le_max_right n 1
  have hmax : max n 1 ≤ u64Bound - 1 := max_le (Nat.le_sub_one_of_lt hn) (by decide)
  have hsq : max n 1 * max n 1 ≤ u256Bound - 1 :=
    (Nat.mul_le_mul hmax hmax).trans (by decide)
  have hback : (u256Bound - 1) / targetForExpectedHashes n = max n 1 := div_div_self_of_mul_le hpos hsq
  have hne : targetForExpectedHashes n ≠ 0 := by
    intro h
    rw [h, Nat.div_zero] at hback
    omega
  rw [expectedHashesForTarget, if_neg hne, hback]
  exact if_neg (not_lt.2 hmax)

/-- The quote of a target made for a number of hashes stands for that target. -/
theorem targetForExpectedHashes_max (n : ℕ) :
    targetForExpectedHashes (max n 1) = targetForExpectedHashes n := by
  rw [targetForExpectedHashes, targetForExpectedHashes, max_assoc, max_self]

/-! ## The curve in 64 bits -/

variable {base free step taken : ℕ}

theorem expectedHashesForPrefixChecked_eq (htaken : taken < 2 ^ 63) :
    expectedHashesForPrefixChecked base taken free step =
      some (expectedHashesForPrefix base taken free step) := by
  rw [expectedHashesForPrefixChecked, expectedHashesForPrefix]
  split_ifs with hfree
  · rfl
  · have hpast : checkedSub taken free = some (taken - free) :=
      checkedSub_eq_some.2 (Nat.add_sub_cancel' (not_lt.1 hfree))
    have hdiv : (taken - free) / max step 1 ≤ taken := (Nat.div_le_self _ _).trans (Nat.sub_le _ _)
    have hdoublings : checkedAdd 1 ((taken - free) / max step 1) = some (1 + (taken - free) / max step 1) :=
      checkedAdd_eq_some.2 ⟨rfl, by unfold u64Bound; omega⟩
    have hshift : min (1 + (taken - free) / max step 1) maxPrefixDoublings < 64 :=
      lt_of_le_of_lt (min_le_right _ _) (by decide)
    simp only [hpast, hdoublings, checkedShift, if_pos hshift, Option.bind_eq_bind, Option.bind_some,
      Nat.one_shiftLeft]

theorem expectedHashesForPrefix_lt (hbase : base < u64Bound) :
    expectedHashesForPrefix base taken free step < u64Bound := by
  rw [expectedHashesForPrefix]
  split_ifs with hfree
  · exact hbase
  · exact lt_of_le_of_lt (min_le_right _ _) (by decide)

theorem expectedHashesForPrefix_le (hbase : base < u64Bound) :
    expectedHashesForPrefix base taken free step ≤ saturatingMul base (2 ^ maxPrefixDoublings) := by
  rw [expectedHashesForPrefix]
  split_ifs with hfree
  · exact le_min (Nat.le_mul_of_pos_right base (Nat.two_pow_pos _)) (Nat.le_sub_one_of_lt hbase)
  · exact min_le_min_right _ (Nat.mul_le_mul_left base (Nat.pow_le_pow_right (by decide) (min_le_right _ _)))

/-! ## The quote -/

/-- The arithmetic of the faucet: a number of hashes is read back from its target, and a target
    is no easier for more of them. The price of a grant is computed without overflow, does not
    fall with the grants taken, is that of the settings while they are free, and is bounded. A
    challenge at that price is quoted at it, and the quote stands for its target. -/
theorem quote_exact :
    (∀ n, 1 ≤ n → n < u64Bound → expectedHashesForTarget (targetForExpectedHashes n) = n) ∧
      (∀ m n, m ≤ n → targetForExpectedHashes n ≤ targetForExpectedHashes m) ∧
      ∀ base free step taken, base < u64Bound → free < u64Bound → step < u64Bound → taken < 2 ^ 63 →
        ∃ price, expectedHashesForPrefixChecked base taken free step = some price ∧
          (∀ taken' ≤ taken, ∃ price', expectedHashesForPrefixChecked base taken' free step = some price' ∧
            price' ≤ price) ∧
          (taken < free → price = base) ∧
          price ≤ saturatingMul base (2 ^ maxPrefixDoublings) ∧
          ∀ c showUuid id nonce pubkey network now later challenge,
            Challenge.issue c id nonce pubkey (targetForExpectedHashes price) network now = some challenge →
            (faucetChallengeDto showUuid later challenge).expectedHashes = max price 1 ∧
              targetForExpectedHashes (faucetChallengeDto showUuid later challenge).expectedHashes =
                challenge.target := by
  refine ⟨fun n hn hlt => ?_, fun m n => targetForExpectedHashes_anti,
    fun base free step taken hbase _ _ htaken => ?_⟩
  · rw [expectedHashesForTarget_targetForExpectedHashes hlt, max_eq_left hn]
  · refine ⟨_, expectedHashesForPrefixChecked_eq htaken, fun taken' hle => ?_, fun hfree => if_pos hfree,
      expectedHashesForPrefix_le hbase, fun c showUuid id nonce pubkey network now later challenge hissue => ?_⟩
    · exact ⟨_, expectedHashesForPrefixChecked_eq (hle.trans_lt htaken),
        expectedHashesForPrefix_mono hbase hle⟩
    · obtain ⟨expiry, -, hissue⟩ := Option.bind_eq_some_iff.1 hissue
      obtain rfl := Option.some.inj hissue
      have hlt : expectedHashesForPrefix base taken free step < u64Bound := expectedHashesForPrefix_lt hbase
      have hquote := expectedHashesForTarget_targetForExpectedHashes hlt
      refine ⟨hquote, ?_⟩
      dsimp only [faucetChallengeDto]
      rw [hquote, targetForExpectedHashes_max]

/-- The price after the seventh grant of a network that has had its five. -/
theorem quote_exact_sample : expectedHashesForTarget (targetForExpectedHashes 20000000) = 20000000 ∧
    ∃ price ≤ saturatingMul 20000000 (2 ^ maxPrefixDoublings),
      expectedHashesForPrefixChecked 20000000 7 5 5 = some price ∧ price = 40000000 := by
  obtain ⟨hback, -, hprice⟩ := quote_exact
  obtain ⟨price, hchecked, -, -, hle, -⟩ :=
    hprice 20000000 5 5 7 (by decide) (by decide) (by decide) (by decide)
  refine ⟨hback 20000000 (by decide) (by decide), price, hle, hchecked, ?_⟩
  exact (Option.some.inj hchecked).symm.trans (by decide)

end Itx
