import Itx.Lib.Text
import Itx.Chain.Steps

/-!
# Retargeting through decimal text

`Blockchain::adjust_target` (`lib/src/types/blockchain.rs`) as it is computed: the target is printed
and read as a `BigDecimal`, multiplied by a quotient of `BigDecimal`s, printed again, cut at the decimal
point and read back as a `U256`. Printing, reading and the decimal arithmetic are of other crates
(`Decimals`), of which it is assumed that they are exact where this is documented (`Decimals.Exact`).

* `adjustTargetDecimal_eq`: it is the integer arithmetic of `adjustTarget`, since a quotient by `800`
  terminates after at most five digits;
* `retarget_exact`: the result, its bounds, and that it is monotone in the target and in the time.
-/

namespace Itx

/-- What `adjust_target` uses of the crates for `BigDecimal` and `U256`. -/
structure Decimals (D : Type) where
  /-- `U256::to_string`. -/
  u256ToText : U256 → List Char
  /-- `U256::from_str_radix(_, 10)`. -/
  fromStrRadix : List Char → Option U256
  /-- `BigDecimal::parse_bytes(_, 10)`. -/
  parseBytes : List Char → Option D
  /-- `BigDecimal::from`, of a `u64`. -/
  ofU64 : ℕ → D
  mul : D → D → D
  div : D → D → D
  /-- `BigDecimal::to_string`. -/
  toText : D → List Char

/-- The crates are exact. A `BigDecimal` that is not negative is `intVal / 10 ^ scale`. A quotient of
    integers that terminates within the default precision of a hundred digits is not rounded, and has no
    more digits after the point than it needs; a number of few digits after the point is printed without
    an exponent. -/
structure Decimals.Exact {D : Type} (d : Decimals D) (intVal scale : D → ℕ) : Prop where
  u256ToText : ∀ n < u256Bound, d.u256ToText n = Nat.toDigits 10 n
  fromStrRadix : ∀ n < u256Bound, d.fromStrRadix (Nat.toDigits 10 n) = some n
  parseBytes : ∀ n, ∃ x, d.parseBytes (Nat.toDigits 10 n) = some x ∧ intVal x = n ∧ scale x = 0
  ofU64 : ∀ n < u64Bound, intVal (d.ofU64 n) = n ∧ scale (d.ofU64 n) = 0
  mul : ∀ x y, intVal (d.mul x y) = intVal x * intVal y ∧ scale (d.mul x y) = scale x + scale y
  div : ∀ x y q k, scale x = 0 → scale y = 0 → intVal y ≠ 0 → q < 10 ^ 100 → k ≤ 100 →
    intVal y * q = intVal x * 10 ^ k →
      intVal y * intVal (d.div x y) = intVal x * 10 ^ scale (d.div x y) ∧ scale (d.div x y) ≤ k
  toText : ∀ x, intVal x < 10 ^ 80 → scale x ≤ 5 →
    ∃ fraction, d.toText x = Nat.toDigits 10 (intVal x / 10 ^ scale x) ++ fraction ∧
      (fraction = [] ∨ ∃ digits, fraction = '.' :: digits)

/-- `Blockchain::adjust_target`, through text. The difference of two times is in the range of a
    `Duration`. `split('.').next()` is what comes before the first point, and never none. -/
def adjustTargetDecimal {D : Type} (d : Decimals D) (currentTarget : U256) (startTime endTime : DateTime) :
    Option U256 := do
  let timeDiff : Duration := endTime - startTime
  let timeDiffSeconds := (max 1 timeDiff.numSeconds).toNat
  let targetSeconds := idealBlockTime * difficultyUpdateInterval
  let timeDiffSeconds := max (targetSeconds / 4) (min timeDiffSeconds (targetSeconds * 4))
  let target ← d.parseBytes (d.u256ToText currentTarget)
  let newTarget := d.mul target (d.div (d.ofU64 timeDiffSeconds) (d.ofU64 targetSeconds))
  let newTargetStr := (d.toText newTarget).takeWhile (· ≠ '.')
  let newTarget ← d.fromStrRadix newTargetStr
  return min newTarget minTarget

variable {D : Type} {d : Decimals D} {intVal scale : D → ℕ} {t : U256}

/-- What is printed of an integer does not have a point. -/
theorem takeWhile_toDigits_append {fraction : List Char} (n : ℕ)
    (h : fraction = [] ∨ ∃ digits, fraction = '.' :: digits) :
    (Nat.toDigits 10 n ++ fraction).takeWhile (· ≠ '.') = Nat.toDigits 10 n := by
  have hdigit : ∀ c ∈ Nat.toDigits 10 n, decide (c ≠ '.') = true := by
    intro c hc
    rw [decide_eq_true_eq]
    rintro rfl
    exact absurd (Nat.isDigit_of_mem_toDigits (by decide) (by decide) hc) (by decide)
  rw [List.takeWhile_append_of_pos hdigit]
  obtain rfl | ⟨digits, rfl⟩ := h
  · exact List.append_nil _
  · rw [List.takeWhile_cons_of_neg (by decide), List.append_nil]

/-- The quotient of some seconds by those of a window, which is of the primes `2` and `5` only. -/
theorem Decimals.Exact.div_window (hd : d.Exact intVal scale) {s : ℕ} (hs : s ≤ 3200) :
    800 * intVal (d.div (d.ofU64 s) (d.ofU64 800)) = s * 10 ^ scale (d.div (d.ofU64 s) (d.ofU64 800)) ∧
      scale (d.div (d.ofU64 s) (d.ofU64 800)) ≤ 5 := by
  obtain ⟨hx, hxscale⟩ := hd.ofU64 s (lt_of_le_of_lt hs (by decide))
  obtain ⟨hy, hyscale⟩ := hd.ofU64 800 (by decide)
  have hdiv := hd.div (d.ofU64 s) (d.ofU64 800) (125 * s) 5 hxscale hyscale
  rw [hx, hy] at hdiv
  exact hdiv (by decide) (by omega) (by decide) (by omega)

/-- The detour through text is the integer arithmetic. -/
theorem adjustTargetDecimal_eq (hd : d.Exact intVal scale) (h : t ≤ minTarget) (startTime endTime : DateTime) :
    adjustTargetDecimal d t startTime endTime = adjustTarget t startTime endTime := by
  obtain ⟨r, hr, -⟩ := Blockchain.exists_adjustTarget h startTime endTime
  simp only [adjustTargetDecimal, adjustTarget, idealBlockTime, difficultyUpdateInterval] at hr ⊢
  generalize (max 1 (Duration.numSeconds (endTime - startTime))).toNat = secs at hr ⊢
  have hs : max (16 * 50 / 4) (min secs (16 * 50 * 4)) ≤ 3200 := by omega
  generalize max (16 * 50 / 4) (min secs (16 * 50 * 4)) = s at hs hr ⊢
  obtain ⟨n, hn, -⟩ := Option.map_eq_some_iff.1 hr
  obtain ⟨rfl, hlt⟩ := checked_eq_some.1 hn
  have htlt : t < u256Bound := lt_of_le_of_lt h (by decide)
  obtain ⟨x, hparse, hx, hxscale⟩ := hd.parseBytes t
  obtain ⟨hq, hqscale⟩ := hd.div_window hs
  obtain ⟨hmul, hmulscale⟩ := hd.mul x (d.div (d.ofU64 s) (d.ofU64 800))
  rw [hx] at hmul
  rw [hxscale, zero_add] at hmulscale
  generalize d.div (d.ofU64 s) (d.ofU64 800) = q at *
  -- the digits after the point are those that the division of integers drops
  have hfloor : t * intVal q / 10 ^ scale q = t * s / 800 := by
    calc t * intVal q / 10 ^ scale q
        = 800 * (t * intVal q) / (800 * 10 ^ scale q) := (Nat.mul_div_mul_left _ _ (by decide)).symm
      _ = t * s * 10 ^ scale q / (800 * 10 ^ scale q) := by rw [Nat.mul_left_comm, hq, Nat.mul_assoc]
      _ = t * s / 800 := Nat.mul_div_mul_right _ _ (by positivity)
  have hsmall : t * intVal q < 10 ^ 80 := by
    have hpow : 10 ^ scale q ≤ 10 ^ 5 := Nat.pow_le_pow_right (by decide) hqscale
    have hle : 800 * intVal q ≤ 3200 * 10 ^ 5 := hq ▸ Nat.mul_le_mul hs hpow
    calc t * intVal q ≤ minTarget * 400000 := Nat.mul_le_mul h (by omega)
      _ < 10 ^ 80 := by decide
  obtain ⟨fraction, htext, hfraction⟩ := hd.toText (d.mul x q) (by rw [hmul]; exact hsmall)
    (by rw [hmulscale]; exact hqscale)
  rw [hmul, hmulscale, hfloor] at htext
  rw [hn, hd.u256ToText t htlt, hparse]
  change ((d.fromStrRadix ((d.toText (d.mul x q)).takeWhile (· ≠ '.'))).bind fun n =>
    some (min n minTarget)) = _
  rw [htext, takeWhile_toDigits_append _ hfraction, hd.fromStrRadix _ hlt, Option.bind_some, Option.map_some,
    min_comm]

/-! ## The result -/

/-- The seconds of a window: whole ones, and at least one. -/
def elapsed (startTime endTime : DateTime) : ℕ := (max 1 (Duration.numSeconds (endTime - startTime))).toNat

/-- What a target becomes after a window of `secs` seconds: it is in proportion to them, rounded down, by
    a factor of four at most and not beyond the easiest target. -/
def scaledTarget (t : U256) (secs : ℕ) : U256 :=
  let window := idealBlockTime * difficultyUpdateInterval
  min minTarget (t * max (window / 4) (min secs (4 * window)) / window)

theorem scaledTarget_mono {t' : U256} {secs secs' : ℕ} (ht : t ≤ t') (hsecs : secs ≤ secs') :
    scaledTarget t secs ≤ scaledTarget t' secs' :=
  min_le_min_left _ (Nat.div_le_div_right (Nat.mul_le_mul ht (max_le_max_left _ (min_le_min_right _ hsecs))))

theorem div_four_le_scaledTarget (h : t ≤ minTarget) (secs : ℕ) : t / 4 ≤ scaledTarget t secs := by
  refine le_min ((Nat.div_le_self _ _).trans h) ?_
  calc t / 4 = t * 200 / (4 * 200) := (Nat.mul_div_mul_right _ _ (by decide)).symm
    _ ≤ _ := Nat.div_le_div_right (Nat.mul_le_mul_left _ (le_max_left _ _))

theorem scaledTarget_le (t : U256) (secs : ℕ) : scaledTarget t secs ≤ min (4 * t) minTarget := by
  refine le_min ((min_le_right _ _).trans ?_) (min_le_left _ _)
  have hle : max 200 (min secs 3200) ≤ 3200 := max_le (by decide) (min_le_right _ _)
  calc t * max 200 (min secs 3200) / 800
      ≤ t * 3200 / 800 := Nat.div_le_div_right (Nat.mul_le_mul_left _ hle)
    _ = 4 * t := Nat.div_eq_of_eq_mul_left (by decide) (by ring)

theorem adjustTarget_eq_scaledTarget (h : t ≤ minTarget) (startTime endTime : DateTime) :
    adjustTarget t startTime endTime = some (scaledTarget t (elapsed startTime endTime)) := by
  obtain ⟨r, hr, -⟩ := Blockchain.exists_adjustTarget h startTime endTime
  obtain ⟨n, hn, rfl⟩ := Option.map_eq_some_iff.1 hr
  obtain ⟨rfl, -⟩ := checked_eq_some.1 hn
  rw [hr, scaledTarget, elapsed, Nat.mul_comm 4]

/-- Retargeting never fails, and is exact, bounded and monotone. -/
theorem retarget_exact (hd : d.Exact intVal scale) (h : t ≤ minTarget) (startTime endTime : DateTime) :
    ∃ r, adjustTargetDecimal d t startTime endTime = some r ∧
      r = scaledTarget t (elapsed startTime endTime) ∧ t / 4 ≤ r ∧ r ≤ min (4 * t) minTarget ∧
      ∀ t' startTime' endTime', t ≤ t' → t' ≤ minTarget →
        elapsed startTime endTime ≤ elapsed startTime' endTime' →
        ∃ r', adjustTargetDecimal d t' startTime' endTime' = some r' ∧ r ≤ r' := by
  have hsome : ∀ t ≤ minTarget, ∀ startTime endTime, adjustTargetDecimal d t startTime endTime =
      some (scaledTarget t (elapsed startTime endTime)) := fun t h startTime endTime => by
    rw [adjustTargetDecimal_eq hd h, adjustTarget_eq_scaledTarget h]
  refine ⟨_, hsome t h startTime endTime, rfl, div_four_le_scaledTarget h _, scaledTarget_le t _, ?_⟩
  intro t' startTime' endTime' ht ht' hsecs
  exact ⟨_, hsome t' ht' startTime' endTime', scaledTarget_mono ht hsecs⟩

namespace RetargetSample

/-- The value of a text of digits. -/
def digits (text : List Char) : Option ℕ :=
  if text.all Char.isDigit then some (Nat.ofDigitChars 10 text 0) else none

/-- A decimal by its digits and by how many of them are after the point. -/
abbrev Decimal := ℕ × ℕ

/-- The quotient of two integers, with as few digits after the point as it needs, or with a hundred. -/
def quotient (x y : Decimal) : Decimal :=
  let scale := ((List.range 101).find? fun k => x.1 * 10 ^ k % y.1 = 0).getD 100
  (x.1 * 10 ^ scale / y.1, scale)

def decimals : Decimals Decimal where
  u256ToText := Nat.toDigits 10
  fromStrRadix text := (digits text).bind (checked u256Bound)
  parseBytes text := (digits text).map fun n => (n, 0)
  ofU64 n := (n, 0)
  mul x y := (x.1 * y.1, x.2 + y.2)
  div := quotient
  toText x := Nat.toDigits 10 (x.1 / 10 ^ x.2) ++
    if x.2 = 0 then [] else '.' :: padded 10 x.2 (x.1 % 10 ^ x.2)

theorem digits_toDigits (n : ℕ) : digits (Nat.toDigits 10 n) = some n := by
  rw [digits, if_pos, Nat.ofDigitChars_toDigits (by decide) (by decide)]
  rw [List.all_eq_true]
  exact fun c hc => Nat.isDigit_of_mem_toDigits (by decide) (by decide) hc

theorem quotient_exact {x y : Decimal} {q k : ℕ} (hk : k ≤ 100) (h : y.1 * q = x.1 * 10 ^ k) :
    y.1 * (quotient x y).1 = x.1 * 10 ^ (quotient x y).2 ∧ (quotient x y).2 ≤ k := by
  cases hfind : (List.range 101).find? fun k => x.1 * 10 ^ k % y.1 = 0 with
  | none =>
    have hnot := List.find?_eq_none.1 hfind k (List.mem_range.2 (by omega))
    rw [← h, Nat.mul_mod_right] at hnot
    exact absurd rfl hnot
  | some j =>
    obtain ⟨hj, -, hleast⟩ := List.find?_range_eq_some.1 hfind
    have hdvd : y.1 ∣ x.1 * 10 ^ j := Nat.dvd_of_mod_eq_zero (of_decide_eq_true hj)
    rw [quotient, hfind]
    refine ⟨Nat.mul_div_cancel' hdvd, not_lt.1 fun hlt => ?_⟩
    have hk := hleast k hlt
    rw [← h, Nat.mul_mod_right] at hk
    cases hk

theorem exact_decimals : decimals.Exact Prod.fst Prod.snd where
  u256ToText _ _ := rfl
  fromStrRadix n hn := by
    change (digits (Nat.toDigits 10 n)).bind (checked u256Bound) = some n
    rw [digits_toDigits]
    exact checked_eq_some.2 ⟨rfl, hn⟩
  parseBytes n := ⟨(n, 0), congrArg (Option.map fun n => (n, 0)) (digits_toDigits n), rfl, rfl⟩
  ofU64 _ _ := ⟨rfl, rfl⟩
  mul _ _ := ⟨rfl, rfl⟩
  div _ _ _ _ _ _ _ _ hk h := quotient_exact hk h
  toText x _ _ := by
    refine ⟨_, rfl, ?_⟩
    split_ifs
    · exact .inl rfl
    · exact .inr ⟨_, rfl⟩

end RetargetSample

open RetargetSample

/-- A window that took half of its time, from the easiest target. -/
theorem retarget_exact_fast : ∃ r, adjustTargetDecimal decimals minTarget 0 (400 * 10 ^ 9) = some r ∧
    r = 2 ^ 239 - 1 := by
  obtain ⟨r, hr, heq, -⟩ := retarget_exact exact_decimals le_rfl 0 (400 * 10 ^ 9)
  exact ⟨r, hr, heq.trans (by decide)⟩

end Itx
