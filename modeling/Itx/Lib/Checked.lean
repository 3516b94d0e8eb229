import Mathlib

/-!
# Checked machine arithmetic

Unsigned 64-bit and 256-bit arithmetic over the naturals: an operation whose
result is out of range has none (`none`). A caller makes it an error
(`checked_add(..).ok_or(..)`) or a panic (`+`, with the overflow checks on).

`checkedSum` is the sum of a list, checked at every addition: it fails exactly
when the sum itself is out of range (`checkedSum_eq_some`), since the values are
nonnegative. A saturating sum stops at the last value in range (`saturatingSum_eq`).
-/

namespace Itx

/-- The values of a `u64` are those below. -/
abbrev u64Bound : ℕ := 2 ^ 64

/-- The values of a `U256` are those below. -/
abbrev u256Bound : ℕ := 2 ^ 256

/-- The value `n`, if it is below the bound. -/
def checked (bound n : ℕ) : Option ℕ := if n < bound then some n else none

/-- `u64::checked_add`. -/
def checkedAdd (a b : ℕ) : Option ℕ := checked u64Bound (a + b)

/-- `u64::checked_mul`. -/
def checkedMul (a b : ℕ) : Option ℕ := checked u64Bound (a * b)

/-- `u64::checked_sub`. -/
def checkedSub (a b : ℕ) : Option ℕ := if b ≤ a then some (a - b) else none

/-- A sum checked at every addition (`try_fold(0u64, checked_add)`). -/
def checkedSum (l : List ℕ) : Option ℕ := l.foldlM checkedAdd 0

/-- `u64::saturating_add`. -/
def saturatingAdd (a b : ℕ) : ℕ := min (a + b) (u64Bound - 1)

/-- `u64::saturating_mul`. -/
def saturatingMul (a b : ℕ) : ℕ := min (a * b) (u64Bound - 1)

/-- A saturating sum (`fold(0, u64::saturating_add)`). -/
def saturatingSum (l : List ℕ) : ℕ := l.foldl saturatingAdd 0

@[simp] theorem checked_eq_some {bound n k : ℕ} : checked bound n = some k ↔ n = k ∧ n < bound := by
  unfold checked
  split_ifs with h <;> simp [h]

@[simp] theorem checked_eq_none {bound n : ℕ} : checked bound n = none ↔ bound ≤ n := by
  unfold checked
  split_ifs with h
  · simp [h]
  · simpa using h

@[simp] theorem checkedAdd_eq_some {a b k : ℕ} :
    checkedAdd a b = some k ↔ a + b = k ∧ a + b < u64Bound := checked_eq_some

@[simp] theorem checkedMul_eq_some {a b k : ℕ} :
    checkedMul a b = some k ↔ a * b = k ∧ a * b < u64Bound := checked_eq_some

@[simp] theorem checkedSub_eq_some {a b k : ℕ} : checkedSub a b = some k ↔ b + k = a := by
  unfold checkedSub
  split_ifs with h <;> simp <;> omega

@[simp] theorem checkedSub_eq_none {a b : ℕ} : checkedSub a b = none ↔ a < b := by
  unfold checkedSub
  split_ifs with h <;> simp <;> omega

theorem foldlM_checkedAdd_eq_some {l : List ℕ} {a k : ℕ} (ha : a < u64Bound) :
    l.foldlM checkedAdd a = some k ↔ a + l.sum = k ∧ a + l.sum < u64Bound := by
  induction l generalizing a with
  | nil => simp only [List.foldlM_nil, List.sum_nil, add_zero]; simp [ha]
  | cons x l ih =>
    rw [List.foldlM_cons, List.sum_cons, ← add_assoc]
    by_cases hx : a + x < u64Bound
    · rw [show checkedAdd a x = some (a + x) by simp [hx]]
      exact ih hx
    · rw [show checkedAdd a x = none from checked_eq_none.2 (not_lt.1 hx)]
      simp only [Option.bind_eq_bind, Option.bind_none, reduceCtorEq, false_iff, not_and, not_lt]
      intro _
      omega

/-- A checked sum succeeds exactly when the sum is in range. -/
@[simp] theorem checkedSum_eq_some {l : List ℕ} {k : ℕ} :
    checkedSum l = some k ↔ l.sum = k ∧ l.sum < u64Bound := by
  rw [checkedSum, foldlM_checkedAdd_eq_some (by decide), zero_add]

theorem foldl_saturatingAdd (l : List ℕ) (n : ℕ) :
    l.foldl saturatingAdd (min n (u64Bound - 1)) = min (n + l.sum) (u64Bound - 1) := by
  induction l generalizing n with
  | nil => rfl
  | cons a l ih =>
    have hadd : saturatingAdd (min n (u64Bound - 1)) a = min (n + a) (u64Bound - 1) := by
      rw [saturatingAdd]
      omega
    rw [List.foldl_cons, hadd, ih, List.sum_cons, Nat.add_assoc]

/-- A saturating sum is the sum, as far as it is in range. -/
theorem saturatingSum_eq (l : List ℕ) : saturatingSum l = min l.sum (u64Bound - 1) := by
  have h := foldl_saturatingAdd l 0
  rwa [Nat.zero_min, Nat.zero_add] at h

end Itx
