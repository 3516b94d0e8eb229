import Mathlib

/-!
# The calendar

Dates of the Gregorian calendar and times of day, and the seconds since the beginning of the
year `0` (`CivilTime.seconds`). Years and months vary in length: where a day lies in them is
found by going through them (`locate`), and what is found for a date is the date
(`CivilTime.ofSeconds_seconds`). No two seconds have the same (`CivilTime.seconds_ofSeconds`).
-/

namespace Itx

open Finset

/-! ## Pieces of varying length -/

/-- From the piece `i` on, the piece a position lies in, and where in it. -/
def locate (length : ℕ → ℕ) : ℕ → ℕ → ℕ → ℕ × ℕ
  | 0, i, n => (i, n)
  | fuel + 1, i, n => if n < length i then (i, n) else locate length fuel (i + 1) (n - length i)

theorem locate_sum {length : ℕ → ℕ} {fuel i k r : ℕ} (hr : r < length (i + k)) (hfuel : k ≤ fuel) :
    locate length fuel i (∑ j ∈ range k, length (i + j) + r) = (i + k, r) := by
  induction k generalizing fuel i with
  | zero =>
    rw [sum_range_zero, zero_add, Nat.add_zero]
    cases fuel with
    | zero => rfl
    | succ fuel => exact if_pos hr
  | succ k ih =>
    obtain ⟨fuel, rfl⟩ := Nat.exists_eq_succ_of_ne_zero (by omega : fuel ≠ 0)
    have hsum : ∑ j ∈ range (k + 1), length (i + j) + r =
        length i + (∑ j ∈ range k, length (i + 1 + j) + r) := by
      rw [sum_range_succ', Nat.add_zero]
      simp only [Nat.add_assoc, Nat.add_comm 1]
      omega
    have hi : i + (k + 1) = i + 1 + k := by omega
    rw [hsum, locate, if_neg (by omega), Nat.add_sub_cancel_left, hi]
    exact ih (hi ▸ hr) (by omega)

theorem sum_locate (length : ℕ → ℕ) (fuel i n : ℕ) :
    i ≤ (locate length fuel i n).1 ∧
      ∑ j ∈ range ((locate length fuel i n).1 - i), length (i + j) + (locate length fuel i n).2 = n := by
  induction fuel generalizing i n with
  | zero => simp [locate]
  | succ fuel ih =>
    rw [locate]
    split_ifs with hlt
    · simp
    · obtain ⟨hle, hsum⟩ := ih (i + 1) (n - length i)
      have hsucc : (locate length fuel (i + 1) (n - length i)).1 - i =
          (locate length fuel (i + 1) (n - length i)).1 - (i + 1) + 1 := by
        omega
      refine ⟨by omega, ?_⟩
      rw [hsucc, sum_range_succ']
      simp only [Nat.add_assoc, Nat.add_comm 1, Nat.add_zero] at hsum ⊢
      omega

/-! ## Years and months -/

def isLeap (year : ℕ) : Prop := year % 4 = 0 ∧ (year % 100 ≠ 0 ∨ year % 400 = 0)

instance (year : ℕ) : Decidable (isLeap year) := inferInstanceAs (Decidable (_ ∧ _))

def daysInYear (year : ℕ) : ℕ := if isLeap year then 366 else 365

def daysInMonth (year month : ℕ) : ℕ :=
  if month ∈ [4, 6, 9, 11] then 30 else if month = 2 then if isLeap year then 29 else 28 else 31

/-- The days of a year before a month. -/
theorem sum_daysInMonth_le {year month : ℕ} (h : month ≤ 12) :
    ∑ m ∈ range month, daysInMonth year (1 + m) ≤ daysInYear year := by
  have hmono : ∑ m ∈ range month, daysInMonth year (1 + m) ≤ ∑ m ∈ range 12, daysInMonth year (1 + m) :=
    sum_le_sum_of_subset (range_mono h)
  refine hmono.trans ?_
  by_cases hleap : isLeap year
  · simp [sum_range_succ, daysInMonth, daysInYear, hleap]
  · simp [sum_range_succ, daysInMonth, daysInYear, hleap]

/-- A date, and a time of day. -/
structure CivilTime where
  year : ℕ
  month : ℕ
  day : ℕ
  hour : ℕ
  minute : ℕ
  second : ℕ
  deriving DecidableEq, Repr

namespace CivilTime

variable {t : CivilTime}

/-- The date exists, and the time of day. -/
structure Valid (t : CivilTime) : Prop where
  month : 1 ≤ t.month ∧ t.month ≤ 12
  day : 1 ≤ t.day ∧ t.day ≤ daysInMonth t.year t.month
  hour : t.hour < 24
  minute : t.minute < 60
  second : t.second < 60

/-- The days before the date in its year. -/
def dayOfYear (t : CivilTime) : ℕ := ∑ m ∈ range (t.month - 1), daysInMonth t.year (1 + m) + (t.day - 1)

/-- The days before the date. -/
def days (t : CivilTime) : ℕ := ∑ y ∈ range t.year, daysInYear (0 + y) + t.dayOfYear

/-- The seconds before the time. -/
def seconds (t : CivilTime) : ℕ := 86400 * t.days + 3600 * t.hour + 60 * t.minute + t.second

/-- The date and the time of a second. -/
def ofSeconds (n : ℕ) : CivilTime :=
  let (year, dayOfYear) := locate daysInYear (n / 86400 / 365) 0 (n / 86400)
  let (month, day) := locate (daysInMonth year) 12 1 dayOfYear
  { year, month, day := day + 1, hour := n / 3600 % 24, minute := n / 60 % 60, second := n % 60 }

theorem Valid.dayOfYear_lt (h : t.Valid) : t.dayOfYear < daysInYear t.year := by
  have hle : ∑ m ∈ range t.month, daysInMonth t.year (1 + m) ≤ daysInYear t.year :=
    sum_daysInMonth_le h.month.2
  have hmonth : t.month = t.month - 1 + 1 := by have := h.month.1; omega
  rw [hmonth, sum_range_succ, Nat.add_comm 1, ← hmonth] at hle
  have hday := h.day
  rw [dayOfYear]
  omega

/-- A year has `365` days at least. -/
theorem mul_year_le_days (t : CivilTime) : t.year * 365 ≤ t.days := by
  have hsum : t.year * 365 ≤ ∑ y ∈ range t.year, daysInYear (0 + y) := by
    have h := card_nsmul_le_sum (range t.year) (fun y => daysInYear (0 + y)) 365 fun y _ => by
      rw [daysInYear]
      split_ifs <;> omega
    rwa [card_range, smul_eq_mul] at h
  exact hsum.trans (Nat.le_add_right _ _)

theorem locate_year (h : t.Valid) : locate daysInYear (t.days / 365) 0 t.days = (t.year, t.dayOfYear) := by
  have hfuel : t.year ≤ t.days / 365 := by
    have := t.mul_year_le_days
    omega
  have hlt := h.dayOfYear_lt
  rw [← Nat.zero_add t.year] at hlt
  have hlocate := locate_sum hlt hfuel
  rw [Nat.zero_add] at hlocate
  exact hlocate

theorem locate_month (h : t.Valid) :
    locate (daysInMonth t.year) 12 1 t.dayOfYear = (t.month, t.day - 1) := by
  have hday := h.day
  have hmonth : 1 + (t.month - 1) = t.month := by
    have := h.month.1
    omega
  have hlt : t.day - 1 < daysInMonth t.year (1 + (t.month - 1)) := by
    rw [hmonth]
    omega
  have hfuel : t.month - 1 ≤ 12 := by
    have := h.month.2
    omega
  have hlocate := locate_sum hlt hfuel
  rwa [hmonth] at hlocate

/-- The time of a second is found again. -/
theorem ofSeconds_seconds (h : t.Valid) : ofSeconds t.seconds = t := by
  have hhour := h.hour
  have hminute := h.minute
  have hsecond := h.second
  have hday := h.day.1
  have hdays : t.seconds / 86400 = t.days := by
    rw [seconds]
    omega
  rw [ofSeconds, hdays, locate_year h]
  dsimp only
  rw [locate_month h]
  obtain ⟨year, month, day, hour, minute, second⟩ := t
  simp only [seconds, mk.injEq, true_and] at *
  omega

/-- The second of a time that is found is the one it is found for. -/
theorem seconds_ofSeconds (n : ℕ) : (ofSeconds n).seconds = n := by
  obtain ⟨-, hyear⟩ := sum_locate daysInYear (n / 86400 / 365) 0 (n / 86400)
  obtain ⟨-, hmonth⟩ :=
    sum_locate (daysInMonth (locate daysInYear (n / 86400 / 365) 0 (n / 86400)).1) 12 1
      (locate daysInYear (n / 86400 / 365) 0 (n / 86400)).2
  have hdays : (ofSeconds n).days = n / 86400 := by
    rw [days, dayOfYear]
    simp only [ofSeconds, Nat.add_sub_cancel]
    rw [hmonth]
    exact hyear
  rw [seconds, hdays]
  simp only [ofSeconds]
  omega

theorem second_ofSeconds (n : ℕ) : (ofSeconds n).second = n % 60 := rfl

end CivilTime

end Itx
