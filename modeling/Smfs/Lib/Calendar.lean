/-
# The Gregorian calendar

Dates of the proleptic Gregorian calendar from the year 0 on, and the days
that have passed before one, counted year by year and month by month.

Key definitions: `Calendar.Date`, `Calendar.daysBeforeYear`, `Calendar.daysBeforeMonth`, `Calendar.Date.days`.
Key theorems: `Calendar.daysBeforeYear_eq`, `Calendar.Date.days_lt_iff`.
-/
import Smfs.Lib.Decimal

namespace Calendar

/-- Every fourth year has a day more, of the centuries every fourth. -/
def isLeap (y : ℕ) : Bool := (y % 4 = 0 && y % 100 ≠ 0) || y % 400 = 0

def yearLength (y : ℕ) : ℕ := if isLeap y then 366 else 365

/-- The days of a month, of which the first is 1. -/
def monthLength (y : ℕ) : ℕ → ℕ
  | 2 => if isLeap y then 29 else 28
  | 4 | 6 | 9 | 11 => 30
  | _ => 31

/-- The days of the years before a year. -/
def daysBeforeYear : ℕ → ℕ
  | 0 => 0
  | y + 1 => daysBeforeYear y + yearLength y

/-- The days of the first months of a year. -/
def daysOfMonths (y : ℕ) : ℕ → ℕ
  | 0 => 0
  | m + 1 => daysOfMonths y m + monthLength y (m + 1)

/-- A date of the calendar. -/
structure Date where
  year : ℕ
  month : ℕ
  day : ℕ
  month_pos : 1 ≤ month
  month_le : month ≤ 12
  day_pos : 1 ≤ day
  day_le : day ≤ monthLength year month

/-- The days before a date, of its year. -/
def Date.dayOfYear (d : Date) : ℕ := daysOfMonths d.year (d.month - 1) + (d.day - 1)

/-- The days before a date. -/
def Date.days (d : Date) : ℕ := daysBeforeYear d.year + d.dayOfYear

theorem daysOfMonths_mono (y : ℕ) : Monotone (daysOfMonths y) := monotone_nat_of_le_succ fun _ => Nat.le_add_right _ _

theorem daysBeforeYear_mono : Monotone daysBeforeYear := monotone_nat_of_le_succ fun _ => Nat.le_add_right _ _

theorem daysOfMonths_twelve (y : ℕ) : daysOfMonths y 12 = yearLength y := by
  unfold yearLength
  cases h : isLeap y <;> simp [daysOfMonths, monthLength, h]

/-- The leap days of the years before a year. -/
theorem daysBeforeYear_eq (y : ℕ) : daysBeforeYear y + (y + 99) / 100 = 365 * y + (y + 3) / 4 + (y + 399) / 400 := by
  induction y with
  | zero => rfl
  | succ y ih =>
    have h4 : (y + 1 + 3) / 4 = (y + 3) / 4 + if y % 4 = 0 then 1 else 0 := by split_ifs <;> omega
    have h100 : (y + 1 + 99) / 100 = (y + 99) / 100 + if y % 100 = 0 then 1 else 0 := by split_ifs <;> omega
    have h400 : (y + 1 + 399) / 400 = (y + 399) / 400 + if y % 400 = 0 then 1 else 0 := by split_ifs <;> omega
    have hleap : yearLength y + (if y % 100 = 0 then 1 else 0) =
        365 + (if y % 4 = 0 then 1 else 0) + if y % 400 = 0 then 1 else 0 := by
      have hc : y % 400 = 0 → y % 100 = 0 := by omega
      have hq : y % 100 = 0 → y % 4 = 0 := by omega
      unfold yearLength isLeap
      by_cases h1 : y % 4 = 0 <;> by_cases h2 : y % 100 = 0 <;> by_cases h3 : y % 400 = 0 <;> simp_all
    rw [daysBeforeYear, h4, h100, h400]
    omega

namespace Date

theorem day_lt (d : Date) : d.dayOfYear < daysOfMonths d.year (d.month - 1 + 1) := by
  have hm : d.month - 1 + 1 = d.month := Nat.sub_add_cancel d.month_pos
  have hd := d.day_le
  have hpos := d.day_pos
  rw [daysOfMonths, dayOfYear, hm]
  omega

theorem dayOfYear_lt (d : Date) : d.dayOfYear < yearLength d.year := by
  have hm := d.month_le
  calc d.dayOfYear < daysOfMonths d.year (d.month - 1 + 1) := d.day_lt
    _ ≤ daysOfMonths d.year 12 := daysOfMonths_mono _ (by omega)
    _ = yearLength d.year := daysOfMonths_twelve _

theorem dayOfYear_lt_iff {d e : Date} (h : d.year = e.year) :
    d.dayOfYear < e.dayOfYear ↔ d.month < e.month ∨ d.month = e.month ∧ d.day < e.day := by
  have hd := d.day_lt
  have he := e.day_lt
  have hd1 := d.month_pos
  have he1 := e.month_pos
  have hd2 := d.day_pos
  have he2 := e.day_pos
  unfold dayOfYear at hd he ⊢
  rw [← h] at he ⊢
  rw [Decimal.add_lt_add_iff (daysOfMonths_mono d.year) hd he]
  omega

/-- The days before a date grow with its fields. -/
theorem days_lt_iff (d e : Date) : d.days < e.days ↔
    d.year < e.year ∨ d.year = e.year ∧ (d.month < e.month ∨ d.month = e.month ∧ d.day < e.day) := by
  have hd : daysBeforeYear d.year + d.dayOfYear < daysBeforeYear (d.year + 1) := Nat.add_lt_add_left d.dayOfYear_lt _
  have he : daysBeforeYear e.year + e.dayOfYear < daysBeforeYear (e.year + 1) := Nat.add_lt_add_left e.dayOfYear_lt _
  unfold days
  rw [Decimal.add_lt_add_iff daysBeforeYear_mono hd he]
  refine or_congr_right (and_congr_right fun h => ?_)
  exact dayOfYear_lt_iff h

theorem days_inj {d e : Date} : d.days = e.days ↔ d.year = e.year ∧ d.month = e.month ∧ d.day = e.day := by
  have hlt := days_lt_iff d e
  have hgt := days_lt_iff e d
  constructor
  · intro h
    omega
  · rintro ⟨hy, hm, hd⟩
    omega

end Date

end Calendar
