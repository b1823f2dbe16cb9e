import Mathlib

/-!
# The Gregorian calendar from 1970 on

Days are counted by adding up the lengths of the years and months before;
`secondsSinceEpoch` is strictly increasing in the lexicographic order of
dates and times.
-/

namespace VarahaCache.Calendar

open Finset

def IsLeap (year : ℕ) : Prop := (year % 4 = 0 ∧ year % 100 ≠ 0) ∨ year % 400 = 0

instance (year : ℕ) : Decidable (IsLeap year) := inferInstanceAs (Decidable (_ ∨ _))

def yearLength (year : ℕ) : ℕ := if IsLeap year then 366 else 365

/-- The days of a month, the months counted from 1. -/
def monthLength (year : ℕ) : ℕ → ℕ
  | 2 => if IsLeap year then 29 else 28
  | 4 | 6 | 9 | 11 => 30
  | _ => 31

theorem monthLength_le (year month : ℕ) : monthLength year month ≤ 31 := by
  unfold monthLength
  split
  · split <;> omega
  all_goals omega

def daysBeforeYear (year : ℕ) : ℕ := ∑ y ∈ Ico 1970 year, yearLength y

def daysBeforeMonth (year month : ℕ) : ℕ := ∑ m ∈ Ico 1 month, monthLength year m

structure DateTime where
  year : ℕ
  month : ℕ
  day : ℕ
  hour : ℕ
  min : ℕ
  sec : ℕ
  from1970 : 1970 ≤ year
  month_pos : 1 ≤ month
  month_le : month ≤ 12
  day_pos : 1 ≤ day
  day_le : day ≤ monthLength year month
  hour_lt : hour < 24
  min_lt : min < 60
  sec_lt : sec < 60

namespace DateTime

/-- The days since the first of January 1970. -/
def dayNumber (d : DateTime) : ℕ :=
  daysBeforeYear d.year + daysBeforeMonth d.year d.month + (d.day - 1)

def secondOfDay (d : DateTime) : ℕ := d.hour * 3600 + d.min * 60 + d.sec

def secondsSinceEpoch (d : DateTime) : ℕ := d.dayNumber * 86400 + d.secondOfDay

/-- The order of dates: year, month, day, then the time of day. -/
def Before (d e : DateTime) : Prop :=
  d.year < e.year ∨ d.year = e.year ∧ (d.month < e.month ∨ d.month = e.month ∧
    (d.day < e.day ∨ d.day = e.day ∧ (d.hour < e.hour ∨ d.hour = e.hour ∧
      (d.min < e.min ∨ d.min = e.min ∧ d.sec < e.sec))))

end DateTime

theorem daysBeforeYear_succ {year : ℕ} (h : 1970 ≤ year) :
    daysBeforeYear (year + 1) = daysBeforeYear year + yearLength year :=
  sum_Ico_succ_top h _

theorem daysBeforeYear_mono : Monotone daysBeforeYear := fun _ _ h =>
  sum_le_sum_of_subset (Ico_subset_Ico_right h)

theorem daysBeforeMonth_succ (year : ℕ) {month : ℕ} (h : 1 ≤ month) :
    daysBeforeMonth year (month + 1) = daysBeforeMonth year month + monthLength year month :=
  sum_Ico_succ_top h _

theorem daysBeforeMonth_mono (year : ℕ) : Monotone (daysBeforeMonth year) := fun _ _ h =>
  sum_le_sum_of_subset (Ico_subset_Ico_right h)

theorem daysBeforeMonth_thirteen (year : ℕ) : daysBeforeMonth year 13 = yearLength year := by
  by_cases h : IsLeap year <;>
    simp [daysBeforeMonth, yearLength, sum_Ico_succ_top, monthLength, h]

namespace DateTime

variable (d : DateTime)

theorem day_lt : d.day - 1 < monthLength d.year d.month := by
  have := d.day_pos
  have := d.day_le
  omega

theorem dayOfYear_lt {month : ℕ} (h : d.month < month) :
    daysBeforeMonth d.year d.month + (d.day - 1) < daysBeforeMonth d.year month := by
  have hsucc := daysBeforeMonth_succ d.year d.month_pos
  have hmono := daysBeforeMonth_mono d.year (show d.month + 1 ≤ month from h)
  have := d.day_lt
  omega

theorem dayNumber_lt {year : ℕ} (h : d.year < year) : d.dayNumber < daysBeforeYear year := by
  have hday := d.dayOfYear_lt (show d.month < 13 from Nat.lt_succ_of_le d.month_le)
  have hsucc := daysBeforeYear_succ d.from1970
  have hmono := daysBeforeYear_mono (show d.year + 1 ≤ year from h)
  rw [daysBeforeMonth_thirteen] at hday
  unfold dayNumber
  omega

theorem secondOfDay_lt : d.secondOfDay < 86400 := by
  have := d.hour_lt
  have := d.min_lt
  have := d.sec_lt
  unfold secondOfDay
  omega

theorem secondsSinceEpoch_lt_of_dayNumber {d e : DateTime} (h : d.dayNumber < e.dayNumber) :
    d.secondsSinceEpoch < e.secondsSinceEpoch := by
  have := d.secondOfDay_lt
  unfold secondsSinceEpoch
  omega

theorem Before.lt {d e : DateTime} (h : d.Before e) :
    d.secondsSinceEpoch < e.secondsSinceEpoch := by
  rcases h with hyear | ⟨hyear, hmonth | ⟨hmonth, hday | ⟨hday, htime⟩⟩⟩
  · refine secondsSinceEpoch_lt_of_dayNumber ((d.dayNumber_lt hyear).trans_le ?_)
    unfold dayNumber
    omega
  · refine secondsSinceEpoch_lt_of_dayNumber ?_
    have := d.dayOfYear_lt hmonth
    unfold dayNumber
    rw [← hyear]
    omega
  · refine secondsSinceEpoch_lt_of_dayNumber ?_
    have := d.day_pos
    unfold dayNumber
    rw [← hyear, ← hmonth]
    omega
  · have hsame : d.dayNumber = e.dayNumber := by
      unfold dayNumber
      rw [hyear, hmonth, hday]
    have := d.min_lt
    have := d.sec_lt
    have := e.min_lt
    have := e.sec_lt
    unfold secondsSinceEpoch secondOfDay
    rw [hsame]
    omega

theorem before_or_eq (d e : DateTime) :
    d.Before e ∨ e.Before d ∨ d.secondsSinceEpoch = e.secondsSinceEpoch := by
  by_cases hsame : d.year = e.year ∧ d.month = e.month ∧ d.day = e.day ∧ d.hour = e.hour ∧
      d.min = e.min ∧ d.sec = e.sec
  · obtain ⟨hyear, hmonth, hday, hhour, hmin, hsec⟩ := hsame
    right
    right
    simp only [secondsSinceEpoch, dayNumber, secondOfDay, hyear, hmonth, hday, hhour, hmin, hsec]
  · unfold Before
    omega

theorem secondsSinceEpoch_lt_iff {d e : DateTime} :
    d.secondsSinceEpoch < e.secondsSinceEpoch ↔ d.Before e := by
  constructor
  · intro h
    rcases before_or_eq d e with hb | hb | heq
    · exact hb
    · exact absurd hb.lt (by omega)
    · omega
  · exact Before.lt

end DateTime

end VarahaCache.Calendar
