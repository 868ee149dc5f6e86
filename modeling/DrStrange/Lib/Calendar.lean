/-
**The Gregorian calendar, by counting.**

The day number of a date counts the days of the years and of the months before it, from 1970-01-01 on
and backwards before it. A function of years that starts at nothing in 1970 and grows by each year's
length is that count (`eq_yearStart`), which is how a closed formula is compared with it.
-/

import Mathlib

namespace DrStrange.Lib

variable {year month day : ℤ}

def isLeap (year : ℤ) : Bool := year % 4 = 0 && (year % 100 ≠ 0 || year % 400 = 0)

def yearLength (year : ℤ) : ℤ := if isLeap year then 366 else 365

def monthLength (year month : ℤ) : ℤ :=
  if month = 2 then if isLeap year then 29 else 28
  else if month = 4 ∨ month = 6 ∨ month = 9 ∨ month = 11 then 30 else 31

/-- The days from the start of 1970 to that of a year, negative before 1970. -/
def yearStart (year : ℤ) : ℤ :=
  ∑ i ∈ Finset.range (year - 1970).toNat, yearLength (1970 + i) -
    ∑ i ∈ Finset.range (1970 - year).toNat, yearLength (1969 - i)

/-- The days from the start of a year to that of a month. -/
def monthStart (year month : ℤ) : ℤ :=
  ∑ i ∈ Finset.range (month - 1).toNat, monthLength year (1 + i)

/-- The days from 1970-01-01 to a date. -/
def dayNumber (year month day : ℤ) : ℤ := yearStart year + monthStart year month + (day - 1)

theorem yearStart_succ : yearStart (year + 1) = yearStart year + yearLength year := by
  unfold yearStart
  rcases lt_or_ge year 1970 with before | after
  · have none : (year + 1 - 1970).toNat = 0 := by omega
    have none' : (year - 1970).toNat = 0 := by omega
    have one : (1970 - year).toNat = (1970 - (year + 1)).toNat + 1 := by omega
    have last : (1969 - ((1970 - (year + 1)).toNat : ℤ)) = year := by omega
    rw [none, none', one, Finset.sum_range_succ, last]
    omega
  · have none : (1970 - (year + 1)).toNat = 0 := by omega
    have none' : (1970 - year).toNat = 0 := by omega
    have one : (year + 1 - 1970).toNat = (year - 1970).toNat + 1 := by omega
    have last : (1970 + ((year - 1970).toNat : ℤ)) = year := by omega
    rw [none, none', one, Finset.sum_range_succ, last]
    omega

/-- **What grows by the lengths of the years** from nothing in 1970 is their count. -/
theorem eq_yearStart {count : ℤ → ℤ} (first : count 1970 = 0)
    (step : ∀ year, count (year + 1) = count year + yearLength year) (year : ℤ) :
    count year = yearStart year := by
  refine Int.inductionOn' year 1970 ?_ (fun year _ ih => ?_) fun year _ ih => ?_
  · rw [first]
    rfl
  · rw [step, yearStart_succ, ih]
  · have up := step (year - 1)
    have up' := @yearStart_succ (year - 1)
    rw [sub_add_cancel] at up up'
    omega

theorem monthLength_le : monthLength year month ≤ 31 := by
  unfold monthLength
  split_ifs <;> decide

end DrStrange.Lib
