import Imap2Pst.Std.Time
import Mathlib.Tactic.IntervalCases

/-!
# Std.Calendar

The Gregorian calendar counted off year by year and month by month, and that `timegm` agrees.
-/

namespace CxxStd

def isLeap (year : Nat) : Bool := year % 4 = 0 && (year % 100 ≠ 0 || year % 400 = 0)

def daysInYear (year : Nat) : Nat := if isLeap year then 366 else 365

/-- The length of a month; 0 is January. -/
def daysInMonth (year : Nat) : Nat → Nat
  | 1 => if isLeap year then 29 else 28
  | 3 => 30
  | 5 => 30
  | 8 => 30
  | 10 => 30
  | _ => 31

theorem daysInMonth_le (year month : Nat) : daysInMonth year month ≤ 31 := by
  unfold daysInMonth
  split <;> (try split) <;> decide

/-- The days of the years from 1970 on, up to `year`. -/
def daysOfYears (year : Nat) : Nat := ((List.range' 1970 (year - 1970)).map daysInYear).sum

/-- The days of the months of `year` before `month`. -/
def daysOfMonths (year month : Nat) : Nat := ((List.range month).map (daysInMonth year)).sum

/-- Seconds from 1970-01-01 00:00:00 to a point in time of 1970 or later. -/
def unixSecond (year month day hour minute second : Nat) : Nat :=
  (daysOfYears year + daysOfMonths year month + (day - 1)) * 86400 + hour * 3600 + minute * 60 +
    second

theorem daysOfYears_succ {year : Nat} (h : 1970 ≤ year) :
    daysOfYears (year + 1) = daysOfYears year + daysInYear year := by
  obtain ⟨k, rfl⟩ := Nat.exists_eq_add_of_le h
  have hlen : 1970 + k + 1 - 1970 = k + 1 := by rw [Nat.add_assoc, Nat.add_sub_cancel_left]
  have hlen' : 1970 + k - 1970 = k := Nat.add_sub_cancel_left 1970 k
  rw [daysOfYears, daysOfYears, hlen, hlen', List.range'_concat, List.map_append, List.sum_append]
  simp

theorem daysOfMonths_succ (year month : Nat) :
    daysOfMonths year (month + 1) = daysOfMonths year month + daysInMonth year month := by
  rw [daysOfMonths, List.range_succ, List.map_append, List.sum_append, List.map_singleton,
    List.sum_singleton]
  rfl

theorem isLeap_iff {year : Nat} :
    isLeap year = true ↔ year % 4 = 0 ∧ (year % 100 ≠ 0 ∨ year % 400 = 0) := by
  simp [isLeap]

theorem daysToMonth_year_succ (year : Nat) :
    daysToMonth (year + 1 : Nat) 0 = daysToMonth year 0 + daysInYear year := by
  unfold daysToMonth daysInYear
  simp only [Nat.zero_lt_two, if_true]
  split <;> rename_i h <;> rw [isLeap_iff] at h <;> omega

theorem daysToMonth_january {year : Nat} (h : 1970 ≤ year) :
    daysToMonth year 0 = daysOfYears year := by
  induction year, h using Nat.le_induction with
  | base => rfl
  | succ year h ih => rw [daysToMonth_year_succ, ih, daysOfYears_succ h, Nat.cast_add]

theorem daysToMonth_month_succ (year : Nat) {month : Nat} (h : month < 11) :
    daysToMonth year (month + 1) = daysToMonth year month + daysInMonth year month := by
  by_cases hfeb : month = 1
  · subst hfeb
    have hleap := @isLeap_iff year
    simp only [daysToMonth, daysInMonth, Nat.reduceAdd, Nat.reduceLT, if_false, if_true]
    split <;> rename_i h <;> rw [isLeap_iff] at h <;> omega
  · unfold daysToMonth
    interval_cases month <;> simp [daysInMonth] at * <;> omega

theorem daysToMonth_eq {year month : Nat} (hyear : 1970 ≤ year) (hmonth : month < 12) :
    daysToMonth year month = daysOfYears year + daysOfMonths year month := by
  induction month with
  | zero =>
    have hnone : daysOfMonths year 0 = 0 := rfl
    rw [daysToMonth_january hyear, hnone, Nat.cast_zero, Int.add_zero]
  | succ month ih =>
    rw [daysToMonth_month_succ year (by omega), ih (by omega), daysOfMonths_succ, Nat.cast_add,
      Int.add_assoc]

/-- `epochSeconds` counts the seconds of the calendar. -/
theorem epochSeconds_eq {year month day hour minute second : Nat} (hyear : 1970 ≤ year)
    (hmonth : month < 12) (hday : 1 ≤ day) :
    epochSeconds year month day hour minute second =
      unixSecond year month day hour minute second := by
  rw [epochSeconds, daysToMonth_eq hyear hmonth, unixSecond]
  push_cast [hday]
  rfl

/-- `timegm` counts them too, as far as four digits of the year go. -/
theorem timegm_eq {year month day hour minute second : Nat} (hyear : 1970 ≤ year ∧ year ≤ 9999)
    (hmonth : month < 12) (hday : 1 ≤ day ∧ day ≤ 31) (hhour : hour < 24) (hminute : minute < 60)
    (hsecond : second ≤ 60) :
    timegm ((year : Int) - 1900) month day hour minute second =
      unixSecond year month day hour minute second := by
  have hseconds := @epochSeconds_eq year month day hour minute second hyear.1 hmonth hday.1
  have hend : epochSeconds year month day hour minute second < 10000 * 366 * 86400 := by
    unfold epochSeconds daysToMonth
    split <;> dsimp only <;> omega
  have hbounds : kTimeBegin ≤ 0 ∧ 10000 * 366 * 86400 ≤ kTimeEnd := by decide
  have hback : (year : Int) - 1900 + 1900 = year := Int.sub_add_cancel _ _
  rw [timegm_of_range (by rw [hback]; omega) (by rw [hback]; omega), hback, hseconds]

/-- A year has passed. -/
theorem unixSecond_ge {year : Nat} (h : 1971 ≤ year) (month day hour minute second : Nat) :
    365 * 86400 ≤ unixSecond year month day hour minute second := by
  obtain ⟨y, rfl⟩ : ∃ y, year = y + 1 := ⟨year - 1, by omega⟩
  have hyears : 365 ≤ daysOfYears (y + 1) := by
    rw [daysOfYears_succ (by omega), daysInYear]
    split <;> omega
  unfold unixSecond
  omega

theorem unixSecond_pos {year : Nat} (h : 1971 ≤ year) (month day hour minute second : Nat) :
    0 < unixSecond year month day hour minute second :=
  Nat.lt_of_lt_of_le (by decide) (unixSecond_ge h month day hour minute second)

end CxxStd
