import Mathlib.Algebra.Ring.Int.Defs

/-!
# Std.Time

`timegm`: seconds since the epoch of a broken-down time in the proleptic Gregorian calendar, by
the formula POSIX gives. Day, hour, minute and second may lie outside their usual ranges. The year
they lead to is stored as an `int`, and where it does not fit the call fails with `EOVERFLOW`.
-/

namespace CxxStd

/-- Days from 1970-01-01 to the first of `month` (0 is January) of `year`. -/
def daysToMonth (year : Int) (month : Nat) : Int :=
  -- a year that starts in March, so that the leap day comes last
  let y := if month < 2 then year - 1 else year
  let m : Int := (month + 10) % 12
  365 * y + y / 4 - y / 100 + y / 400 + (153 * m + 2) / 5 - 719468

/-- Seconds since the epoch. -/
def epochSeconds (year : Int) (month : Nat) (day hour minute second : Int) : Int :=
  (daysToMonth year month + (day - 1)) * 86400 + hour * 3600 + minute * 60 + second

/-- The first second of the years that an `int` can count from 1900. -/
def kTimeBegin : Int := epochSeconds (1900 - 2 ^ 31) 0 1 0 0 0

/-- The first second behind them. -/
def kTimeEnd : Int := epochSeconds (1900 + 2 ^ 31) 0 1 0 0 0

/-- The year is counted from 1900. A time in a year that no `int` can count is an error, -1. -/
def timegm (tmYear : Int) (month : Nat) (day hour minute second : Int) : Int :=
  let t := epochSeconds (tmYear + 1900) month day hour minute second
  if kTimeBegin ≤ t ∧ t < kTimeEnd then t else -1

theorem timegm_of_range {tmYear day hour minute second : Int} {month : Nat}
    (hbegin : kTimeBegin ≤ epochSeconds (tmYear + 1900) month day hour minute second)
    (hend : epochSeconds (tmYear + 1900) month day hour minute second < kTimeEnd) :
    timegm tmYear month day hour minute second =
      epochSeconds (tmYear + 1900) month day hour minute second := if_pos ⟨hbegin, hend⟩

theorem timegm_of_ne {tmYear day hour minute second : Int} {month : Nat}
    (h : timegm tmYear month day hour minute second ≠ -1) :
    kTimeBegin ≤ timegm tmYear month day hour minute second ∧
      timegm tmYear month day hour minute second < kTimeEnd ∧
      timegm tmYear month day hour minute second =
        epochSeconds (tmYear + 1900) month day hour minute second := by
  unfold timegm at *
  dsimp only at *
  split at h
  · rename_i hrange
    rw [if_pos hrange]
    exact ⟨hrange.1, hrange.2, rfl⟩
  · exact absurd rfl h

example : timegm 96 6 17 2 44 25 = 837571465 := by decide
example : timegm 124 2 1 0 0 0 = 1709251200 := by decide
example : timegm 2147481747 0 2147483647 0 0 0 = -1 := by decide

end CxxStd
