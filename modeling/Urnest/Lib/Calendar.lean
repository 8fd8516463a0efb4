import Mathlib.Data.Nat.Find
import Mathlib.Tactic.Linarith

/-!
# The calendar

Dates of the Gregorian calendar, for years before its introduction and negative years
too. Days are numbered, and the first day of the year 1 is day 1. `Date.toOrdinal` gives
the number of a date and `ofOrdinal` the date of a number; that the first undoes the
second (`toOrdinal_ofOrdinal`) is all that is needed to recover a day from its date.
-/

namespace Lib.Calendar

structure Date where
  year : Int
  month : Nat
  day : Nat
  deriving DecidableEq, Repr

def isLeap (year : Int) : Bool := year % 4 = 0 ∧ (year % 100 ≠ 0 ∨ year % 400 = 0)

def daysBeforeYear (year : Int) : Int :=
  (year - 1) * 365 + (year - 1) / 4 - (year - 1) / 100 + (year - 1) / 400

/-- The days of a year before a month, counted from 1. -/
def daysBeforeMonth (leap : Bool) (month : Nat) : Nat :=
  [0, 0, 31, 59, 90, 120, 151, 181, 212, 243, 273, 304, 334].getD month 0
    + if month > 2 ∧ leap then 1 else 0

def Date.toOrdinal (d : Date) : Int :=
  daysBeforeYear d.year + daysBeforeMonth (isLeap d.year) d.month + d.day

/-- The year of a day, by the cycles of 400, 100 and 4 years. The last year of 4 and the
last century of 400 may be a day longer than the others. -/
def yearOf (ordinal : Int) : Int :=
  let n := ordinal - 1
  let n400 := n / 146097
  let n100 := min 3 (n % 146097 / 36524)
  let n4 := (n % 146097 - 36524 * n100) / 1461
  let n1 := min 3 ((n % 146097 - 36524 * n100) % 1461 / 365)
  400 * n400 + 100 * n100 + 4 * n4 + n1 + 1

def dayOfYear (ordinal : Int) : Nat := (ordinal - 1 - daysBeforeYear (yearOf ordinal)).toNat

/-- The last month that does not begin after a day. -/
def monthOf (leap : Bool) (dayOfYear : Nat) : Nat :=
  Nat.findGreatest (fun month => daysBeforeMonth leap month ≤ dayOfYear) 12

def ofOrdinal (ordinal : Int) : Date :=
  let leap := isLeap (yearOf ordinal)
  let month := monthOf leap (dayOfYear ordinal)
  ⟨yearOf ordinal, month, dayOfYear ordinal - daysBeforeMonth leap month + 1⟩

/-- The year of a day begins no later than the day. -/
theorem daysBeforeYear_yearOf (ordinal : Int) : daysBeforeYear (yearOf ordinal) ≤ ordinal - 1 := by
  unfold daysBeforeYear yearOf
  generalize ordinal - 1 = n
  dsimp only
  rw [add_sub_cancel_right]
  set n100 := min 3 (n % 146097 / 36524) with hn100
  set n4 := (n % 146097 - 36524 * n100) / 1461 with hn4
  set n1 := min 3 ((n % 146097 - 36524 * n100) % 1461 / 365) with hn1
  have h100 : 0 ≤ n100 ∧ n100 ≤ 3 ∧ 36524 * n100 ≤ n % 146097 := by omega
  have h4 : 0 ≤ n4 ∧ n4 ≤ 24 := by omega
  have h1 : 0 ≤ n1 ∧ n1 ≤ 3 := by omega
  have hby4 : (400 * (n / 146097) + 100 * n100 + 4 * n4 + n1) / 4
      = 100 * (n / 146097) + 25 * n100 + n4 := by omega
  have hby100 : (400 * (n / 146097) + 100 * n100 + 4 * n4 + n1) / 100
      = 4 * (n / 146097) + n100 := by omega
  have hby400 : (400 * (n / 146097) + 100 * n100 + 4 * n4 + n1) / 400 = n / 146097 := by omega
  rw [hby4, hby100, hby400]
  omega

/-- There have been 400 years for every 146097 days. -/
theorem lt_yearOf (ordinal : Int) : 400 * ((ordinal - 1) / 146097) < yearOf ordinal := by
  unfold yearOf
  dsimp only
  omega

theorem cast_dayOfYear (ordinal : Int) :
    (dayOfYear ordinal : Int) = ordinal - 1 - daysBeforeYear (yearOf ordinal) :=
  Int.toNat_of_nonneg (Int.sub_nonneg_of_le (daysBeforeYear_yearOf ordinal))

theorem daysBeforeMonth_monthOf (leap : Bool) (n : Nat) :
    daysBeforeMonth leap (monthOf leap n) ≤ n :=
  Nat.findGreatest_spec (P := fun month => daysBeforeMonth leap month ≤ n) (Nat.zero_le 12)
    (Nat.zero_le n)

theorem one_le_monthOf (leap : Bool) (n : Nat) : 1 ≤ monthOf leap n :=
  Nat.le_findGreatest (P := fun month => daysBeforeMonth leap month ≤ n) (by decide)
    (Nat.zero_le n)

theorem monthOf_le (leap : Bool) (n : Nat) : monthOf leap n ≤ 12 := Nat.findGreatest_le 12

/-- Reading the number of a date undoes writing the date of a number. -/
theorem toOrdinal_ofOrdinal (ordinal : Int) : (ofOrdinal ordinal).toOrdinal = ordinal := by
  have hday := cast_dayOfYear ordinal
  have hmonth := daysBeforeMonth_monthOf (isLeap (yearOf ordinal)) (dayOfYear ordinal)
  simp only [ofOrdinal, Date.toOrdinal]
  omega

end Lib.Calendar
