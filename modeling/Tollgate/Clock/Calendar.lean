import Tollgate.Clock.Moment

/-!
# The calendar

Dates of the Gregorian calendar, extended without limit to both sides, and the
days between them.  A year is counted from March here, so that the leap day
comes last.
-/

namespace Tollgate.Calendar

structure Date where
  year : Int
  month : Nat
  day : Nat
  deriving DecidableEq, Repr

def isLeap (year : Int) : Bool :=
  year % 4 == 0 && (year % 100 != 0 || year % 400 == 0)

def daysInMonth (year : Int) (month : Nat) : Nat :=
  if month = 2 then (if isLeap year then 29 else 28)
  else if month = 4 ∨ month = 6 ∨ month = 9 ∨ month = 11 then 30
  else 31

def Date.isValid (date : Date) : Bool :=
  1 ≤ date.month && date.month ≤ 12 && 1 ≤ date.day &&
    date.day ≤ daysInMonth date.year date.month

def daysBefore (month : Nat) : Nat := (153 * month + 2) / 5

def daysBeforeYear (year : Int) : Int :=
  365 * year + year / 4 - year / 100 + year / 400

def epochOffset : Int := 719468

def daysTo (date : Date) : Int :=
  let year := if date.month ≤ 2 then date.year - 1 else date.year
  daysBeforeYear year + daysBefore ((date.month + 9) % 12) + date.day - 1 - epochOffset

def ofDays (days : Int) : Date :=
  let days := days + epochOffset
  let era := days / 146097
  let dayOfEra := (days % 146097).toNat
  let yearOfEra :=
    (dayOfEra - dayOfEra / 1460 + dayOfEra / 36524 - dayOfEra / 146096) / 365
  let dayOfYear := dayOfEra - (365 * yearOfEra + yearOfEra / 4 - yearOfEra / 100)
  let month := (5 * dayOfYear + 2) / 153
  { year := yearOfEra + era * 400 + (if month < 10 then 0 else 1)
    month := if month < 10 then month + 3 else month - 9
    day := dayOfYear - daysBefore month + 1 }

example : daysTo ⟨2024, 2, 29⟩ = 19782 ∧ ofDays 19782 = ⟨2024, 2, 29⟩ := by decide
example : daysTo ⟨1969, 12, 31⟩ = -1 ∧ ofDays (-1) = ⟨1969, 12, 31⟩ := by decide
example : ofDays (-719468) = ⟨0, 3, 1⟩ ∧ ofDays (-719469) = ⟨0, 2, 29⟩ := by decide

end Tollgate.Calendar
